import FlowIR.Proofs.Build.Linked
import FlowIR.Proofs.Emit.Function
import FlowIR.Proofs.Emit.Traced
import FlowIR.Proofs.Machine.Cells

/-!
Addresses of labels in whole functions.

While a function is set up and its code is emitted, the pending placeholders are those of the labels
whose address was taken and that have no place, and every instruction that uses one is recorded with
it (`Builder.Accounts`). So none is left in the end, and every address that code uses is a target of every
indirect branch. The record has one gap: returning the mere address of a label, where the result has to
be loaded through memory.
-/

namespace FlowIR

open Build Machine Session

variable {strict : Prop} {b : Builder}

/-- The placeholders of a function are accounted for, and giving a label its place replaces its
placeholder wherever it is used. -/
structure Builder.Accounts (b : Builder) : Prop where
  pending : ∀ p, b.labels.IsPending p ↔
    ∃ l, b.labels.mark l = some p ∧ b.labels.wanted l ∧ ¬ b.labels.settled l
  marked : ∀ l, b.labels.wanted l → ¬ b.labels.settled l → ∃ p, b.labels.mark l = some p
  recorded : ∀ i op p, b.graph.op? i = some op → .placeholder p ∈ op.operands → b.labels.UsedBy p i
  defined : ∀ l span p x after, defineLabel l span b = .ok x after → b.labels.mark l = some p →
    after.labels.home l = some x ∧ ∀ i, after.graph.op? i = (b.graph.op? i).map (Op.resolve p x)
  closed : ∀ l p after, closeLabel l b = .ok () after → b.labels.mark l = some p →
    ∃ x, after.labels.home l = some x ∧
      ∀ i op, b.graph.op? i = some op → after.graph.op? i = some (op.resolve p x)

theorem Builder.Tracked.accounts (h : b.Tracked True) : b.Accounts where
  pending := fun p => by
    constructor
    · intro waits
      obtain ⟨l, marked⟩ := h.paired.owner p waits
      exact ⟨l, marked, h.paired.wanted l p marked, h.exact.unsettled l p marked⟩
    · rintro ⟨l, marked, -⟩
      exact h.paired.pending l p marked
  marked := fun l wanted loose => Option.isSome_iff_exists.mp (h.exact.marked l wanted loose)
  recorded := h.recorded trivial
  defined := fun l span p x after run marked => by
    obtain ⟨-, -, here, replaced⟩ := Ensures.of_ok (defineLabel_notes h l span) run
    exact ⟨here, replaced trivial p marked⟩
  closed := fun l p after run marked => by
    obtain ⟨-, -, x, here, replaced⟩ := Ensures.of_ok (closeLabel_ties h.toTied l) run
    exact ⟨x, here, replaced trivial p marked⟩

namespace Emit

def behindProlog (body : Stmt) : BuildM Unit := do
  placeProlog
  fromEntry (stmt body)

/-- Emitting the statement at the entry goes along its steps. -/
theorem stmt_walks (fit : b.Fit) (h : b.Tracked strict) (body : Stmt)
    (allowed : strict → b.convention.loadsResult = true → body.returnsAddress = false) :
    Ensures (stmt body) { builder := b, current := b.entry } (fun _ after => ∃ t,
      b.trail.along b.scope (body.events false) = some t ∧ after.builder.Fit ∧ after.builder.Tracked strict ∧
      (b.footing.on t).Below after.builder.footing ∧ after.builder.prologPlaced = b.prologPlaced)
      fun e after => e.Leaves (after.builder.Tracked strict) ∧
        b.trail.along b.scope (body.events false) = none := by
  refine (walks_code (stmt_code body id) b.scope _ ⟨⟨fit, h, fit.entry, by rintro _ ⟨⟩⟩, rfl, rfl, by rintro _ ⟨⟩,
    fun s _ => allowed s, by rintro _ ⟨⟩⟩).imp ?_
  rintro - after ⟨t, run, treads, -⟩
  exact ⟨t, run, treads.fit.builder, treads.fit.tracked, treads.below, treads.follows.placed⟩

section Whole

variable {s : Session} {name : String} {signature : Signature} {b₀ b : Builder} {calls : List Build.Call}

/-- The prolog and the body keep track of every use of a label. -/
theorem behindProlog_tracks (begun : s.begin name signature = .ok b₀) (prepared : prepare calls b₀ = .ok b)
    (body : Stmt) (allowed : strict → b.convention.loadsResult = true → body.returnsAddress = false) :
    Ensures (behindProlog body) b (fun _ after => after.Tracked strict ∧ after.prologPlaced = true)
      fun e after => e.Leaves (after.Tracked strict) := by
  have start := begin_apportioned begun
  obtain ⟨issued, kept⟩ := prepare_apportions start prepared
  have sound := prepare_sound (begin_sound begun) start prepared
  have tracked : b.Tracked strict := prepare_tracked (begin_tracked begun) start prepared
  refine Ensures.bind (((placeProlog_notes tracked kept).and ((placeProlog_sound sound kept).and
    (placeProlog_stores kept))).mono (fun _ _ h => h) fun _ _ he => he.1) ?_
  rintro - mid ⟨⟨tracked, convention, placed⟩, ⟨sound, -⟩, ⟨-, apportioned⟩, -⟩
  refine ensures_fromEntry.mpr ((stmt_walks (apportioned.fit sound) tracked body fun s loads => allowed s ?_).mono ?_
    fun _ _ he => he.1)
  · rwa [← convention]
  · rintro - after ⟨-, -, -, tracked, -, same⟩
    exact ⟨tracked, same.trans placed⟩

/-- Completing a function links the addresses of its labels, or there is an error that is not about a
placeholder. -/
theorem function_links (begun : s.begin name signature = .ok b₀) (prepared : prepare calls b₀ = .ok b)
    (body : Stmt) (allowed : strict → b.convention.loadsResult = true → body.returnsAddress = false) :
    Ensures (function body) b (fun g after => g.Linked strict after.labels.Lands)
      fun e _ => e.NoPlaceholder strict := by
  have split : function body = behindProlog body >>= fun _ => finish := by
    unfold function behindProlog
    rw [bind_assoc]
  rw [split]
  exact Ensures.bind ((behindProlog_tracks begun prepared body allowed).mono (fun _ _ q => q)
    fun _ _ he => he.noPlaceholder) fun _ mid ⟨tracked, placed⟩ => finish_links tracked placed

/-- No placeholder outlives the construction of a function. Before the code of the body, and where that code
ends or stops with an error, the placeholders are accounted for; in the end no instruction uses one, and
the function is not refused for one. All this needs that a result that has to be loaded through memory is
not the mere address of a label. -/
theorem placeholders_accounted (begun : s.begin name signature = .ok b₀)
    (prepared : prepare calls b₀ = .ok b) (body : Stmt) :
    b.Accounts ∧ (∀ e last, function body b = .error (.error e) last → ∀ n, e.cause ≠ .danglingLabelAddress n) ∧
    (b.convention.loadsResult = false ∨ body.returnsAddress = false →
      (∀ mid, behindProlog body b = .ok () mid → mid.Accounts) ∧
      (∀ e mid, behindProlog body b = .error (.error e) mid → mid.Accounts) ∧
      (∀ g last, function body b = .ok g last →
        ∀ i op, g.op? i = some op → ∀ p, .placeholder p ∉ op.operands) ∧
      ∀ e last, function body b = .error (.error e) last →
        ∀ f x, e.cause ≠ .verify (.unresolvedPlaceholder f x)) := by
  have tracked : b.Tracked True :=
    prepare_tracked (begin_tracked begun) (begin_apportioned begun) prepared
  refine ⟨tracked.accounts, fun e last run n => ?_, fun fine => ?_⟩
  · exact (Ensures.of_error (function_links begun prepared body False.elim) run).1 n
  have allowed : True → b.convention.loadsResult = true → body.returnsAddress = false := fun _ loads =>
    fine.resolve_left (by simp [loads])
  have emits := behindProlog_tracks begun prepared body allowed
  have links := function_links begun prepared body allowed
  refine ⟨fun mid run => ?_, fun e mid run => ?_, fun g last run i op hop p mem => ?_, fun e last run => ?_⟩
  · exact (Ensures.of_ok emits run).1.accounts
  · exact (Ensures.of_error emits run).2.2.accounts
  · cases (Ensures.of_ok links run).whole trivial i op hop (.placeholder p) mem
  · exact (Ensures.of_error links run).2 trivial

/-- A label whose address is taken by a call, returned through a cleanup and jumped to before it has its
place. -/
theorem placeholders_accounted_forward : ∃ b₀ b g last, begin {} "f" { params := [], result := .ptr .void } = .ok b₀ ∧
    prepare [.newLabel {}, .addressOfLabel ⟨0⟩ {}] b₀ = .ok b ∧ b.Accounts ∧
    function (.attempt (.block [.ite (.call { ty := .bool } "p" [])
      (.ret {} [.labelAddress { ty := .ptr .void } ⟨0⟩]) (.gotoAddress (.labelAddress { ty := .ptr .void } ⟨0⟩)),
      .label {} ⟨0⟩]) none (some (.eval (.call { ty := .void } "h" [])))) b = .ok g last ∧
    ∀ i op, g.op? i = some op → ∀ p, .placeholder p ∉ op.operands := by
  have ready : completes {} "f" { params := [], result := .ptr .void } [.newLabel {}, .addressOfLabel ⟨0⟩ {}]
      (.attempt (.block [.ite (.call { ty := .bool } "p" [])
        (.ret {} [.labelAddress { ty := .ptr .void } ⟨0⟩]) (.gotoAddress (.labelAddress { ty := .ptr .void } ⟨0⟩)),
        .label {} ⟨0⟩]) none (some (.eval (.call { ty := .void } "h" [])))) = true := by decide +kernel
  obtain ⟨b₀, b, g, last, begun, prepared, emitted, accounts, -, rest⟩ := exists_of_completes ready
    fun _ _ _ _ begun prepared _ _ => placeholders_accounted begun prepared _
  exact ⟨b₀, b, g, last, begun, prepared, accounts, emitted, (rest (.inr rfl)).2.2.1 g last emitted⟩

/-- Whether a function can be set up by calls, and is refused for the cause when it is completed. -/
def refuses (s : Session) (name : String) (signature : Signature) (calls : List Build.Call) (body : Stmt)
    (cause : Cause) : Bool :=
  match s.begin name signature with
  | .error _ => false
  | .ok b₀ =>
    match prepare calls b₀ with
    | .error _ => false
    | .ok b =>
      match function body b with
      | .error (.error e) _ => e.cause = cause
      | _ => false

theorem exists_of_refuses {body : Stmt} {cause : Cause} (h : refuses s name signature calls body cause = true) :
    ∃ b₀ b e last, s.begin name signature = .ok b₀ ∧ prepare calls b₀ = .ok b ∧
      function body b = .error (.error e) last ∧ e.cause = cause := by
  unfold refuses at h
  split at h
  · cases h
  · next b₀ begun =>
    split at h
    · cases h
    · next b prepared =>
      split at h
      · next e last failed => exact ⟨b₀, b, e, last, begun, prepared, failed, of_decide_eq_true h⟩
      · cases h

/-- With words of four bytes a pointer is returned as two of them, which are loaded from where it points
to. That use of the address of a label is not recorded, so it is still a placeholder in the end. -/
theorem returned_address_unresolved : ∃ b₀ b e last,
    begin { target := { wordSize := 4 } } "f" { params := [], result := .ptr .void } = .ok b₀ ∧
    prepare [.newLabel {}] b₀ = .ok b ∧
    function (.block [.ret {} [.labelAddress { ty := .ptr .void } ⟨0⟩], .label {} ⟨0⟩]) b =
      .error (.error e) last ∧
    e.cause = .verify (.unresolvedPlaceholder "f" "entry") :=
  exists_of_refuses (by decide +kernel)

/-! ### Indirect branches -/

/-- A branch to the address of a block that is among its targets goes to the block. -/
theorem step_indirectBr {g : Graph} {args : Array Bytes} {m : Machine} {j : InstrId} {addr : Operand}
    {dests : List BlockId} {y : BlockId} (hop : g.op? j = some (.indirectBr addr dests)) (listed : y ∈ dests)
    (narrow : y.index < 0x100000000) (holds : m.eval args addr = m.eval args (.blockAddr y)) :
    step g args m j = .ok (.jump y, m) := by
  obtain ⟨instr, found, eq⟩ := Option.map_eq_some_iff.mp hop
  have there : g.instr j = .ok instr := by simp [Graph.instr, found]
  have word : m.evalWord args addr = .ok (blockTag + y.index) := by
    have small : blockTag + y.index < wordCount := by
      simp only [blockTag, wordCount]
      omega
    rw [evalWord, holds]
    exact congrArg Except.ok (Bytes.word_ofNat_eight small)
  have decoded : blockOfWord? (blockTag + y.index) = some y := by
    unfold blockOfWord?
    rw [if_neg (by omega), Nat.add_sub_cancel_left, Nat.mod_eq_of_lt narrow]
  simp only [step, there, eq, word, decoded, bind, Except.bind, if_pos listed]
  rfl

/-- In a finished function the addresses of blocks that code uses are those of laid-out blocks, which are
marked as such and are targets of every indirect branch, so that a branch to one of them goes there. And
every target is the laid-out block of a label whose address was taken. -/
theorem label_addresses_listed (begun : s.begin name signature = .ok b₀)
    (prepared : prepare calls b₀ = .ok b) {body : Stmt} {g : Graph} {last : Builder}
    (emitted : function body b = .ok g last) :
    (∀ x ∈ g.layout, ∀ i ∈ g.body x, ∀ op, g.op? i = some op → ∀ y, .blockAddr y ∈ op.operands →
      y ∈ g.layout ∧ g.taken y = true ∧
      ∀ z ∈ g.layout, ∀ j ∈ g.body z, ∀ addr dests, g.op? j = some (.indirectBr addr dests) →
        y ∈ dests ∧ ∀ args m, y.index < 0x100000000 →
          eval m args addr = eval m args (.blockAddr y) →
            step g args m j = .ok (.jump y, m)) ∧
    ∀ z ∈ g.layout, ∀ j ∈ g.body z, ∀ addr dests, g.op? j = some (.indirectBr addr dests) →
      ∀ d ∈ dests, d ∈ g.layout ∧ ∃ l, last.labels.home l = some d ∧ last.labels.wanted l := by
  have linked := Ensures.of_ok (function_links begun prepared body False.elim) emitted
  constructor
  · intro x _ i _ op hop y mem
    obtain ⟨laid, taken⟩ := linked.addressed i op y hop mem
    refine ⟨laid, taken, fun z _ j _ addr dests hbr => ?_⟩
    have listed := (linked.targets j addr dests hbr y).mpr ⟨laid, taken⟩
    exact ⟨listed, fun args m narrow holds => step_indirectBr hbr listed narrow holds⟩
  · intro z _ j _ addr dests hbr d mem
    obtain ⟨laid, taken⟩ := (linked.targets j addr dests hbr d).mp mem
    exact ⟨laid, linked.homes d taken⟩

/-- A function that jumps to the address of a label that it takes before and after the label has its
place, and from which unreachable blocks are taken out. -/
theorem label_addresses_listed_pruned : ∃ b₀ b g last,
    begin { options := { prune := true } } "f" { params := [], result := .void } = .ok b₀ ∧
    prepare [.newLabel {}, .registerLocal "x" (.ptr .void) none false {}] b₀ = .ok b ∧
    function (.block [.init {} ⟨0⟩ (some (.labelAddress { ty := .ptr .void } ⟨0⟩)),
      .gotoAddress (.var { ty := .ptr .void } ⟨0⟩), .error, .label {} ⟨0⟩,
      .assign (.var { ty := .ptr .void } ⟨0⟩) (.labelAddress { ty := .ptr .void } ⟨0⟩)]) b = .ok g last ∧
    (∀ x ∈ g.layout, ∀ i ∈ g.body x, ∀ op, g.op? i = some op → ∀ y, .blockAddr y ∈ op.operands →
      y ∈ g.layout ∧ g.taken y = true ∧
      ∀ z ∈ g.layout, ∀ j ∈ g.body z, ∀ addr dests, g.op? j = some (.indirectBr addr dests) →
        y ∈ dests ∧ ∀ args m, y.index < 0x100000000 →
          eval m args addr = eval m args (.blockAddr y) →
            step g args m j = .ok (.jump y, m)) ∧
    ∀ z ∈ g.layout, ∀ j ∈ g.body z, ∀ addr dests, g.op? j = some (.indirectBr addr dests) →
      ∀ d ∈ dests, d ∈ g.layout ∧ ∃ l, last.labels.home l = some d ∧ last.labels.wanted l :=
  exists_of_completes (t := fun _ => true) (by decide +kernel) fun _ _ _ _ begun prepared emitted _ =>
    label_addresses_listed begun prepared emitted

end Whole

end Emit

end FlowIR

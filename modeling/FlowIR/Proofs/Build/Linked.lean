import FlowIR.Proofs.Build.Settle
import FlowIR.Proofs.Build.Tracked

/-!
Finishing a function, seen from its labels.

A label that has no place is given a block that traps, and its placeholder is replaced like that of any
other label, so that no placeholder is left (`closeLabels_ties`). Then every indirect branch gets the
blocks whose addresses are used as its targets, and what is taken out of the layout after that is not
among them (`Graph.Linked`).
-/

namespace FlowIR

open LabelTable FlowIR.Graph

variable {strict : Prop} {steady : Bool} {b : Builder}

/-- A label that has a mark is used and has no place. -/
theorem Builder.Tracked.mem_dangling (h : b.Tracked strict) (l : LabelId) (p : PlaceholderId)
    (marked : b.labels.mark l = some p) : l ∈ b.labels.dangling := by
  have wanted := h.paired.wanted l p marked
  have loose := h.exact.unsettled l p marked
  obtain ⟨label, found, isWanted⟩ := wanted_iff.mp wanted
  have inside : l.index < b.labels.labels.size := (Array.getElem?_eq_some_iff.mp found).1
  refine List.mem_filter.mpr ⟨List.mem_map.mpr ⟨l.index, List.mem_range.mpr inside, rfl⟩, ?_⟩
  have undefined : label.defined = false := by
    cases defined : label.defined with
    | false => rfl
    | true => exact absurd (settled_iff.mpr ⟨label, found, defined⟩) loose
  simp [found, Label.isDangling, undefined, isWanted]

/-- Where no label has a mark, no placeholder is used. -/
theorem Builder.Tied.whole (h : b.Tied strict) (none : ∀ l, b.labels.mark l = none) : strict → b.graph.Whole := by
  intro s i op hop v mem
  cases v with
  | placeholder p =>
    obtain ⟨l, marked⟩ := h.paired.owner p (h.recorded s i op p hop mem).isPending
    cases (none l).symm.trans marked
  | _ => rfl

/-! ### Closing blocks and labels -/

namespace Build

theorem closeBlock_notes (h : b.Tracked strict) {op : Op} (none : op.operands = [])
    (branch : ∀ addr dests, op ≠ .indirectBr addr dests) (x : BlockId) :
    Notes strict steady (closeBlock op x) b fun _ _ => True := by
  refine .get ((Notes.checked (Q := fun _ _ => True) h fun _ _ => trivial).bind fun ended mid tracked _ _ => ?_)
  split
  · exact .pure tracked trivial
  · refine (newInstr_notes_of_plain tracked (fun v mem => ?_) branch).bind fun i mid tracked _ _ =>
      append_notes tracked x i
    rw [none] at mem
    cases mem

theorem closeBlocks_notes (h : b.Tracked strict) : Notes strict steady closeBlocks b fun _ _ => True := by
  refine .get (Notes.forM (fun x mid tracked => closeBlock_notes tracked ?_ ?_ x) _ _ h)
  · split <;> rfl
  · intro addr dests
    split <;> simp

theorem newBlock_ties (h : b.Tied strict) (tag : String) :
    Succeeds (newBlock tag) b fun _ after => after.Tied strict ∧ after.labels = b.labels ∧
      ∀ i, after.graph.op? i = b.graph.op? i :=
  ⟨h.congr (fun _ => rfl) (fun _ => taken_newBlock _) (fun _ hx => hx) rfl h.plain, rfl, fun _ => rfl⟩

/-- The block of a label, whatever has become of the labels before. -/
theorem labelBlock_ties (h : b.Tied strict) (l : LabelId) (span : Span) :
    Ensures (labelBlock l span) b (fun x after => after.Tied strict ∧ after.labels.home l = some x ∧
      after.labels.mark = b.labels.mark ∧ ∀ i, after.graph.op? i = b.graph.op? i)
      fun e _ => e.Leaves True := by
  refine .get ?_
  split
  · next label found =>
    split
    · next x block => exact ⟨h, by rw [home, found]; exact block, rfl, fun _ => rfl⟩
    · next none =>
      have homeless : b.labels.home l = Option.none := by rw [home, found]; exact none
      refine Ensures.bind ((newBlock_ties h _).mono (fun _ _ q => q) fun _ _ he => he.elim) ?_
      rintro x mid ⟨tied, labels, ops⟩
      rw [← labels] at found homeless ⊢
      refine .modify ⟨tied.setHome homeless x, ?_, ?_, ops⟩
      · simp [home, get?_update, found]
      · exact mark_update_of_same fun _ => rfl
  · exact ⟨by simp, by simp, trivial⟩

/-- A label without a place gets a block that traps. Its placeholder is replaced wherever it is used, and
the marks of the other labels stay. -/
theorem closeLabel_ties (h : b.Tied strict) (l : LabelId) :
    Ensures (closeLabel l) b (fun _ after => after.Tied strict ∧
      (∀ k, after.labels.mark k = if k = l then none else b.labels.mark k) ∧
      ∃ x, after.labels.home l = some x ∧ (strict → ∀ p, b.labels.mark l = some p →
        ∀ i op, b.graph.op? i = some op → after.graph.op? i = some (op.resolve p x)))
      fun e _ => e.Leaves True := by
  refine .get (.get ?_)
  have rest : ∀ span, Ensures (do
      let block ← labelBlock l span
      modify fun b => { b with graph := b.graph.attach block }
      let i ← newInstr { op := .unreachable }
      append block i
      resolve l block) b (fun _ after => after.Tied strict ∧
        (∀ k, after.labels.mark k = if k = l then none else b.labels.mark k) ∧
        ∃ x, after.labels.home l = some x ∧ (strict → ∀ p, b.labels.mark l = some p →
          ∀ i op, b.graph.op? i = some op → after.graph.op? i = some (op.resolve p x)))
      fun e _ => e.Leaves True := by
    intro span
    refine (labelBlock_ties h l span).bind ?_
    rintro x b₁ ⟨tied, here, mark, ops⟩
    have attached : ({ b₁ with graph := b₁.graph.attach x } : Builder).Tied strict :=
      tied.congr (fun _ => op?_attach) (fun _ => taken_attach)
        (fun _ hy => mem_layout_attach.mpr (.inl hy)) rfl tied.plain
    refine .modify (.after rfl ?_)
    refine ensures_bind.mpr (ensures_onGraph.mpr ⟨fun g run => ?_, fun _ _ => trivial⟩)
    replace run : ((b₁.graph.attach x).newInstr { op := .unreachable }).2.append x
      ⟨(b₁.graph.attach x).instrs.size⟩ = .ok g := run
    have layout : g.layout = (b₁.graph.attach x).layout := (layout_of_updateBlock run).trans rfl
    have trapped : ({ b₁ with graph := g } : Builder).Tied strict :=
      attached.newInstr ⟨.refl _, op?_of_updateBlock run, fun y => taken_of_append run y, layout,
        by simp [Op.operands], by simp [Op.operands], by simp⟩
    have laid : x ∈ g.layout := layout ▸ mem_layout_attach.mpr (.inr rfl)
    refine (resolve_ensures trapped.paired l x).mono ?_ ?_
    · rintro - after r
      have labels : after.labels = (b₁.labels.retire l).2 := by rw [r.rest]
      refine ⟨trapped.resolve here laid r, fun k => ?_, x, ?_, fun s p marked i op hop => ?_⟩
      · rw [labels, mark_retire trapped.paired, mark]
      · rw [labels, home_retire]
        exact here
      · have marked' : b₁.labels.mark l = some p := mark ▸ marked
        rw [trapped.op?_resolve s r marked' i]
        have old : g.op? i = some op := by
          have known : (b₁.graph.attach x).op? i = some op := by rw [op?_attach, ops, hop]
          rw [op?_of_updateBlock run, op?_newInstr, known]
          exact if_neg (Nat.ne_of_lt (index_lt_of_op? known))
        rw [old]
        rfl
    · rintro _ _ ⟨f, rfl⟩
      trivial
  split
  · exact rest _
  · exact ⟨by simp, by simp, trivial⟩

/-- In the end no label has a mark, if only those that are left had one. -/
theorem closeLabels_ties (ls : List LabelId) (h : b.Tied strict) (left : ∀ l p, b.labels.mark l = some p → l ∈ ls) :
    Ensures (ls.forM closeLabel) b (fun _ after => after.Tied strict ∧ ∀ l, after.labels.mark l = none)
      fun e _ => e.Leaves True := by
  refine (Ensures.forM (I := fun rest mid => mid.Tied strict ∧ ∀ l p, mid.labels.mark l = some p → l ∈ rest)
    ?_ ls b ⟨h, left⟩).imp ?_
  · rintro l rest mid ⟨tied, left⟩
    refine (closeLabel_ties tied l).imp ?_
    rintro - after ⟨tied, marks, -⟩
    refine ⟨tied, fun k p hk => ?_⟩
    rw [marks] at hk
    split at hk
    · cases hk
    · next other => exact (List.mem_cons.mp (left k p hk)).resolve_left other
  · rintro - after ⟨tied, left⟩
    refine ⟨tied, fun l => ?_⟩
    cases marked : after.labels.mark l with
    | none => rfl
    | some p => cases left l p marked

end Build

/-! ### The graph with its targets -/

/-- The block is that of a label whose address has been taken. -/
def LabelTable.Lands (t : LabelTable) (x : BlockId) : Prop := ∃ l, t.home l = some x ∧ t.wanted l

namespace Graph

/-- The addresses that are used are those of the targets of every indirect branch, which are blocks of
labels. Where all uses were recorded, no placeholder is used. -/
structure Linked (strict : Prop) (home : BlockId → Prop) (g : Graph) : Prop where
  whole : strict → g.Whole
  addressed : ∀ i op x, g.op? i = some op → .blockAddr x ∈ op.operands → x ∈ g.layout ∧ g.taken x = true
  homes : ∀ x, g.taken x = true → home x
  targets : ∀ i addr dests, g.op? i = some (.indirectBr addr dests) →
    ∀ x, x ∈ dests ↔ x ∈ g.layout ∧ g.taken x = true

variable {home : BlockId → Prop} {g after : Graph}

/-- Other blocks than those whose addresses are used may leave the layout. -/
theorem Linked.congr (h : g.Linked strict home) (ops : ∀ i, after.op? i = g.op? i)
    (taken : ∀ x, after.taken x = g.taken x)
    (layout : ∀ x, g.taken x = true → (x ∈ after.layout ↔ x ∈ g.layout)) : after.Linked strict home where
  whole := fun s i op hop => h.whole s i op (ops i ▸ hop)
  addressed := fun i op x hop mem => by
    obtain ⟨laid, isTaken⟩ := h.addressed i op x (ops i ▸ hop) mem
    exact ⟨(layout x isTaken).mpr laid, (taken x).trans isTaken⟩
  homes := fun x hx => h.homes x (taken x ▸ hx)
  targets := fun i addr dests hop x => by
    rw [h.targets i addr dests (ops i ▸ hop) x, taken]
    exact and_congr_left fun isTaken => (layout x isTaken).symm

/-- A graph that uses no placeholder is not refused for one. -/
theorem Whole.verify_ne (h : g.Whole) (f x : String) : g.verify ≠ .error (.error (.unresolvedPlaceholder f x)) := by
  intro run
  rcases flawed_of_verify run with ⟨-, _, ⟨⟩⟩ | ⟨y, -, i, op, hop, v, mem, isPlaceholder⟩
  cases (h i op hop v mem).symm.trans isPlaceholder

end Graph

/-- The computation did not stop because a placeholder was left, where `strict` says so, and never because
one had not been replaced. -/
def Halt.NoPlaceholder (strict : Prop) : Halt BuildError → Prop
  | .fault _ => True
  | .error e => (∀ n, e.cause ≠ .danglingLabelAddress n) ∧
      (strict → ∀ f x, e.cause ≠ .verify (.unresolvedPlaceholder f x))

theorem Halt.Leaves.noPlaceholder {e : Halt BuildError} {P : Prop} (h : e.Leaves P) : e.NoPlaceholder strict := by
  cases e with
  | fault _ => trivial
  | error e => exact ⟨h.1, fun _ f x => h.2.1 _⟩

/-- In the sealed graph the addresses are linked, and no block whose address is used has been taken out. -/
theorem Builder.Seals.linked {dests : List BlockId} {mid last g : Graph} (seals : b.Seals dests mid last g)
    (h : b.Tied strict) (none : ∀ l, b.labels.mark l = none) : g.Linked strict b.labels.Lands := by
  have r := seals.retargets
  have armed : mid.Linked strict b.labels.Lands := by
    constructor
    · intro s i op hop
      obtain ⟨op₀, hop₀, -, operands, -⟩ := r.redirects.before hop
      unfold Op.Whole
      rw [operands]
      exact h.whole none s i op₀ hop₀
    · intro i op x hop mem
      obtain ⟨op₀, hop₀, -, operands, -⟩ := r.redirects.before hop
      obtain ⟨laid, isTaken⟩ := h.addressed i op₀ x hop₀ (operands ▸ mem)
      exact ⟨r.redirects.layout ▸ laid, (r.redirects.taken x).trans isTaken⟩
    · exact fun x hx => h.homes x (r.redirects.taken x ▸ hx)
    · intro i addr dests' hop x
      obtain ⟨op₀, hop₀, -⟩ := r.redirects.before hop
      have branch : ∃ addr₀ dests₀, op₀ = .indirectBr addr₀ dests₀ := by
        rcases r.redirects.ops i with eq | eq
        · exact ⟨addr, dests', Option.some.inj (hop₀.symm.trans (eq ▸ hop))⟩
        · rw [hop₀, hop] at eq
          cases op₀ <;> simp [Op.redirect] at eq
          exact ⟨_, _, rfl⟩
      obtain ⟨addr₀, dests₀, rfl⟩ := branch
      have done := (r.done i (h.branches i addr₀ dests₀ hop₀)).resolve_left List.not_mem_nil
      rw [hop₀, hop] at done
      cases done
      rw [seals.mem_dests, r.redirects.layout, r.redirects.taken]
  have taken : ∀ x, g.taken x = last.taken x := fun x => by rw [taken, taken, seals.blocks]
  refine armed.congr seals.op? (fun x => (taken x).trans (taken_of_insertFront seals.placed x))
    fun x isTaken => ?_
  have old := layout_of_updateBlock seals.placed
  have layout := seals.layout
  split at layout
  · obtain ⟨found, reached, eq⟩ := layout
    rw [eq, ← old]
    refine ⟨fun kept => (List.mem_filter.mp kept).1, fun laid => List.mem_filter.mpr ⟨laid, ?_⟩⟩
    have used : last.taken x = true := (taken_of_insertFront seals.placed x).trans isTaken
    simpa using mem_of_taken reached laid used
  · rw [layout, old]

namespace Build

/-- A function whose labels have been tracked can be finished with all addresses linked; or there is an
error, which is not about a placeholder. -/
theorem finish_links (h : b.Tracked strict) (placed : b.prologPlaced = true) :
    Ensures finish b (fun g after => g.Linked strict after.labels.Lands)
      fun e _ => e.NoPlaceholder strict := by
  have ended : Notes strict true closeBlocks b fun _ _ => True := closeBlocks_notes h
  refine ensures_finish (P := Builder.Tracked strict)
    (R := fun mid => mid.Tied strict ∧ ∀ l, mid.labels.mark l = none) placed
    (Ensures.mono ended (fun _ _ q => q.1) fun _ _ he => he.noPlaceholder) ?_ ?_ ?_
  · exact fun mid tracked => (closeLabels_ties _ tracked.toTied tracked.mem_dangling).mono (fun _ _ q => q)
      fun _ _ he => he.noPlaceholder
  · rintro mid ⟨tied, unmarked⟩ left
    rw [pending_eq_zero tied.paired unmarked] at left
    exact absurd left (Nat.lt_irrefl 0)
  · rintro mid ⟨tied, unmarked⟩
    refine (conclude_ensures mid).mono ?_ ?_
    · rintro g after ⟨dests, armed, last, seals, labels, -⟩
      rw [labels]
      exact seals.linked tied unmarked
    · rintro _ - ⟨-, ⟨f, rfl⟩ | ⟨dests, armed, last, g, v, seals, refused, e, rfl, cause⟩⟩
      · trivial
      · refine ⟨fun n eq => ?_, fun s f x eq => ?_⟩
        · cases cause.symm.trans eq
        · cases cause.symm.trans eq
          exact ((seals.linked tied unmarked).whole s).verify_ne f x refused

end Build

end FlowIR

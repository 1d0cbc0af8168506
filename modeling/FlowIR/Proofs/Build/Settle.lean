import FlowIR.Proofs.Build.Finish
import FlowIR.Proofs.Graph.Verified

/-!
What a function becomes when it is finished.

Finishing changes little: open blocks get an end, indirect branches get their targets, and the slots
that were made late go to the front of the entry block (`Builder.Finishes`). A sound function that has
no loose labels and uses no placeholder can always be finished.
-/

namespace FlowIR

open FlowIR.Graph List

@[simp] theorem Operand.isPlaceholder_result (i : InstrId) : (Operand.result i).isPlaceholder = false := rfl

namespace Op

/-- Whether the instruction branches to an address. -/
def isIndirect : Op → Bool
  | .indirectBr _ _ => true
  | _ => false

/-- What an instruction can be in the finished function. -/
def Settles (op after : Op) : Prop := ∃ mid, op.Resolves mid ∧ (after = mid ∨ ∃ dests, after = mid.redirect dests)

/-- Most instructions stay as they are. -/
theorem Settles.eq {op after : Op} (h : op.Settles after) (whole : op.Whole)
    (direct : op.isIndirect = false) : after = op := by
  obtain ⟨mid, resolves, same⟩ := h
  cases resolves.eq_of_no_placeholder whole
  rcases same with rfl | ⟨dests, rfl⟩
  · rfl
  · cases op <;> first | rfl | cases direct

theorem Resolves.settles {op mid after : Op} (h : op.Resolves mid) (k : mid.Settles after) : op.Settles after := by
  obtain ⟨last, resolves, same⟩ := k
  exact ⟨last, h.trans resolves, same⟩

end Op

/-- The graph is on its way to a finished one, in which `front` stands in front of the code of the
entry block. -/
structure Graph.Becomes (g : Graph) (entry : BlockId) (front : List InstrId) (last : Graph) : Prop where
  size : g.blocks.size ≤ last.blocks.size
  body : ∀ x, lead entry front x ++ g.body x <+: last.body x
  ended : ∀ x, g.Ends x → last.body x = lead entry front x ++ g.body x
  instr : ∀ (i : Nat) (instr : Instr), g.instrs[i]? = some instr → ∃ instr' : Instr,
    last.instrs[i]? = some instr' ∧ instr.op.Settles instr'.op ∧ instr'.shape = instr.shape

theorem Graph.Extends.becomes {g mid last : Graph} {entry : BlockId} {front : List InstrId}
    (h : g.Extends mid) (k : mid.Becomes entry front last) : g.Becomes entry front last where
  size := Nat.le_trans h.size k.size
  body := fun x => List.IsPrefix.trans ((prefix_append_right_inj _).mpr (h.body x)) (k.body x)
  ended := fun x hx => by rw [k.ended x (h.ends hx), h.ended x hx]
  instr := fun i instr found => by
    obtain ⟨one, found₁, resolves, shape₁⟩ := h.instr i instr found
    obtain ⟨two, found₂, settles, shape₂⟩ := k.instr i one found₁
    exact ⟨two, found₂, resolves.settles settles, shape₂.trans shape₁⟩

/-- An instruction that stays as it is. -/
theorem Graph.Becomes.exists_instr {g last : Graph} {entry : BlockId} {front : List InstrId}
    (h : g.Becomes entry front last) {i : InstrId} {instr : Instr} (found : g.instrs[i.index]? = some instr)
    (whole : instr.op.Whole) (direct : instr.op.isIndirect = false) :
    ∃ name, last.instr i = .ok ⟨instr.op, instr.shape, name⟩ := by
  obtain ⟨⟨op, shape, name⟩, found', settles, eq⟩ := h.instr i.index instr found
  cases settles.eq whole direct
  cases eq
  exact ⟨name, by simp [Graph.instr, found']⟩

/-! ### Closing the blocks -/

def Builder.closer (b : Builder) : Op := if b.convention.result.passing.isIgnored then .ret none else .unreachable

/-- The open blocks of the layout have been ended, except those in `rest`. -/
structure Builder.Closes (b : Builder) (op : Op) (rest : List BlockId) (after : Builder) : Prop where
  same : ∃ graph, after = { b with graph }
  grows : b.graph.Extends after.graph
  layout : after.graph.layout = b.graph.layout
  args : after.graph.args = b.graph.args
  taken : ∀ x, after.graph.taken x = b.graph.taken x
  old : ∀ (i : Nat) (instr : Instr), b.graph.instrs[i]? = some instr → after.graph.instrs[i]? = some instr
  new : ∀ (i : Nat) (instr : Instr), b.graph.instrs.size ≤ i → after.graph.instrs[i]? = some instr →
    instr = { op }
  waits : ∀ x ∈ rest, after.graph.body x = b.graph.body x
  closed : ∀ x ∈ b.graph.layout, x ∉ rest → ¬ b.graph.Ends x →
    ∃ i, after.graph.body x = b.graph.body x ++ [i] ∧ after.graph.instr i = .ok { op }

namespace Builder.Closes

variable {b after : Builder} {op : Op} {rest : List BlockId} {x : BlockId}

theorem refl (b : Builder) (op : Op) : b.Closes op b.graph.layout b where
  same := ⟨b.graph, rfl⟩
  grows := .refl _
  layout := rfl
  args := rfl
  taken := fun _ => rfl
  old := fun _ _ h => h
  new := fun _ _ le h => absurd (Array.getElem?_eq_some_iff.mp h).1 (Nat.not_lt.mpr le)
  waits := fun _ _ => rfl
  closed := fun _ laid waits => absurd laid waits

variable (h : b.Closes op rest after)

include h

/-- What an instruction is, if it is there at all. -/
theorem instr {i : Nat} {instr : Instr}
    (found : after.graph.instrs[i]? = some instr) : b.graph.instrs[i]? = some instr ∨ instr = { op } := by
  by_cases old : i < b.graph.instrs.size
  · have there : b.graph.instrs[i]? = some b.graph.instrs[i] := by simp [old]
    cases found.symm.trans (h.old i _ there)
    exact .inl there
  · exact .inr (h.new i instr (Nat.le_of_not_lt old) found)

theorem op? {i : InstrId} {op' : Op} (hop : after.graph.op? i = some op') : b.graph.op? i = some op' ∨ op' = op := by
  obtain ⟨instr, found, rfl⟩ := Option.map_eq_some_iff.mp hop
  rcases h.instr found with old | rfl
  · exact .inl (by rw [Graph.op?, old]; rfl)
  · exact .inr rfl

theorem slot (plain : op.isAlloca = false) {i : InstrId} (slot : after.graph.Slot i) : b.graph.Slot i := by
  obtain ⟨op', hop, isSlot⟩ := slot
  rcases h.op? hop with old | rfl
  · exact ⟨op', old, isSlot⟩
  · rw [plain] at isSlot
    cases isSlot

/-- A block that waits has an end if and only if it had one. -/
theorem ends_iff (listed : b.graph.Listed) (hx : x ∈ rest) : after.graph.Ends x ↔ b.graph.Ends x := by
  refine ⟨fun ⟨i, op', last, hop, hterm⟩ => ?_, h.grows.ends⟩
  rw [h.waits x hx] at last
  obtain ⟨instr, found, hop'⟩ := listed.exists_instr (mem_of_getLast? last)
  simp only [Graph.instr, require_eq_ok_iff] at found
  rw [Graph.op?, h.old _ _ found] at hop
  cases hop
  exact ⟨i, instr.op, last, hop', hterm⟩

end Builder.Closes

namespace Build

variable {owed : BlockId → Prop} {su : Supply} {b : Builder}

/-- One more block is closed. -/
theorem closeBlock_succeeds {op : Op} {x : BlockId} {rest : List BlockId} {mid : Builder}
    (closes : b.Closes op (x :: rest) mid) (sound : mid.Sound owed su) (listed : b.graph.Listed)
    (laid : x ∈ b.graph.layout) (fresh : x ∉ rest) :
    Succeeds (closeBlock op x) mid fun _ after => b.Closes op rest after := by
  have here : x.index < mid.graph.blocks.size := sound.formed.placed x (closes.layout ▸ laid)
  obtain ⟨t, ht⟩ := exists_isTerminated here (sound.formed.listed x)
  have ends := isTerminated_eq_ok ht
  have ends_iff := closes.ends_iff listed (mem_cons_self (a := x) (l := rest))
  unfold closeBlock
  refine .get (ensures_bind.mpr (.of_checked ht ?_))
  split
  · next ended =>
    have known : b.graph.Ends x := ends_iff.mp (ends.mp ended)
    refine { closes with
      waits := fun y hy => closes.waits y (mem_cons_of_mem x hy)
      closed := fun y hy out unended => closes.closed y hy (fun mem => ?_) unended }
    rcases mem_cons.mp mem with rfl | later
    · exact unended known
    · exact out later
  · next unended =>
    have isOpen : ¬ mid.graph.Ends x := fun e => unended (ends.mpr e)
    obtain ⟨g, run⟩ : ∃ g, (mid.graph.newInstr { op }).2.append x ⟨mid.graph.instrs.size⟩ = .ok g :=
      ⟨_, if_pos here⟩
    refine .after rfl (.of_onGraph run ?_)
    have instrs : g.instrs = mid.graph.instrs.push { op } := instrs_of_updateBlock run
    have body := body_of_append run
    have still : ¬ (mid.graph.newInstr { op }).2.Ends x := fun e => isOpen (sound.formed.ends_of_newInstr e)
    have keep : ∀ (i : Nat) (instr : Instr), mid.graph.instrs[i]? = some instr → g.instrs[i]? = some instr :=
      fun i instr h => by
        rw [instrs, Array.getElem?_push, if_neg (Nat.ne_of_lt (Array.getElem?_eq_some_iff.mp h).1), h]
    obtain ⟨g₀, rfl⟩ := closes.same
    refine
      { same := ⟨g, rfl⟩
        grows := closes.grows.trans ((Graph.Extends.newInstr _ _).trans (.append still run))
        layout := (layout_of_updateBlock run).trans closes.layout
        args := ?_
        taken := fun y => (taken_of_append run y).trans (closes.taken y)
        old := fun i instr h => keep i instr (closes.old i instr h)
        new := fun i instr le h => ?_
        waits := fun y hy => ?_
        closed := fun y hy out unended => ?_ }
    · obtain ⟨-, rfl⟩ := eq_of_updateBlock run
      exact closes.args
    · have h : (g₀.instrs.push { op })[i]? = some instr := instrs ▸ h
      rw [Array.getElem?_push] at h
      split at h
      · cases h
        rfl
      · exact closes.new i instr le h
    · have ne : y ≠ x := fun eq => fresh (eq ▸ hy)
      show g.body y = _
      rw [body y, if_neg ne]
      exact closes.waits y (mem_cons_of_mem x hy)
    · show ∃ i, g.body y = _ ∧ g.instr i = _
      by_cases same : y = x
      · subst same
        refine ⟨⟨g₀.instrs.size⟩, ?_, ?_⟩
        · rw [body y, if_pos rfl]
          exact congrArg (· ++ _) (closes.waits y mem_cons_self)
        · simp [instr, instrs]
      · obtain ⟨i, listed', found⟩ := closes.closed y hy
          (fun mem => (mem_cons.mp mem).elim same out) unended
        refine ⟨i, ?_, ?_⟩
        · rw [body y, if_neg same]
          exact listed'
        · simp only [instr, require_eq_ok_iff] at found ⊢
          exact keep _ _ found

theorem isTerminator_closer (b : Builder) : b.closer.isTerminator = true := by
  unfold Builder.closer
  split <;> rfl

theorem isAlloca_closer (b : Builder) : b.closer.isAlloca = false := by
  unfold Builder.closer
  split <;> rfl

theorem whole_closer (b : Builder) : b.closer.Whole := by
  unfold Builder.closer
  split <;> rintro _ ⟨⟩

/-- Once the blocks are closed, every listed block ends. -/
theorem closeBlocks_succeeds (h : b.Sound owed su) (placed : b.prologPlaced = true) :
    Succeeds closeBlocks b fun _ after => b.Closes b.closer [] after ∧ after.Sound owed su ∧
      ∀ x ∈ after.graph.layout, after.graph.Ends x := by
  have closed : Succeeds closeBlocks b fun _ after => b.Closes b.closer [] after := by
    unfold closeBlocks
    refine .get ?_
    refine (Ensures.forM (I := fun rest mid => b.Closes b.closer rest mid ∧ mid.Sound owed su ∧
      (∀ x ∈ rest, x ∈ b.graph.layout) ∧ rest.Nodup) ?_ b.graph.layout b
      ⟨.refl b _, h, fun _ hx => hx, h.formed.nodup⟩).imp fun _ _ q => q.1
    rintro x rest mid ⟨closes, sound, inside, nodup⟩
    obtain ⟨fresh, nodup⟩ := nodup_cons.mp nodup
    have laid := inside x mem_cons_self
    have placed' : mid.prologPlaced = true := by
      obtain ⟨g, rfl⟩ := closes.same
      exact placed
    have spec := (closeBlock_succeeds closes sound h.formed.listed laid fresh).and
      (closeBlock_builds sound (closes.layout ▸ laid) placed' (isTerminator_closer b) (isAlloca_closer b)
        (by unfold Builder.closer; split <;> rfl) (by unfold Builder.closer; split <;> rfl))
    exact spec.mono (fun _ after q => ⟨q.1, q.2.2.1, fun y hy => inside y (mem_cons_of_mem x hy),
      nodup⟩) fun _ _ he => he.1
  exact (closed.and (closeBlocks_ensures h placed)).mono
    (fun _ after q => ⟨q.1, q.2.1, q.2.2.2.2⟩) fun _ _ he => he.1

end Build

/-! ### The finished graph -/

/-- The slots that have been made wait to be put in front of everything else, each of them once. -/
def Builder.Stores (b after : Builder) : Prop :=
  ∃ new, after.lateSlots = b.lateSlots ++ new ∧ new.Nodup ∧
    (∀ i ∈ new, b.graph.instrs.size ≤ i.index ∧ after.graph.Slot i) ∧
    ∀ i, after.graph.Slot i → b.graph.Slot i ∨ i ∈ new

namespace Builder.Stores

variable {b mid after : Builder}

/-- No slot has been made. -/
theorem of_same (late : after.lateSlots = b.lateSlots) (slots : ∀ i, after.graph.Slot i → b.graph.Slot i) :
    b.Stores after :=
  ⟨[], by rw [late, append_nil], nodup_nil, nofun, fun i hi => .inl (slots i hi)⟩

theorem trans (h : b.Stores mid) (k : mid.Stores after) (keeps : ∀ i, mid.graph.Slot i → after.graph.Slot i)
    (le : b.graph.instrs.size ≤ mid.graph.instrs.size) : b.Stores after := by
  obtain ⟨first, late₁, nodup₁, slots₁, all₁⟩ := h
  obtain ⟨second, late₂, nodup₂, slots₂, all₂⟩ := k
  refine ⟨first ++ second, by rw [late₂, late₁, append_assoc], ?_, fun i hi => ?_, fun i hi => ?_⟩
  · refine nodup_append.mpr ⟨nodup₁, nodup₂, fun i hi j hj eq => ?_⟩
    obtain ⟨op, hop, -⟩ := (slots₁ i hi).2
    have old := index_lt_of_op? hop
    have new := (slots₂ j hj).1
    rw [eq] at old
    omega
  · rcases mem_append.mp hi with old | new
    · exact ⟨(slots₁ i old).1, keeps i (slots₁ i old).2⟩
    · exact ⟨Nat.le_trans le (slots₂ i new).1, (slots₂ i new).2⟩
  · rw [mem_append]
    rcases all₂ i hi with old | new
    · exact (all₁ i old).imp id .inl
    · exact .inr (.inr new)

end Builder.Stores

/-- What the finished graph is made of, whatever has become of the labels. -/
structure Builder.Completes (b : Builder) (g : Graph) : Prop where
  becomes : b.graph.Becomes b.entry b.lateSlots g
  entry : g.entry? = some b.entry
  slots : ∀ i, g.Slot i → b.graph.Slot i

/-- What the finished graph is made of, where every label has its place. -/
structure Builder.Finishes (b : Builder) (g : Graph) : Prop extends b.Completes g where
  closes : ∀ x ∈ b.graph.layout, ¬ b.graph.Ends x → ∃ i,
    g.body x = lead b.entry b.lateSlots x ++ b.graph.body x ++ [i] ∧
    g.instr i = .ok ⟨b.closer, .void, none⟩

/-- The finished graph, from one that the function has grown to. -/
theorem Builder.Seals.completes {b b₁ : Builder} {dests : List BlockId} {mid last g : Graph}
    (h : b₁.Seals dests mid last g) (first : b₁.graph.entry? = some b₁.entry)
    (grows : b.graph.Extends b₁.graph) (entry : b₁.entry = b.entry)
    (late : b₁.lateSlots = b.lateSlots) (slots : ∀ i, b₁.graph.Slot i → b.graph.Slot i) : b.Completes g where
  becomes := grows.becomes
    { size := Nat.le_of_eq (by
        rw [h.blocks, size_of_updateBlock h.placed, h.retargets.redirects.blocks])
      body := fun x => ⟨[], by rw [h.body x, entry, late, append_nil]⟩
      ended := fun x _ => by rw [h.body x, entry, late]
      instr := fun i instr found => by
        obtain ⟨instr', found', op, shape, -⟩ := h.instr found
        exact ⟨instr', found', ⟨instr.op, .refl _, op.imp id fun eq => ⟨dests, eq⟩⟩, shape⟩ }
  entry := h.entry?.trans (first.trans (congrArg some entry))
  slots := fun i slot => slots i (h.slot slot)

/-- The steps of finishing, put together. -/
theorem Builder.Closes.finishes {b b₁ : Builder} {dests : List BlockId} {mid last g : Graph}
    (closes : b.Closes b.closer [] b₁) (first : b₁.graph.entry? = some b₁.entry)
    (seals : b₁.Seals dests mid last g) : b.Finishes g := by
  obtain ⟨entry, late⟩ : b₁.entry = b.entry ∧ b₁.lateSlots = b.lateSlots := by
    obtain ⟨g₁, rfl⟩ := closes.same
    exact ⟨rfl, rfl⟩
  refine
    { seals.completes first closes.grows entry late fun i slot => closes.slot (Build.isAlloca_closer b) slot with
      closes := fun x laid isOpen => ?_ }
  obtain ⟨i, listed, found⟩ := closes.closed x laid not_mem_nil isOpen
  refine ⟨i, by rw [seals.body x, listed, append_assoc, entry, late], ?_⟩
  simp only [Graph.instr, require_eq_ok_iff] at found ⊢
  obtain ⟨instr', found', op, shape, name⟩ := seals.instr found
  rw [found']
  have same : b.closer.redirect dests = b.closer := by
    unfold Builder.closer
    split <;> rfl
  obtain ⟨op', shape', name'⟩ := instr'
  rcases op with eq | eq
  · cases eq; cases shape; cases name; rfl
  · cases eq.trans same; cases shape; cases name; rfl

/-- When all labels have their places, a function can be sealed unless it uses a placeholder. -/
theorem Builder.Closing.sealable {su : Supply} {b : Builder} (h : b.Closing su []) (whole : b.graph.Whole)
    (branches : ∀ i ∈ b.labels.branches, i.index < b.graph.instrs.size) : b.Sealable where
  closed := h.wired.formed.closed (fun l x hl => h.homes l not_mem_nil x hl) h.ends
  arms := fun arms => (arms.complete h).1
  branches := branches
  listed := h.wired.formed.listed
  late := fun i late => by
    obtain ⟨op, hop, -⟩ := h.wired.stocked.late_plain i late
    rw [hop]
    rfl
  whole := whole

namespace Build

variable {su : Supply} {b : Builder}

/-- A sound function without loose labels can be finished, unless it uses a placeholder or branches to
addresses. -/
theorem finish_finishes (h : b.Sound (fun _ => False) su) (placed : b.prologPlaced = true)
    (dangling : b.labels.dangling = []) (pending : b.labels.pending = 0) :
    Ensures finish b (fun g _ => b.Finishes g)
      fun _ _ => ¬ (b.graph.Whole ∧ b.labels.branches = []) := by
  have closed : Succeeds closeBlocks b fun _ mid => b.Closes b.closer [] mid ∧ mid.Closing su [] ∧
      mid.labels = b.labels := by
    refine (closeBlocks_succeeds h placed).imp ?_
    rintro - mid ⟨closes, sound, ends⟩
    obtain ⟨g, rfl⟩ := closes.same
    have closing := sound.closing placed ends
    rw [dangling] at closing
    exact ⟨closes, closing, rfl⟩
  refine ensures_finish (R := fun mid => b.Closes b.closer [] mid ∧ mid.Closing su [] ∧ mid.labels = b.labels)
    placed (.of_succeeds closed) ?_ ?_ ?_
  · rintro mid ⟨closes, closing, labels⟩
    rw [labels, dangling]
    exact ⟨closes, closing, labels⟩
  · rintro mid ⟨-, -, labels⟩ left
    rw [labels, pending] at left
    exact absurd left (Nat.lt_irrefl 0)
  · rintro mid ⟨closes, closing, labels⟩
    refine (conclude_ensures mid).mono ?_ fun _ _ he all => he.1 (closing.sealable (fun i op hop => ?_) fun i hi => ?_)
    · rintro g - ⟨dests, armed, last, seals, -⟩
      exact closes.finishes closing.wired.formed.entry_first seals
    · rcases closes.op? hop with old | rfl
      · exact all.1 i op old
      · exact whole_closer b
    · rw [labels, all.2] at hi
      cases hi

end Build

end FlowIR

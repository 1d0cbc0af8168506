import FlowIR.Proofs.Graph.View

/-!
How a graph grows while code is emitted. Blocks are added and never taken away, a block is only
added to at its end and only as long as it has none, and an instruction changes in one way only: a
placeholder in it can be replaced by the address of a block.
-/

namespace FlowIR

open List

namespace Op

variable {op mid after : Op}

theorem mapOperands_mapOperands (f h : Operand → Operand) (op : Op) :
    (op.mapOperands f).mapOperands h = op.mapOperands (h ∘ f) := by
  cases op <;> simp [mapOperands]

theorem mapOperands_eq_self {f : Operand → Operand} (h : ∀ v ∈ op.operands, f v = v) : op.mapOperands f = op := by
  have all : op.operands.map f = op.operands :=
    (map_congr_left h).trans (map_id' op.operands)
  cases op <;> simp_all [mapOperands, operands]
  case ret value => cases value <;> simp_all

/-- The second instruction is the first one with some placeholders replaced by block addresses. -/
def Resolves (op after : Op) : Prop :=
  ∃ f : Operand → Operand,
    (∀ v, f v = v ∨ (v.isPlaceholder = true ∧ ∃ x, f v = .blockAddr x)) ∧ after = op.mapOperands f

theorem Resolves.refl (op : Op) : op.Resolves op :=
  ⟨id, fun _ => .inl rfl, (mapOperands_eq_self fun _ _ => rfl).symm⟩

theorem Resolves.trans (h : op.Resolves mid) (k : mid.Resolves after) : op.Resolves after := by
  obtain ⟨f, hf, rfl⟩ := h
  obtain ⟨e, he, rfl⟩ := k
  refine ⟨e ∘ f, fun v => ?_, mapOperands_mapOperands f e op⟩
  rcases hf v with same | ⟨hole, x, hx⟩
  · rw [Function.comp_apply, same]
    exact he v
  · refine .inr ⟨hole, x, ?_⟩
    rw [Function.comp_apply, hx]
    rcases he (.blockAddr x) with same | ⟨hole, -⟩
    · exact same
    · cases hole

variable (h : op.Resolves after)

include h

theorem Resolves.isTerminator : after.isTerminator = op.isTerminator := by
  obtain ⟨f, -, rfl⟩ := h; simp

theorem Resolves.successors : after.successors = op.successors := by
  obtain ⟨f, -, rfl⟩ := h; simp

theorem Resolves.yields : after.yields = op.yields := by
  obtain ⟨f, -, rfl⟩ := h; simp

theorem Resolves.normal? : after.normal? = op.normal? := by
  obtain ⟨f, -, rfl⟩ := h; simp

theorem Resolves.unwind? : after.unwind? = op.unwind? := by
  obtain ⟨f, -, rfl⟩ := h; simp

theorem Resolves.isLandingPad : after.isLandingPad = op.isLandingPad := by
  obtain ⟨f, -, rfl⟩ := h; simp

theorem Resolves.isAlloca : after.isAlloca = op.isAlloca := by
  obtain ⟨f, -, rfl⟩ := h; simp

/-- Replacing placeholders brings no use of a result. -/
theorem Resolves.result_mem {j : InstrId} (hj : .result j ∈ after.operands) : .result j ∈ op.operands := by
  obtain ⟨f, hf, rfl⟩ := h
  rw [operands_mapOperands, mem_map] at hj
  obtain ⟨v, hv, eq⟩ := hj
  rcases hf v with same | ⟨-, x, hx⟩
  · rwa [← eq, same]
  · rw [hx] at eq
    cases eq

/-- An instruction without placeholders stays as it is. -/
theorem Resolves.eq_of_no_placeholder (none : ∀ v ∈ op.operands, v.isPlaceholder = false) : after = op := by
  obtain ⟨f, hf, rfl⟩ := h
  refine mapOperands_eq_self fun v hv => ?_
  rcases hf v with same | ⟨hole, -⟩
  · exact same
  · rw [none v hv] at hole
    cases hole

end Op

/-- The second graph has come from the first by emitting code. -/
structure Graph.Extends (g after : Graph) : Prop where
  size : g.blocks.size ≤ after.blocks.size
  layout : g.layout <+: after.layout
  body : ∀ x, g.body x <+: after.body x
  ended : ∀ x, g.Ends x → after.body x = g.body x
  instr : ∀ (i : Nat) (instr : Instr), g.instrs[i]? = some instr → ∃ instr' : Instr,
    after.instrs[i]? = some instr' ∧ instr.op.Resolves instr'.op ∧ instr'.shape = instr.shape

namespace Graph.Extends

variable {g mid after : Graph} {x : BlockId} {i : InstrId}

private theorem prefix_of_eq {xs ys : List α} (h : xs = ys) : xs <+: ys :=
  h ▸ prefix_rfl

theorem refl (g : Graph) : g.Extends g where
  size := Nat.le_refl _
  layout := prefix_rfl
  body := fun _ => prefix_rfl
  ended := fun _ _ => rfl
  instr := fun _ instr h => ⟨instr, h, .refl _, rfl⟩

theorem op? (h : g.Extends after) {op : Op} (hop : g.op? i = some op) :
    ∃ op', after.op? i = some op' ∧ op.Resolves op' := by
  obtain ⟨instr, found, rfl⟩ := Option.map_eq_some_iff.mp hop
  obtain ⟨instr', found', resolves, -⟩ := h.instr i.index instr found
  exact ⟨instr'.op, by simp [Graph.op?, found'], resolves⟩

theorem ends (h : g.Extends after) (hx : g.Ends x) : after.Ends x := by
  obtain ⟨i, op, last, hop, hterm⟩ := id hx
  obtain ⟨op', hop', resolves⟩ := h.op? hop
  exact ⟨i, op', h.ended x hx ▸ last, hop', resolves.isTerminator ▸ hterm⟩

theorem trans (h : g.Extends mid) (k : mid.Extends after) : g.Extends after where
  size := Nat.le_trans h.size k.size
  layout := h.layout.trans k.layout
  body := fun x => (h.body x).trans (k.body x)
  ended := fun x hx => (k.ended x (h.ends hx)).trans (h.ended x hx)
  instr := fun i instr found => by
    obtain ⟨one, found₁, resolves₁, shape₁⟩ := h.instr i instr found
    obtain ⟨two, found₂, resolves₂, shape₂⟩ := k.instr i one found₁
    exact ⟨two, found₂, resolves₁.trans resolves₂, shape₂.trans shape₁⟩

theorem mem_layout (h : g.Extends after) (hx : x ∈ g.layout) : x ∈ after.layout := h.layout.subset hx

/-! ### Ways of growing -/

theorem newBlock (g : Graph) (name : String) : g.Extends (g.newBlock name).2 where
  size := by rw [size_newBlock]; exact Nat.le_succ _
  layout := prefix_rfl
  body := fun _ => prefix_of_eq (body_newBlock name).symm
  ended := fun x _ => body_newBlock name
  instr := fun _ instr h => ⟨instr, h, .refl _, rfl⟩

theorem attach (g : Graph) (x : BlockId) : g.Extends (g.attach x) where
  size := Nat.le_of_eq (congrArg Array.size blocks_attach).symm
  layout := layout_prefix_attach
  body := fun _ => prefix_of_eq body_attach.symm
  ended := fun x _ => body_attach
  instr := fun _ instr h => ⟨instr, by rwa [instrs_attach], .refl _, rfl⟩

theorem newInstr (g : Graph) (instr : Instr) : g.Extends (g.newInstr instr).2 where
  size := Nat.le_refl _
  layout := prefix_rfl
  body := fun _ => prefix_rfl
  ended := fun _ _ => rfl
  instr := fun i old h => by
    refine ⟨old, ?_, .refl _, rfl⟩
    have lt := (Array.getElem?_eq_some_iff.mp h).1
    rw [Graph.newInstr, Array.getElem?_push, if_neg (Nat.ne_of_lt lt), h]

theorem append (hx : ¬ g.Ends x) (run : g.append x i = .ok after) : g.Extends after where
  size := Nat.le_of_eq (size_of_updateBlock run).symm
  layout := prefix_of_eq (layout_of_updateBlock run).symm
  body := fun y => by
    rw [body_of_append run]
    split
    · next same => rw [same]; exact prefix_append _ _
    · exact prefix_rfl
  ended := fun y hy => by
    rw [body_of_append run, if_neg]
    rintro rfl
    exact hx hy
  instr := fun _ instr h => ⟨instr, by rwa [instrs_of_updateBlock run], .refl _, rfl⟩

/-- Putting instructions in front counts as growing only where nothing stands behind them. -/
theorem insertFront {is : List InstrId} (empty : g.body x = [])
    (run : g.insertFront x is = .ok after) : g.Extends after where
  size := Nat.le_of_eq (size_of_updateBlock run).symm
  layout := prefix_of_eq (layout_of_updateBlock run).symm
  body := fun y => by
    rw [body_of_insertFront run]
    split
    · next same => rw [same, empty]; exact nil_prefix
    · exact prefix_rfl
  ended := fun y hy => by
    rw [body_of_insertFront run, if_neg]
    rintro rfl
    obtain ⟨i, op, last, -⟩ := hy
    rw [empty] at last
    cases last
  instr := fun _ instr h => ⟨instr, by rwa [instrs_of_updateBlock run], .refl _, rfl⟩

/-- Changing what is known about a block, but not what it lists. -/
theorem updateBlock {f : Block → Block} (run : g.updateBlock x f = .ok after)
    (hf : ∀ b, (f b).body = b.body) : g.Extends after := by
  have same : ∀ y, after.body y = g.body y := by
    intro y
    rw [body_of_updateBlock (t := fun body => body) run hf]
    split
    · next same => rw [same]
    · rfl
  exact
    { size := Nat.le_of_eq (size_of_updateBlock run).symm
      layout := prefix_of_eq (layout_of_updateBlock run).symm
      body := fun y => prefix_of_eq (same y).symm
      ended := fun y _ => same y
      instr := fun _ instr h => ⟨instr, by rwa [instrs_of_updateBlock run], .refl _, rfl⟩ }

theorem updateInstr {f : Instr → Instr} (run : g.updateInstr i f = .ok after)
    (hf : ∀ instr, instr.op.Resolves (f instr).op ∧ (f instr).shape = instr.shape) : g.Extends after where
  size := Nat.le_of_eq (congrArg Array.size (blocks_of_updateInstr run)).symm
  layout := prefix_of_eq (layout_of_updateInstr run).symm
  body := fun y => prefix_of_eq (body_of_updateInstr run y).symm
  ended := fun y _ => body_of_updateInstr run y
  instr := fun k instr h => by
    obtain ⟨-, rfl⟩ := eq_of_updateInstr run
    simp only [Array.getElem?_modify, h]
    split
    · exact ⟨f instr, rfl, hf instr⟩
    · exact ⟨instr, rfl, .refl _, rfl⟩

end Graph.Extends

end FlowIR

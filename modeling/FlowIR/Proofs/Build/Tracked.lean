import FlowIR.Proofs.Build.Prepare

/-!
Where the addresses of labels are used.

As long as a label has no place, its address is a placeholder, and `Builder.Tracked` says that no use of
one goes missing: an instruction that uses a placeholder is among the recorded users, and an instruction
that uses the address of a block is left with a block of the layout whose address is marked as taken. The
part about recorded users is left out where `strict` does not hold. All operations on a function keep the
invariant, also those that report an error.
-/

namespace FlowIR

open LabelTable FlowIR.Graph List

/-- The operand is the address of a block, or stands for one. -/
def Operand.isAddress : Operand → Bool
  | .blockAddr _ | .placeholder _ => true
  | _ => false

def Builder.Knows (b : Builder) : Operand → Prop
  | .placeholder p => b.labels.IsPending p
  | .blockAddr x => x ∈ b.graph.layout ∧ b.graph.taken x = true
  | _ => True

theorem Builder.knows_of_plain {b : Builder} {v : Operand} (plain : v.isAddress = false) : b.Knows v := by
  cases v <;> trivial

/-- The operation has nothing to do with addresses of blocks. -/
def Op.Unaddressed (op : Op) : Prop :=
  (∀ v ∈ op.operands, v.isAddress = false) ∧ ∀ addr dests, op ≠ .indirectBr addr dests

/-- Placeholders and the labels that they stand for are paired, every use of one is recorded, and every
address of a block that is used is one to go to. -/
structure Builder.Tied (strict : Prop) (b : Builder) : Prop where
  paired : b.labels.Paired
  recorded : strict → ∀ i op p, b.graph.op? i = some op → .placeholder p ∈ op.operands →
    b.labels.UsedBy p i
  addressed : ∀ i op x, b.graph.op? i = some op → .blockAddr x ∈ op.operands → b.Knows (.blockAddr x)
  homes : ∀ x, b.graph.taken x = true → ∃ l, b.labels.home l = some x ∧ b.labels.wanted l
  laid : ∀ l, b.labels.settled l → ∃ x, b.labels.home l = some x ∧ x ∈ b.graph.layout
  branches : ∀ i addr dests, b.graph.op? i = some (.indirectBr addr dests) → i ∈ b.labels.branches
  plain : ∀ v ∈ b.roots, v.isAddress = false

structure Builder.Tracked (strict : Prop) (b : Builder) : Prop extends Builder.Tied strict b where
  exact : b.labels.Exact

/-- What stays of a function. Only a label that gets its place can make placeholders go. -/
structure Builder.Follows (steady : Bool) (b after : Builder) : Prop where
  same : (after.convention, after.prologPlaced) = (b.convention, b.prologPlaced)
  knows : steady = true → ∀ v, b.Knows v → after.Knows v

/-- The computation stopped for a fault, or it reported an error that is not about placeholders and left
a function of which `P` holds. -/
def Halt.Leaves (P : Prop) : Halt BuildError → Prop
  | .fault _ => True
  | .error e => (∀ n, e.cause ≠ .danglingLabelAddress n) ∧ (∀ v, e.cause ≠ .verify v) ∧ P

/-- The operation keeps the invariant, also when it reports an error. -/
def Notes {α : Type} (strict : Prop) (steady : Bool) (x : BuildM α) (b : Builder)
    (Q : α → Builder → Prop) : Prop :=
  Ensures x b (fun a after => after.Tracked strict ∧ b.Follows steady after ∧ Q a after)
    fun e after => e.Leaves (after.Tracked strict)

variable {strict : Prop} {steady : Bool} {b : Builder}

namespace Builder.Follows

variable {mid after : Builder}

theorem refl (b : Builder) : b.Follows steady b := ⟨rfl, fun _ _ h => h⟩

theorem trans (h : b.Follows steady mid) (k : mid.Follows steady after) : b.Follows steady after :=
  ⟨k.same.trans h.same, fun s v hv => k.knows s v (h.knows s v hv)⟩

theorem weaken (h : b.Follows true after) : b.Follows steady after :=
  ⟨h.same, fun _ => h.knows rfl⟩

theorem convention (h : b.Follows steady after) : after.convention = b.convention := (Prod.mk.inj h.same).1

theorem placed (h : b.Follows steady after) : after.prologPlaced = b.prologPlaced := (Prod.mk.inj h.same).2

/-- Nothing that is known is lost as long as layout, taken addresses and pending placeholders stay. -/
theorem of_same (same : (after.convention, after.prologPlaced) = (b.convention, b.prologPlaced))
    (layout : ∀ x ∈ b.graph.layout, x ∈ after.graph.layout)
    (taken : ∀ x, b.graph.taken x = true → after.graph.taken x = true)
    (pending : ∀ p, b.labels.IsPending p → after.labels.IsPending p) : b.Follows steady after := by
  refine ⟨same, fun _ v hv => ?_⟩
  cases v with
  | placeholder p => exact pending p hv
  | blockAddr x => exact ⟨layout x hv.1, taken x hv.2⟩
  | arg _ | result _ | const _ => trivial

end Builder.Follows

/-! ### The judgment -/

namespace Notes

variable {α β : Type} {Q : α → Builder → Prop}

theorem pure {a : α} (h : b.Tracked strict) (q : Q a b) : Notes strict steady (pure a) b Q :=
  ⟨h, .refl b, q⟩

theorem weaken {x : BuildM α} (h : Notes strict true x b Q) : Notes strict steady x b Q :=
  Ensures.imp h fun _ _ ⟨tracked, follows, q⟩ => ⟨tracked, follows.weaken, q⟩

theorem bind {R : β → Builder → Prop} {x : BuildM α} {f : α → BuildM β} (first : Notes strict steady x b Q)
    (second : ∀ a mid, mid.Tracked strict → b.Follows steady mid → Q a mid → Notes strict steady (f a) mid R) :
    Notes strict steady (x >>= f) b R :=
  Ensures.bind first fun a mid ⟨tracked, follows, q⟩ =>
    Ensures.imp (second a mid tracked follows q)
      fun _ _ ⟨tracked', follows', r⟩ => ⟨tracked', follows.trans follows', r⟩

theorem fail {span : Span} {cause : Cause} (h : b.Tracked strict)
    (other : (∀ n, cause ≠ .danglingLabelAddress n) ∧ ∀ v, cause ≠ .verify v) :
    Notes strict steady (Build.fail span cause) b Q :=
  ⟨other.1, other.2, h⟩

theorem get {f : Builder → BuildM α} (h : Notes strict steady (f b) b Q) :
    Notes strict steady (get >>= f) b Q := h

theorem checked {x : Checked α} (h : b.Tracked strict) (q : ∀ a, x = .ok a → Q a b) :
    Notes strict steady (liftM x : BuildM α) b Q :=
  ensures_checked.mpr ⟨fun a ha => ⟨h, .refl b, q a ha⟩, fun _ _ => trivial⟩

theorem forM {γ : Type} {f : γ → BuildM PUnit}
    (step : ∀ a mid, mid.Tracked strict → Notes strict steady (f a) mid fun _ _ => True) :
    ∀ (l : List γ) (b : Builder), b.Tracked strict → Notes strict steady (l.forM f) b fun _ _ => True
  | [], _, h => .pure h trivial
  | a :: rest, b, h => (step a b h).bind fun _ mid tracked _ _ => forM step rest mid tracked

end Notes

/-! ### Changes that keep the invariant -/

namespace Builder.Tied

variable {after : Builder}

variable (h : b.Tied strict)

include h

/-- Which addresses are taken, the labels and the storage of variables stay, and what is new uses no address. -/
theorem grow (ops : ∀ i op, after.graph.op? i = some op → b.graph.op? i = some op ∨ op.Unaddressed)
    (taken : ∀ x, after.graph.taken x = b.graph.taken x)
    (layout : ∀ x ∈ b.graph.layout, x ∈ after.graph.layout) (labels : after.labels = b.labels)
    (plain : ∀ v ∈ after.roots, v.isAddress = false) : after.Tied strict where
  paired := labels ▸ h.paired
  recorded := fun s i op p hop mem => by
    rcases ops i op hop with old | new
    · rw [labels]
      exact h.recorded s i op p old mem
    · cases new.1 _ mem
  addressed := fun i op x hop mem => by
    rcases ops i op hop with old | new
    · obtain ⟨laid, isTaken⟩ := h.addressed i op x old mem
      exact ⟨layout x laid, (taken x).trans isTaken⟩
    · cases new.1 _ mem
  homes := fun x hx => by
    rw [labels]
    exact h.homes x (taken x ▸ hx)
  laid := fun l hl => by
    rw [labels] at hl ⊢
    exact (h.laid l hl).imp fun x ⟨home, laid⟩ => ⟨home, layout x laid⟩
  branches := fun i addr dests hop => by
    rcases ops i _ hop with old | new
    · rw [labels]
      exact h.branches i addr dests old
    · exact absurd rfl (new.2 addr dests)
  plain := plain

/-- Labels may get blocks and placeholders, and their addresses may be taken. -/
theorem relabel {t : LabelTable} (paired : t.Paired) (usedBy : ∀ p i, b.labels.UsedBy p i → t.UsedBy p i)
    (home : ∀ l x, b.labels.home l = some x → t.home l = some x) (wanted : ∀ l, b.labels.wanted l → t.wanted l)
    (laid : ∀ l, t.settled l → ∃ x, t.home l = some x ∧ x ∈ b.graph.layout)
    (branches : ∀ i ∈ b.labels.branches, i ∈ t.branches) : ({ b with labels := t } : Builder).Tied strict where
  paired := paired
  recorded := fun s i op p hop mem => usedBy p i (h.recorded s i op p hop mem)
  addressed := h.addressed
  homes := fun x hx => (h.homes x hx).imp fun l ⟨hl, isWanted⟩ => ⟨home l x hl, wanted l isWanted⟩
  laid := laid
  branches := fun i addr dests hop => branches i (h.branches i addr dests hop)
  plain := h.plain

/-- What instructions do stays as well. -/
theorem congr (ops : ∀ i, after.graph.op? i = b.graph.op? i) (taken : ∀ x, after.graph.taken x = b.graph.taken x)
    (layout : ∀ x ∈ b.graph.layout, x ∈ after.graph.layout) (labels : after.labels = b.labels)
    (plain : ∀ v ∈ after.roots, v.isAddress = false) : after.Tied strict :=
  h.grow (fun i _ hop => .inl (ops i ▸ hop)) taken layout labels plain

end Builder.Tied

/-- An instruction has been made. The users of placeholders are recorded, and indirect branches are. -/
structure Builder.Noted (strict : Prop) (b : Builder) (instr : Instr) (g : Graph) (t : LabelTable) : Prop where
  records : b.labels.Records t
  ops : ∀ j, g.op? j = (b.graph.newInstr instr).2.op? j
  taken : ∀ x, g.taken x = b.graph.taken x
  layout : g.layout = b.graph.layout
  uses : strict → ∀ p, .placeholder p ∈ instr.op.operands → t.UsedBy p ⟨b.graph.instrs.size⟩
  known : ∀ x, .blockAddr x ∈ instr.op.operands → b.Knows (.blockAddr x)
  branch : ∀ addr dests, instr.op = .indirectBr addr dests → ⟨b.graph.instrs.size⟩ ∈ t.branches

/-- An instruction whose labels are noted leaves the uses tied. -/
theorem Builder.Tied.newInstr (h : b.Tied strict) {instr : Instr} {g : Graph} {t : LabelTable}
    (noted : b.Noted strict instr g t) : ({ b with graph := g, labels := t } : Builder).Tied strict := by
  obtain ⟨records, ops, taken, layout, uses, known, branch⟩ := noted
  -- What an instruction does now: the new one what it is made for, and every other one what it did.
  have cases : ∀ {i op}, g.op? i = some op →
      i = ⟨b.graph.instrs.size⟩ ∧ op = instr.op ∨ b.graph.op? i = some op := by
    intro i op hop
    rw [ops, op?_newInstr] at hop
    split at hop
    · next new => exact .inl ⟨congrArg InstrId.mk new, (Option.some.inj hop).symm⟩
    · exact .inr hop
  have knows : ∀ x, b.Knows (.blockAddr x) → x ∈ g.layout ∧ g.taken x = true := fun x hx =>
    ⟨layout ▸ hx.1, (taken x).trans hx.2⟩
  constructor
  · exact records.paired h.paired
  · intro s i op p hop mem
    rcases cases hop with ⟨rfl, rfl⟩ | old
    · exact uses s p mem
    · exact records.usedBy p i (h.recorded s i op p old mem)
  · intro i op x hop mem
    rcases cases hop with ⟨rfl, rfl⟩ | old
    · exact knows x (known x mem)
    · exact knows x (h.addressed i op x old mem)
  · intro x hx
    show ∃ l, t.home l = some x ∧ t.wanted l
    rw [records.home, records.wanted]
    exact h.homes x (taken x ▸ hx)
  · intro l hl
    show ∃ x, t.home l = some x ∧ x ∈ g.layout
    rw [records.home, layout]
    exact h.laid l (records.settled ▸ hl)
  · intro i addr dests hop
    rcases cases hop with ⟨rfl, eq⟩ | old
    · exact branch addr dests eq.symm
    · exact records.branches i (h.branches i addr dests old)
  · exact h.plain

theorem Builder.Tracked.newInstr (h : b.Tracked strict) {instr : Instr} {g : Graph} {t : LabelTable}
    (noted : b.Noted strict instr g t) : ({ b with graph := g, labels := t } : Builder).Tracked strict :=
  ⟨h.toTied.newInstr noted, noted.records.exact h.exact⟩

theorem Builder.Tracked.congr {after : Builder} (h : b.Tracked strict) (ops : ∀ i, after.graph.op? i = b.graph.op? i)
    (taken : ∀ x, after.graph.taken x = b.graph.taken x)
    (layout : ∀ x ∈ b.graph.layout, x ∈ after.graph.layout) (labels : after.labels = b.labels)
    (plain : ∀ v ∈ after.roots, v.isAddress = false) : after.Tracked strict :=
  ⟨h.toTied.congr ops taken layout labels plain, labels ▸ h.exact⟩

/-! ### Basic operations -/

namespace Build

section

variable (h : b.Tracked strict)

include h

theorem fresh_notes (tag : String) :
    Notes strict steady (fresh tag) b fun _ after => after.labels = b.labels ∧ after.graph = b.graph :=
  ⟨h.congr (fun _ => rfl) (fun _ => rfl) (fun _ hx => hx) rfl h.plain,
    .of_same rfl (fun _ hx => hx) (fun _ hx => hx) fun _ hp => hp, rfl, rfl⟩

/-- A change of anything but the graph, the labels and the storage of variables. -/
theorem change_notes {f : Builder → Builder}
    (same : ((f b).graph, (f b).labels, (f b).convention, (f b).prologPlaced) =
      (b.graph, b.labels, b.convention, b.prologPlaced)) (plain : ∀ v ∈ (f b).roots, v.isAddress = false) :
    Notes strict steady (modify f : BuildM PUnit) b fun _ _ => True := by
  simp only [Prod.mk.injEq] at same
  obtain ⟨graph, labels, convention, placed⟩ := same
  refine ⟨h.congr (fun _ => by rw [graph]) (fun _ => by rw [graph]) (fun _ hx => by rwa [graph]) labels plain,
    .of_same (by rw [convention, placed]) (fun _ hx => by rwa [graph]) (fun _ hx => by rwa [graph])
      (fun _ hp => by rwa [labels]), trivial⟩

theorem markError_notes : Notes strict steady markError b fun _ _ => True := change_notes h rfl h.plain

theorem updateVar_notes (v : VarId) {f : Variable → Variable}
    (slot : ∀ x, (f x).slot = x.slot) : Notes strict steady (updateVar v f) b fun _ _ => True :=
  change_notes h rfl fun w hw => h.plain w (Builder.mem_roots_of_modify slot hw)

/-- A change of the graph that keeps what instructions do and which addresses are taken. -/
theorem onGraph_notes {f : Graph → Checked Graph} (same : ∀ g, f b.graph = .ok g → (∀ i, g.op? i = b.graph.op? i) ∧
      (∀ x, g.taken x = b.graph.taken x) ∧ g.layout = b.graph.layout) :
    Notes strict steady (onGraph f) b fun _ _ => True := by
  refine ensures_onGraph.mpr ⟨fun g run => ?_, fun _ _ => trivial⟩
  obtain ⟨ops, taken, layout⟩ := same g run
  exact ⟨h.congr ops taken (fun _ hx => layout ▸ hx) rfl h.plain,
    .of_same rfl (fun _ hx => layout ▸ hx) (fun x hx => (taken x).trans hx) fun _ hp => hp, trivial⟩

theorem append_notes (x : BlockId) (i : InstrId) : Notes strict steady (append x i) b fun _ _ => True :=
  onGraph_notes h fun _ run => ⟨op?_of_updateBlock run, taken_of_append run,
    layout_of_updateBlock run⟩

theorem attach_notes (x : BlockId) :
    Notes strict steady (modify fun b => { b with graph := b.graph.attach x } : BuildM PUnit) b
      fun _ _ => True :=
  ⟨h.congr (fun _ => op?_attach) (fun _ => taken_attach)
    (fun _ hx => mem_layout_attach.mpr (.inl hx)) rfl h.plain,
    .of_same rfl (fun _ hx => mem_layout_attach.mpr (.inl hx))
      (fun _ hx => taken_attach.trans hx) fun _ hp => hp, trivial⟩

theorem newBlock_notes (tag : String) :
    Notes strict steady (newBlock tag) b fun _ after =>
      after.labels = b.labels ∧ ∀ i, after.graph.op? i = b.graph.op? i := by
  refine (fresh_notes h tag).bind fun name mid tracked _ ⟨labels, graph⟩ => ?_
  exact ⟨tracked.congr (fun _ => rfl) (fun _ => taken_newBlock name) (fun _ hx => hx) rfl tracked.plain,
    .of_same rfl (fun _ hx => hx) (fun _ hx => (taken_newBlock name).trans hx) fun _ hp => hp, labels,
    fun i => congrArg (·.op? i) graph⟩

/-- An instruction that is not recorded must not use placeholders. -/
theorem newInstr_notes {instr : Instr} (unused : strict → ∀ p, .placeholder p ∉ instr.op.operands)
    (known : ∀ x, .blockAddr x ∈ instr.op.operands → b.Knows (.blockAddr x))
    (branch : ∀ addr dests, instr.op ≠ .indirectBr addr dests) :
    Notes strict steady (newInstr instr) b fun _ _ => True :=
  ⟨h.newInstr ⟨.refl _, fun _ => rfl, fun _ => rfl, rfl, fun s p mem => absurd mem (unused s p), known,
      fun addr dests eq => absurd eq (branch addr dests)⟩,
    .of_same rfl (fun _ hx => hx) (fun _ hx => hx) fun _ hp => hp, trivial⟩

/-- An instruction that uses neither placeholders nor addresses of blocks. -/
theorem newInstr_notes_of_plain {instr : Instr} (plain : ∀ v ∈ instr.op.operands, v.isAddress = false)
    (branch : ∀ addr dests, instr.op ≠ .indirectBr addr dests) :
    Notes strict steady (newInstr instr) b fun _ _ => True :=
  newInstr_notes h (fun _ _ mem => nomatch plain _ mem) (fun _ mem => nomatch plain _ mem) branch

end

/-- The placeholders that an instruction uses are those among its operands. -/
theorem mem_placeholders {vs : List Operand} {p : PlaceholderId} (mem : .placeholder p ∈ vs) :
    p ∈ vs.filterMap (·.placeholder?) :=
  mem_filterMap.mpr ⟨_, mem, rfl⟩

variable (h : b.Tracked strict)

include h

theorem newTracked_notes {instr : Instr} (known : ∀ v ∈ instr.op.operands, b.Knows v)
    (branch : ∀ addr dests, instr.op ≠ .indirectBr addr dests) :
    Notes strict steady (newTracked instr) b fun _ _ => True := by
  have records := LabelTable.Records.recordUses b.labels (instr.op.operands.filterMap (·.placeholder?))
    ⟨b.graph.instrs.size⟩
  refine .of_run rfl ⟨h.newInstr ⟨records, fun _ => rfl, fun _ => rfl, rfl, fun _ p mem => ?_,
    fun x mem => known _ mem, fun addr dests eq => absurd eq (branch addr dests)⟩, ?_, trivial⟩
  · exact usedBy_recordUses_self (mem_placeholders mem) (known _ mem)
  · exact .of_same rfl (fun _ hx => hx) (fun _ hx => hx) fun p hp => (records.pending p).mpr hp

/-- An indirect branch is recorded as such once it is listed in its block. -/
theorem newBranch_notes {addr : Operand} (known : b.Knows addr) (x : BlockId) :
    Notes strict true (do
      let i ← newTracked { op := .indirectBr addr [] }
      append x i
      modify fun b => { b with labels := b.labels.recordBranch i }) b fun _ _ => True := by
  have uses := LabelTable.Records.recordUses b.labels ([addr].filterMap (·.placeholder?))
    ⟨b.graph.instrs.size⟩
  have records := uses.recordBranch ⟨b.graph.instrs.size⟩
  refine .after rfl (ensures_bind.mpr (ensures_onGraph.mpr ⟨fun g run => ?_, fun _ _ => trivial⟩))
  replace run : (b.graph.newInstr { op := .indirectBr addr [] }).2.append x ⟨b.graph.instrs.size⟩ = .ok g := run
  have layout : g.layout = b.graph.layout := (layout_of_updateBlock run).trans rfl
  refine ensures_modify.mpr ⟨h.newInstr ⟨records, op?_of_updateBlock run,
    fun y => taken_of_append run y, layout, fun _ p mem => ?_, fun y mem => ?_, fun _ _ _ => ?_⟩,
    ?_, trivial⟩
  · cases mem_singleton.mp mem
    exact usedBy_recordUses_self (mem_placeholders mem) known
  · cases mem_singleton.mp mem
    exact known
  · exact mem_append_right _ (mem_singleton.mpr rfl)
  · exact .of_same rfl (fun _ hx => layout ▸ hx) (fun x hx => (taken_of_append run x).trans hx)
      fun p hp => (records.pending p).mpr hp

/-! ### Storage -/

theorem newSlot_notes (shape : Shape) (name : Option String) :
    Notes strict steady (newSlot shape name) b fun v _ => v.isAddress = false := by
  refine (newInstr_notes_of_plain h (by simp [Op.operands]) (by simp)).bind fun i mid tracked _ _ => ?_
  refine Notes.bind (Q := fun _ _ => True) (change_notes tracked ?_ ?_) fun _ after tracked _ _ =>
    .pure tracked rfl
  · split <;> rfl
  · split <;> exact tracked.plain

theorem newTemporary_notes (ty : Ty) (tag : String) :
    Notes strict steady (newTemporary ty tag) b fun v _ => v.isAddress = false :=
  (fresh_notes h tag).bind fun _ _ tracked _ _ => newSlot_notes tracked _ _

theorem newCast_notes {value : Operand} (dst : Shape)
    (unused : strict → ∀ p, value ≠ .placeholder p) (known : b.Knows value) :
    Notes strict steady (newCast value dst) b fun _ _ => True := by
  refine Notes.weaken ((fresh_notes h _).bind fun name mid tracked follows _ => ?_)
  refine newInstr_notes tracked (fun s p mem => ?_) (fun x mem => ?_) (by simp)
  · exact unused s p (mem_singleton.mp mem).symm
  · exact mem_singleton.mp mem ▸ follows.knows rfl value known

end Build

/-! ### Replacing placeholders -/

/-- The instruction with the address of a block in place of a placeholder. -/
def Op.resolve (p : PlaceholderId) (x : BlockId) (op : Op) : Op :=
  op.mapOperands fun v => if v = .placeholder p then .blockAddr x else v

namespace Op

variable {p q : PlaceholderId} {x y : BlockId} {op : Op}

theorem resolve_resolve : (op.resolve p x).resolve p x = op.resolve p x := by
  unfold resolve
  rw [mapOperands_mapOperands]
  congr 1
  funext v
  by_cases hole : v = .placeholder p <;> simp [hole]

/-- Without the placeholder there is nothing to replace. -/
theorem resolve_eq_self (unused : .placeholder p ∉ op.operands) : op.resolve p x = op := by
  unfold resolve
  refine mapOperands_eq_self fun v mem => if_neg ?_
  rintro rfl
  exact unused mem

theorem mem_operands_resolve {v : Operand} (mem : v ∈ (op.resolve p x).operands) :
    v ∈ op.operands ∧ v ≠ .placeholder p ∨ v = .blockAddr x ∧ .placeholder p ∈ op.operands := by
  unfold resolve at mem
  rw [operands_mapOperands] at mem
  obtain ⟨u, hu, rfl⟩ := mem_map.mp mem
  by_cases hole : u = .placeholder p
  · exact .inr ⟨if_pos hole, hole ▸ hu⟩
  · rw [if_neg hole]
    exact .inl ⟨hu, hole⟩

theorem indirectBr_of_resolve {addr : Operand} {dests : List BlockId}
    (h : op.resolve p x = .indirectBr addr dests) : ∃ addr', op = .indirectBr addr' dests := by
  cases op <;> simp only [resolve, mapOperands, reduceCtorEq, indirectBr.injEq] at h
  exact ⟨_, by rw [h.2]⟩

end Op

/-- The function in which the placeholder of a label has been replaced by the address of a block. -/
structure Builder.Resolves (b : Builder) (l : LabelId) (x : BlockId) (after : Builder) : Prop where
  rest : after = { b with graph := after.graph, labels := (b.labels.retire l).2 }
  layout : after.graph.layout = b.graph.layout
  taken : ∀ y, after.graph.taken y = true ↔ b.graph.taken y = true ∨ y = x ∧ b.labels.wanted l
  ops : ∀ i, after.graph.op? i = b.graph.op? i ∨
    ∃ p, b.labels.mark l = some p ∧ after.graph.op? i = (b.graph.op? i).map (Op.resolve p x)
  used : ∀ p i, b.labels.mark l = some p → b.labels.UsedBy p i →
    after.graph.op? i = (b.graph.op? i).map (Op.resolve p x)

namespace Build

/-- Replacing a placeholder in some instructions. -/
theorem resolveIns_ensures (p : PlaceholderId) (x : BlockId) : ∀ (is : List InstrId) (b : Builder),
    Ensures (is.forM (resolveIn p x)) b (fun _ after => after = { b with graph := after.graph } ∧
      after.graph.layout = b.graph.layout ∧ (∀ y, after.graph.taken y = b.graph.taken y) ∧
      ∀ i, after.graph.op? i = if i ∈ is then (b.graph.op? i).map (Op.resolve p x) else b.graph.op? i)
      fun e _ => ∃ f, e = .fault f
  | [], b => ⟨rfl, rfl, fun _ => rfl, fun _ => by simp⟩
  | j :: is, b => by
    show Ensures (resolveIn p x j >>= fun _ => is.forM (resolveIn p x)) b _ _
    rw [ensures_bind]
    refine ensures_onGraph.mpr ⟨fun g run => ?_, fun f _ => ⟨f, rfl⟩⟩
    refine (resolveIns_ensures p x is { b with graph := g }).imp ?_
    rintro - after ⟨rest, layout, taken, ops⟩
    refine ⟨rest, layout.trans (layout_of_updateInstr run),
      fun y => (taken y).trans (taken_of_updateInstr run y), fun i => ?_⟩
    rw [ops i, op?_of_updateInstr (t := Op.resolve p x) run fun _ => rfl]
    by_cases here : i = j
    · subst here
      simp only [↓reduceIte, mem_cons, true_or, Option.map_map]
      split
      · congr 1
        funext op
        exact Op.resolve_resolve
      · rfl
    · simp [here]

/-- What replacing the placeholder of a label does to a function. -/
theorem resolve_ensures (h : b.labels.Paired) (l : LabelId) (x : BlockId) :
    Ensures (resolve l x) b (fun _ after => b.Resolves l x after) fun e _ => ∃ f, e = .fault f := by
  -- First the address is marked as taken, if it has been.
  refine .get (Ensures.when (P := fun mid => mid = { b with graph := mid.graph } ∧
    mid.graph.layout = b.graph.layout ∧ (∀ i, mid.graph.op? i = b.graph.op? i) ∧
    ∀ y, mid.graph.taken y = true ↔ b.graph.taken y = true ∨ y = x ∧ b.labels.wanted l) ?_ ?_)
  · split
    · next wanted =>
      refine ensures_onGraph.mpr ⟨fun g run => ?_, fun f _ => ⟨f, rfl⟩⟩
      refine ⟨rfl, layout_of_updateBlock run, op?_of_updateBlock run, fun y => ?_⟩
      show g.taken y = true ↔ _
      rw [taken_of_updateBlock (t := fun _ => true) run fun _ => rfl]
      by_cases same : y = x <;> simp [same, LabelTable.wanted, wanted]
    · next unwanted =>
      refine ⟨rfl, rfl, fun _ => rfl, fun y => ⟨.inl, fun hy => hy.elim id fun wanted => ?_⟩⟩
      exact absurd wanted.2 unwanted
  -- Then the placeholder is taken back, and replaced where it is used.
  · rintro mid ⟨rest, layout, ops, taken⟩
    have labels : mid.labels = b.labels := by rw [rest]
    refine ensures_bind.mpr (ensures_modifyGet.mpr ?_)
    rw [labels]
    rcases LabelTable.retire_cases h l with ⟨unmarked, eq⟩ | ⟨p, is, marked, users, eq⟩
    · rw [eq]
      refine ensures_pure.mpr ⟨?_, layout, taken, fun i => .inl (ops i), fun p i marked => ?_⟩
      · rw [eq, rest]
      · cases unmarked.symm.trans marked
    · rw [eq]
      refine (resolveIns_ensures p x is _).imp ?_
      rintro - after ⟨rest', layout', taken', ops'⟩
      have same : ∀ i, after.graph.op? i =
          if i ∈ is then (b.graph.op? i).map (Op.resolve p x) else b.graph.op? i := fun i => by
        rw [ops' i]
        exact ops i ▸ rfl
      refine ⟨?_, layout'.trans layout, fun y => ?_, fun i => ?_, fun q i marked' used => ?_⟩
      · rw [eq]
        exact rest'.trans (by rw [rest])
      · rw [taken' y]
        exact taken y
      · rw [same i]
        split
        · exact .inr ⟨p, marked, rfl⟩
        · exact .inl rfl
      · cases marked.symm.trans marked'
        obtain ⟨is', found, mem⟩ := used
        cases users.symm.trans found
        rw [same i, if_pos mem]

end Build

namespace Builder.Tied

variable {l : LabelId} {x : BlockId} {after : Builder}

variable (h : b.Tied strict)

include h

/-- Replacing the placeholder of a label by the address of its block keeps track of the rest. -/
theorem resolve (home : b.labels.home l = some x) (laid : x ∈ b.graph.layout)
    (r : b.Resolves l x after) : after.Tied strict := by
  have labels : after.labels = (b.labels.retire l).2 := by rw [r.rest]
  have keeps : ∀ y, b.Knows (.blockAddr y) → after.Knows (.blockAddr y) := fun y hy =>
    ⟨r.layout ▸ hy.1, (r.taken y).mpr (.inl hy.2)⟩
  -- What an instruction does now: what it did, or that with the placeholder replaced.
  have cases : ∀ {i op}, after.graph.op? i = some op → b.graph.op? i = some op ∨
      ∃ p op₀, b.labels.mark l = some p ∧ b.graph.op? i = some op₀ ∧ op = op₀.resolve p x := by
    intro i op hop
    rcases r.ops i with eq | ⟨p, marked, eq⟩
    · exact .inl (eq ▸ hop)
    · obtain ⟨op₀, found, rfl⟩ := Option.map_eq_some_iff.mp (eq ▸ hop)
      exact .inr ⟨p, op₀, marked, found, rfl⟩
  constructor
  · rw [labels]
    exact h.paired.retire l
  · intro s i op q hop mem
    rw [labels]
    rcases cases hop with old | ⟨p, op₀, marked, found, rfl⟩
    · have used := h.recorded s i op q old mem
      refine used.retire h.paired fun marked => ?_
      -- Where the placeholder of the label was used it is no more.
      have now := r.used q i marked used
      rw [old, hop] at now
      have eq : op = op.resolve q x := Option.some.inj now
      rw [eq] at mem
      rcases Op.mem_operands_resolve mem with ⟨-, other⟩ | ⟨eq, -⟩
      · exact other rfl
      · cases eq
    · rcases Op.mem_operands_resolve mem with ⟨old, other⟩ | ⟨eq, -⟩
      · refine (h.recorded s i op₀ q found old).retire h.paired fun marked' => ?_
        cases marked.symm.trans marked'
        exact other rfl
      · cases eq
  · intro i op y hop mem
    rcases cases hop with old | ⟨p, op₀, marked, found, rfl⟩
    · exact keeps y (h.addressed i op y old mem)
    · rcases Op.mem_operands_resolve mem with ⟨old, -⟩ | ⟨eq, -⟩
      · exact keeps y (h.addressed i op₀ y found old)
      · cases eq
        exact ⟨r.layout ▸ laid, (r.taken x).mpr (.inr ⟨rfl, h.paired.wanted l p marked⟩)⟩
  · intro y hy
    rw [labels, home_retire, wanted_retire]
    rcases (r.taken y).mp hy with old | ⟨rfl, wanted⟩
    · exact h.homes y old
    · exact ⟨l, home, wanted⟩
  · intro k hk
    rw [labels, settled_retire] at hk
    rw [labels, home_retire, r.layout]
    exact h.laid k hk
  · intro i addr dests hop
    rw [labels, branches_retire]
    rcases cases hop with old | ⟨p, op₀, -, found, eq⟩
    · exact h.branches i addr dests old
    · obtain ⟨addr', rfl⟩ := Op.indirectBr_of_resolve eq.symm
      exact h.branches i addr' dests found
  · rw [r.rest]
    exact h.plain

/-- The address of the block of a label may be used once the address of the label has been taken. -/
theorem takeAddress (home : b.labels.home l = some x) (wanted : b.labels.wanted l)
    {g : Graph} (run : b.graph.updateBlock x ({ · with addressTaken := true }) = .ok g) :
    ({ b with graph := g } : Builder).Tied strict := by
  have ops := op?_of_updateBlock run
  have layout := layout_of_updateBlock run
  have taken := taken_of_updateBlock (t := fun _ => true) run fun _ => rfl
  refine { h with
    recorded := fun s i op p hop => h.recorded s i op p (ops i ▸ hop)
    addressed := fun i op y hop mem => ?_
    homes := fun y hy => ?_
    laid := fun k hk => ?_
    branches := fun i addr dests hop => h.branches i addr dests (ops i ▸ hop) }
  · obtain ⟨laid, isTaken⟩ := h.addressed i op y (ops i ▸ hop) mem
    refine ⟨layout ▸ laid, ?_⟩
    rw [taken]
    split
    · rfl
    · exact isTaken
  · replace hy : g.taken y = true := hy
    rw [taken] at hy
    split at hy
    · next same => exact ⟨l, same ▸ home, wanted⟩
    · exact h.homes y hy
  · show ∃ y, b.labels.home k = some y ∧ y ∈ g.layout
    rw [layout]
    exact h.laid k hk

/-- The address of a label may be taken at any time. -/
theorem want : ({ b with labels := b.labels.want l } : Builder).Tied strict := by
  have home : (b.labels.want l).home = b.labels.home := home_want
  have settled : (b.labels.want l).settled = b.labels.settled := settled_want
  refine h.relabel h.paired.want (fun _ _ used => used) (fun k x hk => ?_)
    (fun k hk => wanted_want.mpr (.inl hk)) (fun k hk => ?_) fun _ mem => mem
  · rwa [home]
  · rw [home]
    rw [settled] at hk
    exact h.laid k hk

/-- A new placeholder stands for the address of a label. -/
theorem mint (wanted : b.labels.wanted l) (unmarked : b.labels.mark l = none) :
    ({ b with labels := b.labels.mint l } : Builder).Tied strict := by
  have home : (b.labels.mint l).home = b.labels.home := home_mint
  have settled : (b.labels.mint l).settled = b.labels.settled := settled_mint
  have same : (b.labels.mint l).wanted = b.labels.wanted := wanted_mint
  refine h.relabel (h.paired.mint wanted unmarked) (fun _ _ used => used.mint) (fun k x hk => ?_)
    (fun k hk => ?_) (fun k hk => ?_) fun _ mem => mem
  · rwa [home]
  · rwa [same]
  · rw [home]
    rw [settled] at hk
    exact h.laid k hk

/-- A label without a block gets one. -/
theorem setHome (homeless : b.labels.home l = none) (x : BlockId) :
    ({ b with labels := b.labels.update l ({ · with block := some x }) } : Builder).Tied strict := by
  have kept : ∀ k y, b.labels.home k = some y →
      (b.labels.update l ({ · with block := some x })).home k = some y := by
    intro k y hk
    rw [home, get?_update]
    split
    · next same =>
      rw [same, homeless] at hk
      cases hk
    · exact hk
  have settled : (b.labels.update l ({ · with block := some x })).settled = b.labels.settled :=
    settled_update fun _ => rfl
  have wanted : (b.labels.update l ({ · with block := some x })).wanted = b.labels.wanted :=
    wanted_update_of_same fun _ => rfl
  exact h.relabel (h.paired.setHome x) (fun _ _ used => used) kept (fun k hk => wanted ▸ hk)
    (fun k hk => (h.laid k (settled ▸ hk)).imp fun y here => ⟨kept k y here.1, here.2⟩) fun _ mem => mem

/-- A label gets its place when its block is laid out. -/
theorem settle (home : b.labels.home l = some x) :
    ({ b with labels := b.labels.settle l, graph := b.graph.attach x } : Builder).Tied strict := by
  have attached : ({ b with graph := b.graph.attach x } : Builder).Tied strict :=
    h.congr (fun _ => op?_attach) (fun _ => taken_attach)
      (fun _ hy => mem_layout_attach.mpr (.inl hy)) rfl h.plain
  have homes : (b.labels.settle l).home = b.labels.home := home_settle
  have wanted : (b.labels.settle l).wanted = b.labels.wanted := wanted_settle
  refine attached.relabel h.paired.settle (fun _ _ used => used) (fun k y hk => homes ▸ hk)
    (fun k hk => wanted ▸ hk) (fun k hk => ?_) fun _ mem => mem
  rw [homes]
  rcases settled_settle.mp hk with old | ⟨rfl, -⟩
  · obtain ⟨y, hy, mem⟩ := h.laid k old
    exact ⟨y, hy, mem_layout_attach.mpr (.inl mem)⟩
  · exact ⟨x, home, mem_layout_attach.mpr (.inr rfl)⟩

/-- Where all uses are recorded, the placeholder of the label is replaced in every instruction. -/
theorem op?_resolve (s : strict) (r : b.Resolves l x after) {p : PlaceholderId}
    (marked : b.labels.mark l = some p) (i : InstrId) : after.graph.op? i = (b.graph.op? i).map (Op.resolve p x) := by
  rcases r.ops i with eq | ⟨q, marked', eq⟩
  · cases hop : b.graph.op? i with
    | none => rw [eq, hop]; rfl
    | some op =>
      by_cases uses : .placeholder p ∈ op.operands
      · rw [← hop]
        exact r.used p i marked (h.recorded s i op p hop uses)
      · rw [eq, hop, Option.map_some, Op.resolve_eq_self uses]
  · cases marked.symm.trans marked'
    exact eq

end Builder.Tied

/-! ### Labels -/

namespace Build

variable (h : b.Tracked strict)

include h

theorem newLabel_notes (span : Span) : Notes strict steady (newLabel span) b fun _ _ => True := by
  have home := home_add b.labels span
  have settled := settled_add b.labels span
  have wanted : (b.labels.add span).2.wanted = b.labels.wanted := wanted_add span
  have tied := h.toTied.relabel (h.paired.add span) (fun _ _ used => used) (fun l x hl => home ▸ hl)
    (fun l hl => wanted ▸ hl) (fun l hl => home ▸ h.laid l (settled ▸ hl)) fun _ mem => mem
  exact ⟨⟨tied, h.exact.add span⟩, .of_same rfl (fun _ hx => hx) (fun _ hx => hx) fun _ hp => hp, trivial⟩

/-- The block of a label is there from now on. -/
theorem labelBlock_notes (l : LabelId) (span : Span) :
    Notes strict steady (labelBlock l span) b fun x after => after.labels.home l = some x ∧
      after.labels.mark = b.labels.mark ∧ ∀ i, after.graph.op? i = b.graph.op? i := by
  refine .get ?_
  split
  · next label found =>
    split
    · next x block =>
      exact .pure h ⟨by rw [home, found]; exact block, rfl, fun _ => rfl⟩
    · next none =>
      refine (newBlock_notes h _).bind fun x mid tracked _ same => ?_
      obtain ⟨labels, ops⟩ := same
      rw [← labels] at found
      have tied := tracked.toTied.setHome (l := l) (by rw [home, found]; exact none) x
      refine .of_run rfl ⟨⟨tied, tracked.exact.setHome x⟩,
        .of_same rfl (fun _ hx => hx) (fun _ hx => hx) fun _ hp => hp, ?_, ?_, ops⟩
      · simp [home, get?_update, found]
      · rw [← labels]
        exact mark_update_of_same fun _ => rfl
  · exact .fail h (by simp)

/-- A label gets its place, and the address of its block replaces the placeholder wherever it is used. -/
theorem defineLabel_notes (l : LabelId) (span : Span) :
    Notes strict false (defineLabel l span) b fun x after => after.labels.home l = some x ∧ (strict →
      ∀ p, b.labels.mark l = some p → ∀ i, after.graph.op? i = (b.graph.op? i).map (Op.resolve p x)) := by
  refine (labelBlock_notes h l span).bind fun x mid tracked _ ⟨here, mark, ops⟩ => .get ?_
  dsimp only
  split
  · exact .fail tracked (by simp)
  · have known : (mid.labels.get? l).isSome := by
      obtain ⟨label, found, -⟩ := Option.bind_eq_some_iff.mp here
      rw [found]
      rfl
    have home : (mid.labels.settle l).home = mid.labels.home := home_settle
    have settled := tracked.toTied.settle here
    show Ensures (resolve l x >>= fun _ => pure x)
      { mid with labels := mid.labels.settle l, graph := mid.graph.attach x } _ _
    refine Ensures.bind ((resolve_ensures settled.paired l x).mono (fun _ _ r => r) ?_) ?_
    · rintro _ _ ⟨f, rfl⟩
      trivial
    · rintro - after r
      have labels : after.labels = ((mid.labels.settle l).retire l).2 := by rw [r.rest]
      have laid : x ∈ (mid.graph.attach x).layout := mem_layout_attach.mpr (.inr rfl)
      refine ensures_pure.mpr
        ⟨⟨settled.resolve (home ▸ here) laid r, ?_⟩, ⟨?_, nofun⟩, ?_, fun s p marked i => ?_⟩
      · rw [labels]
        exact tracked.exact.settle tracked.paired known
      · rw [r.rest]
      · rw [labels, home_retire, home]
        exact here
      · have marked' : (mid.labels.settle l).mark l = some p := by
          rw [mark_settle, mark, marked]
        rw [settled.op?_resolve s r marked' i, ← ops i]
        exact congrArg (Option.map _) op?_attach

/-- The address of a label is known: it is that of a block, or a placeholder that is pending. -/
theorem addressOfLabel_notes (l : LabelId) (span : Span) :
    Notes strict steady (addressOfLabel l span) b fun v after => after.Knows v := by
  refine .get ?_
  split
  · next label found =>
    have known : (b.labels.get? l).isSome := by rw [found]; rfl
    have isWanted : (b.labels.want l).wanted l := wanted_want.mpr (.inr ⟨rfl, known⟩)
    have tied := h.toTied.want (l := l)
    refine .modify ?_
    split
    · next x defined block =>
      have isSettled : b.labels.settled l := settled_iff.mpr ⟨label, found, defined⟩
      have here : b.labels.home l = some x := by rw [home, found]; exact block
      obtain ⟨y, hy, laid⟩ := h.laid l isSettled
      cases here.symm.trans hy
      refine ensures_bind.mpr (ensures_onGraph.mpr ⟨fun g run => ?_, fun _ _ => trivial⟩)
      have taken := taken_of_updateBlock (t := fun _ => true) run fun _ => rfl
      have layout := layout_of_updateBlock run
      have home : (b.labels.want l).home l = some x := by rw [home_want, here]
      refine ensures_pure.mpr ⟨⟨tied.takeAddress home isWanted run, h.exact.want (.inl isSettled)⟩,
        .of_same rfl (fun _ hx => layout ▸ hx) (fun y hy => ?_) fun _ hp => hp, layout ▸ laid, ?_⟩
      · rw [taken]
        split
        · rfl
        · exact hy
      · rw [taken, if_pos rfl]
    · next unplaced =>
      have open' : ¬ b.labels.settled l := fun isSettled => by
        obtain ⟨x, hx, -⟩ := h.laid l isSettled
        obtain ⟨label', found', defined⟩ := settled_iff.mp isSettled
        cases found.symm.trans found'
        rw [home, found] at hx
        exact unplaced x defined hx
      refine ensures_bind.mpr (ensures_modifyGet.mpr (ensures_pure.mpr ?_))
      dsimp only
      rcases placeholderFor_cases (b.labels.want l) l with ⟨p, marked, eq⟩ | ⟨unmarked, eq⟩
      · rw [eq]
        have pending := tied.paired.pending l p marked
        refine ⟨⟨tied, h.exact.want (.inr ?_)⟩,
          .of_same rfl (fun _ hx => hx) (fun _ hx => hx) fun _ hp => hp, pending⟩
        rw [← mark_want (l := l), marked]
        rfl
      · rw [eq]
        refine ⟨⟨tied.mint isWanted unmarked, h.exact.mint known open'⟩,
          .of_same rfl (fun _ hx => hx) (fun _ hx => hx) fun _ hp => ?_, ?_⟩
        · exact isPending_mint.mpr (.inl hp)
        · exact isPending_mint.mpr (.inr rfl)
  · exact .fail h (by simp)

end Build

/-! ### Returns -/

/-- The function returns its result in a shape that it is loaded in from memory. -/
def Convention.loadsResult (c : Convention) : Bool :=
  c.result.passing.isDirect && (c.result.regShape.isAggregate || c.result.ty.isAggregate)

namespace Build

variable (h : b.Tracked strict)

include h

theorem loadThrough_notes (block : BlockId) {ptr : Operand} (shape : Shape)
    (unused : strict → ∀ p, ptr ≠ .placeholder p) (known : b.Knows ptr) :
    Notes strict steady (loadThrough block ptr shape) b fun v _ => v.isAddress = false := by
  refine (newCast_notes h _ unused known).bind fun cast _ tracked _ _ =>
    (append_notes tracked block cast).bind fun _ _ tracked _ _ => (fresh_notes tracked _).bind
    fun _ _ tracked _ _ => ?_
  refine (newTracked_notes tracked (fun v mem => ?_) (by simp)).bind fun load _ tracked _ _ =>
    (append_notes tracked block load).bind fun _ _ tracked _ _ => .pure tracked rfl
  rw [mem_singleton.mp mem]
  trivial

/-- What is returned may be a placeholder only if it need not be loaded. -/
theorem prepareReturn_notes (block : BlockId) {value : Option Operand} (span : Span) (known : ∀ v ∈ value, b.Knows v)
    (unused : strict → b.convention.loadsResult = true → ∀ v ∈ value, ∀ p, v ≠ .placeholder p) :
    Notes strict steady (prepareReturn block value span) b fun r after => ∀ v ∈ r, after.Knows v := by
  refine Notes.weaken (.get ?_)
  dsimp only
  split
  · exact .pure h (by rintro _ ⟨⟩)
  · next src _ =>
    refine (Notes.checked (Q := fun _ _ => True) h fun _ _ => trivial).bind fun size _ tracked follows _ =>
      (Notes.checked (Q := fun _ _ => True) tracked fun _ _ => trivial).bind
        fun align mid tracked follows' _ => ?_
    refine (newTracked_notes tracked (fun v mem => ?_) (by simp)).bind fun copy _ tracked _ _ =>
      (append_notes tracked block copy).bind fun _ _ tracked _ _ => .pure tracked (by rintro _ ⟨⟩)
    simp only [Op.operands, mem_cons, not_mem_nil, or_false] at mem
    rcases mem with rfl | rfl
    · trivial
    · exact (follows.trans follows').knows rfl v (known v rfl)
  · next chunks ext value direct =>
    split
    · next loads =>
      have through : b.convention.loadsResult = true := by
        rw [Convention.loadsResult, direct]
        exact loads
      refine (loadThrough_notes h block _ (fun s p => unused s through value rfl p) (known value rfl)).bind
        fun v _ tracked _ plain => .pure tracked ?_
      rintro _ ⟨⟩
      exact Builder.knows_of_plain plain
    · exact .pure h known
  · exact .fail h (by simp)

theorem returnSlot_notes : Notes strict steady returnSlot b fun v _ => v.isAddress = false := by
  refine .get ?_
  split
  · next slot found =>
    refine .pure h (h.plain slot ?_)
    simp [Builder.roots, found]
  · refine .get ((newTemporary_notes h _ _).bind fun slot mid tracked _ plain => ?_)
    refine (change_notes tracked rfl fun v hv => ?_).bind fun _ _ tracked _ _ => .pure tracked plain
    simp only [Builder.roots, mem_append, Option.toList_some, mem_singleton] at hv
    rcases hv with (old | old) | rfl
    · exact tracked.plain v (mem_append_left _ (mem_append_left _ old))
    · exact tracked.plain v (mem_append_left _ (mem_append_right _ old))
    · exact plain

end Build

/-! ### Setting a function up -/

theorem Graph.Storage.isAddress {g : Graph} {v : Operand} (h : g.Storage v) : v.isAddress = false := by
  cases v <;> first | rfl | cases h

theorem Op.Fills.unaddressed {base : Operand → Prop} {op : Op} (h : op.Fills base)
    (plain : ∀ v, base v → v.isAddress = false) : op.Unaddressed := by
  refine ⟨fun v hv => ?_, by cases h <;> simp⟩
  cases h with
  | cast dst there | field index there => exact mem_singleton.mp hv ▸ plain _ there
  | store n there =>
    rcases mem_cons.mp hv with rfl | hv
    · rfl
    · exact mem_singleton.mp hv ▸ plain _ there

namespace Builder

variable {after : Builder}

theorem Tracked.spilled {base : Operand → Prop} {is : List InstrId} (h : b.Tracked strict)
    (k : b.Spilled base after is) (plain : ∀ v, base v → v.isAddress = false) : after.Tracked strict := by
  refine ⟨h.toTied.grow (fun i op hop => ?_) ?_ ?_ ?_ fun v hv => h.plain v ?_, ?_⟩
  · by_cases old : i.index < b.graph.instrs.size
    · exact .inl ((k.op?_old old).symm.trans hop)
    · obtain ⟨op', hop', fills⟩ := k.new i ((k.mem i).mpr ⟨Nat.le_of_not_lt old, index_lt_of_op? hop⟩)
      cases hop.symm.trans hop'
      refine .inr (fills.unaddressed fun v there => ?_)
      rcases there with there | ⟨j, -, rfl, -⟩
      · exact plain v there
      · rfl
  all_goals obtain ⟨_, _, _, same⟩ := k.same
  · rw [same]
    exact fun _ => rfl
  · rw [same]
    exact fun _ hx => hx
  · rw [same]
  · rw [roots_eq, k.holdings, same] at hv
    rwa [roots_eq]
  · rw [same]
    exact h.exact

/-- Storage has nothing to do with labels. -/
theorem Move.tracked (k : b.Move after) (h : b.Tracked strict) : after.Tracked strict := by
  cases k with
  | adorn k =>
    obtain ⟨graph, names, rfl, -, alike⟩ := k
    exact h.congr alike.op? (fun x => by rw [taken, alike.blocks, taken]) (fun _ hx =>
      alike.layout ▸ hx) rfl
      h.plain
  | note storage =>
    exact h.congr (fun _ => rfl) (fun _ => rfl) (fun _ hx => hx) rfl fun v hv =>
      (storage v hv).elim (h.plain v) (·.isAddress)
  | slot shape name =>
    have notes : Notes strict true (Build.newSlot shape name) b _ := Build.newSlot_notes h shape name
    exact (Ensures.of_ok notes (Build.newSlot_eq b shape name)).1
  | fill placed waits isSlot k =>
    exact (h.spilled k (by rintro _ rfl; rfl)).congr (fun _ => rfl) (fun _ => rfl) (fun _ hx => hx) rfl
      (h.spilled k (by rintro _ rfl; rfl)).plain
  | prolog unplaced k run =>
    have tracked := h.spilled k fun _ there => there.isAddress
    exact tracked.congr (op?_of_updateBlock run) (taken_of_insertFront run)
      (fun _ hx => layout_of_updateBlock run ▸ hx) rfl tracked.plain
  | late run =>
    exact h.congr (op?_of_updateBlock run) (taken_of_insertFront run)
      (fun _ hx => layout_of_updateBlock run ▸ hx) rfl h.plain

end Builder

namespace Build

theorem placeProlog_notes {target : Target} {sig : Signature} {given : Issued} (h : b.Tracked strict)
    (k : b.Apportioned target sig given) : Ensures placeProlog b
    (fun _ after => after.Tracked strict ∧ after.convention = b.convention ∧ after.prologPlaced = true)
    fun e after => e.Leaves (after.Tracked strict) := by
  refine (placeProlog_stores k).mono (fun _ after stored => ?_) ?_
  · exact ⟨stored.1.1.keeps Builder.Move.tracked h, Option.some.inj (stored.1.2.convention.symm.trans k.convention),
      stored.2⟩
  · rintro (f | e) after failed
    · trivial
    · refine ⟨fun n eq => ?_, fun v eq => ?_, failed.2.1.keeps Builder.Move.tracked h⟩ <;>
      · have storage := failed.1
        rw [eq] at storage
        cases storage


/-- Every call about labels keeps track of their uses, whether it succeeds or reports an error. -/
theorem Call.apply_tracked {call : Call} {after : Builder} (other : call.isStorage = false)
    (run : call.apply b = .ok after) (h : b.Tracked strict) : after.Tracked strict := by
  have kept : ∀ {α : Type} {x : BuildM α} {Q : α → Builder → Prop}, (call.perform = do let _ ← x) →
      Notes strict false x b Q → after.Tracked strict := fun performs notes =>
    (exists_of_apply performs notes run).elim (fun ⟨_, _, tracked, _⟩ => tracked) fun ⟨_, _, _, _, tracked⟩ => tracked
  cases call with
  | newLabel span => exact kept rfl (newLabel_notes h span)
  | labelBlock l span => exact kept rfl (labelBlock_notes h l span)
  | defineLabel l span => exact kept rfl (defineLabel_notes h l span)
  | addressOfLabel l span => exact kept rfl (addressOfLabel_notes h l span)
  | registerParam | registerEnv | registerLocal | newTemporary | markError | fresh | placeProlog | placeLateSlots =>
    cases other

/-- The uses of labels are tracked through any sequence of calls, whether they succeed or not. -/
theorem prepare_tracked {calls : List Call} {after : Builder} {target : Target} {sig : Signature} {given : Issued}
    (h : b.Tracked strict) (k : b.Apportioned target sig given) (run : prepare calls b = .ok after) :
    after.Tracked strict :=
  (prepare_keeps Builder.Move.tracked Call.apply_tracked k h run).1

end Build

/-- A function has no labels to begin with. -/
theorem Session.begin_tracked {s : Session} {name : String} {signature : Signature} {b : Builder}
    (run : s.begin name signature = .ok b) : b.Tracked strict := by
  unfold Session.begin at run
  rw [Checked.bind_eq_ok_iff] at run
  obtain ⟨convention, -, run⟩ := run
  cases run
  have taken : ∀ x : BlockId, ((new name convention.argShapes convention.returnShape).addBlock
      "entry").2.taken x = false := by
    rintro ⟨_ | n⟩ <;> rfl
  refine ⟨⟨⟨?_, ?_, ?_, ?_⟩, ?_, ?_, ?_, ?_, ?_, ?_⟩, ?_, ?_⟩
  · rintro p ⟨⟩
  · rintro l p ⟨⟩
  · rintro l k p ⟨⟩
  · rintro l p ⟨⟩
  · rintro - i op p ⟨⟩
  · rintro i op x ⟨⟩
  · intro x hx
    cases (taken x).symm.trans hx
  · rintro l ⟨⟩
  · rintro i addr dests ⟨⟩
  · rintro v ⟨⟩
  · rintro l ⟨⟩
  · rintro l p ⟨⟩

end FlowIR

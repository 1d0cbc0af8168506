import FlowIR.Graph.Basic

/-!
What is seen of a graph: the instructions that a block lists, what an instruction does, and whether
the address of a block is used. Each operation on graphs is known by what it does to these views.

A block that does not exist lists nothing, so a new block changes no list.
-/

namespace FlowIR

open List

namespace Op

/-- Whether the machine keeps a result when the instruction is executed. The result of a call that
can unwind is kept too, but only where it goes on normally. -/
def yields : Op → Bool
  | .alloca _ | .load _ | .cast _ _ _ | .fieldAddr _ _ | .arith _ _ _ | .compare _ _ _
  | .call _ _ | .landingPad _ => true
  | _ => false

/-- Where a call that can unwind goes on normally, if that is not where it unwinds to. -/
def normal? : Op → Option BlockId
  | .invoke _ _ normal unwind => if normal = unwind then none else some normal
  | _ => none

def unwind? : Op → Option BlockId
  | .invoke _ _ _ unwind => some unwind
  | _ => none

/-- Whether the instruction is no landing pad and, if it can unwind, goes elsewhere then. -/
def isInner (op : Op) : Bool := !op.isLandingPad && (op.unwind?.isNone || op.normal?.isSome)

variable {op : Op}

theorem isInner_iff : op.isInner = true ↔ op.isLandingPad = false ∧ (op.unwind? ≠ none → op.normal? ≠ none) := by
  rw [isInner, Bool.and_eq_true, Bool.not_eq_true', Bool.or_eq_true, Option.isNone_iff_eq_none,
    ← Option.ne_none_iff_isSome,
    Decidable.or_iff_not_imp_left]

def isAlloca : Op → Bool
  | .alloca _ => true
  | _ => false

@[simp] theorem isTerminator_mapOperands (f : Operand → Operand) (op : Op) :
    (op.mapOperands f).isTerminator = op.isTerminator := by
  cases op <;> rfl

@[simp] theorem successors_mapOperands (f : Operand → Operand) (op : Op) :
    (op.mapOperands f).successors = op.successors := by
  cases op <;> rfl

@[simp] theorem yields_mapOperands (f : Operand → Operand) (op : Op) : (op.mapOperands f).yields = op.yields := by
  cases op <;> rfl

@[simp] theorem normal?_mapOperands (f : Operand → Operand) (op : Op) : (op.mapOperands f).normal? = op.normal? := by
  cases op <;> rfl

@[simp] theorem unwind?_mapOperands (f : Operand → Operand) (op : Op) : (op.mapOperands f).unwind? = op.unwind? := by
  cases op <;> rfl

@[simp] theorem isLandingPad_mapOperands (f : Operand → Operand) (op : Op) :
    (op.mapOperands f).isLandingPad = op.isLandingPad := by
  cases op <;> rfl

@[simp] theorem isAlloca_mapOperands (f : Operand → Operand) (op : Op) :
    (op.mapOperands f).isAlloca = op.isAlloca := by
  cases op <;> rfl

/-- An instruction without successors goes nowhere; every other one ends a block. -/
theorem isTerminator_of_successor {t : BlockId} (h : t ∈ op.successors) : op.isTerminator = true := by
  cases op <;> first | rfl | simp [successors] at h

theorem successor_of_unwind? {t : BlockId} (h : op.unwind? = some t) : t ∈ op.successors := by
  cases op with
  | invoke => simp_all [unwind?, successors]
  | _ => cases h

/-- A switch goes to its default block and to the blocks of its cases. -/
theorem mem_successors_switch {value : Operand} {default t : BlockId} {cases : List (Int × BlockId)} :
    t ∈ (Op.switch value default cases).successors ↔ t = default ∨ t ∈ cases.map Prod.snd := by
  have fold : ∀ (l acc : List BlockId), t ∈ l.foldl addTarget acc ↔ t ∈ acc ∨ t ∈ l := by
    intro l
    induction l with
    | nil => simp
    | cons x l ih =>
      intro acc
      rw [foldl_cons, ih, addTarget]
      split
      · next old =>
        rw [mem_cons]
        exact ⟨Or.imp id .inr, fun h => h.elim .inl (Or.imp (· ▸ old) id)⟩
      · simp [or_assoc]
  rw [successors, fold, mem_singleton]

theorem successors_eq_nil_of_yields (h : op.yields = true) : op.successors = [] := by
  cases op <;> first | rfl | simp [yields] at h

theorem operands_eq_nil_of_isAlloca (h : op.isAlloca = true) : op.operands = [] := by
  cases op <;> first | rfl | simp [isAlloca] at h

end Op

namespace Graph

variable {g after : Graph} {x y : BlockId} {i j : InstrId} {f : Block → Block}

def body (g : Graph) (x : BlockId) : List InstrId := (g.blocks[x.index]?).elim [] Block.body

def op? (g : Graph) (i : InstrId) : Option Op := g.instrs[i.index]?.map Instr.op

def taken (g : Graph) (x : BlockId) : Bool := g.blocks[x.index]?.any Block.addressTaken

/-- A block ends if the last instruction that it lists is one that ends a block. -/
def Ends (g : Graph) (x : BlockId) : Prop :=
  ∃ i op, (g.body x).getLast? = some i ∧ g.op? i = some op ∧ op.isTerminator = true

theorem body_of_block {b : Block} (h : g.block x = .ok b) : g.body x = b.body := by
  simp only [block, require_eq_ok_iff] at h
  simp [body, h]

theorem index_lt_of_block {b : Block} (h : g.block x = .ok b) : x.index < g.blocks.size := by
  simp only [block, require_eq_ok_iff] at h
  exact (Array.getElem?_eq_some_iff.mp h).1

theorem index_lt_of_mem_body (h : i ∈ g.body x) : x.index < g.blocks.size := by
  unfold body at h
  cases found : g.blocks[x.index]? with
  | none => simp [found] at h
  | some b => exact (Array.getElem?_eq_some_iff.mp found).1

theorem exists_block (h : x.index < g.blocks.size) : ∃ b, g.block x = .ok b := by
  refine ⟨g.blocks[x.index], ?_⟩
  simp [block, h]

theorem op?_of_instr {instr : Instr} (h : g.instr i = .ok instr) : g.op? i = some instr.op := by
  simp only [Graph.instr, require_eq_ok_iff] at h
  simp [op?, h]

theorem exists_instr {op : Op} (h : g.op? i = some op) : ∃ instr, g.instr i = .ok instr ∧ instr.op = op := by
  obtain ⟨instr, found, rfl⟩ := Option.map_eq_some_iff.mp h
  exact ⟨instr, by simp [Graph.instr, found], rfl⟩

theorem index_lt_of_op? {op : Op} (h : g.op? i = some op) : i.index < g.instrs.size := by
  obtain ⟨instr, found, -⟩ := Option.map_eq_some_iff.mp h
  exact (Array.getElem?_eq_some_iff.mp found).1

/-! ### Ends of blocks -/

theorem terminator_eq_ok {o : Option InstrId} (h : g.terminator x = .ok o) :
    (∃ i, o = some i ∧ (g.body x).getLast? = some i ∧ ∃ op, g.op? i = some op ∧ op.isTerminator = true) ∨
      (o = none ∧ ¬ g.Ends x) := by
  unfold terminator at h
  rw [Checked.bind_eq_ok_iff] at h
  obtain ⟨b, hb, h⟩ := h
  have same := body_of_block hb
  cases last : b.body.getLast? with
  | none =>
    rw [last] at h
    cases h
    refine .inr ⟨rfl, ?_⟩
    rintro ⟨i, op, hi, -⟩
    rw [same, last] at hi
    cases hi
  | some i =>
    rw [last] at h
    simp only [] at h
    rw [Checked.bind_eq_ok_iff] at h
    obtain ⟨instr, hinstr, h⟩ := h
    have known := op?_of_instr hinstr
    cases h
    by_cases ends : instr.op.isTerminator = true
    · exact .inl ⟨i, if_pos ends, same ▸ last, instr.op, known, ends⟩
    · refine .inr ⟨if_neg ends, ?_⟩
      rintro ⟨k, op, hk, hop, hterm⟩
      rw [same, last] at hk
      cases hk
      rw [known] at hop
      cases hop
      exact ends hterm

/-- A block is found to have an end exactly if it ends. -/
theorem isTerminated_eq_ok {t : Bool} (h : g.isTerminated x = .ok t) : t = true ↔ g.Ends x := by
  unfold isTerminated at h
  rw [Checked.bind_eq_ok_iff] at h
  obtain ⟨o, ho, h⟩ := h
  cases h
  rcases terminator_eq_ok ho with ⟨i, rfl, last, op, hop, hterm⟩ | ⟨rfl, open'⟩
  · simpa using ⟨i, op, last, hop, hterm⟩
  · simpa using open'

/-- The end of a block can be looked for if the block exists and its last instruction does. -/
theorem exists_terminator_iff : (∃ o, g.terminator x = .ok o) ↔
    x.index < g.blocks.size ∧ ∀ i, (g.body x).getLast? = some i → i.index < g.instrs.size := by
  constructor
  · rintro ⟨o, run⟩
    obtain ⟨b, hb, run⟩ := Checked.bind_eq_ok_iff.mp run
    refine ⟨index_lt_of_block hb, fun i last => ?_⟩
    rw [body_of_block hb] at last
    simp only [last, Checked.bind_eq_ok_iff] at run
    obtain ⟨instr, found, -⟩ := run
    exact index_lt_of_op? (op?_of_instr found)
  · rintro ⟨placed, known⟩
    obtain ⟨b, hb⟩ := exists_block placed
    rw [body_of_block hb] at known
    simp only [terminator, hb, Bind.bind, Except.bind]
    cases last : b.body.getLast? with
    | none => exact ⟨none, rfl⟩
    | some i =>
      obtain ⟨instr, found⟩ : ∃ instr, g.instr i = .ok instr := by simp [Graph.instr, known i last]
      simp only [found]
      exact ⟨_, rfl⟩

/-- Whether a block ends can be found out if the block exists and the instructions it lists do. -/
theorem exists_isTerminated (hx : x.index < g.blocks.size)
    (listed : ∀ i ∈ g.body x, (g.op? i).isSome) : ∃ t, g.isTerminated x = .ok t := by
  obtain ⟨o, run⟩ := exists_terminator_iff.mpr ⟨hx, fun i last => by
    obtain ⟨op, hop⟩ := Option.isSome_iff_exists.mp (listed i (mem_of_getLast? last))
    exact index_lt_of_op? hop⟩
  exact ⟨o.isSome, by rw [isTerminated, run]; rfl⟩

/-- If only the last instruction of a block may end it, one that does is the last. -/
theorem getLast?_of_terminator {op : Op}
    (once : ∀ i ∈ (g.body x).dropLast, ∀ op, g.op? i = some op → op.isTerminator = false) (hi : i ∈ g.body x)
    (hop : g.op? i = some op) (hterm : op.isTerminator = true) : (g.body x).getLast? = some i := by
  have nonempty : g.body x ≠ [] := ne_nil_of_mem hi
  rw [← dropLast_concat_getLast nonempty, mem_append, mem_singleton] at hi
  rcases hi with early | last
  · exact absurd (once i early op hop) (by simp [hterm])
  · rw [getLast?_eq_some_getLast nonempty, last]

/-! ### Operations -/

@[simp] theorem body_newBlock (name : String) : (g.newBlock name).2.body x = g.body x := by
  simp only [body, newBlock, Array.getElem?_push]
  split
  · next new => simp [new]
  · rfl

@[simp] theorem op?_newBlock (name : String) : (g.newBlock name).2.op? i = g.op? i := rfl

@[simp] theorem taken_newBlock (name : String) : (g.newBlock name).2.taken x = g.taken x := by
  simp only [taken, newBlock, Array.getElem?_push]
  split
  · next new => simp [new]
  · rfl

@[simp] theorem layout_newBlock (name : String) : (g.newBlock name).2.layout = g.layout := rfl

@[simp] theorem size_newBlock (name : String) : (g.newBlock name).2.blocks.size = g.blocks.size + 1 :=
  Array.size_push _

@[simp] theorem body_attach : (g.attach y).body x = g.body x := by
  unfold attach; split <;> rfl

@[simp] theorem op?_attach : (g.attach y).op? i = g.op? i := by
  unfold attach; split <;> rfl

@[simp] theorem taken_attach : (g.attach y).taken x = g.taken x := by
  unfold attach; split <;> rfl

@[simp] theorem blocks_attach : (g.attach y).blocks = g.blocks := by
  unfold attach; split <;> rfl

@[simp] theorem args_attach : (g.attach y).args = g.args := by
  unfold attach; split <;> rfl

@[simp] theorem instrs_attach : (g.attach y).instrs = g.instrs := by
  unfold attach; split <;> rfl

@[simp] theorem mem_layout_attach : x ∈ (g.attach y).layout ↔ x ∈ g.layout ∨ x = y := by
  unfold attach
  split
  · next there => exact ⟨.inl, fun h => h.elim id (· ▸ there)⟩
  · simp

theorem nodup_layout_attach (h : g.layout.Nodup) : (g.attach y).layout.Nodup := by
  unfold attach
  split
  · exact h
  · next new =>
    refine nodup_append.mpr ⟨h, by simp, ?_⟩
    intro a ha b hb eq
    rw [mem_singleton] at hb
    exact new (hb ▸ eq ▸ ha)

theorem layout_prefix_attach : g.layout <+: (g.attach y).layout := by
  unfold attach
  split
  · exact prefix_rfl
  · exact prefix_append _ _

@[simp] theorem op?_newInstr (instr : Instr) :
    (g.newInstr instr).2.op? i = if i.index = g.instrs.size then some instr.op else g.op? i := by
  simp only [op?, newInstr, Array.getElem?_push]
  split <;> rfl

@[simp] theorem body_newInstr (instr : Instr) : (g.newInstr instr).2.body x = g.body x := rfl

@[simp] theorem taken_newInstr (instr : Instr) : (g.newInstr instr).2.taken x = g.taken x := rfl

theorem eq_of_updateBlock (run : g.updateBlock y f = .ok after) :
    y.index < g.blocks.size ∧ after = { g with blocks := g.blocks.modify y.index f } := by
  unfold updateBlock at run
  by_cases there : y.index < g.blocks.size
  · rw [if_pos there] at run
    cases run
    exact ⟨there, rfl⟩
  · rw [if_neg there] at run
    cases run

theorem layout_of_updateBlock (run : g.updateBlock y f = .ok after) : after.layout = g.layout := by
  obtain ⟨-, rfl⟩ := eq_of_updateBlock run
  rfl

/-- It does not matter whether a block is laid out before or after an instruction is made. -/
theorem newInstr_attach (instr : Instr) : ((g.attach x).newInstr instr).2 = (g.newInstr instr).2.attach x := by
  unfold attach
  split
  · next laid => exact (if_pos laid).symm
  · next out => exact (if_neg out).symm

/-- Nor whether it is laid out before or after it gets the instruction. -/
theorem append_attach (run : (g.attach x).append y i = .ok after) :
    ∃ mid, g.append y i = .ok mid ∧ after = mid.attach x := by
  obtain ⟨there, rfl⟩ := eq_of_updateBlock run
  rw [blocks_attach] at there
  refine ⟨_, if_pos there, ?_⟩
  unfold attach
  split <;> rfl

section

variable (run : g.updateBlock y f = .ok after)

include run

theorem instrs_of_updateBlock : after.instrs = g.instrs := by
  obtain ⟨-, rfl⟩ := eq_of_updateBlock run
  rfl

theorem op?_of_updateBlock (i : InstrId) : after.op? i = g.op? i := by
  rw [op?, instrs_of_updateBlock run, op?]

theorem size_of_updateBlock : after.blocks.size = g.blocks.size := by
  obtain ⟨-, rfl⟩ := eq_of_updateBlock run
  exact Array.size_modify

theorem body_of_updateBlock {t : List InstrId → List InstrId} (hf : ∀ b, (f b).body = t b.body) (x : BlockId) :
    after.body x = if x = y then t (g.body y) else g.body x := by
  obtain ⟨hy, rfl⟩ := eq_of_updateBlock run
  simp only [body, Array.getElem?_modify]
  by_cases same : x = y
  · subst same
    simp [hy, hf]
  · have apart : y.index ≠ x.index := fun eq => same (by cases x; cases y; exact congrArg _ eq.symm)
    simp [same, apart]

theorem taken_of_updateBlock {t : Bool → Bool} (hf : ∀ b, (f b).addressTaken = t b.addressTaken)
    (x : BlockId) : after.taken x = if x = y then t (g.taken y) else g.taken x := by
  obtain ⟨hy, rfl⟩ := eq_of_updateBlock run
  simp only [taken, Array.getElem?_modify]
  by_cases same : x = y
  · subst same
    simp [hy, hf]
  · have apart : y.index ≠ x.index := fun eq => same (by cases x; cases y; exact congrArg _ eq.symm)
    simp [same, apart]

theorem taken_eq_of_updateBlock
    (hf : ∀ b, (f b).addressTaken = b.addressTaken) (x : BlockId) : after.taken x = g.taken x := by
  rw [taken_of_updateBlock (t := fun taken => taken) run hf]
  split
  · next same => rw [same]
  · rfl

end

theorem body_of_append (run : g.append y i = .ok after) (x : BlockId) :
    after.body x = if x = y then g.body y ++ [i] else g.body x :=
  body_of_updateBlock (t := (· ++ [i])) run (fun _ => rfl) x

theorem taken_of_append (run : g.append y i = .ok after) (x : BlockId) : after.taken x = g.taken x :=
  taken_eq_of_updateBlock run (fun _ => rfl) x

theorem body_of_insertFront {is : List InstrId} (run : g.insertFront y is = .ok after)
    (x : BlockId) : after.body x = if x = y then is ++ g.body y else g.body x :=
  body_of_updateBlock (t := (is ++ ·)) run (fun _ => rfl) x

theorem taken_of_insertFront {is : List InstrId} (run : g.insertFront y is = .ok after) (x : BlockId) :
    after.taken x = g.taken x :=
  taken_eq_of_updateBlock run (fun _ => rfl) x

theorem eq_of_updateInstr {f : Instr → Instr} (run : g.updateInstr j f = .ok after) :
    j.index < g.instrs.size ∧ after = { g with instrs := g.instrs.modify j.index f } := by
  unfold updateInstr at run
  by_cases there : j.index < g.instrs.size
  · rw [if_pos there] at run
    cases run
    exact ⟨there, rfl⟩
  · rw [if_neg there] at run
    cases run

theorem layout_of_updateInstr {f : Instr → Instr} (run : g.updateInstr j f = .ok after) :
    after.layout = g.layout := by
  obtain ⟨-, rfl⟩ := eq_of_updateInstr run
  rfl

theorem blocks_of_updateInstr {f : Instr → Instr} (run : g.updateInstr j f = .ok after) :
    after.blocks = g.blocks := by
  obtain ⟨-, rfl⟩ := eq_of_updateInstr run
  rfl

theorem body_of_updateInstr {f : Instr → Instr} (run : g.updateInstr j f = .ok after)
    (x : BlockId) : after.body x = g.body x := by
  rw [body, blocks_of_updateInstr run, body]

theorem taken_of_updateInstr {f : Instr → Instr} (run : g.updateInstr j f = .ok after)
    (x : BlockId) : after.taken x = g.taken x := by
  rw [taken, blocks_of_updateInstr run, taken]

theorem op?_of_updateInstr {f : Instr → Instr} {t : Op → Op} (run : g.updateInstr j f = .ok after)
    (hf : ∀ instr, (f instr).op = t instr.op) (i : InstrId) :
    after.op? i = if i = j then (g.op? j).map t else g.op? i := by
  obtain ⟨-, rfl⟩ := eq_of_updateInstr run
  simp only [op?, Array.getElem?_modify]
  by_cases same : i = j
  · subst same
    simp [Function.comp_def, hf]
  · have apart : j.index ≠ i.index := fun eq => same (by cases i; cases j; exact congrArg _ eq.symm)
    simp [same, apart]

end Graph

end FlowIR

import FlowIR.Proofs.Emit.Spot
import FlowIR.Proofs.Machine.Slots
import FlowIR.Proofs.Machine.Spill

/-!
Entering a function.

A finished function first makes its slots: those that were made with its body, and those of its
variables. Then it puts the parameters into their slots, and comes to the code of the body
(`Machine.leads_entry`). Whatever the body is, a run is thus followed from the place where the body
starts, with every slot in an allocation of its own (`Scene.Entered`).
-/

namespace FlowIR

open Machine List

def Builder.cursor (b : Builder) : Cursor := { builder := b, current := b.entry }

theorem Graph.SpillsAll.plain {g : Graph} : ∀ {ps : List Placement} {slots : List Operand} {is : List InstrId},
    g.SpillsAll ps slots is → ∀ i ∈ is, ∃ op shape, g.Does i op shape ∧ op.isTerminator = false
  | [], _, is, h, i, hi => by
    unfold SpillsAll at h
    subst h
    cases hi
  | _ :: _, [], is, h, i, hi => by
    have none : is = [] := h
    subst none
    cases hi
  | p :: ps, slot :: slots, _, ⟨here, rest, rfl, spills, all⟩, i, hi => by
    rcases mem_append.mp hi with first | later
    · cases spills with
      | nothing => cases first
      | whole _ store =>
        cases mem_singleton.mp first
        exact ⟨_, _, store, rfl⟩
      | single _ _ cast store =>
        simp only [mem_cons, not_mem_nil, or_false] at first
        rcases first with rfl | rfl
        · exact ⟨_, _, cast, rfl⟩
        · exact ⟨_, _, store, rfl⟩
      | double _ cast field₀ store₀ field₁ store₁ =>
        simp only [mem_cons, not_mem_nil, or_false] at first
        rcases first with rfl | rfl | rfl | rfl | rfl
        · exact ⟨_, _, cast, rfl⟩
        · exact ⟨_, _, field₀, rfl⟩
        · exact ⟨_, _, store₀, rfl⟩
        · exact ⟨_, _, field₁, rfl⟩
        · exact ⟨_, _, store₁, rfl⟩
    · exact all.plain i later

namespace Builder.Opened

variable {start b : Builder} {vars : List Variable} {locals : List Shape} {labels : List Span}
  {spills : List InstrId}

variable (h : start.Opened b vars locals labels spills) {i : InstrId}

include h

/-- The entry block lists slots and spills, and nothing else is listed. -/
theorem plain {x : BlockId}
    (hi : i ∈ b.graph.body x) : ∃ op shape, b.graph.Does i op shape ∧ op.isTerminator = false := by
  by_cases entry : x = ⟨0⟩
  · subst entry
    rw [h.body] at hi
    rcases mem_append.mp hi with slot | spill
    · obtain ⟨k, below, rfl⟩ := mem_map.mp slot
      have inside := mem_range.mp below
      exact ⟨_, _, h.slots k _ (getElem?_eq_getElem inside), rfl⟩
    · exact h.spilled.plain i spill
  · have none : b.graph.body x = [] := by
      have outside : b.graph.blocks.size ≤ x.index := by
        rw [h.blocks]
        exact Nat.one_le_iff_ne_zero.mpr fun eq => entry (by cases x; cases eq; rfl)
      simp [Graph.body, outside]
    rw [none] at hi
    cases hi

theorem able : b.cursor.Able where
  placed := h.placed
  entry := by
    show b.entry.index < b.graph.blocks.size
    rw [h.entry, h.blocks]
    exact Nat.one_pos
  current := by
    show b.entry.index < b.graph.blocks.size
    rw [h.entry, h.blocks]
    exact Nat.one_pos
  listed := fun hi => by
    obtain ⟨op, shape, does, -⟩ := h.plain hi
    exact does.index_lt
  late := fun i hi => by
    have none : i ∈ b.lateSlots := hi
    rw [h.late] at none
    cases none
  pads := nofun
  cleanups := nofun

theorem isOpen : b.cursor.Open := by
  rintro ⟨i, op, last, hop, hterm⟩
  obtain ⟨op', shape, does, plain⟩ := h.plain (mem_of_getLast? last)
  cases does.op?.symm.trans hop
  rw [plain] at hterm
  cases hterm

/-- An instruction is a slot, or it is plain. -/
theorem settled {i : Nat} {instr : Instr}
    (found : b.graph.instrs[i]? = some instr) : instr.op.Whole ∧ instr.op.isIndirect = false := by
  by_cases old : i < (Placement.kept start.convention.params ++ locals).length
  · obtain ⟨name, there⟩ := h.slots i _ (getElem?_eq_getElem old)
    cases found.symm.trans there
    exact ⟨by rintro _ ⟨⟩, rfl⟩
  · have plain := h.others i instr (Nat.le_of_not_lt old) found
    exact ⟨plain.whole, plain.isIndirect⟩

/-- The instructions stay as they are. -/
theorem does {S : Scene} (inside : b.cursor.In S)
    {op : Op} {shape : Shape} (k : b.graph.Does i op shape) : S.graph.Does i op shape := by
  obtain ⟨name, found⟩ := k
  obtain ⟨whole, direct⟩ := h.settled found
  obtain ⟨name', there⟩ := inside.instr found whole direct
  refine ⟨name', ?_⟩
  rwa [Graph.instr, require_eq_ok_iff] at there

/-- The slots that there are. -/
theorem slot_iff : b.graph.Slot i ↔ i.index < (Placement.kept start.convention.params ++ locals).length := by
  constructor
  · rintro ⟨op, hop, slot⟩
    refine Nat.lt_of_not_le fun new => ?_
    obtain ⟨instr, found, rfl⟩ := Option.map_eq_some_iff.mp hop
    rw [(h.others i.index instr new found).isAlloca] at slot
    cases slot
  · exact fun old => ⟨_, (h.slots i.index _ (getElem?_eq_getElem old)).op?, rfl⟩

end Builder.Opened

/-! ### The run -/

theorem Op.exists_of_isAlloca {op : Op} (slot : op.isAlloca = true) : ∃ shape, op = .alloca shape := by
  cases op <;> first | exact ⟨_, rfl⟩ | cases slot

/-- A slot stays a slot. -/
theorem Graph.Becomes.alloca {g last : Graph} {entry : BlockId} {front : List InstrId} {i : InstrId}
    {shape : Shape} (h : g.Becomes entry front last) (hop : g.op? i = some (.alloca shape)) :
    last.op? i = some (.alloca shape) := by
  obtain ⟨instr, found, eq⟩ := Option.map_eq_some_iff.mp hop
  obtain ⟨instr', found', settles, -⟩ := h.instr i.index instr found
  rw [eq] at settles
  have same := settles.eq (by rintro _ ⟨⟩) rfl
  rw [Graph.op?, found']
  exact congrArg some same

/-- The state in which a run comes to the code of a function, behind the slots. -/
structure Scene.Entered (S : Scene) (b : Builder) (world : World) (m : Machine) : Prop where
  inside : ∀ c : Cursor, c.builder = b → c.In S
  front : S.front = b.lateSlots
  ready : S.Ready m
  zeros : ∀ i shape, S.graph.op? i = some (.alloca shape) → ∃ n, Machine.sizeOf shape = .ok n ∧
    S.cell m i = Bytes.zeros (max n 1)
  world : m.world = world

/-- The slots of a finished function are not too large if those of its variables are not. -/
theorem Builder.Opened.sizeOf_slot {start b₁ b₂ : Builder} {vars : List Variable} {locals : List Shape}
    {labels : List Span} {spills : List InstrId} {g : Graph} (opened : start.Opened b₁ vars locals labels spills)
    (grows : b₁.Extends b₂) (stocks : b₁.Stocks b₂) (completes : b₂.Completes g)
    (declared : ∀ shape ∈ Placement.kept start.convention.params ++ locals, ∃ n, Machine.sizeOf shape = .ok n)
    {i : InstrId} {shape : Shape} (hop : g.op? i = some (.alloca shape)) : ∃ n, Machine.sizeOf shape = .ok n := by
  rcases stocks.fits (completes.slots i ⟨_, hop, rfl⟩) with old | ⟨shape', n, hop', sized⟩
  · have found := getElem?_eq_getElem (opened.slot_iff.mp old)
    have before := (grows.graph.becomes completes.becomes).alloca (opened.slots i.index _ found).op?
    cases hop.symm.trans before
    exact declared _ (mem_of_getElem? found)
  · cases hop.symm.trans (completes.becomes.alloca hop')
    exact ⟨n, sized⟩

/-- A run of a finished function makes its slots and comes to the code behind them. -/
theorem Machine.leads_entry {start b₁ b₂ : Builder} {vars : List Variable} {locals : List Shape}
    {labels : List Span} {spills : List InstrId} {g : Graph} {memory : Memory} {world : World}
    {args : Array Bytes} {P : Config → Prop} (opened : start.Opened b₁ vars locals labels spills)
    (grows : b₁.Extends b₂) (stores : b₁.Stores b₂) (completes : b₂.Completes g)
    (room : memory.allocs.size + stepLimit + 1 < Memory.span)
    (faulted : ∀ i shape f, g.op? i = some (.alloca shape) → Machine.sizeOf shape = .error f →
      P (.over (.error f))) (later : ∀ (S : Scene) left m, left ≤ stepLimit → S.graph = g → S.args = args →
      S.Entered b₂ world m →
      S.Leads left (.before ⟨0⟩ (spills ++ b₁.cursor.rest S) m) P) :
    Leads g args stepLimit (.before ⟨0⟩ (g.body ⟨0⟩) (Machine.start g memory world)) P := by
  let n := (Placement.kept start.convention.params ++ locals).length
  let slots := (range n).map InstrId.mk
  obtain ⟨new, late, nodup, made, all⟩ := stores
  rw [opened.late, nil_append] at late
  have entry : b₂.entry = ⟨0⟩ := grows.entry.trans opened.entry
  have becomes := completes.becomes
  have before : b₁.graph.Becomes b₂.entry b₂.lateSlots g := grows.graph.becomes becomes
  have mem_slots : ∀ i : InstrId, i ∈ slots ↔ i.index < n := fun i => by
    simp only [slots, mem_map, mem_range]
    exact ⟨fun ⟨k, hk, eq⟩ => eq ▸ hk, fun hi => ⟨i.index, hi, rfl⟩⟩
  have every : ∀ i, g.Slot i → i ∈ new ++ slots := fun i hi => by
    rcases all i (completes.slots i hi) with old | fresh
    · exact mem_append_right _ ((mem_slots i).mpr (opened.slot_iff.mp old))
    · exact mem_append_left _ fresh
  have distinct : (new ++ slots).Nodup := by
    refine nodup_append.mpr ⟨nodup, ?_, fun i hi j hj eq => ?_⟩
    · exact List.Pairwise.map _ (fun a b ne eq => ne (InstrId.mk.inj eq)) nodup_range
    · subst eq
      have old : i.index < b₁.graph.instrs.size := by
        obtain ⟨op, hop, -⟩ := opened.slot_iff.mpr ((mem_slots i).mp hj)
        exact Graph.index_lt_of_op? hop
      exact Nat.lt_irrefl _ (Nat.lt_of_lt_of_le old (made i hi).1)
  have known : ∀ i ∈ new ++ slots, i.index < (Machine.start g memory world).results.size ∧
      ∃ shape, g.op? i = some (.alloca shape) := fun i hi => by
    have alloca : ∃ shape, g.op? i = some (.alloca shape) := by
      rcases mem_append.mp hi with fresh | old
      · obtain ⟨op, hop, slot⟩ := (made i fresh).2
        obtain ⟨shape, rfl⟩ := Op.exists_of_isAlloca slot
        exact ⟨shape, becomes.alloca hop⟩
      · have inside := (mem_slots i).mp old
        exact ⟨_, before.alloca (opened.slots i.index _ (getElem?_eq_getElem inside)).op?⟩
    refine ⟨?_, alloca⟩
    obtain ⟨shape, hop⟩ := alloca
    simpa [Machine.start] using Graph.index_lt_of_op? hop
  obtain ⟨code, body⟩ : ∃ code, g.body ⟨0⟩ = (new ++ slots) ++ code := by
    obtain ⟨rest, eq⟩ := before.body ⟨0⟩
    rw [Graph.lead, if_pos entry.symm, late, opened.body] at eq
    exact ⟨spills ++ rest, by rw [← eq]; simp [slots, n]⟩
  rw [body]
  refine leads_slots faulted (Made.refl g _) distinct known fun left m bound made => ?_
  rw [nil_append] at made
  have space : (Machine.start g memory world).memory.allocs.size + (new ++ slots).length + 1 < Memory.span := by
    show memory.allocs.size + _ + 1 < _
    omega
  let S := Scene.ofSlots g args b₂.entry b₂.lateSlots (Machine.start g memory world).memory.allocs.size
    (new ++ slots) every space
  obtain ⟨ready, zeros⟩ : S.Ready m ∧ ∀ i shape, g.op? i = some (.alloca shape) →
      ∃ n, Machine.sizeOf shape = .ok n ∧ S.cell m i = Bytes.zeros (max n 1) :=
    Scene.ready_ofSlots made (by simp [Machine.start])
  have inside : ∀ c : Cursor, c.builder = b₂ → c.In S := fun c eq => by
    subst eq
    exact ⟨becomes, rfl⟩
  have entered : S.Entered b₂ world m :=
    { inside, ready, zeros
      front := rfl
      world := made.world }
  have there : code = spills ++ b₁.cursor.rest S := by
    have here : b₁.cursor.In S := ⟨before, grows.entry.symm⟩
    have eq := here.body_current
    have current : b₁.cursor.current = ⟨0⟩ := opened.entry
    have lead : S.lead ⟨0⟩ = new := by
      show Graph.lead b₂.entry b₂.lateSlots ⟨0⟩ = new
      rw [Graph.lead, if_pos entry.symm, late]
    have same : S.graph.body ⟨0⟩ = (new ++ slots) ++ code := body
    rw [current, same, lead] at eq
    have code' : b₁.cursor.graph.body ⟨0⟩ = slots ++ spills := opened.body
    rw [code', ← append_assoc, append_assoc (new ++ slots)] at eq
    exact append_cancel_left eq
  rw [there]
  exact later S left m (by omega) rfl rfl entered

end FlowIR

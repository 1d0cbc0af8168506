import FlowIR.Proofs.Build.Prolog
import FlowIR.Proofs.Machine.Cells
import FlowIR.Proofs.Machine.Leads

/-!
Putting parameters into their slots.

A parameter in one chunk is stored at the start of its slot. One in two chunks is stored through the
struct of the chunks: each chunk goes to the offset of its field (`Placement.Spilled`). Running the
instructions that the prolog has for a parameter changes its slot in this way, and nothing else that can
be seen later (`Scene.leads_spills`).
-/

namespace FlowIR

open Machine Memory

/-- What a slot holds after the arguments of its parameter have been put into it, when it held `cell`
before. -/
inductive Placement.Spilled (p : Placement) (args : Array Bytes) (cell : Bytes) : Bytes → Prop where
  | nothing (passing : p.passing.isDirect = false) : Spilled p args cell cell
  | single {chunk : Shape} {ext : Extension} {data : Bytes} (passing : p.passing = .direct [chunk] ext)
      (arg : args[p.offset]? = some data) (inside : data.size ≤ cell.size) :
      Spilled p args cell (cell.splice 0 data)
  | double {first second : Shape} {ext : Extension} {o₀ o₁ : Nat} {d₀ d₁ : Bytes}
      (passing : p.passing = .direct [first, second] ext)
      (field₀ : p.regShape.fieldOffset? 0 = some o₀) (field₁ : p.regShape.fieldOffset? 1 = some o₁)
      (near₀ : o₀ < span) (near₁ : o₁ < span)
      (arg₀ : args[p.offset]? = some d₀) (arg₁ : args[p.offset + 1]? = some d₁)
      (inside₀ : o₀ + d₀.size ≤ cell.size) (inside₁ : o₁ + d₁.size ≤ cell.size) :
      Spilled p args cell ((cell.splice o₀ d₀).splice o₁ d₁)

theorem Machine.eval_keep_ne {m : Machine} {args : Array Bytes} {j k : InstrId} {data : Bytes} (ne : j ≠ k) :
    (m.keep k data).eval args (.result j) = m.eval args (.result j) := by
  have apart : k.index ≠ j.index := fun eq => ne (by cases j; cases k; cases eq; rfl)
  simp only [Machine.eval, Machine.keep]
  rw [Array.getElem?_setIfInBounds_ne apart]

theorem Scene.eval_put (S : Scene) (m : Machine) (i : InstrId) (data : Bytes) (args : Array Bytes)
    (v : Operand) : (S.put m i data).eval args v = m.eval args v := by
  cases v <;> rfl

theorem Machine.cast_pointer (s dst : Shape) (v : Bytes) : Machine.cast .bitcast (.ptr s) dst v = .ok v := rfl

namespace Graph

variable {g : Graph} {i j : InstrId} {op : Op} {shape : Shape}

variable (h : g.Does i op shape)

include h

theorem Does.instr : ∃ name, g.instr i = .ok ⟨op, shape, name⟩ := h.imp fun _ found => by simp [Graph.instr, found]

theorem Does.shapeOf : g.shapeOf (.result i) = .ok shape := by
  obtain ⟨name, found⟩ := h
  simp only [Graph.shapeOf, Graph.instr, found]
  rfl

theorem Does.index_lt : i.index < g.instrs.size := Graph.index_lt_of_op? h.op?

theorem Does.not_slot (plain : op.isAlloca = false) : ¬ g.Slot i := by
  rintro ⟨op', hop, slot⟩
  cases h.op?.symm.trans hop
  rw [plain] at slot
  cases slot

theorem Does.ne {op' : Op} {shape' : Shape} (k : g.Does j op' shape') (ne : op ≠ op') : i ≠ j := by
  rintro rfl
  exact ne (Option.some.inj (h.op?.symm.trans k.op?))

end Graph

namespace Scene

variable {S : Scene} {m : Machine} {i k : InstrId} {data : Bytes} {shape : Shape} {x : BlockId}
  {rest : List InstrId} {P : Config → Prop} {fuel : Nat}

abbrev IsSlot (S : Scene) (i : InstrId) (shape : Shape) : Prop := S.graph.Does i (.alloca shape) (.ptr shape)

theorem IsSlot.slot (h : S.IsSlot i shape) : S.graph.Slot i := ⟨_, h.op?, rfl⟩

abbrev address (S : Scene) (i : InstrId) (offset : Nat) : Bytes := Bytes.ofNat 8 (pointer (S.loc i) + offset)

theorem Ready.eval_slot (ready : S.Ready m) (slot : S.graph.Slot i) :
    m.eval S.args (.result i) = .ok (S.address i 0) := by
  rw [address, Nat.add_zero, Machine.eval, ready.pointer slot]
  rfl

theorem evalWord_address {v : Operand} {offset : Nat} (slot : S.graph.Slot i) (near : offset < span)
    (value : m.eval S.args v = .ok (S.address i offset)) :
    m.evalWord S.args v = .ok (pointer (S.loc i) + offset) := by
  unfold evalWord
  rw [Checked.bind_eq_ok_iff]
  exact ⟨_, value, congrArg Except.ok
    (Bytes.word_ofNat_eight (pointer_add_lt (S.loc_lt slot) near))⟩

/-- A store to a place inside of a slot. -/
theorem leads_store (ready : S.Ready m) {v ptr : Operand} {offset : Nat}
    (does : S.graph.Does k (.store v ptr) .void) (slot : S.graph.Slot i) (near : offset < span)
    (target : m.eval S.args ptr = .ok (S.address i offset)) (value : m.eval S.args v = .ok data)
    (inside : offset + data.size ≤ (S.cell m i).size)
    (later : ∀ left, left ≤ fuel → S.Ready (S.put m i ((S.cell m i).splice offset data)) →
      Machine.Leads S.graph S.args left (.before x rest (S.put m i ((S.cell m i).splice offset data))) P) :
    Machine.Leads S.graph S.args fuel (.before x (k :: rest) m) P := by
  have exec : step S.graph S.args m k =
      .ok (.next, S.put m i ((S.cell m i).splice offset data)) := by
    obtain ⟨_, found⟩ := does.instr
    have write := write_pointer (ready.alloc slot) near inside
    unfold step
    rw [Checked.bind_eq_ok_iff]
    refine ⟨_, found, ?_⟩
    simp only [Checked.bind_eq_ok_iff]
    exact ⟨data, value, _, evalWord_address slot near target, _, write, rfl⟩
  refine Leads.next exec fun left fewer _ => later left (Nat.le_of_lt fewer) ?_
  exact ready.put slot (Bytes.size_splice inside)

/-- The address of a slot, as a pointer to something else. -/
theorem leads_cast (ready : S.Ready m) (slot : S.IsSlot i shape) {dst : Shape}
    (does : S.graph.Does k (.cast .bitcast (.result i) dst) dst)
    (later : ∀ left, left ≤ fuel → S.Ready (m.keep k (S.address i 0)) →
      Machine.Leads S.graph S.args left (.before x rest (m.keep k (S.address i 0))) P) :
    Machine.Leads S.graph S.args fuel (.before x (k :: rest) m) P := by
  have exec : step S.graph S.args m k = .ok (.next, m.keep k (S.address i 0)) := by
    obtain ⟨_, found⟩ := does.instr
    simp only [step, found, slot.shapeOf, ready.eval_slot slot.slot, bind, Except.bind, cast_pointer]
    rfl
  exact Leads.next exec fun left fewer _ =>
    later left (Nat.le_of_lt fewer) (ready.keep (does.not_slot rfl))

/-- The address of a field of a slot. -/
theorem step_field {base : InstrId} {target dst : Shape} {name : Option String} {index offset : Nat}
    (slot : S.graph.Slot i) (found : S.graph.instr k = .ok ⟨.fieldAddr (.result base) index, dst, name⟩)
    (pointer : S.graph.shapeOf (.result base) = .ok (.ptr target))
    (value : m.eval S.args (.result base) = .ok (S.address i 0))
    (field : target.fieldOffset? index = some offset) (near : offset < Memory.span) :
    step S.graph S.args m k = .ok (.next, m.keep k (S.address i offset)) := by
  have small := Memory.pointer_add_lt (S.loc_lt slot) near
  have word := evalWord_address slot Memory.span_pos value
  have sum : Size.add (Memory.pointer (S.loc i)) offset = some (Memory.pointer (S.loc i) + offset) :=
    if_pos small
  have address : fieldAddress (.ptr target) (Memory.pointer (S.loc i)) index =
      .ok (Memory.pointer (S.loc i) + offset) := by
    unfold fieldAddress
    rw [Checked.bind_eq_ok_iff]
    exact ⟨offset, by rw [require_eq_ok_iff]; exact field, by rw [require_eq_ok_iff]; exact sum⟩
  rw [Nat.add_zero] at word
  unfold step
  rw [Checked.bind_eq_ok_iff]
  refine ⟨_, found, ?_⟩
  simp only [Checked.bind_eq_ok_iff]
  exact ⟨_, word, _, pointer, _, address, rfl⟩

/-- The address of a field of what a pointer to a slot points to. -/
theorem leads_field (ready : S.Ready m) {base : InstrId} {target dst : Shape} {index offset : Nat}
    (slot : S.graph.Slot i) (does : S.graph.Does k (.fieldAddr (.result base) index) dst)
    (pointer : S.graph.shapeOf (.result base) = .ok (.ptr target))
    (value : m.eval S.args (.result base) = .ok (S.address i 0))
    (field : target.fieldOffset? index = some offset) (near : offset < span)
    (later : ∀ left, left ≤ fuel → S.Ready (m.keep k (S.address i offset)) →
      Machine.Leads S.graph S.args left (.before x rest (m.keep k (S.address i offset))) P) :
    Machine.Leads S.graph S.args fuel (.before x (k :: rest) m) P := by
  obtain ⟨_, found⟩ := does.instr
  exact Leads.next (step_field slot found pointer value field near) fun left fewer _ =>
    later left (Nat.le_of_lt fewer) (ready.keep (does.not_slot rfl))

/-- The state after one slot has got another content. Other slots hold what they held. -/
structure Changes (S : Scene) (i : InstrId) (data : Bytes) (m m' : Machine) : Prop where
  ready : S.Ready m'
  cell : S.cell m' i = data
  others : ∀ j, S.graph.Slot j → j ≠ i → S.cell m' j = S.cell m j
  world : m'.world = m.world

theorem eval_arg {n : Nat} (h : S.args[n]? = some data) : m.eval S.args (.arg n) = .ok data := by
  simp [Machine.eval, h, require]

/-- Putting one chunk into its field of a slot. -/
theorem leads_chunk (ready : S.Ready m) (slot : S.graph.Slot i) {k f s : InstrId} {v : Operand}
    {target dst : Shape} {n index offset : Nat} (cast : S.graph.Does k (.cast .bitcast v (.ptr target)) (.ptr target))
    (base : m.eval S.args (.result k) = .ok (S.address i 0)) (ptr : S.graph.Does f (.fieldAddr (.result k) index) dst)
    (store : S.graph.Does s (.store (.arg n) (.result f)) .void)
    (field : target.fieldOffset? index = some offset) (near : offset < span)
    (arg : S.args[n]? = some data) (inside : offset + data.size ≤ (S.cell m i).size)
    (later : ∀ left m', left ≤ fuel → S.Changes i ((S.cell m i).splice offset data) m m' →
      m'.eval S.args (.result k) = .ok (S.address i 0) → Machine.Leads S.graph S.args left (.before x rest m') P) :
    Machine.Leads S.graph S.args fuel (.before x (f :: s :: rest) m) P := by
  refine leads_field ready slot ptr cast.shapeOf base field near fun left fewer ready' => ?_
  refine leads_store ready' store slot near (ready.eval_keep ptr.index_lt) (eval_arg arg) inside
    fun left' fewer' ready'' => later left' _ (Nat.le_trans fewer' fewer) ?_ ?_
  · exact ⟨ready'', ready'.cell_put slot, fun j sj ne => cell_put_ne slot sj ne, rfl⟩
  · rw [eval_put, eval_keep_ne (cast.ne ptr nofun), base]

/-- Putting one parameter into its slot. -/
theorem leads_spill (ready : S.Ready m) {p : Placement} (slot : S.IsSlot i shape) {is : List InstrId}
    (spills : S.graph.Spills p (.result i) is) (spilled : p.Spilled S.args (S.cell m i) data)
    (later : ∀ left m', left ≤ fuel → S.Changes i data m m' →
      Machine.Leads S.graph S.args left (.before x rest m') P) :
    Machine.Leads S.graph S.args fuel (.before x (is ++ rest) m) P := by
  have home := ready.eval_slot slot.slot
  cases spilled with
  | nothing passing =>
    have none : is = [] := by
      cases spills with
      | nothing => rfl
      | whole direct | single direct | double direct => rw [direct] at passing; cases passing
    subst none
    exact later fuel m (Nat.le_refl _) ⟨ready, rfl, fun _ _ _ => rfl, rfl⟩
  | single passing arg inside =>
    cases spills with
    | nothing other => rw [passing] at other; cases other
    | double direct => cases passing.symm.trans direct
    | whole direct store =>
      refine leads_store ready store slot.slot span_pos home (eval_arg arg) (by omega)
        fun left fewer ready' => later left _ fewer ?_
      exact ⟨ready', ready.cell_put slot.slot, fun j sj ne => cell_put_ne slot.slot sj ne, rfl⟩
    | single direct _ cast store =>
      refine leads_cast ready slot cast fun left fewer ready' => ?_
      refine leads_store ready' store slot.slot span_pos (ready.eval_keep cast.index_lt)
        (eval_arg arg) (by rw [Scene.cell_keep]; omega) fun left' fewer' ready'' =>
          later left' _ (Nat.le_trans fewer' fewer) ?_
      exact ⟨ready'', ready'.cell_put slot.slot, fun j sj ne => cell_put_ne slot.slot sj ne, rfl⟩
  | @double _ _ _ o₀ o₁ d₀ d₁ passing field₀ field₁ near₀ near₁ arg₀ arg₁ inside₀ inside₁ =>
    cases spills with
    | nothing other => rw [passing] at other; cases other
    | whole direct | single direct => cases passing.symm.trans direct
    | @double _ _ _ k f₀ s₀ f₁ s₁ direct cast ptr₀ store₀ ptr₁ store₁ =>
      refine leads_cast ready slot cast fun left₁ fewer₁ ready₁ => ?_
      refine leads_chunk ready₁ slot.slot cast (ready.eval_keep cast.index_lt) ptr₀ store₀ field₀ near₀ arg₀
        inside₀ fun left₂ m₂ fewer₂ first base => ?_
      have grown : (S.cell m₂ i).size = (S.cell m i).size := by
        rw [first.cell]
        exact Bytes.size_splice inside₀
      refine leads_chunk first.ready slot.slot cast base ptr₁ store₁ field₁ near₁ arg₁ (by omega)
        fun left₃ m₃ fewer₃ second _ => later left₃ m₃ (by omega) ?_
      rw [first.cell] at second
      exact ⟨second.ready, second.cell, fun j sj ne => (second.others j sj ne).trans (first.others j sj ne),
        second.world.trans first.world⟩

/-- The state after parameters have been put into their slots. -/
structure Filled (S : Scene) (ps : List Placement) (slots : List Operand) (m m' : Machine) : Prop where
  ready : S.Ready m'
  spilled : ∀ (k : Nat) (p : Placement) (i : InstrId), ps[k]? = some p → slots[k]? = some (.result i) →
    p.Spilled S.args (S.cell m i) (S.cell m' i)
  others : ∀ j, S.graph.Slot j → .result j ∉ slots → S.cell m' j = S.cell m j
  world : m'.world = m.world

/-- Putting parameters into their slots, one after the other. -/
theorem leads_spills : ∀ {ps : List Placement} {slots : List Operand} {is : List InstrId} {fuel : Nat}
    {m : Machine}, S.Ready m → S.graph.SpillsAll ps slots is → slots.Nodup →
    (∀ (k : Nat) (p : Placement) (slot : Operand), ps[k]? = some p → slots[k]? = some slot →
      (∃ n, slot = .arg n ∧ p.passing.isDirect = false) ∨ ∃ i shape data, slot = .result i ∧
        S.IsSlot i shape ∧ p.Spilled S.args (S.cell m i) data) →
    (∀ left m', left ≤ fuel → S.Filled ps slots m m' → Machine.Leads S.graph S.args left (.before x rest m') P) →
    Machine.Leads S.graph S.args fuel (.before x (is ++ rest) m) P
  | [], slots, is, fuel, m, ready, spills, _, _, later => by
    unfold Graph.SpillsAll at spills
    subst spills
    exact later fuel m (Nat.le_refl _) ⟨ready, by rintro _ _ _ ⟨⟩, fun _ _ _ => rfl, rfl⟩
  | p :: ps, [], is, fuel, m, ready, spills, _, _, later => by
    have none : is = [] := spills
    subst none
    exact later fuel m (Nat.le_refl _) ⟨ready, by rintro _ _ _ _ ⟨⟩, fun _ _ _ => rfl, rfl⟩
  | p :: ps, slot :: slots, _, fuel, m, ready, ⟨here, after, rfl, first, spills⟩, nodup, known, later => by
    obtain ⟨new, distinct⟩ := List.nodup_cons.mp nodup
    rw [List.append_assoc]
    rcases known 0 p slot rfl rfl with ⟨n, rfl, indirect⟩ | ⟨i, shape, data, rfl, isSlot, spilled⟩
    · have none : here = [] := by
        cases first with
        | nothing => rfl
        | whole direct | single direct | double direct => rw [direct] at indirect; cases indirect
      subst none
      refine leads_spills ready spills distinct (fun k q slot hq hs => known (k + 1) q slot hq hs)
        fun left m' fewer filled => later left m' fewer ⟨filled.ready, fun k q i hq hs => ?_, fun j sj free =>
          filled.others j sj fun mem => free (List.mem_cons_of_mem _ mem), filled.world⟩
      cases k with
      | zero => cases hs
      | succ k => exact filled.spilled k q i hq hs
    · refine leads_spill ready isSlot first spilled fun left₁ m₁ fewer₁ changes => ?_
      -- The slots of the later parameters are not the one that has just been filled.
      have apart : ∀ (k : Nat) (j : InstrId), slots[k]? = some (.result j) → j ≠ i := fun k j hs eq =>
        new (eq ▸ List.mem_of_getElem? hs)
      refine leads_spills changes.ready spills distinct (fun k q slot hq hs => ?_)
        fun left m' fewer filled => later left m' (Nat.le_trans fewer fewer₁)
          ⟨filled.ready, fun k q j hq hs => ?_, fun j sj free => ?_, filled.world.trans changes.world⟩
      · rcases known (k + 1) q slot hq hs with arg | ⟨j, shape', data', rfl, isSlot', spilled'⟩
        · exact .inl arg
        · refine .inr ⟨j, shape', data', rfl, isSlot', ?_⟩
          rwa [changes.others j isSlot'.slot (apart k j hs)]
      · cases k with
        | zero =>
          cases hq
          cases hs
          rwa [filled.others i isSlot.slot new, changes.cell]
        | succ k =>
          have hs : slots[k]? = some (.result j) := hs
          have fill := filled.spilled k q j hq hs
          rcases known (k + 1) q _ hq hs with ⟨n, eq, -⟩ | ⟨j', _, _, eq, isSlot', -⟩
          · cases eq
          · cases eq
            rwa [changes.others j isSlot'.slot (apart k j hs)] at fill
      · rw [filled.others j sj fun mem => free (List.mem_cons_of_mem _ mem),
          changes.others j sj fun eq => free (eq ▸ List.mem_cons_self)]

end Scene

end FlowIR

import FlowIR.Proofs.Graph.Supply
import FlowIR.Proofs.Machine.Step

/-!
The slots of a function in memory.

Once the slots of a function have been made, each of them has an allocation of its own, and nothing
else is allocated. A `Scene` fixes the finished function, its arguments and which allocation belongs to
which slot. In a scene the memory is a table of cells, one for each slot: a load reads its cell, and a
store changes its cell and no other.
-/

namespace FlowIR

/-! ### Pointers -/

namespace Memory

def pointer (n : Nat) : Nat := (n + 1) * span

theorem span_pos : 0 < span := by
  unfold span
  omega

theorem pointer_add_div {n offset : Nat} (h : offset < span) : (pointer n + offset) / span = n + 1 := by
  unfold pointer
  unfold span at *
  omega

theorem pointer_add_mod {n offset : Nat} (h : offset < span) : (pointer n + offset) % span = offset := by
  unfold pointer
  unfold span at *
  omega

/-- A pointer fits in a word if its allocation is one that pointers can tell. -/
theorem pointer_add_lt {n offset : Nat} (h : n + 1 < span) (k : offset < span) : pointer n + offset < wordCount := by
  unfold pointer
  unfold span at *
  unfold wordCount
  omega

variable {m : Memory} {n offset : Nat} {a : Bytes}

variable (found : m.allocs[n]? = some a)

include found

theorem read_pointer {size : Nat} (near : offset < span)
    (inside : offset + size ≤ a.size) : m.read (pointer n + offset) size = .ok (a.slice offset size) := by
  have located : m.locate (pointer n + offset) size = .ok (n, a) :=
    locate_eq_ok_iff.mpr ⟨pointer_add_div near, found, by rwa [pointer_add_mod near]⟩
  unfold read
  rw [located, pointer_add_mod near]
  rfl

theorem write_pointer {data : Bytes} (near : offset < span) (inside : offset + data.size ≤ a.size) :
    m.write (pointer n + offset) data = .ok ⟨m.allocs.setIfInBounds n (a.splice offset data)⟩ := by
  have located : m.locate (pointer n + offset) data.size = .ok (n, a) :=
    locate_eq_ok_iff.mpr ⟨pointer_add_div near, found, by rwa [pointer_add_mod near]⟩
  unfold write
  rw [located, pointer_add_mod near]
  rfl

theorem read_start {size : Nat} (inside : size ≤ a.size) : m.read (pointer n) size = .ok (a.slice 0 size) := by
  have near := read_pointer found span_pos (Nat.zero_add size ▸ inside)
  rwa [Nat.add_zero] at near

theorem write_start {data : Bytes} (inside : data.size ≤ a.size) :
    m.write (pointer n) data = .ok ⟨m.allocs.setIfInBounds n (a.splice 0 data)⟩ := by
  have near := write_pointer found span_pos (Nat.zero_add data.size ▸ inside)
  rwa [Nat.add_zero] at near

end Memory

namespace Bytes

/-- A word of eight bytes is read back. -/
theorem word_ofNat_eight {n : Nat} (h : n < wordCount) : (ofNat 8 n).word = n := by
  rw [word_ofNat]
  exact Nat.mod_eq_of_lt h

theorem slice_all (bs : Bytes) : bs.slice 0 bs.size = bs := by
  ext1
  simp only [slice, toList_take, toList_drop, List.drop_zero]
  exact List.take_of_length_le (Nat.le_of_eq (length_toList bs))

/-- Replacing everything leaves nothing of the old bytes. -/
theorem splice_all {bs data : Bytes} (h : data.size = bs.size) : bs.splice 0 data = data := by
  ext1
  simp only [splice, toList_append, toList_take, toList_drop, List.take_zero, List.nil_append]
  rw [List.drop_of_length_le (by rw [length_toList]; omega), List.append_nil]

end Bytes

/-! ### Scenes -/

/-- What a run takes place in, once the slots have been made: the finished function, its arguments, and
the allocation of each slot. -/
structure Scene where
  graph : Graph
  args : Array Bytes
  entry : BlockId
  /-- What has been put in front of the code of the entry block. -/
  front : List InstrId
  loc : InstrId → Nat
  loc_inj : ∀ {i j}, graph.Slot i → graph.Slot j → loc i = loc j → i = j
  loc_lt : ∀ {i}, graph.Slot i → loc i + 1 < Memory.span

namespace Scene

open Machine

variable {S : Scene} {m : Machine} {i j k : InstrId} {data : Bytes} {x : BlockId} {name : Option String}
  {shape : Shape}

def cell (S : Scene) (m : Machine) (i : InstrId) : Bytes := (m.memory.allocs[S.loc i]?).getD (Bytes.zeros 0)

structure Ready (S : Scene) (m : Machine) : Prop where
  size : m.results.size = S.graph.instrs.size
  pointer : ∀ {i}, S.graph.Slot i →
    m.results[i.index]? = some (some (Bytes.ofNat 8 (Memory.pointer (S.loc i))))
  made : ∀ {i}, S.graph.Slot i → S.loc i < m.memory.allocs.size
  width : ∀ {i shape}, S.graph.op? i = some (.alloca shape) →
    ∃ n, Machine.sizeOf shape = .ok n ∧ (S.cell m i).size = max n 1

theorem Ready.alloc (h : S.Ready m) (slot : S.graph.Slot i) : m.memory.allocs[S.loc i]? = some (S.cell m i) := by
  have inside := h.made slot
  simp [cell, inside]

/-- The address of a slot. -/
theorem Ready.evalWord_slot (h : S.Ready m) (slot : S.graph.Slot i) :
    m.evalWord S.args (.result i) = .ok (Memory.pointer (S.loc i)) := by
  have small : Memory.pointer (S.loc i) < wordCount := by
    have near := Memory.pointer_add_lt (S.loc_lt slot) Memory.span_pos
    rwa [Nat.add_zero] at near
  have value : m.eval S.args (.result i) = .ok (Bytes.ofNat 8 (Memory.pointer (S.loc i))) := by
    rw [eval, h.pointer slot]
    rfl
  unfold evalWord
  rw [Checked.bind_eq_ok_iff]
  exact ⟨_, value, congrArg Except.ok (Bytes.word_ofNat_eight small)⟩

/-! ### Changes of the state -/

def put (S : Scene) (m : Machine) (i : InstrId) (data : Bytes) : Machine :=
  { m with memory := ⟨m.memory.allocs.setIfInBounds (S.loc i) data⟩ }

theorem Ready.cell_put (h : S.Ready m) (slot : S.graph.Slot i) : S.cell (S.put m i data) i = data := by
  have inside := h.made slot
  simp [cell, put, inside]

theorem cell_put_ne (si : S.graph.Slot i) (sj : S.graph.Slot j) (ne : j ≠ i) :
    S.cell (S.put m i data) j = S.cell m j := by
  have apart : S.loc i ≠ S.loc j := fun eq => ne (S.loc_inj sj si eq.symm)
  simp [cell, put, apart]

theorem Ready.put (h : S.Ready m) (slot : S.graph.Slot i) (fits : data.size = (S.cell m i).size) :
    S.Ready (S.put m i data) where
  size := h.size
  pointer := h.pointer
  made := fun sj => by
    have inside := h.made sj
    simpa [Scene.put] using inside
  width := fun {j shape} hj => by
    obtain ⟨n, size, width⟩ := h.width hj
    refine ⟨n, size, ?_⟩
    by_cases same : j = i
    · subst same
      rw [h.cell_put slot, fits, width]
    · rw [cell_put_ne slot ⟨_, hj, rfl⟩ same, width]

@[simp] theorem cell_keep (S : Scene) (m : Machine) (k : InstrId) (data : Bytes) (i : InstrId) :
    S.cell (m.keep k data) i = S.cell m i := rfl

/-- Keeping the result of an instruction that is no slot. -/
theorem Ready.keep (h : S.Ready m) (plain : ¬ S.graph.Slot k) : S.Ready (m.keep k data) where
  size := (size_keep m k data).trans h.size
  pointer := fun {i} slot => by
    have apart : k.index ≠ i.index := fun eq => plain (by cases k; cases i; cases eq; exact slot)
    simp only [Machine.keep]
    rw [Array.getElem?_setIfInBounds_ne apart]
    exact h.pointer slot
  made := h.made
  width := h.width

/-- A result that has been kept is found. -/
theorem Ready.eval_keep (h : S.Ready m) (inside : k.index < S.graph.instrs.size) :
    (m.keep k data).eval S.args (.result k) = .ok data := by
  rw [← h.size] at inside
  simp [Machine.eval, Machine.keep, inside, require]

/-- Only the results and the memory matter. -/
theorem Ready.congr (h : S.Ready m) {after : Machine} (results : after.results = m.results)
    (memory : after.memory = m.memory) : S.Ready after where
  size := results ▸ h.size
  pointer := fun slot => results ▸ h.pointer slot
  made := fun slot => memory ▸ h.made slot
  width := fun hop => by
    unfold cell
    rw [memory]
    exact h.width hop

/-- What was computed before the instruction with number `n` was made, and what the slots made before
hold, is as it was; the slots in `except` apart. -/
structure Keeps (S : Scene) (except : InstrId → Prop) (n : Nat) (m after : Machine) : Prop where
  results : ∀ j : InstrId, j.index < n → after.results[j.index]? = m.results[j.index]?
  cells : ∀ j : InstrId, j.index < n → S.graph.Slot j → ¬ except j → S.cell after j = S.cell m j

namespace Keeps

variable {except : InstrId → Prop} {n : Nat} {mid after : Machine}

theorem refl (S : Scene) (except : InstrId → Prop) (n : Nat) (m : Machine) : S.Keeps except n m m :=
  ⟨fun _ _ => rfl, fun _ _ _ _ => rfl⟩

theorem trans (h : S.Keeps except n m mid) (k : S.Keeps except n mid after) : S.Keeps except n m after where
  results := fun j hj => (k.results j hj).trans (h.results j hj)
  cells := fun j hj slot free => (k.cells j hj slot free).trans (h.cells j hj slot free)

section

variable (h : S.Keeps except n m after)

include h

theorem mono {wider : InstrId → Prop} {l : Nat} (fewer : l ≤ n)
    (sub : ∀ j, j.index < l → except j → wider j) : S.Keeps wider l m after where
  results := fun j hj => h.results j (Nat.lt_of_lt_of_le hj fewer)
  cells := fun j hj slot free => h.cells j (Nat.lt_of_lt_of_le hj fewer) slot fun e => free (sub j hj e)

theorem below {l : Nat} (fewer : l ≤ n) : S.Keeps except l m after := h.mono fewer fun _ _ e => e

theorem widen {wider : InstrId → Prop} (sub : ∀ j, except j → wider j) : S.Keeps wider n m after :=
  h.mono (Nat.le_refl n) fun j _ => sub j

/-- Keeping a new result. -/
theorem keep {k : InstrId} (new : n ≤ k.index) (data : Bytes) : S.Keeps except n m (after.keep k data) where
  results := fun j hj => by
    have apart : k.index ≠ j.index := by omega
    simp only [Machine.keep]
    rw [Array.getElem?_setIfInBounds_ne apart]
    exact h.results j hj
  cells := h.cells

/-- Changing a slot that is new or excepted. -/
theorem put (slot : S.graph.Slot i) (free : n ≤ i.index ∨ except i)
    (data : Bytes) : S.Keeps except n m (S.put after i data) where
  results := h.results
  cells := fun j hj sj hold => by
    have ne : j ≠ i := by
      rintro rfl
      exact free.elim (fun new => by omega) hold
    rw [cell_put_ne slot sj ne]
    exact h.cells j hj sj hold

end

/-- Only the results and the memory matter. -/
theorem congr (h : S.Keeps except n m mid) (results : after.results = mid.results)
    (memory : after.memory = mid.memory) : S.Keeps except n m after where
  results := fun j hj => results ▸ h.results j hj
  cells := fun j hj slot free => by
    unfold cell
    rw [memory]
    exact h.cells j hj slot free

/-- An operand that was there has the value it had. -/
theorem eval (h : S.Keeps except n m after) {v : Operand} (old : ∀ j, v = .result j → j.index < n) :
    after.eval S.args v = m.eval S.args v := by
  cases v with
  | result j => simp only [Machine.eval, h.results j (old j rfl)]
  | _ => rfl

end Keeps

/-! ### Loads and stores -/

variable (h : S.Ready m)

include h

theorem step_load {n : Nat} (hk : S.graph.instr k = .ok ⟨.load (.result i), shape, name⟩) (slot : S.graph.Slot i)
    (size : Machine.sizeOf shape = .ok n) (fits : n ≤ (S.cell m i).size) :
    step S.graph S.args m k = .ok (.next, m.keep k ((S.cell m i).slice 0 n)) := by
  have read := Memory.read_start (h.alloc slot) fits
  unfold step
  rw [Checked.bind_eq_ok_iff]
  refine ⟨_, hk, ?_⟩
  simp only [Checked.bind_eq_ok_iff]
  exact ⟨_, h.evalWord_slot slot, n, size, _, read, rfl⟩

/-- A load of a whole slot. -/
theorem step_load_all (hk : S.graph.instr k = .ok ⟨.load (.result i), shape, name⟩) (slot : S.graph.Slot i)
    (size : Machine.sizeOf shape = .ok (S.cell m i).size) :
    step S.graph S.args m k = .ok (.next, m.keep k (S.cell m i)) := by
  rw [step_load h hk slot size (Nat.le_refl _), Bytes.slice_all]

theorem step_store {v : Operand}
    (hk : S.graph.instr k = .ok ⟨.store v (.result i), shape, name⟩) (slot : S.graph.Slot i)
    (value : m.eval S.args v = .ok data) (fits : data.size ≤ (S.cell m i).size) :
    step S.graph S.args m k = .ok (.next, S.put m i ((S.cell m i).splice 0 data)) := by
  have write := Memory.write_start (h.alloc slot) fits
  unfold step
  rw [Checked.bind_eq_ok_iff]
  refine ⟨_, hk, ?_⟩
  simp only [Checked.bind_eq_ok_iff]
  exact ⟨data, value, _, h.evalWord_slot slot, _, write, rfl⟩

/-- A store to a whole slot. -/
theorem step_store_all {v : Operand}
    (hk : S.graph.instr k = .ok ⟨.store v (.result i), shape, name⟩) (slot : S.graph.Slot i)
    (value : m.eval S.args v = .ok data) (fits : data.size = (S.cell m i).size) :
    step S.graph S.args m k = .ok (.next, S.put m i data) := by
  rw [step_store h hk slot value (Nat.le_of_eq fits), Bytes.splice_all fits]

end Scene

end FlowIR

import FlowIR.Proofs.Machine.Cells
import FlowIR.Proofs.Machine.Leads

/-!
Making the slots of a function.

A function starts by making its slots, one after the other, each in a new allocation that is all zero.
Either the run is cut off before that is done, or a slot is too large to be made, or the slots are made
and lie one behind the other behind what the caller has allocated (`Machine.leads_slots`).
-/

namespace FlowIR

namespace Machine

variable {g : Graph} {args : Array Bytes} {m₀ m : Machine} {done : List InstrId} {i : InstrId}

structure Made (g : Graph) (done : List InstrId) (m₀ m : Machine) : Prop where
  size : m.results.size = m₀.results.size
  pointer : ∀ (k : Nat) (i : InstrId), done[k]? = some i →
    m.results[i.index]? = some (some (Bytes.ofNat 8 (Memory.pointer (m₀.memory.allocs.size + k))))
  allocs : m.memory.allocs.size = m₀.memory.allocs.size + done.length
  zeros : ∀ (k : Nat) (i : InstrId) (shape : Shape), done[k]? = some i → g.op? i = some (.alloca shape) →
    ∃ n, sizeOf shape = .ok n ∧
      m.memory.allocs[m₀.memory.allocs.size + k]? = some (Bytes.zeros (max n 1))
  world : m.world = m₀.world

/-- What a list is with one more element. -/
theorem getElem?_concat_cases {l : List InstrId} {i j : InstrId} {k : Nat} (found : (l ++ [i])[k]? = some j) :
    k < l.length ∧ l[k]? = some j ∨ k = l.length ∧ j = i := by
  rw [List.getElem?_append] at found
  split at found
  · next below => exact .inl ⟨below, found⟩
  · have bound := (List.getElem?_eq_some_iff.mp found).1
    have last : k = l.length := by
      simp only [List.length_singleton] at bound
      omega
    subst last
    rw [Nat.sub_self] at found
    cases found
    exact .inr ⟨rfl, rfl⟩

namespace Made

theorem refl (g : Graph) (m : Machine) : Made g [] m m :=
  ⟨rfl, fun _ _ h => (nomatch h), rfl, fun _ _ _ h => (nomatch h), rfl⟩

/-- Making one more slot. -/
theorem step (h : Made g done m₀ m) {shape : Shape} {n : Nat} (new : i ∉ done)
    (inside : i.index < m₀.results.size) (hop : g.op? i = some (.alloca shape)) (sized : sizeOf shape = .ok n) :
    Made g (done ++ [i]) m₀ ({ m with memory := (m.memory.alloc n).2 }.keep i
      (Bytes.ofNat 8 (m.memory.alloc n).1)) where
  size := (size_keep _ _ _).trans h.size
  pointer := fun k j found => by
    have place : i.index < m.results.size := h.size ▸ inside
    simp only [keep]
    rcases getElem?_concat_cases found with ⟨-, old⟩ | ⟨rfl, rfl⟩
    · have apart : i.index ≠ j.index := fun eq => by
        cases i; cases j; cases eq
        exact new (List.mem_of_getElem? old)
      rw [Array.getElem?_setIfInBounds_ne apart]
      exact h.pointer k j old
    · rw [Array.getElem?_setIfInBounds_self_of_lt place]
      show some (some (Bytes.ofNat 8 (Memory.pointer m.memory.allocs.size))) = _
      rw [h.allocs]
  allocs := by
    simp only [keep, Memory.alloc, Array.size_push, h.allocs, List.length_append, List.length_singleton]
    omega
  zeros := fun k j shape' found hop' => by
    have end_ := h.allocs
    simp only [keep, Memory.alloc, Array.getElem?_push]
    rcases getElem?_concat_cases found with ⟨below, old⟩ | ⟨rfl, rfl⟩
    · rw [if_neg (by omega)]
      exact h.zeros k j shape' old hop'
    · cases hop.symm.trans hop'
      exact ⟨n, sized, if_pos (by omega)⟩
  world := h.world

end Made

theorem step_alloca {shape : Shape} (hop : g.op? i = some (.alloca shape)) :
    step g args m i = (sizeOf shape).map fun n =>
      ({ m with memory := (m.memory.alloc n).2 } : Machine).proceed i (Bytes.ofNat 8 (m.memory.alloc n).1) := by
  obtain ⟨instr, found, eq⟩ := Option.map_eq_some_iff.mp hop
  have there : g.instr i = .ok instr := by simp [Graph.instr, found]
  simp only [step, there, eq, bind, Except.bind]
  cases sizeOf shape <;> rfl

/-- Making the slots of a function, one after the other. -/
theorem leads_slots {x : BlockId} {rest : List InstrId} {P : Config → Prop}
    (faulted : ∀ i shape f, g.op? i = some (.alloca shape) → sizeOf shape = .error f → P (.over (.error f))) :
    ∀ {slots done : List InstrId} {fuel : Nat} {m : Machine}, Made g done m₀ m → (done ++ slots).Nodup →
      (∀ i ∈ slots, i.index < m₀.results.size ∧ ∃ shape, g.op? i = some (.alloca shape)) →
      (∀ left m', slots.length + left ≤ fuel → Made g (done ++ slots) m₀ m' →
        Leads g args left (.before x rest m') P) →
      Leads g args fuel (.before x (slots ++ rest) m) P
  | [], done, fuel, m, made, _, _, later => by
    rw [List.append_nil] at later
    exact later fuel m (by simp) made
  | i :: slots, done, fuel, m, made, nodup, known, later => by
    obtain ⟨inside, shape, hop⟩ := known i List.mem_cons_self
    have exec := @step_alloca g args m i shape hop
    have new : i ∉ done := fun old =>
      (List.nodup_append.mp nodup).2.2 i old i List.mem_cons_self rfl
    cases sized : sizeOf shape with
    | error f =>
      rw [sized] at exec
      exact Leads.fault exec (faulted i shape f hop sized)
    | ok n =>
      rw [sized] at exec
      refine Leads.next exec fun left fewer _ => ?_
      refine leads_slots faulted (made.step new inside hop sized) ?_
        (fun j hj => known j (List.mem_cons_of_mem _ hj)) fun left' m' bound made' => ?_
      · rwa [List.append_assoc]
      · rw [List.append_assoc] at made'
        refine later left' m' ?_ made'
        rw [List.length_cons]
        omega

end Machine

namespace Scene

open Machine

/-- The scene of a function that makes its slots in the given order, behind what its caller has
allocated. -/
def ofSlots (g : Graph) (args : Array Bytes) (entry : BlockId) (front : List InstrId)
    (base : Nat) (order : List InstrId) (all : ∀ i, g.Slot i → i ∈ order)
    (room : base + order.length + 1 < Memory.span) : Scene where
  graph := g
  args := args
  entry := entry
  front := front
  loc := fun i => base + order.idxOf i
  loc_inj := fun {i j} hi hj eq => by
    have first := List.idxOf_lt_length_of_mem (all i hi)
    have same : order.idxOf i = order.idxOf j := by omega
    have second := List.idxOf_lt_length_of_mem (all j hj)
    have left := List.getElem_idxOf first
    have right := List.getElem_idxOf second
    simp only [same] at left
    exact left.symm.trans right
  loc_lt := fun {i} hi => by
    have first := List.idxOf_lt_length_of_mem (all i hi)
    omega

variable {g : Graph} {args : Array Bytes} {entry : BlockId} {front order : List InstrId} {m₀ m : Machine}
  {all : ∀ i, g.Slot i → i ∈ order} {room : m₀.memory.allocs.size + order.length + 1 < Memory.span}

/-- Once the slots have been made, each has a cell that is all zero. -/
theorem ready_ofSlots (made : Made g order m₀ m) (size : m₀.results.size = g.instrs.size) :
    (ofSlots g args entry front m₀.memory.allocs.size order all room).Ready m ∧
    ∀ i shape, g.op? i = some (.alloca shape) → ∃ n, Machine.sizeOf shape = .ok n ∧
      (ofSlots g args entry front m₀.memory.allocs.size order all room).cell m i = Bytes.zeros (max n 1) := by
  have position : ∀ i, g.Slot i → order[order.idxOf i]? = some i := fun i hi => by
    have inside := List.idxOf_lt_length_of_mem (all i hi)
    rw [List.getElem?_eq_getElem inside, List.getElem_idxOf]
  have cells : ∀ i shape, g.op? i = some (.alloca shape) → ∃ n, Machine.sizeOf shape = .ok n ∧
      (ofSlots g args entry front m₀.memory.allocs.size order all room).cell m i = Bytes.zeros (max n 1) := by
    intro i shape hop
    obtain ⟨n, sized, there⟩ := made.zeros _ i shape (position i ⟨_, hop, rfl⟩) hop
    refine ⟨n, sized, ?_⟩
    show (m.memory.allocs[m₀.memory.allocs.size + order.idxOf i]?).getD (Bytes.zeros 0) = _
    rw [there]
    rfl
  refine ⟨⟨made.size.trans size, fun {i} slot => made.pointer _ i (position i slot), fun {i} slot => ?_,
    fun {i shape} hop => ?_⟩, cells⟩
  · have inside := List.idxOf_lt_length_of_mem (all i slot)
    show m₀.memory.allocs.size + order.idxOf i < m.memory.allocs.size
    rw [made.allocs]
    omega
  · obtain ⟨n, sized, cell⟩ := cells i shape hop
    exact ⟨n, sized, by rw [cell, Bytes.size_zeros]⟩

end Scene

end FlowIR

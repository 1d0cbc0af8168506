import FlowIR.Fault
import FlowIR.Machine.Bytes

/-!
Memory as a list of allocations. A pointer holds the number of its allocation, counted from one, in
its upper 32 bits and the offset in the lower ones; no access leaves its allocation.
-/

namespace FlowIR

structure Memory where
  allocs : Array Bytes := #[]

namespace Memory

/-- The number of offsets of one allocation: `2 ^ 32`. -/
def span : Nat := 0x100000000

/-- A new allocation, all zero and of one byte at least, and the pointer to it. -/
def alloc (m : Memory) (size : Nat) : Nat × Memory :=
  ((m.allocs.size + 1) * span, ⟨m.allocs.push (Bytes.zeros (max size 1))⟩)

/-- The allocation that a pointer means, for an access of `size` bytes, and its position. -/
def locate (m : Memory) (ptr size : Nat) : Checked (Nat × Bytes) := do
  let number := ptr / span
  if number = 0 then
    throw (.badPointer ptr)
  let a ← require (.badPointer ptr) m.allocs[number - 1]?
  if ptr % span + size ≤ a.size then
    return (number - 1, a)
  else
    throw (.outOfBounds ptr size)

def read (m : Memory) (ptr size : Nat) : Checked Bytes := do
  let (_, a) ← m.locate ptr size
  return a.slice (ptr % span) size

def write (m : Memory) (ptr : Nat) (data : Bytes) : Checked Memory := do
  let (index, a) ← m.locate ptr data.size
  return ⟨m.allocs.setIfInBounds index (a.splice (ptr % span) data)⟩

/-! ### Laws -/

/-- An access is located exactly if it lies inside the allocation of its pointer. -/
theorem locate_eq_ok_iff {m : Memory} {ptr size index : Nat} {a : Bytes} :
    m.locate ptr size = .ok (index, a) ↔
      ptr / span = index + 1 ∧ m.allocs[index]? = some a ∧ ptr % span + size ≤ a.size := by
  unfold locate
  by_cases null : ptr / span = 0
  · simp only [null, ↓reduceIte]
    exact ⟨fun h => (nomatch h), fun ⟨h, _⟩ => absurd h (by omega)⟩
  · simp only [null, ↓reduceIte]
    rw [Checked.bind_eq_ok_iff]
    constructor
    · rintro ⟨found, hfound, h⟩
      rw [require_eq_ok_iff] at hfound
      split at h
      · next inside =>
        cases h
        exact ⟨(Nat.succ_pred_eq_of_ne_zero null).symm, hfound, inside⟩
      · cases h
    · rintro ⟨hindex, hfound, inside⟩
      have number : ptr / span - 1 = index := by rw [hindex, Nat.add_sub_cancel]
      refine ⟨a, ?_, ?_⟩
      · rw [require_eq_ok_iff, number, hfound]
      · rw [if_pos inside, number]
        rfl

/-- What has been written is read back. -/
theorem read_of_write {m after : Memory} {ptr : Nat} {data : Bytes}
    (h : m.write ptr data = .ok after) : after.read ptr data.size = .ok data := by
  unfold write at h
  rw [Checked.bind_eq_ok_iff] at h
  obtain ⟨⟨index, a⟩, located, written⟩ := h
  cases written
  rw [locate_eq_ok_iff] at located
  obtain ⟨number, found, inside⟩ := located
  have bound : index < m.allocs.size := (Array.getElem?_eq_some_iff.mp found).1
  unfold read
  rw [Checked.bind_eq_ok_iff]
  refine ⟨⟨index, a.splice (ptr % span) data⟩, locate_eq_ok_iff.mpr ⟨number, ?_, ?_⟩, ?_⟩
  · simp [bound]
  · rwa [Bytes.size_splice inside]
  · exact congrArg Except.ok (Bytes.slice_splice_self inside)

end Memory

end FlowIR

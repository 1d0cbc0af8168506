import FlowIR.Shape.Basic
import FlowIR.Size

/-!
Sizes, alignments and field offsets. Fields are laid out in order, each at the next multiple of its
alignment, and a struct is padded to a multiple of its own. Every result is `none` when a size on
the way does not fit in 64 bits.
-/

namespace FlowIR.Shape

/-- Bytes taken by an integer of the given number of bits. -/
def intSize (bits : Nat) : Nat := (bits + 7) / 8

structure Room where
  /-- The number of bytes, padding included. -/
  size : Option Nat
  /-- The number that every address is a multiple of. -/
  align : Option Nat

mutual
/-- The room for a value of a shape; size and alignment are found together, in one pass. -/
def room : Shape → Room
  | .void => ⟨some 0, some 1⟩
  | .int bits => ⟨some (intSize bits), some (max (intSize bits) 1)⟩
  | .f32 => ⟨some 4, some 4⟩
  | .f64 => ⟨some 8, some 8⟩
  | .ptr _ => ⟨some 8, some 8⟩
  | .struct fields =>
    let whole := fieldsRoom fields (some 0)
    ⟨do Size.alignUp (← whole.size) (← whole.align), whole.align⟩
  | .array elem len =>
    let each := elem.room
    ⟨do Size.mul (← each.size) len, each.align⟩
  | .vector elem lanes =>
    let size := do Size.mul (← elem.room.size) lanes
    ⟨size, do return max (← size) 1⟩

/-- The room for fields one behind the other, when the first may start at `offset`: where the last
one ends, and the strictest alignment. -/
def fieldsRoom : List Shape → (offset : Option Nat) → Room
  | [], offset => ⟨offset, some 1⟩
  | f :: fs, offset =>
    let first := f.room
    let rest := fieldsRoom fs do
      Size.add (← Size.alignUp (← offset) (← first.align)) (← first.size)
    ⟨rest.size, do return max (← first.align) (← rest.align)⟩
end

/-- The number of bytes a value takes, padding included. -/
def size? (s : Shape) : Option Nat := s.room.size

/-- The number that every address of a value is a multiple of. -/
def align? (s : Shape) : Option Nat := s.room.align

def fieldsAlign? : List Shape → Option Nat
  | [] => some 1
  | f :: fs => do return max (← f.align?) (← fieldsAlign? fs)

/-- Where the last field ends, when the first may start at `offset`. -/
def extent? (offset : Nat) : List Shape → Option Nat
  | [] => some offset
  | f :: fs => do
    let start ← Size.alignUp offset (← f.align?)
    extent? (← Size.add start (← f.size?)) fs

/-- Where the field at `index` starts, when the first may start at `offset`. -/
def start? (offset : Nat) : List Shape → (index : Nat) → Option Nat
  | [], _ => none
  | f :: _, 0 => do Size.alignUp offset (← f.align?)
  | f :: fs, index + 1 => do
    let start ← Size.alignUp offset (← f.align?)
    start? (← Size.add start (← f.size?)) fs index

/-- Byte offset of a field of a struct or an element of an array. -/
def fieldOffset? : Shape → (index : Nat) → Option Nat
  | .struct fields, index => start? 0 fields index
  | .array elem len, index => if index < len then do Size.mul (← elem.size?) index else none
  | _, _ => none

/-- Shape of a field of a struct or an element of an array. -/
def field? : Shape → (index : Nat) → Option Shape
  | .struct fields, index => fields[index]?
  | .array elem len, index => if index < len then some elem else none
  | _, _ => none

/-! ### Laws -/

theorem fieldsRoom_eq (fields : List Shape) (offset : Option Nat) :
    fieldsRoom fields offset = ⟨offset.bind (extent? · fields), fieldsAlign? fields⟩ := by
  induction fields generalizing offset with
  | nil => cases offset <;> rfl
  | cons f fs ih =>
    rw [fieldsRoom, ih]
    cases offset with
    | none => rfl
    | some offset =>
      simp only [extent?, fieldsAlign?, size?, align?, Option.bind_eq_bind, Option.bind_some,
        Option.bind_assoc]

/-- A struct ends with its last field and is padded to its alignment. -/
theorem size?_struct (fields : List Shape) :
    (Shape.struct fields).size? =
      (extent? 0 fields).bind fun extent => (fieldsAlign? fields).bind (Size.alignUp extent) := by
  rw [size?, room, fieldsRoom_eq]
  rfl

/-- A struct is aligned as its strictest field. -/
theorem align?_struct (fields : List Shape) :
    (Shape.struct fields).align? = fieldsAlign? fields := by
  rw [align?, room, fieldsRoom_eq]

theorem size?_array (elem : Shape) (len : Nat) :
    (Shape.array elem len).size? = elem.size?.bind (Size.mul · len) := by
  rw [size?, room]
  rfl

theorem align?_array (elem : Shape) (len : Nat) :
    (Shape.array elem len).align? = elem.align? := by
  rw [align?, room]
  rfl

end FlowIR.Shape

import FlowIR.Shape.Layout

/-!
Source types. Every type is concrete: it has one shape, and its size and alignment are those of
the shape.
-/

namespace FlowIR

inductive Signedness where
  | signed
  | unsigned
deriving DecidableEq, Repr, Inhabited

inductive Width where
  | w8
  | w16
  | w32
  | w64
deriving DecidableEq, Repr, Inhabited

def Width.bits : Width → Nat
  | .w8 => 8
  | .w16 => 16
  | .w32 => 32
  | .w64 => 64

inductive Ty where
  | void
  | bool
  | int (sign : Signedness) (width : Width)
  | f32
  | f64
  /-- A pointer; one to `void` is untyped. -/
  | ptr (target : Ty)
  | struct (fields : List Ty)
  /-- Positional fields, laid out like those of a struct. -/
  | tuple (fields : List Ty)
  | array (elem : Ty) (len : Nat)
deriving Inhabited

namespace Ty

abbrev i8 : Ty := .int .signed .w8
abbrev i16 : Ty := .int .signed .w16
abbrev i32 : Ty := .int .signed .w32
abbrev i64 : Ty := .int .signed .w64
abbrev u8 : Ty := .int .unsigned .w8
abbrev u16 : Ty := .int .unsigned .w16
abbrev u32 : Ty := .int .unsigned .w32
abbrev u64 : Ty := .int .unsigned .w64

def isVoid : Ty → Bool
  | .void => true
  | _ => false

def isAggregate : Ty → Bool
  | .struct _ | .tuple _ | .array _ _ => true
  | _ => false

def isFloat : Ty → Bool
  | .f32 | .f64 => true
  | _ => false

def isSigned : Ty → Bool
  | .int .signed _ => true
  | _ => false

def isUnsigned : Ty → Bool
  | .bool | .int .unsigned _ => true
  | _ => false

def isInteger (t : Ty) : Bool :=
  t.isSigned || t.isUnsigned

def fields : Ty → List Ty
  | .struct fields | .tuple fields => fields
  | _ => []

/-- What a pointer points to; `void` for any other type. -/
def pointee : Ty → Ty
  | .ptr target => target
  | _ => .void

/-! ### Shapes -/

mutual
/-- The shape of a type in memory. A `bool` takes a byte, and an untyped pointer points to
bytes. -/
def shape : Ty → Shape
  | .void => .void
  | .bool => .i8
  | .int _ width => .int width.bits
  | .f32 => .f32
  | .f64 => .f64
  | .ptr .void => .bytePtr
  | .ptr target => .ptr target.shape
  | .struct fields => .struct (shapes fields)
  | .tuple fields => .struct (shapes fields)
  | .array elem len => .array elem.shape len

def shapes : List Ty → List Shape
  | [] => []
  | t :: ts => t.shape :: shapes ts
end

/-- The number of bytes a value of the type takes. -/
def size? (t : Ty) : Option Nat :=
  t.shape.size?

def align? (t : Ty) : Option Nat :=
  t.shape.align?

def isZeroSized? (t : Ty) : Option Bool := do
  return (← t.size?) == 0

/-! ### Equality -/

mutual
def same : Ty → Ty → Bool
  | .void, .void => true
  | .bool, .bool => true
  | .int s v, .int t w => s == t && v == w
  | .f32, .f32 => true
  | .f64, .f64 => true
  | .ptr a, .ptr b => a.same b
  | .struct as, .struct bs => sameAll as bs
  | .tuple as, .tuple bs => sameAll as bs
  | .array a m, .array b n => a.same b && m == n
  | _, _ => false

def sameAll : List Ty → List Ty → Bool
  | [], [] => true
  | a :: as, b :: bs => a.same b && sameAll as bs
  | _, _ => false
end

mutual
theorem same_iff : ∀ a b : Ty, a.same b = true ↔ a = b
  | .void, b => by cases b <;> simp [same]
  | .bool, b => by cases b <;> simp [same]
  | .int _ _, b => by cases b <;> simp [same]
  | .f32, b => by cases b <;> simp [same]
  | .f64, b => by cases b <;> simp [same]
  | .ptr a, b => by cases b <;> simp [same, same_iff a]
  | .struct as, b => by cases b <;> simp [same, sameAll_iff as]
  | .tuple as, b => by cases b <;> simp [same, sameAll_iff as]
  | .array a _, b => by cases b <;> simp [same, same_iff a]

theorem sameAll_iff : ∀ as bs : List Ty, sameAll as bs = true ↔ as = bs
  | [], bs => by cases bs <;> simp [sameAll]
  | a :: as, bs => by cases bs <;> simp [sameAll, same_iff a, sameAll_iff as]
end

instance : DecidableEq Ty := fun a b =>
  decidable_of_iff (a.same b = true) (same_iff a b)

end Ty

end FlowIR

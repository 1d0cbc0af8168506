/-!
Machine-level shapes of values: integers of any width, floats, typed pointers, and the aggregates
and vectors made of them.
-/

namespace FlowIR

inductive Shape where
  | void
  /-- An integer of the given number of bits. -/
  | int (bits : Nat)
  | f32
  | f64
  | ptr (target : Shape)
  | struct (fields : List Shape)
  | array (elem : Shape) (len : Nat)
  /-- Several scalars that travel in one register. -/
  | vector (elem : Shape) (lanes : Nat)
deriving Inhabited

namespace Shape

abbrev i1 : Shape := .int 1
abbrev i8 : Shape := .int 8
abbrev i16 : Shape := .int 16
abbrev i32 : Shape := .int 32
abbrev i64 : Shape := .int 64

/-- The untyped pointer `i8*`: label addresses and exceptions have this shape. -/
def bytePtr : Shape := .ptr .i8

/-- What a landing pad produces: the exception and a selector. -/
def token : Shape := .struct [bytePtr, .i32]

def target? : Shape → Option Shape
  | .ptr target => some target
  | _ => none

def isVoid : Shape → Bool
  | .void => true
  | _ => false

def isAggregate : Shape → Bool
  | .struct _ | .array _ _ => true
  | _ => false

def isVector : Shape → Bool
  | .vector _ _ => true
  | _ => false

def isFloat : Shape → Bool
  | .f32 | .f64 => true
  | _ => false

/-! ### Equality -/

mutual
def same : Shape → Shape → Bool
  | .void, .void => true
  | .int a, .int b => a == b
  | .f32, .f32 => true
  | .f64, .f64 => true
  | .ptr a, .ptr b => a.same b
  | .struct as, .struct bs => sameAll as bs
  | .array a m, .array b n => a.same b && m == n
  | .vector a m, .vector b n => a.same b && m == n
  | _, _ => false

def sameAll : List Shape → List Shape → Bool
  | [], [] => true
  | a :: as, b :: bs => a.same b && sameAll as bs
  | _, _ => false
end

mutual
theorem same_iff : ∀ a b : Shape, a.same b = true ↔ a = b
  | .void, b => by cases b <;> simp [same]
  | .int _, b => by cases b <;> simp [same]
  | .f32, b => by cases b <;> simp [same]
  | .f64, b => by cases b <;> simp [same]
  | .ptr a, b => by cases b <;> simp [same, same_iff a]
  | .struct as, b => by cases b <;> simp [same, sameAll_iff as]
  | .array a _, b => by cases b <;> simp [same, same_iff a]
  | .vector a _, b => by cases b <;> simp [same, same_iff a]

theorem sameAll_iff : ∀ as bs : List Shape, sameAll as bs = true ↔ as = bs
  | [], bs => by cases bs <;> simp [sameAll]
  | a :: as, bs => by cases bs <;> simp [sameAll, same_iff a, sameAll_iff as]
end

instance : DecidableEq Shape := fun a b =>
  decidable_of_iff (a.same b = true) (same_iff a b)

end Shape

end FlowIR

import FlowIR.Convention.Signature

/-!
How one value crosses a call, and which physical arguments it takes.
-/

namespace FlowIR

/-- How the caller fills the rest of a register that an integer is narrower than. -/
inductive Extension where
  | none
  | sign
  | zero
deriving DecidableEq, Repr

inductive Passing where
  /-- A value without bytes does not travel. -/
  | ignored
  /-- The chunks travel in registers. -/
  | direct (chunks : List Shape) (ext : Extension)
  /-- A pointer to the value travels; the memory is the caller's. -/
  | indirect
deriving DecidableEq

/-- How a value crosses a call, and the first physical argument it takes. -/
structure Placement where
  passing : Passing
  ty : Ty
  offset : Nat
deriving DecidableEq

namespace Passing

def isIgnored : Passing → Bool
  | .ignored => true
  | _ => false

def isDirect : Passing → Bool
  | .direct _ _ => true
  | _ => false

def isIndirect : Passing → Bool
  | .indirect => true
  | _ => false

def extension : Passing → Extension
  | .direct _ ext => ext
  | _ => .none

end Passing

namespace Placement

/-- The shapes of the physical arguments that the value takes. -/
def argShapes (p : Placement) : List Shape :=
  match p.passing with
  | .ignored => []
  | .direct chunks _ => chunks
  | .indirect => [.ptr p.ty.shape]

/-- The number of physical arguments that the value takes, as a 32-bit count. -/
def slots (p : Placement) : Nat :=
  match p.passing with
  | .ignored => 0
  | .direct chunks _ => chunks.length % Size.countLimit
  | .indirect => 1

/-- The value as it travels: its only chunk, or the struct of its chunks. It is `void` when the
value does not travel in registers. -/
def regShape (p : Placement) : Shape :=
  match p.passing with
  | .direct [chunk] _ => chunk
  | .direct chunks _ => .struct chunks
  | _ => .void

theorem slots_eq (p : Placement) : p.slots = p.argShapes.length % Size.countLimit := by
  unfold argShapes slots
  split <;> rfl

theorem slots_le (p : Placement) : p.slots ≤ p.argShapes.length := by
  rw [slots_eq]
  exact Nat.mod_le _ _

end Placement

end FlowIR

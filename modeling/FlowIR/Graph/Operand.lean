import FlowIR.Ident
import FlowIR.Shape.Basic

/-!
Operands: what an instruction can use.
-/

namespace FlowIR

/-- A constant. Floats are kept as the bits of a 64-bit float, also those of the shape `f32`. -/
inductive Constant where
  | int (shape : Shape) (value : Int)
  | float (shape : Shape) (bits : UInt64)
  | null (shape : Shape)
  | zero (shape : Shape)
  | undef (shape : Shape)
deriving DecidableEq

def Constant.shape : Constant → Shape
  | .int shape _ | .float shape _ | .null shape | .zero shape | .undef shape => shape

inductive Operand where
  /-- A physical argument, by position. -/
  | arg (index : Nat)
  /-- The result of an instruction. -/
  | result (instr : InstrId)
  | const (value : Constant)
  /-- The address of a block, to which an indirect branch can go. -/
  | blockAddr (block : BlockId)
  /-- The address of a label that has no place in the layout yet. -/
  | placeholder (id : PlaceholderId)
deriving DecidableEq

namespace Operand

def int (shape : Shape) (value : Int) : Operand :=
  .const (.int shape value)

def i1 (value : Bool) : Operand :=
  .int .i1 value.toInt

def i8 (value : Int) : Operand :=
  .int .i8 value

def instr? : Operand → Option InstrId
  | .result instr => some instr
  | _ => none

def placeholder? : Operand → Option PlaceholderId
  | .placeholder id => some id
  | _ => none

def isPlaceholder (v : Operand) : Bool :=
  v.placeholder?.isSome

end Operand

end FlowIR

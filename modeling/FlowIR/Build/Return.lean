import FlowIR.Build.Storage

/-!
Returning a value as the calling convention asks for it.
-/

namespace FlowIR.Build

/-- A conversion of a pointer and a load through it, at the end of a block. -/
def loadThrough (block : BlockId) (ptr : Operand) (shape : Shape) : BuildM Operand := do
  let cast ← newCast ptr (.ptr shape)
  append block cast
  let name ← fresh "ld"
  let load ← newTracked { op := .load (.result cast), shape, name := some name }
  append block load
  return .result load

/-- Emits what has to precede the return at the end of a block, and gives the operand to return.
The value is a scalar or the address of an aggregate. -/
def prepareReturn (block : BlockId) (value : Option Operand) (span : Span) :
    BuildM (Option Operand) := do
  let result := (← get).convention.result
  match result.passing, value with
  | .ignored, _ => return none
  | .indirect, some src =>
    let size ← require .overflow result.ty.size?
    let align ← require .overflow result.ty.align?
    let copy ← newTracked { op := .memcpy (.arg 0) src size align }
    append block copy
    return none
  | .direct _ _, some value =>
    let shape := result.regShape
    if shape.isAggregate || result.ty.isAggregate then
      return some (← loadThrough block value shape)
    else
      return some value
  | _, none => fail span (.returnArity 1 0)

/-- The storage for a result on its way through cleanups, one for the whole function. -/
def returnSlot : BuildM Operand := do
  match (← get).returnSlot with
  | some slot => return slot
  | none =>
    let slot ← newTemporary (← get).signature.result "retval"
    modify ({ · with returnSlot := some slot })
    return slot

end FlowIR.Build

import FlowIR.Emit.Cursor

/-!
Moving values between registers and memory. A scalar is an operand; an aggregate stays in memory
and is represented by its address.
-/

namespace FlowIR.Emit

def loadValue (addr : Operand) (ty : Ty) (tag : String) : EmitM Operand :=
  if ty.isAggregate then return addr else named tag (.load addr) ty.shape

/-- The instruction that puts a value at an address. -/
def storeOp (dst value : Operand) (ty : Ty) : Checked Op := do
  if ty.isAggregate then
    return .memcpy dst value (← require .overflow ty.size?) (← require .overflow ty.align?)
  else
    return .store value dst

def storeValue (dst value : Operand) (ty : Ty) : EmitM InstrId := do
  perform (← storeOp dst value ty)

def fieldAddr (base : Operand) (index : Nat) (ty : Ty) : EmitM Operand :=
  named "field" (.fieldAddr base index) (.ptr ty.shape)

def pointerTo (ptr : Operand) (ty : Ty) : EmitM Operand := do
  let want := Shape.ptr ty.shape
  if (← (← builder).graph.shapeOf ptr) = want then
    return ptr
  else
    named "cast" (.cast .bitcast ptr want) want

def zeroValue (ty : Ty) : EmitM Operand := do
  let zero := Operand.const (.zero ty.shape)
  if ty.isAggregate then
    let tmp ← Build.newTemporary ty "tmp"
    let _ ← perform (.store zero tmp)
    return tmp
  else
    return zero

/-- A value as a call takes it: aggregates travel whole. -/
def passValue (value : Operand) (ty : Ty) : EmitM Operand :=
  if ty.isAggregate then named "ld" (.load value) ty.shape else return value

def lookupVar (v : VarId) (span : Span) : EmitM Variable := do
  match (← builder).var? v with
  | some x => return x
  | none => fail span (.unknownVariable v)

end FlowIR.Emit

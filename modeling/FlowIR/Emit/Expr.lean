import FlowIR.Emit.Operator
import FlowIR.Emit.Value
import FlowIR.Graph.Text

/-!
Code of expressions. The result is `none` when there is no value: the expression is of no type, or
it has been reported as wrong.
-/

namespace FlowIR.Emit

/-- The truth value of a condition, as a branch takes it. A literal needs no code. -/
def condition (cond : Expr) (code : EmitM (Option Operand)) : EmitM (Option Operand) := do
  match cond.boolLiteral? with
  | some b => return some (.i1 b)
  | none =>
    let some v ← code | return none
    return some (← named "trunc" (.cast .trunc v .i1) .i1)

/-- Applies an operator to two values. A comparison gives a byte. -/
def applyBinary (op : BinaryOp) (lhs : Node) (l r : Operand) : EmitM Operand := do
  if op.isComparison then
    let pred := op.pred lhs.ty
    let tag := if pred.isFloat then "fcmp" else "icmp"
    let truth ← named tag (.compare pred l r) .i1
    named "zext" (.cast .zext truth .i8) .i8
  else
    match op.arith? lhs.ty with
    | some arith => named arith.text (.arith arith l r) lhs.ty.shape
    | none => fail lhs.span (.invalidExpression .operator)

/-- The call itself: where a landing pad encloses it, one that unwinds to the pad. -/
def callInstr (callee : String) (args : List Operand) (shape : Shape) (name : Option String) :
    EmitM Operand := do
  match (← get).pads.head? with
  | some pad =>
    let cont ← Build.newBlock "cont"
    let i ← push { op := .invoke callee args cont pad, shape, name }
    startBlock cont
    return .result i
  | none => return .result (← push { op := .call callee args, shape, name })

/-- A call with the given arguments. A result without bytes is no result. -/
def applyCall (callee : String) (args : List Operand) (ty : Ty) : EmitM (Option Operand) := do
  if ← require .overflow ty.isZeroSized? then
    let _ ← callInstr callee args .void none
    return none
  else
    let name ← Build.fresh "call"
    let result ← callInstr callee args ty.shape (some name)
    if ty.isAggregate then
      let tmp ← Build.newTemporary ty "tmp"
      let _ ← perform (.store result tmp)
      return some tmp
    else
      return some result

/-- One arm of a choice: puts its value, if it has one, into the slot. -/
def choiceArm (block join : BlockId) (slot : Operand) (ty : Ty) (code : EmitM (Option Operand)) :
    EmitM Unit := do
  startBlock block
  if let some v ← code then
    let _ ← storeValue slot v ty
  branchTo join

/-- A choice between two values, through a slot that both arms write. -/
def choice (cond : Operand) (ty : Ty) (yes no : EmitM (Option Operand)) : EmitM Operand := do
  let slot ← Build.newTemporary ty "tmpv"
  let yesBlock ← Build.newBlock "then"
  let noBlock ← Build.newBlock "else"
  let join ← Build.newBlock "fallthrough"
  let _ ← perform (.condBr cond yesBlock noBlock)
  choiceArm yesBlock join slot ty yes
  choiceArm noBlock join slot ty no
  startBlock join
  loadValue slot ty "tmpv.ld"

/-- The address of a field of the aggregate at `base`. -/
def fieldOf (node : Node) (base : Operand) (baseTy : Ty) (index : Nat) : EmitM Operand :=
  if baseTy.isAggregate then fieldAddr base index node.ty else fail node.span .notAnLvalue

mutual
def expr : Expr → EmitM (Option Operand)
  | .int n value => return some (.int n.ty.shape value)
  | .float n bits => return some (.const (.float n.ty.shape bits))
  | .bool _ value => return some (.i8 value.toInt)
  | .nil n => return some (.const (.null n.ty.shape))
  | .zero n => return some (← zeroValue n.ty)
  | .var n v => do
    let x ← lookupVar v n.span
    return some (← loadValue x.slot n.ty (x.name ++ ".ld"))
  | .addressOf n v => do
    let x ← lookupVar v n.span
    Build.updateVar v ({ · with addressTaken := true })
    return some x.slot
  | .deref n ptr => do
    let some p ← expr ptr | return none
    let addr ← pointerTo p n.ty
    return some (← loadValue addr n.ty "deref.ld")
  | .field n base index => do
    let some b ← (if base.isPlace then place base else expr base) | return none
    let addr ← fieldOf n b base.ty index
    return some (← loadValue addr n.ty "field.ld")
  | .binary _ op lhs rhs => do
    let some l ← expr lhs | return none
    let some r ← expr rhs | return none
    return some (← applyBinary op lhs.node l r)
  | .call n callee args => do
    let some values ← operands args | return none
    applyCall callee values n.ty
  | .conditional n cond yes no => do
    let some c ← condition cond (expr cond) | return none
    return some (← choice c n.ty (expr yes) (expr no))
  | .composite n fields => do
    if !n.ty.isAggregate then
      fail n.span (.invalidExpression .scalarComposite)
    let tmp ← Build.newTemporary n.ty "tmp"
    storeFields tmp 0 fields
    return some tmp
  | .labelAddress n label => return some (← Build.addressOfLabel label n.span)
  | .error _ => do
    Build.markError
    return none

/-- The code of an expression that names storage, giving its address. -/
def place : Expr → EmitM (Option Operand)
  | .var n v => return some (← lookupVar v n.span).slot
  | .deref n ptr => do
    let some p ← expr ptr | return none
    return some (← pointerTo p n.ty)
  | .field n base index => do
    let some b ← (if base.isPlace then place base else expr base) | return none
    return some (← fieldOf n b base.ty index)
  | .error _ => do
    Build.markError
    return none
  | e => fail e.span .notAnLvalue

def operands : List Expr → EmitM (Option (List Operand))
  | [] => return some []
  | e :: es => do
    let some v ← expr e | return none
    let v ← passValue v e.ty
    let some vs ← operands es | return none
    return some (v :: vs)

/-- The code that puts values into the fields of an aggregate, from the field at `index` on. -/
def storeFields (base : Operand) (index : Nat) : List Expr → EmitM Unit
  | [] => return ()
  | e :: es => do
    if let some v ← expr e then
      let addr ← fieldAddr base index e.ty
      let _ ← storeValue addr v e.ty
    storeFields base (index + 1) es
end

end FlowIR.Emit

import FlowIR.Graph.Instr
import FlowIR.Syntax.Expr

/-!
Which operation of the graph a source operator means, by the type of its operands.
-/

namespace FlowIR.BinaryOp

/-- The comparison that an operator means on a type. -/
def pred (op : BinaryOp) (ty : Ty) : Pred :=
  if ty.isFloat then
    match op with
    | .eq => .oeq
    | .ne => .one
    | .lt => .olt
    | .le => .ole
    | .gt => .ogt
    | _ => .oge
  else
    match op with
    | .eq => .eq
    | .ne => .ne
    | .lt => if ty.isSigned then .slt else .ult
    | .le => if ty.isSigned then .sle else .ule
    | .gt => if ty.isSigned then .sgt else .ugt
    | _ => if ty.isSigned then .sge else .uge

/-- The operation on floats that an operator means. -/
def floatArith? : BinaryOp → Option ArithOp
  | .add => some .fadd
  | .sub => some .fsub
  | .mul => some .fmul
  | .div => some .fdiv
  | _ => none

/-- The operation on integers that an operator means. -/
def intArith? (op : BinaryOp) (isSigned : Bool) : Option ArithOp :=
  match op with
  | .add => some .add
  | .sub => some .sub
  | .mul => some .mul
  | .div => some (if isSigned then .sdiv else .udiv)
  | .rem => some (if isSigned then .srem else .urem)
  | .and => some .and
  | .or => some .or
  | .xor => some .xor
  | _ => none

/-- The operation that an operator means on a type. Pointers count as integers; on aggregates and
`void` there is none. -/
def arith? (op : BinaryOp) (ty : Ty) : Option ArithOp :=
  if ty.isFloat then op.floatArith?
  else if ty.isAggregate || ty.isVoid then none
  else op.intArith? ty.isSigned

end FlowIR.BinaryOp

import FlowIR.Graph.Operand

/-!
Instructions. Those that end a block are ordinary instructions which stand last in it.
-/

namespace FlowIR

inductive CastOp where
  | bitcast
  | zext
  | sext
  | trunc
deriving DecidableEq, Repr

inductive ArithOp where
  | add
  | sub
  | mul
  | sdiv
  | udiv
  | srem
  | urem
  | and
  | or
  | xor
  | fadd
  | fsub
  | fmul
  | fdiv
deriving DecidableEq, Repr

/-- Comparisons: of integers as signed or as unsigned numbers, and of floats. -/
inductive Pred where
  | eq
  | ne
  | slt
  | sle
  | sgt
  | sge
  | ult
  | ule
  | ugt
  | uge
  | oeq
  | one
  | olt
  | ole
  | ogt
  | oge
deriving DecidableEq, Repr

def Pred.isFloat : Pred → Bool
  | .oeq | .one | .olt | .ole | .ogt | .oge => true
  | _ => false

inductive PadKind where
  /-- Catches every exception. -/
  | catchAll
  /-- Runs code on the way out and goes on unwinding. -/
  | cleanup
deriving DecidableEq, Repr

inductive Op where
  /-- A stack slot for one value of the shape. -/
  | alloca (shape : Shape)
  | load (ptr : Operand)
  | store (value ptr : Operand)
  | cast (op : CastOp) (value : Operand) (dst : Shape)
  /-- The address of a field of the aggregate that `base` points to. -/
  | fieldAddr (base : Operand) (index : Nat)
  | memcpy (dst src : Operand) (size align : Nat)
  | arith (op : ArithOp) (lhs rhs : Operand)
  | compare (pred : Pred) (lhs rhs : Operand)
  | call (callee : String) (args : List Operand)
  /-- The start of a block that exceptions arrive at. -/
  | landingPad (kind : PadKind)
  | br (target : BlockId)
  | condBr (cond : Operand) (yes no : BlockId)
  | switch (value : Operand) (default : BlockId) (cases : List (Int × BlockId))
  | indirectBr (addr : Operand) (dests : List BlockId)
  /-- A call whose exceptions arrive at `unwind`. -/
  | invoke (callee : String) (args : List Operand) (normal unwind : BlockId)
  | ret (value : Option Operand)
  | resume (token : Operand)
  | unreachable
deriving DecidableEq

namespace Op

def isTerminator : Op → Bool
  | .br _ | .condBr _ _ _ | .switch _ _ _ | .indirectBr _ _ | .invoke _ _ _ _ | .ret _
  | .resume _ | .unreachable => true
  | _ => false

def isLandingPad : Op → Bool
  | .landingPad _ => true
  | _ => false

/-- Adds a block behind a list that does not have it yet. -/
def addTarget (targets : List BlockId) (block : BlockId) : List BlockId :=
  if block ∈ targets then targets else targets ++ [block]

/-- The blocks that control can go to. A switch names each of its blocks once, the default
first. -/
def successors : Op → List BlockId
  | .br target => [target]
  | .condBr _ yes no => [yes, no]
  | .switch _ default cases => (cases.map Prod.snd).foldl addTarget [default]
  | .indirectBr _ dests => dests
  | .invoke _ _ normal unwind => [normal, unwind]
  | _ => []

/-- The operands, in the order in which they are written. -/
def operands : Op → List Operand
  | .alloca _ | .landingPad _ | .br _ | .unreachable => []
  | .load ptr => [ptr]
  | .store value ptr => [value, ptr]
  | .cast _ value _ => [value]
  | .fieldAddr base _ => [base]
  | .memcpy dst src _ _ => [dst, src]
  | .arith _ lhs rhs => [lhs, rhs]
  | .compare _ lhs rhs => [lhs, rhs]
  | .call _ args => args
  | .condBr cond _ _ => [cond]
  | .switch value _ _ => [value]
  | .indirectBr addr _ => [addr]
  | .invoke _ args _ _ => args
  | .ret value => value.toList
  | .resume token => [token]

def mapOperands (f : Operand → Operand) : Op → Op
  | .alloca shape => .alloca shape
  | .load ptr => .load (f ptr)
  | .store value ptr => .store (f value) (f ptr)
  | .cast op value dst => .cast op (f value) dst
  | .fieldAddr base index => .fieldAddr (f base) index
  | .memcpy dst src size align => .memcpy (f dst) (f src) size align
  | .arith op lhs rhs => .arith op (f lhs) (f rhs)
  | .compare pred lhs rhs => .compare pred (f lhs) (f rhs)
  | .call callee args => .call callee (args.map f)
  | .landingPad kind => .landingPad kind
  | .br target => .br target
  | .condBr cond yes no => .condBr (f cond) yes no
  | .switch value default cases => .switch (f value) default cases
  | .indirectBr addr dests => .indirectBr (f addr) dests
  | .invoke callee args normal unwind => .invoke callee (args.map f) normal unwind
  | .ret value => .ret (value.map f)
  | .resume token => .resume (f token)
  | .unreachable => .unreachable

@[simp] theorem operands_mapOperands (f : Operand → Operand) (op : Op) :
    (op.mapOperands f).operands = op.operands.map f := by
  cases op <;> try rfl
  case ret value => cases value <;> rfl

/-- The instruction with its operand at `index` replaced, if it has one there. -/
def setOperand? (op : Op) (index : Nat) (v : Operand) : Option Op :=
  match op, index with
  | .load _, 0 => some (.load v)
  | .store _ ptr, 0 => some (.store v ptr)
  | .store value _, 1 => some (.store value v)
  | .cast op _ dst, 0 => some (.cast op v dst)
  | .fieldAddr _ i, 0 => some (.fieldAddr v i)
  | .memcpy _ src size align, 0 => some (.memcpy v src size align)
  | .memcpy dst _ size align, 1 => some (.memcpy dst v size align)
  | .arith op _ rhs, 0 => some (.arith op v rhs)
  | .arith op lhs _, 1 => some (.arith op lhs v)
  | .compare pred _ rhs, 0 => some (.compare pred v rhs)
  | .compare pred lhs _, 1 => some (.compare pred lhs v)
  | .call callee args, i => if i < args.length then some (.call callee (args.set i v)) else none
  | .condBr _ yes no, 0 => some (.condBr v yes no)
  | .switch _ default cases, 0 => some (.switch v default cases)
  | .indirectBr _ dests, 0 => some (.indirectBr v dests)
  | .invoke callee args normal unwind, i =>
    if i < args.length then some (.invoke callee (args.set i v) normal unwind) else none
  | .ret (some _), 0 => some (.ret (some v))
  | .resume _, 0 => some (.resume v)
  | _, _ => none

end Op

/-- An instruction: what it does, the shape of its result, and the name of the result if it has
been given one. -/
structure Instr where
  op : Op
  shape : Shape := .void
  name : Option String := none

end FlowIR

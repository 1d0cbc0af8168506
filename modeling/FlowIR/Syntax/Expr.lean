import FlowIR.Ident
import FlowIR.Syntax.Span
import FlowIR.Ty.Basic

/-!
Typed expressions. Every node carries its type and its position; the constructors in `Typed` work
out the type from the parts.
-/

namespace FlowIR

inductive BinaryOp where
  | add
  | sub
  | mul
  | div
  | rem
  | eq
  | ne
  | lt
  | le
  | gt
  | ge
  | and
  | or
  | xor
deriving DecidableEq, Repr

def BinaryOp.isComparison : BinaryOp → Bool
  | .eq | .ne | .lt | .le | .gt | .ge => true
  | _ => false

structure Node where
  ty : Ty
  span : Span := {}

inductive Expr where
  | int (node : Node) (value : Int)
  /-- A float, given by the bits of its 64-bit form. -/
  | float (node : Node) (bits : UInt64)
  | bool (node : Node) (value : Bool)
  /-- The null pointer. -/
  | nil (node : Node)
  /-- The value of the node's type whose bytes are all zero. -/
  | zero (node : Node)
  | var (node : Node) (id : VarId)
  | addressOf (node : Node) (id : VarId)
  | deref (node : Node) (ptr : Expr)
  | field (node : Node) (base : Expr) (index : Nat)
  | binary (node : Node) (op : BinaryOp) (lhs rhs : Expr)
  | call (node : Node) (callee : String) (args : List Expr)
  | conditional (node : Node) (cond yes no : Expr)
  /-- A struct or a tuple made of its fields. -/
  | composite (node : Node) (fields : List Expr)
  /-- The address of a label, to which an indirect goto can go. -/
  | labelAddress (node : Node) (label : LabelId)
  /-- An expression that has been reported as wrong already. -/
  | error (node : Node)

namespace Expr

def node : Expr → Node
  | .int n _ | .float n _ | .bool n _ | .nil n | .zero n | .var n _ | .addressOf n _ | .deref n _
  | .field n _ _ | .binary n _ _ _ | .call n _ _ | .conditional n _ _ _ | .composite n _
  | .labelAddress n _ | .error n => n

def withNode (n : Node) : Expr → Expr
  | .int _ value => .int n value
  | .float _ bits => .float n bits
  | .bool _ value => .bool n value
  | .nil _ => .nil n
  | .zero _ => .zero n
  | .var _ id => .var n id
  | .addressOf _ id => .addressOf n id
  | .deref _ ptr => .deref n ptr
  | .field _ base index => .field n base index
  | .binary _ op lhs rhs => .binary n op lhs rhs
  | .call _ callee args => .call n callee args
  | .conditional _ cond yes no => .conditional n cond yes no
  | .composite _ fields => .composite n fields
  | .labelAddress _ label => .labelAddress n label
  | .error _ => .error n

def ty (e : Expr) : Ty :=
  e.node.ty

def span (e : Expr) : Span :=
  e.node.span

def withSpan (span : Span) (e : Expr) : Expr :=
  e.withNode { e.node with span }

def withTy (ty : Ty) (e : Expr) : Expr :=
  e.withNode { e.node with ty }

def isError : Expr → Bool
  | .error _ => true
  | _ => false

def isCall : Expr → Bool
  | .call _ _ _ => true
  | _ => false

/-- Whether the expression names storage: a variable, what a pointer points to, or a field. -/
def isPlace : Expr → Bool
  | .var _ _ | .deref _ _ | .field _ _ _ => true
  | _ => false

def literal? : Expr → Option Int
  | .int _ value => some value
  | .bool _ value => some value.toInt
  | _ => none

def boolLiteral? : Expr → Option Bool
  | .bool _ value => some value
  | _ => none

end Expr

/-! ### Constructors that know the type -/

namespace Typed

def int (ty : Ty) (value : Int) : Expr := .int { ty } value

def float (ty : Ty) (bits : UInt64) : Expr := .float { ty } bits

def bool (value : Bool) : Expr := .bool { ty := .bool } value

def nil (ty : Ty) : Expr := .nil { ty }

def zero (ty : Ty) : Expr := .zero { ty }

def var (id : VarId) (ty : Ty) : Expr := .var { ty } id

def addressOf (id : VarId) (ty : Ty) : Expr := .addressOf { ty := .ptr ty } id

/-- What a pointer points to; `void` if it is no pointer. -/
def deref (ptr : Expr) : Expr := .deref { ty := ptr.ty.pointee } ptr

/-- A field of a struct or a tuple; `void` if there is none. -/
def field (base : Expr) (index : Nat) : Expr :=
  .field { ty := base.ty.fields[index]?.getD .void } base index

/-- A comparison gives a `bool`, any other operator the type of its left operand. -/
def binary (op : BinaryOp) (lhs rhs : Expr) : Expr :=
  .binary { ty := if op.isComparison then .bool else lhs.ty } op lhs rhs

def call (callee : String) (args : List Expr) (ty : Ty) : Expr := .call { ty } callee args

def conditional (cond yes no : Expr) : Expr := .conditional { ty := yes.ty } cond yes no

def composite (ty : Ty) (fields : List Expr) : Expr := .composite { ty } fields

def labelAddress (label : LabelId) : Expr := .labelAddress { ty := .ptr .void } label

def error (ty : Ty) : Expr := .error { ty }

end Typed

end FlowIR

import FlowIR.Machine.World
import FlowIR.Proofs.Source.Value

/-!
What expressions over integers mean.

Evaluation goes from left to right and talks to the world with every call. It ends with a value, with
an exception that a call raised, or with a fault: a division by zero, or a call that the world has no
answer to. Of the two arms of a choice only the selected one is evaluated.
-/

namespace FlowIR

inductive Stop where
  | raised (exception : Nat)
  | fault (f : Fault)
deriving DecidableEq, Repr

abbrev EvalM := EStateM Stop World

/-- What an evaluation came to, or why it stopped. -/
abbrev Evaluated (α : Type) := EStateM.Result Stop World α

/-- Calls a function of the world that returns the given number of bytes. -/
def World.ask (callee : String) (args : List Bytes) (size : Nat) : EvalM Bytes := fun w =>
  match w.call callee args (.ok size) with
  | .ok (.value v, after) => .ok v after
  | .ok (.raise exception, after) => .error (.raised exception) after
  | .error f => .error (.fault f) w

def EvalM.divided : Option Int → EvalM Int
  | some v => pure v
  | none => throw (.fault .divisionByZero)

namespace Expr

mutual
/-- The value of an expression, given what the variables hold. -/
def eval (vars : VarId → Int) : Expr → EvalM Int
  | .int n value => pure (n.ty.wrap value)
  | .bool _ value => pure value.toInt
  | .var n v => pure (n.ty.wrap (vars v))
  | .binary _ op lhs rhs => do
    let a ← eval vars lhs
    let b ← eval vars rhs
    EvalM.divided (op.apply lhs.ty a b)
  | .call n callee args => do
    let values ← evalAll vars args
    return n.ty.decode (← World.ask callee values (n.ty.bits / 8))
  | .conditional _ cond yes no => do
    let c ← eval vars cond
    if c % 2 = 1 then eval vars yes else eval vars no
  | _ => pure 0

/-- The bytes of the values of expressions, from left to right. -/
def evalAll (vars : VarId → Int) : List Expr → EvalM (List Bytes)
  | [] => pure []
  | e :: es => do
    let v ← eval vars e
    let vs ← evalAll vars es
    return e.ty.encode v :: vs
end

mutual
/-- Whether an expression is a well-typed one over integers, in which the variables have the given
types. -/
def isScalar (types : VarId → Option Ty) : Expr → Bool
  | .int n _ => n.ty.isInteger
  | .bool n _ => n.ty = .bool
  | .zero n => n.ty.isInteger
  | .var n v => n.ty.isInteger && types v = some n.ty
  | .binary n op lhs rhs =>
    isScalar types lhs && isScalar types rhs && rhs.ty = lhs.ty && n.ty = op.resultTy lhs.ty
  | .call n _ args => n.ty.isInteger && areScalars types args
  | .conditional n cond yes no =>
    isScalar types cond && cond.ty = .bool && isScalar types yes && isScalar types no &&
      yes.ty = n.ty && no.ty = n.ty
  | _ => false

def areScalars (types : VarId → Option Ty) : List Expr → Bool
  | [] => true
  | e :: es => isScalar types e && areScalars types es
end

def evalReturn (vars : VarId → Int) : List Expr → EvalM (Option Int)
  | [e] => some <$> e.eval vars
  | _ => pure none

/-- Whether the expressions make a return from a function with the given result: nothing if there is no
result, and one expression of its type otherwise. -/
def areReturnable (types : VarId → Option Ty) (result : Ty) : List Expr → Bool
  | [] => result = .void
  | [e] => e.isScalar types && e.ty = result
  | _ => false

variable {types : VarId → Option Ty}

theorem isInteger_of_isScalar : ∀ {e : Expr}, e.isScalar types = true → e.ty.isInteger = true
  | .int _ _, h => h
  | .bool n _, h => by
    have eq : n.ty = .bool := by simpa [isScalar] using h
    show n.ty.isInteger = true
    rw [eq]
    rfl
  | .zero _, h => h
  | .var n _, h => by
    simp only [isScalar, Bool.and_eq_true] at h
    exact h.1
  | .binary n op lhs rhs, h => by
    simp only [isScalar, Bool.and_eq_true, decide_eq_true_eq] at h
    show n.ty.isInteger = true
    rw [h.2, BinaryOp.resultTy]
    split
    · rfl
    · exact isInteger_of_isScalar h.1.1.1
  | .call n _ _, h => by
    simp only [isScalar, Bool.and_eq_true] at h
    exact h.1
  | .conditional n _ yes _, h => by
    simp only [isScalar, Bool.and_eq_true, decide_eq_true_eq] at h
    have integer := isInteger_of_isScalar h.1.1.1.2
    rw [h.1.2] at integer
    exact integer

end Expr

/-- What a call of the world returns is the bytes of an integer. -/
theorem World.value_of_call {w after : World} {callee : String} {args : List Bytes} {size : Nat}
    {v : Bytes} (run : w.call callee args (.ok size) = .ok (.value v, after)) : ∃ z, v = Bytes.ofInt size z := by
  unfold call at run
  dsimp only at run
  split at run
  · split at run <;> cases run
  · split at run
    · cases run
    · cases run
      exact ⟨_, rfl⟩

end FlowIR

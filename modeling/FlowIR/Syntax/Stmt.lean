import FlowIR.Syntax.Expr

/-!
Statements. A branch or a case without statements has the empty block for its body.
-/

namespace FlowIR

inductive Stmt where
  /-- Evaluates an expression for its effects. -/
  | eval (value : Expr)
  /-- Gives a declared variable its first value, or fills it with zeros. -/
  | init (span : Span) (var : VarId) (value : Option Expr)
  | assign (target value : Expr)
  /-- Returns any number of values. -/
  | ret (span : Span) (values : List Expr)
  | block (body : List Stmt)
  | ite (cond : Expr) (yes no : Stmt)
  /-- Jumps to the case that lists the value, and from there falls through the later cases. A case
  that lists no value is the default. -/
  | switch (span : Span) (value : Expr) (cases : List (List Expr × Stmt))
  /-- Leaves the innermost switch. -/
  | leave (span : Span)
  | goto (span : Span) (label : LabelId)
  /-- The place that a label names. -/
  | label (span : Span) (label : LabelId)
  /-- Jumps to the address of a label. -/
  | gotoAddress (addr : Expr)
  /-- Runs the body; an exception in it runs the handler, and the cleanup runs in any case. -/
  | attempt (body : Stmt) (handler cleanup : Option Stmt)
  /-- Calls `epilogue`; whenever it raises, runs `check` and calls it again. -/
  | defer (span : Span) (epilogue : Expr) (check : Stmt)
  /-- A statement that has been reported as wrong already. -/
  | error

def Stmt.skip : Stmt := .block []

end FlowIR

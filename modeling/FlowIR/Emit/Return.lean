import FlowIR.Emit.Expr

/-!
Returns. A return inside a region with a cleanup keeps its value in the result slot and goes
through the cleanup first.
-/

namespace FlowIR.Emit

inductive Reason where
  /-- An exception was kept and has to go on unwinding. -/
  | reraise
  /-- The code before it came to its end. -/
  | proceed
  /-- A return is on its way; its value is in the result slot. -/
  | ret
deriving DecidableEq, Repr

def Reason.code : Reason → Int
  | .reraise => 0
  | .proceed => 1
  | .ret => 2

/-- Writes the reason into a cleanup's flag and enters it. -/
def enterCleanup (reason : Reason) (flag : Operand) (block : BlockId) : EmitM Unit := do
  let _ ← perform (.store (.i8 reason.code) flag)
  let _ ← perform (.br block)

/-- The number of values that a return has to have, given how many it has. -/
def returnArity (result : Ty) (found : Nat) : Nat :=
  match result with
  | .void => 0
  | .tuple fields => if found = 1 then 1 else fields.length
  | _ => 1

/-- The code of the returned values, as one operand: a scalar, or the address of an aggregate.
Several values are put into a tuple. The outer `none` means that there is nothing to return
because an expression has been reported as wrong. -/
def returnOperand (values : List Expr) (span : Span) : EmitM (Option (Option Operand)) := do
  let result := (← builder).signature.result
  let expected := returnArity result values.length
  if values.length ≠ expected then
    fail span (.returnArity expected values.length)
  match values with
  | [] => return some none
  | [value] =>
    match ← expr value with
    | some v => return some (some v)
    | none => return if ← require .overflow result.isZeroSized? then some none else none
  | values =>
    let tmp ← Build.newTemporary result "tmp"
    storeFields tmp 0 values
    return some (some tmp)

def leaveWith (operand : Option Operand) (span : Span) : EmitM Unit := do
  ensureOpen
  let value ← Build.prepareReturn (← get).current operand span
  let _ ← perform (.ret value)

def routeReturn (cleanup : Cleanup) : EmitM Unit := do
  modify fun c => { c with cleanups := match c.cleanups with
    | [] => []
    | inner :: outer => { inner with returns := true } :: outer }
  enterCleanup .ret cleanup.flag cleanup.block

/-- Keeps a returned value in the result slot, if it has bytes. -/
def keepResult (operand : Option Operand) : EmitM Unit := do
  let result := (← builder).signature.result
  if let some v := operand then
    unless ← require .overflow result.isZeroSized? do
      let slot ← Build.returnSlot
      let _ ← storeValue slot v result

def returnValues (values : List Expr) (span : Span) : EmitM Unit := do
  let some operand ← returnOperand values span | return
  match (← get).cleanups.head? with
  | some cleanup =>
    keepResult operand
    routeReturn cleanup
  | none => leaveWith operand span

/-- Returns what the result slot holds, through the cleanups that enclose this point. -/
def returnKept : EmitM Unit := do
  match (← get).cleanups.head? with
  | some cleanup => routeReturn cleanup
  | none =>
    let result := (← builder).signature.result
    if ← require .overflow result.isZeroSized? then
      leaveWith none {}
    else
      let slot ← Build.returnSlot
      leaveWith (some (← loadValue slot result "retval.ld")) {}

end FlowIR.Emit

import FlowIR.Assoc
import FlowIR.Fault
import FlowIR.Machine.Bytes

/-!
The world outside a function: a script that says which called functions raise and what the others
return. It records every call.
-/

namespace FlowIR

/-- A call as the world sees it, with its arguments read as integers. -/
structure CallEvent where
  callee : String
  args : List Int
deriving DecidableEq, Repr

def CallEvent.text (e : CallEvent) : String :=
  e.callee ++ "(" ++ ",".intercalate (e.args.map Int.repr) ++ ")"

inductive Reply where
  | value (bytes : Bytes)
  | raise (exception : Nat)

structure World where
  /-- The calls so far. -/
  trace : Array CallEvent := #[]
  /-- How many more calls of a function raise. -/
  raises : Assoc Nat := {}
  /-- What a function returns; zero if nothing is set. -/
  returns : Assoc Int := {}
  /-- The exception raised last; they are numbered from 101. -/
  lastException : Nat := 100

namespace World

/-- The routine that raises the exception it is given once more. -/
def rethrow : String := "__kiln_rethrow"

/-- Lets every call of a function raise, as far as a 32-bit count goes. -/
def raising (w : World) (name : String) : World :=
  { w with raises := w.raises.set name 0xffffffff }

def raisingOnce (w : World) (name : String) : World :=
  { w with raises := w.raises.set name 1 }

def returning (w : World) (name : String) (value : Int) : World :=
  { w with returns := w.returns.set name value }

/-- Answers a call. The size of the result is needed only if the call returns. -/
def call (w : World) (name : String) (args : List Bytes) (size : Checked Nat) :
    Checked (Reply × World) := do
  let w := { w with trace := w.trace.push ⟨name, args.map Bytes.int⟩ }
  if name = rethrow then
    match args with
    | [] => throw .nothingToRethrow
    | exception :: _ => return (.raise exception.word, w)
  match w.raises.get? name with
  | some (left + 1) =>
    let exception := w.lastException + 1
    let raises := w.raises.set name left
    return (.raise exception, { w with raises := raises, lastException := exception })
  | _ =>
    let value := (w.returns.get? name).getD 0
    return (.value (Bytes.ofInt (← size) value), w)

end World

end FlowIR

/-!
Source positions.
-/

namespace FlowIR

structure Span where
  start : Nat := 0
  stop : Nat := 0
deriving DecidableEq, Repr, Inhabited

def Span.text (s : Span) : String :=
  Nat.repr s.start ++ ".." ++ Nat.repr s.stop

end FlowIR

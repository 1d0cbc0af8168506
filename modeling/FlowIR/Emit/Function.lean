import FlowIR.Build.Finish
import FlowIR.Emit.Stmt

/-!
Whole functions: the prolog, the code of the body, and the finish.
-/

namespace FlowIR

/-- Completes a function whose variables have been registered: emits its body and finishes it. -/
def Emit.function (body : Stmt) : BuildM Graph := do
  Build.placeProlog
  Emit.fromEntry (Emit.stmt body)
  Build.finish

end FlowIR

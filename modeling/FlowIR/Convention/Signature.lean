import FlowIR.Ty.Chunk

/-!
Signatures and targets: what the calling convention of a function depends on.
-/

namespace FlowIR

structure Target where
  /-- Bytes in a register chunk. -/
  wordSize : Nat := 8
  /-- The most chunks that a value may travel in. -/
  maxChunks : Nat := 2
  /-- Registers for integer chunks. -/
  intRegs : Nat := 6
  /-- Registers for float and vector chunks. -/
  sseRegs : Nat := 8
deriving DecidableEq, Repr

structure Signature where
  params : List Ty
  result : Ty
  /-- Values of an internal function travel whole, each in its own shape. -/
  internal : Bool := false

namespace Signature

/-- The result type of a function that returns several values: nothing, the one value, or the
tuple of them. -/
def resultOf : List Ty → Ty
  | [] => .void
  | [t] => t
  | ts => .tuple ts

/-- The signature of a function with any number of results. -/
def withResults (params results : List Ty) : Signature :=
  ⟨params, resultOf results, false⟩

end Signature

end FlowIR

import FlowIR.Graph.Basic

/-!
Structural soundness of a graph. Blocks that nothing leads to are allowed. Every laid-out block has
to end in its only terminator, may use no placeholder, and may branch to laid-out blocks only.
-/

namespace FlowIR

/-- What is wrong with a graph. Blocks and the function are given by name. -/
inductive VerifyError where
  | noBlocks (function : String)
  | missingTerminator (function block : String)
  | terminatorNotLast (function block : String)
  | danglingSuccessor (function block target : String)
  | unresolvedPlaceholder (function block : String)
deriving DecidableEq, Repr

def VerifyError.message : VerifyError → String
  | .noBlocks function => "function `" ++ function ++ "` has no blocks"
  | .missingTerminator function block =>
    "block `" ++ block ++ "` in `" ++ function ++ "` has no terminator"
  | .terminatorNotLast function block =>
    "block `" ++ block ++ "` in `" ++ function ++ "` has a terminator before its last instruction"
  | .danglingSuccessor function block target =>
    "block `" ++ block ++ "` in `" ++ function ++ "` branches to `" ++ target ++
      "`, which is not laid out"
  | .unresolvedPlaceholder function block =>
    "block `" ++ block ++ "` in `" ++ function ++ "` still uses a label-address placeholder"

namespace Graph

def endsBlock (g : Graph) (i : InstrId) : Checked Bool := do
  return (← g.instr i).op.isTerminator

def usesPlaceholder (g : Graph) (i : InstrId) : Checked Bool := do
  return (← g.instr i).op.operands.any (·.isPlaceholder)

/-- Whether a terminator stands before the last instruction of a list. -/
def endsEarly (g : Graph) (body : List InstrId) : Checked Bool :=
  body.dropLast.anyM g.endsBlock

/-- Whether one of the instructions uses a placeholder. -/
def anyPlaceholder (g : Graph) (body : List InstrId) : Checked Bool :=
  body.anyM g.usesPlaceholder

/-- Checks one block: its end first, then its operands, then its successors. -/
def verifyBlock (g : Graph) (b : BlockId) : Except (Halt VerifyError) Unit := do
  let block ← g.block b
  let some last := block.body.getLast? |
    throw (.error (.missingTerminator g.name block.name))
  unless ← g.endsBlock last do
    throw (.error (.missingTerminator g.name block.name))
  if ← g.endsEarly block.body then
    throw (.error (.terminatorNotLast g.name block.name))
  if ← g.anyPlaceholder block.body then
    throw (.error (.unresolvedPlaceholder g.name block.name))
  let succs ← g.successors b
  match succs.find? (· ∉ g.layout) with
  | some target =>
    throw (.error (.danglingSuccessor g.name block.name (← g.block target).name))
  | none => return ()

/-- Checks the whole graph, block by block in layout order. -/
def verify (g : Graph) : Except (Halt VerifyError) Unit := do
  if g.layout.isEmpty then
    throw (.error (.noBlocks g.name))
  g.layout.forM g.verifyBlock

end Graph

end FlowIR

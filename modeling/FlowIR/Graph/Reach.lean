import FlowIR.Graph.Basic

/-!
Reachability. The entry block and the laid-out blocks whose address is used are where control can
come from outside; whatever their successors lead to is reachable.
-/

namespace FlowIR.Graph

/-- Visits the blocks on the stack that have not been seen, and then their successors. Every visit
marks one more block, so the visits are bounded by the number of blocks. -/
def visit (g : Graph) : (visits : Nat) → (seen stack : List BlockId) → Checked (List BlockId)
  | 0, seen, _ => .ok seen
  | visits + 1, seen, stack =>
    match stack.dropWhile (· ∈ seen) with
    | [] => .ok seen
    | b :: rest => do g.visit visits (b :: seen) ((← g.successors b) ++ rest)

def roots (g : Graph) : Checked (List BlockId) := do
  return g.entry?.toList ++ (← g.addressTaken)

/-- The reachable blocks, by increasing identifier. One visit more than there are blocks is
allowed, so that a successor that is not a block is always noticed. -/
def reachable (g : Graph) : Checked (List BlockId) := do
  let seen ← g.visit (g.blocks.size + 1) [] (← g.roots)
  return g.blockIds.filter (· ∈ seen)

/-- Takes the unreachable blocks out of the layout; also gives their number. -/
def prune (g : Graph) : Checked (Nat × Graph) := do
  let reachable ← g.reachable
  let kept := g.layout.filter (· ∈ reachable)
  return (g.layout.length - kept.length, { g with layout := kept })

end FlowIR.Graph

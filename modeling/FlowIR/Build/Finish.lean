import FlowIR.Build.Place
import FlowIR.Build.Prolog
import FlowIR.Graph.Reach

/-!
Finishing a function: every block gets an end, every label a place, and the graph is verified.
-/

namespace FlowIR.Build

def closeBlock (op : Op) (block : BlockId) : BuildM Unit := do
  unless ← (← get).graph.isTerminated block do
    let i ← newInstr { op }
    append block i

/-- Ends the open blocks of the layout. Control may run off the end of a function only if it
returns nothing. -/
def closeBlocks : BuildM Unit := do
  let b ← get
  let op : Op := if b.convention.result.passing.isIgnored then .ret none else .unreachable
  b.graph.layout.forM (closeBlock op)

/-- Deals with a label that is used but has no place: an error, unless an error node may be the
reason. Then it is given a block that traps. -/
def closeLabel (l : LabelId) : BuildM Unit := do
  let span := (((← get).labels.get? l).map (·.span)).getD {}
  unless (← get).errorSeen do
    fail span (.undefinedLabel l)
  let block ← labelBlock l span
  modify fun b => { b with graph := b.graph.attach block }
  let i ← newInstr { op := .unreachable }
  append block i
  resolve l block

def retarget (dests : List BlockId) (instr : Instr) : Instr :=
  match instr.op with
  | .indirectBr addr _ => { instr with op := .indirectBr addr dests }
  | _ => instr

/-- Lets every indirect branch go to every laid-out block whose address is used. -/
def setIndirectTargets : BuildM Unit := do
  let b ← get
  let dests ← b.graph.addressTaken
  b.labels.branches.forM fun i => onGraph (·.updateInstr i (retarget dests))

def hasLandingPad (g : Graph) : Checked Bool :=
  g.layout.anyM fun b => do
    (← g.block b).body.anyM fun i => return (← g.instr i).op.isLandingPad

def finish : BuildM Graph := do
  placeProlog
  closeBlocks
  (← get).labels.dangling.forM closeLabel
  let pending := (← get).labels.pending
  if 0 < pending then
    fail {} (.danglingLabelAddress pending)
  setIndirectTargets
  placeLateSlots
  if (← get).options.prune then
    onGraph fun g => return (← g.prune).2
  if ← hasLandingPad (← get).graph then
    modify fun b => { b with graph := { b.graph with personality := some b.options.personality } }
  let graph := (← get).graph
  match graph.verify with
  | .ok () => return graph
  | .error (.fault f) => throw (.fault f)
  | .error (.error e) => fail {} (.verify e)

end FlowIR.Build

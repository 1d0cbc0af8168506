import FlowIR.Build.Basic

/-!
Labels and their places in the body.
-/

namespace FlowIR.Build

def newLabel (span : Span) : BuildM LabelId :=
  modifyGet fun b =>
    let (l, labels) := b.labels.add span
    (l, { b with labels })

def updateLabel (l : LabelId) (f : Label → Label) : BuildM Unit :=
  modify fun b => { b with labels := b.labels.update l f }

/-- The block that a label starts, made when it is first asked for. -/
def labelBlock (l : LabelId) (span : Span) : BuildM BlockId := do
  let some label := (← get).labels.get? l | fail span (.unknownLabel l)
  match label.block with
  | some block => return block
  | none =>
    let block ← newBlock "label"
    updateLabel l ({ · with block := some block })
    return block

def takeAddress (block : BlockId) : BuildM Unit :=
  onGraph (·.updateBlock block ({ · with addressTaken := true }))

/-- Replaces a placeholder in an instruction by the address of a block. -/
def resolveIn (p : PlaceholderId) (block : BlockId) (i : InstrId) : BuildM Unit :=
  onGraph (·.updateInstr i fun instr =>
    { instr with op := instr.op.mapOperands fun v =>
        if v = .placeholder p then .blockAddr block else v })

/-- Replaces the placeholder of a label by the address of the label's block, wherever it is
used. -/
def resolve (l : LabelId) (block : BlockId) : BuildM Unit := do
  if ((← get).labels.get? l).any (·.addressTaken) then
    takeAddress block
  let retired ← modifyGet fun b =>
    let (retired, labels) := b.labels.retire l
    (retired, { b with labels })
  if let some (p, uses) := retired then
    uses.forM (resolveIn p block)

/-- Gives a label its place: its block joins the layout. -/
def defineLabel (l : LabelId) (span : Span) : BuildM BlockId := do
  let block ← labelBlock l span
  if ((← get).labels.get? l).any (·.defined) then
    fail span (.labelRedefined l)
  updateLabel l ({ · with defined := true })
  modify fun b => { b with graph := b.graph.attach block }
  resolve l block
  return block

/-- The address of a label, or a placeholder for it while the label has no place. -/
def addressOfLabel (l : LabelId) (span : Span) : BuildM Operand := do
  let some label := (← get).labels.get? l | fail span (.unknownLabel l)
  updateLabel l ({ · with addressTaken := true })
  match label.defined, label.block with
  | true, some block =>
    takeAddress block
    return .blockAddr block
  | _, _ =>
    let p ← modifyGet fun b =>
      let (p, labels) := b.labels.placeholderFor l
      (p, { b with labels })
    return .placeholder p

end FlowIR.Build

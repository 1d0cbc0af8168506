import FlowIR.Build.Storage

/-!
The prolog: the slots made so far, and the instructions that put the arguments into them, at the
front of the entry block.
-/

namespace FlowIR.Build

/-- The instructions that put one chunk into its field of a slot. -/
def spillChunk (base : Operand) (offset index : Nat) (chunk : Shape) : BuildM (List InstrId) := do
  let name ← fresh "field"
  let field ← newInstr { op := .fieldAddr base index, shape := .ptr chunk, name := some name }
  let store ← newStore (.arg (offset + index)) (.result field)
  return [field, store]

/-- The instructions that put a parameter from its arguments into its slot. A value in two chunks
goes through the struct of the chunks. -/
def spillParam (p : Placement) (slot : Operand) : BuildM (List InstrId) :=
  match p.passing with
  | .direct [chunk] _ => do
    if chunk = p.ty.shape then
      return [← newStore (.arg p.offset) slot]
    else
      let cast ← newCast slot (.ptr chunk)
      return [cast, ← newStore (.arg p.offset) (.result cast)]
  | .direct [first, second] _ => do
    let cast ← newCast slot (.ptr p.regShape)
    let low ← spillChunk (.result cast) p.offset 0 first
    let high ← spillChunk (.result cast) p.offset 1 second
    return cast :: low ++ high
  | .direct chunks _ => fail {} (.inconsistentChunks chunks.length)
  | _ => return []

/-- Makes the instructions for the parameter at `index` and notes when its variable is set. -/
def spillParamAt (index : Nat) (p : Placement) : BuildM (List InstrId) := do
  if !p.passing.isDirect then
    return []
  let slot ← require (.noSlot index) (← get).paramSlots[index]?
  let spill ← spillParam p slot
  if let (some last, some v) := (spill.getLast?, (← get).params[index]?) then
    updateVar v ({ · with initializer := some last })
  return spill

/-- Makes the instructions for the parameters from `index` on. -/
def spillParams : (index : Nat) → List Placement → BuildM (List InstrId)
  | _, [] => return []
  | index, p :: ps => do
    let here ← spillParamAt index p
    return here ++ (← spillParams (index + 1) ps)

def placeProlog : BuildM Unit := do
  if (← get).prologPlaced then
    return
  setUpArgs
  let b ← get
  let declared := b.convention.params.length
  if b.tables.registered ≠ declared ∧ !b.errorSeen then
    fail {} (.unregisteredParameters b.tables.registered declared)
  let envSpill ← match b.env?.bind fun v => (b.var? v).map (v, ·) with
    | some (v, x) => spillEnv v x.slot x.ty
    | none => pure []
  let spills ← spillParams 0 b.convention.params
  let prolog := (← get).pendingSlots ++ envSpill ++ spills
  onGraph (·.insertFront b.entry prolog)
  modify ({ · with pendingSlots := [], prologPlaced := true })
  if let some last := prolog.getLast? then
    (← get).params.forM fun v =>
      updateVar v fun x => { x with initializer := x.initializer <|> some last }

/-- Puts the slots made after the prolog in front of it, in the order in which they were made. -/
def placeLateSlots : BuildM Unit := do
  let b ← get
  onGraph (·.insertFront b.entry b.lateSlots)
  modify ({ · with lateSlots := [] })

end FlowIR.Build

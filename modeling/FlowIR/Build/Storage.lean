import FlowIR.Build.Basic

/-!
Storage of parameters, variables and temporaries.

Slots are made without a place. Until the prolog is placed they wait for it; those made later are
put in front of everything else when the function is finished.
-/

namespace FlowIR.Build

def newSlot (shape : Shape) (name : Option String) : BuildM Operand := do
  let i ← newInstr { op := .alloca shape, shape := .ptr shape, name }
  modify fun b =>
    if b.prologPlaced then { b with lateSlots := b.lateSlots ++ [i] }
    else { b with pendingSlots := b.pendingSlots ++ [i] }
  return .result i

def newTemporary (ty : Ty) (tag : String) : BuildM Operand := do
  let name ← fresh tag
  newSlot ty.shape (some name)

def nameOperand (v : Operand) (name : String) : BuildM Unit :=
  match v with
  | .result i => onGraph (·.updateInstr i ({ · with name := some name }))
  | .arg n => onGraph (·.nameArg n name)
  | _ => pure ()

/-! ### Arguments -/

/-- The attribute that tells how an argument was widened. -/
def extensionAttr? : Extension → Option ArgAttr
  | .sign => some .signext
  | .zero => some .zeroext
  | .none => none

/-- The storage of one parameter. One that travels behind a pointer stays where the caller put
it. -/
def setUpParam (p : Placement) : BuildM Operand :=
  match p.passing with
  | .ignored => newSlot p.ty.shape none
  | .indirect => do
    onGraph (·.addArgAttr p.offset .byval)
    return .arg p.offset
  | .direct chunks ext => do
    if chunks.length = 0 ∨ 2 < chunks.length then
      fail {} (.inconsistentChunks chunks.length)
    if let some attr := extensionAttr? ext then
      (List.range chunks.length).forM fun k => onGraph (·.addArgAttr (p.offset + k) attr)
    newSlot p.ty.shape none

/-- Sets up the hidden arguments and the storage of the parameters, when first called. -/
def setUpArgs : BuildM Unit := do
  if (← get).argsReady then
    return
  modify ({ · with argsReady := true })
  let convention := (← get).convention
  if let some index := convention.resultPointer? then
    let name ← fresh "sret.formal"
    onGraph (·.nameArg index name)
    onGraph (·.addArgAttr index .sret)
  let name ← fresh "nest"
  onGraph (·.nameArg convention.chainIndex name)
  onGraph (·.addArgAttr convention.chainIndex .nest)
  convention.params.forM fun p => do
    let slot ← setUpParam p
    modify fun b => { b with paramSlots := b.paramSlots ++ [slot] }

/-! ### Variables -/

def addVar (x : Variable) (enter : VarId → VarTables → VarTables) : BuildM VarId :=
  modifyGet fun b => (⟨b.vars.size⟩, b.withVar x enter)

/-- Names the arguments that a parameter arrives in, and its slot. -/
def nameParam (p : Placement) (slot : Operand) (name : String) : BuildM Unit :=
  match p.passing with
  | .ignored => nameOperand slot name
  | .indirect => onGraph (·.nameArg p.offset name)
  | .direct chunks _ => do
    if chunks.length = 1 then
      onGraph (·.nameArg p.offset name)
    else
      (List.range chunks.length).forM fun k =>
        onGraph (·.nameArg (p.offset + k) (name ++ ".chunk" ++ Nat.repr k))
    nameOperand slot (name ++ ".addr")

/-- Registers the next parameter of the signature. -/
def registerParam (name : String) (ty : Ty) (addressTaken : Bool) (span : Span) :
    BuildM VarId := do
  setUpArgs
  let b ← get
  let index := b.tables.registered
  let some p := b.convention.params[index]? |
    fail span (.tooManyParameters b.convention.params.length)
  if p.ty ≠ ty then
    fail span (.parameterTypeMismatch index)
  let slot ← require (.noSlot index) b.paramSlots[index]?
  if (b.owner? slot).isSome then
    fail span (.duplicateParameter name)
  nameParam p slot name
  addVar { name, ty, kind := .param, slot, span, addressTaken } fun v t =>
    { t with params := t.params ++ [v], registered := t.registered + 1, owners := (slot, v) :: t.owners }

/-- A conversion of a pointer, which no block lists yet. -/
def newCast (value : Operand) (dst : Shape) : BuildM InstrId := do
  let name ← fresh "cast"
  newInstr { op := .cast .bitcast value dst, shape := dst, name := some name }

def newStore (value ptr : Operand) : BuildM InstrId :=
  newInstr { op := .store value ptr }

/-- The instructions that put the closure environment into its variable. -/
def spillEnv (v : VarId) (slot : Operand) (ty : Ty) : BuildM (List InstrId) := do
  let chain := Operand.arg (← get).convention.chainIndex
  if ty.shape = .bytePtr then
    let store ← newStore chain slot
    updateVar v ({ · with initializer := some store })
    return [store]
  else
    let cast ← newCast slot (.ptr .bytePtr)
    let store ← newStore chain (.result cast)
    updateVar v ({ · with initializer := some store })
    return [cast, store]

/-- Gives the closure environment a name and storage. -/
def registerEnv (name : String) (ty : Ty) (span : Span) : BuildM VarId := do
  setUpArgs
  if (← get).env?.isSome then
    fail span .chainAlreadyRegistered
  let slot ← newSlot ty.shape (some (name ++ ".addr"))
  let v ← addVar { name, ty, kind := .env, slot, span, addressTaken := true } fun v t =>
    { t with env? := some v, owners := (slot, v) :: t.owners }
  if (← get).prologPlaced then
    let spill ← spillEnv v slot ty
    modify fun b => { b with lateSlots := b.lateSlots ++ spill }
  return v

/-- Registers a local variable, which may share the storage of an earlier variable. -/
def registerLocal (name : String) (ty : Ty) (aliasOf : Option VarId) (addressTaken : Bool)
    (span : Span) : BuildM VarId :=
  match aliasOf with
  | some earlier => do
    let some x := (← get).var? earlier | fail span (.badAlias earlier)
    addVar { name, ty, kind := .local, slot := x.slot, span, addressTaken, isAlias := true } fun v t =>
      { t with locals := t.locals ++ [v] }
  | none => do
    let slot ← newSlot ty.shape (some name)
    addVar { name, ty, kind := .local, slot, span, addressTaken } fun v t =>
      { t with locals := t.locals ++ [v], owners := (slot, v) :: t.owners }

end FlowIR.Build

import FlowIR.Build.Error
import FlowIR.Build.Label
import FlowIR.Convention.Basic
import FlowIR.Name

/-!
The state of a function under construction, and the monad of the operations on it.

An operation can report an error, and the state that it leaves behind is the one that the next
operation works on.
-/

namespace FlowIR

structure Options where
  /-- Take unreachable blocks out of finished functions. -/
  prune : Bool := false
  /-- The routine that directs unwinding. -/
  personality : String := "__kiln_personality_v0"
  /-- The routine that raises a kept exception again. -/
  rethrow : String := "__kiln_rethrow"
deriving DecidableEq, Repr

inductive VarKind where
  | param
  | local
  /-- The closure environment. -/
  | env
deriving DecidableEq, Repr

structure Variable where
  name : String
  ty : Ty
  kind : VarKind
  /-- The address of the storage. -/
  slot : Operand
  span : Span
  addressTaken : Bool := false
  /-- The instruction after which the variable holds its value. -/
  initializer : Option InstrId := none
  /-- The storage is that of an earlier variable. -/
  isAlias : Bool := false

/-- The tables of the variables of a function, next to the variables themselves. -/
structure VarTables where
  params : List VarId := []
  /-- The number of parameters registered so far. -/
  registered : Nat := 0
  locals : List VarId := []
  /-- The variable that names the closure environment. -/
  env? : Option VarId := none
  /-- The variables by the slots that they own, the latest first. Aliases are not entered. -/
  owners : List (Operand × VarId) := []

structure Builder where
  options : Options
  names : NameSupply
  signature : Signature
  convention : Convention
  graph : Graph
  entry : BlockId
  /-- The hidden arguments and the storage of the parameters have been set up. -/
  argsReady : Bool := false
  /-- The storage of the parameters, in order. -/
  paramSlots : List Operand := []
  /-- Slots that the prolog will place. -/
  pendingSlots : List InstrId := []
  /-- Slots made after the prolog, and what has to follow them. -/
  lateSlots : List InstrId := []
  prologPlaced : Bool := false
  vars : Array Variable := #[]
  tables : VarTables := {}
  labels : LabelTable := {}
  /-- Storage for a result on its way through cleanups. -/
  returnSlot : Option Operand := none
  /-- An error node has been seen. -/
  errorSeen : Bool := false

structure Session where
  target : Target := {}
  options : Options := {}
  names : NameSupply := {}

/-- A function that has an entry block and nothing else. -/
def Session.begin (s : Session) (name : String) (signature : Signature) : Checked Builder := do
  let convention ← require .overflow (signature.convention? s.target)
  let (entry, graph) :=
    (Graph.new name convention.argShapes convention.returnShape).addBlock "entry"
  return { options := s.options, names := s.names, signature, convention, graph, entry }

/-- An operation on a function under construction. -/
abbrev BuildM := EStateM (Halt BuildError) Builder

namespace Builder

/-! ### Views -/

def var? (b : Builder) (v : VarId) : Option Variable :=
  b.vars[v.index]?

def params (b : Builder) : List VarId := b.tables.params

def locals (b : Builder) : List VarId := b.tables.locals

def env? (b : Builder) : Option VarId := b.tables.env?

/-- The variable that owns the storage at an address. -/
def owner? (b : Builder) (slot : Operand) : Option VarId :=
  b.tables.owners.lookup slot

/-- Adds a variable, and enters its number into the tables. -/
def withVar (b : Builder) (x : Variable) (enter : VarId → VarTables → VarTables) : Builder :=
  { b with vars := b.vars.push x, tables := enter ⟨b.vars.size⟩ b.tables }

end Builder

namespace Build

/-! ### Basic operations -/

def fail {α : Type} (span : Span) (cause : Cause) : BuildM α := do
  throw (.error ⟨(← get).graph.name, span, cause⟩)

def fresh (tag : String) : BuildM String :=
  modifyGet fun b =>
    let (name, names) := b.names.fresh tag
    (name, { b with names })

def onGraph (f : Graph → Checked Graph) : BuildM Unit := do
  let graph ← f (← get).graph
  modify ({ · with graph })

def updateVar (v : VarId) (f : Variable → Variable) : BuildM Unit :=
  modify fun b => { b with vars := b.vars.modify v.index f }

/-- Notes that an error node has been seen. Checks that it may have caused to fail are relaxed from
then on. -/
def markError : BuildM Unit :=
  modify ({ · with errorSeen := true })

def newInstr (instr : Instr) : BuildM InstrId :=
  modifyGet fun b =>
    let (i, graph) := b.graph.newInstr instr
    (i, { b with graph })

/-- Makes an instruction and records the placeholders that it uses. -/
def newTracked (instr : Instr) : BuildM InstrId := do
  let i ← newInstr instr
  modify fun b =>
    let placeholders := instr.op.operands.filterMap (·.placeholder?)
    { b with labels := placeholders.foldl (fun t p => t.recordUse p i) b.labels }
  return i

def append (block : BlockId) (i : InstrId) : BuildM Unit :=
  onGraph (·.append block i)

def newBlock (tag : String) : BuildM BlockId := do
  let name ← fresh tag
  modifyGet fun b =>
    let (block, graph) := b.graph.newBlock name
    (block, { b with graph })

end Build

end FlowIR

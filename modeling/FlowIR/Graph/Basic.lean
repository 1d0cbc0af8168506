import FlowIR.Fault
import FlowIR.Graph.Instr

/-!
Functions as graphs of blocks.

Blocks and instructions are stored once and then named by their identifiers. A block belongs to
the body only when it is part of the layout, and an instruction is executed only where a block
lists it; storage slots and label blocks can therefore be made before their place is known.
-/

namespace FlowIR

/-- What a caller and a function agree on about a physical argument. -/
inductive ArgAttr where
  /-- Pointer to the caller's storage for the result. -/
  | sret
  /-- The closure environment. -/
  | nest
  /-- Pointer to a copy of an aggregate. -/
  | byval
  | signext
  | zeroext
deriving DecidableEq, Repr

structure Arg where
  shape : Shape
  name : Option String := none
  attrs : List ArgAttr := []

structure Block where
  name : String
  body : List InstrId := []
  /-- The block's address is used as a value. -/
  addressTaken : Bool := false

structure Graph where
  name : String
  args : Array Arg
  ret : Shape
  /-- The routine that directs unwinding, for functions with landing pads. -/
  personality : Option String := none
  blocks : Array Block := #[]
  /-- The blocks of the body, in order. -/
  layout : List BlockId := []
  instrs : Array Instr := #[]

namespace Graph

def new (name : String) (args : List Shape) (ret : Shape) : Graph :=
  { name, args := (args.map fun shape => { shape }).toArray, ret }

/-! ### Blocks -/

def block (g : Graph) (b : BlockId) : Checked Block :=
  require (.noBlock b) g.blocks[b.index]?

def updateBlock (g : Graph) (b : BlockId) (f : Block → Block) : Checked Graph :=
  if b.index < g.blocks.size then
    .ok { g with blocks := g.blocks.modify b.index f }
  else
    .error (.noBlock b)

def newBlock (g : Graph) (name : String) : BlockId × Graph :=
  (⟨g.blocks.size⟩, { g with blocks := g.blocks.push { name } })

/-- Puts a block at the end of the layout, unless it is part of it already. -/
def attach (g : Graph) (b : BlockId) : Graph :=
  if b ∈ g.layout then g else { g with layout := g.layout ++ [b] }

def addBlock (g : Graph) (name : String) : BlockId × Graph :=
  let (b, g) := g.newBlock name
  (b, { g with layout := g.layout ++ [b] })

def entry? (g : Graph) : Option BlockId :=
  g.layout.head?

def blockIds (g : Graph) : List BlockId :=
  (List.range g.blocks.size).map BlockId.mk

/-- The first block of the layout with the given name. -/
def findBlock (g : Graph) (name : String) : Checked (Option BlockId) :=
  g.layout.findM? fun b => return (← g.block b).name == name

/-- The blocks of the layout whose address is used. -/
def addressTaken (g : Graph) : Checked (List BlockId) :=
  g.layout.filterM fun b => return (← g.block b).addressTaken

/-! ### Instructions -/

def instr (g : Graph) (i : InstrId) : Checked Instr :=
  require (.noInstr i) g.instrs[i.index]?

def updateInstr (g : Graph) (i : InstrId) (f : Instr → Instr) : Checked Graph :=
  if i.index < g.instrs.size then
    .ok { g with instrs := g.instrs.modify i.index f }
  else
    .error (.noInstr i)

def newInstr (g : Graph) (instr : Instr) : InstrId × Graph :=
  (⟨g.instrs.size⟩, { g with instrs := g.instrs.push instr })

def append (g : Graph) (b : BlockId) (i : InstrId) : Checked Graph :=
  g.updateBlock b fun block => { block with body := block.body ++ [i] }

/-- Lists instructions at the front of a block, in the given order. -/
def insertFront (g : Graph) (b : BlockId) (is : List InstrId) : Checked Graph :=
  g.updateBlock b fun block => { block with body := is ++ block.body }

def push (g : Graph) (b : BlockId) (instr : Instr) : Checked (InstrId × Graph) := do
  let (i, g) := g.newInstr instr
  return (i, ← g.append b i)

/-- The last instruction of a block, if it is one that ends a block. -/
def terminator (g : Graph) (b : BlockId) : Checked (Option InstrId) := do
  match (← g.block b).body.getLast? with
  | none => return none
  | some last => return if (← g.instr last).op.isTerminator then some last else none

def isTerminated (g : Graph) (b : BlockId) : Checked Bool := do
  return (← g.terminator b).isSome

/-- The blocks that control can go to from the end of a block. -/
def successors (g : Graph) (b : BlockId) : Checked (List BlockId) := do
  match ← g.terminator b with
  | none => return []
  | some last => return (← g.instr last).op.successors

/-! ### Arguments and operands -/

def arg (g : Graph) (n : Nat) : Checked Arg :=
  require (.noArg n) g.args[n]?

def updateArg (g : Graph) (n : Nat) (f : Arg → Arg) : Checked Graph :=
  if n < g.args.size then .ok { g with args := g.args.modify n f } else .error (.noArg n)

def nameArg (g : Graph) (n : Nat) (name : String) : Checked Graph :=
  g.updateArg n fun a => { a with name := some name }

def addArgAttr (g : Graph) (n : Nat) (attr : ArgAttr) : Checked Graph :=
  g.updateArg n fun a =>
    { a with attrs := if attr ∈ a.attrs then a.attrs else a.attrs ++ [attr] }

def shapeOf (g : Graph) : Operand → Checked Shape
  | .arg n => return (← g.arg n).shape
  | .result i => return (← g.instr i).shape
  | .const c => return c.shape
  | .blockAddr _ | .placeholder _ => return .bytePtr

end Graph

end FlowIR

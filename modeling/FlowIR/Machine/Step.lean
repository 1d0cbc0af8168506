import FlowIR.Graph.Basic
import FlowIR.Machine.Arith
import FlowIR.Machine.Memory
import FlowIR.Machine.World

/-!
One step of the machine that gives graphs their meaning.

Values are byte strings. A block address has its top bit set and holds the block's number. Calls go
to the world; an exception that comes back goes to the landing pad of the call, or out of the
function.
-/

namespace FlowIR

inductive Trap where
  | noEntry
  | stepLimit
  | fellOff (block : String)
  | padWithoutException
  | branchToNonBlock
  | branchToUnlisted
  | unreachable
deriving DecidableEq, Repr

def Trap.message : Trap → String
  | .noEntry => "no entry block"
  | .stepLimit => "step limit"
  | .fellOff block => "fell off block " ++ block
  | .padWithoutException => "landing pad without exception"
  | .branchToNonBlock => "indirect branch to non-block"
  | .branchToUnlisted => "indirect branch to unlisted block"
  | .unreachable => "reached unreachable"

inductive Outcome where
  | returned (value : Option Bytes)
  /-- The exception left the function. -/
  | raised (exception : Nat)
  | trapped (trap : Trap)
deriving DecidableEq, Repr

inductive Flow where
  | next
  | jump (block : BlockId)
  | done (outcome : Outcome)
deriving DecidableEq, Repr

structure Machine where
  memory : Memory := {}
  /-- The results computed so far, by instruction. -/
  results : Array (Option Bytes) := #[]
  /-- The exception on its way to a landing pad. -/
  inFlight : Option Nat := none
  world : World := {}

namespace Machine

def blockTag : Nat := 0x8000000000000000

def start (g : Graph) (memory : Memory) (world : World) : Machine :=
  { memory, results := Array.replicate g.instrs.size none, world }

def constant : Constant → Checked Bytes
  | .int shape value => return Bytes.ofInt (← sizeOf shape) value
  | .float shape bits => return bytesOfFloat shape bits
  | .null shape | .zero shape | .undef shape => return Bytes.zeros (← sizeOf shape)

def eval (m : Machine) (args : Array Bytes) : Operand → Checked Bytes
  | .arg n => require (.noArg n) args[n]?
  | .result i => require (.unset i) (m.results[i.index]?.join)
  | .const c => constant c
  | .blockAddr b => .ok (Bytes.ofNat 8 (blockTag + b.index))
  | .placeholder p => .error (.unresolved p)

def evalWord (m : Machine) (args : Array Bytes) (v : Operand) : Checked Nat := do
  return (← m.eval args v).word

def keep (m : Machine) (i : InstrId) (value : Bytes) : Machine :=
  { m with results := m.results.setIfInBounds i.index (some value) }

/-- Keeps the result of an instruction and goes on with the next one. -/
def proceed (m : Machine) (i : InstrId) (value : Bytes) : Flow × Machine :=
  (.next, m.keep i value)

/-- The block whose address a word is, if it is one. Blocks are numbered with 32 bits. -/
def blockOfWord? (word : Nat) : Option BlockId :=
  if word < blockTag then none else some ⟨(word - blockTag) % 0x100000000⟩

/-- The token that a landing pad makes of an exception. -/
def tokenOf (exception : Nat) : Bytes :=
  Bytes.ofNat 8 exception ++ Bytes.ofNat 8 1

def fieldAddress (base : Shape) (ptr index : Nat) : Checked Nat := do
  let offset ← require (.badField index) (base.target?.bind (·.fieldOffset? index))
  require .overflow (Size.add ptr offset)

def step (g : Graph) (args : Array Bytes) (m : Machine) (i : InstrId) :
    Checked (Flow × Machine) := do
  let instr ← g.instr i
  match instr.op with
  | .alloca shape =>
    let (ptr, memory) := m.memory.alloc (← sizeOf shape)
    return { m with memory }.proceed i (Bytes.ofNat 8 ptr)
  | .load ptr =>
    let address ← m.evalWord args ptr
    return m.proceed i (← m.memory.read address (← sizeOf instr.shape))
  | .store value ptr =>
    let data ← m.eval args value
    let memory ← m.memory.write (← m.evalWord args ptr) data
    return (.next, { m with memory })
  | .cast op value dst =>
    let v ← m.eval args value
    return m.proceed i (← cast op (← g.shapeOf value) dst v)
  | .fieldAddr base index =>
    let ptr ← m.evalWord args base
    return m.proceed i (Bytes.ofNat 8 (← fieldAddress (← g.shapeOf base) ptr index))
  | .memcpy dst src size _ =>
    let address ← m.evalWord args dst
    let data ← m.memory.read (← m.evalWord args src) size
    return (.next, { m with memory := ← m.memory.write address data })
  | .arith op lhs rhs =>
    let shape ← g.shapeOf lhs
    return m.proceed i (← arith op shape (← m.eval args lhs) (← m.eval args rhs))
  | .compare pred lhs rhs =>
    let shape ← g.shapeOf lhs
    let truth ← compare pred shape (← m.eval args lhs) (← m.eval args rhs)
    return m.proceed i (Bytes.ofNat 1 truth.toNat)
  | .call callee operands =>
    let values ← operands.mapM (m.eval args)
    match ← m.world.call callee values (sizeOf instr.shape) with
    | (.value v, world) => return { m with world }.proceed i v
    | (.raise exception, world) => return (.done (.raised exception), { m with world })
  | .landingPad _ =>
    match m.inFlight with
    | none => return (.done (.trapped .padWithoutException), m)
    | some exception => return { m with inFlight := none }.proceed i (tokenOf exception)
  | .br target => return (.jump target, m)
  | .condBr cond yes no =>
    return (.jump (if (← m.evalWord args cond) % 2 = 1 then yes else no), m)
  | .switch value default cases =>
    let v := signedOf (← bitsOf (← g.shapeOf value)) (← m.evalWord args value)
    return (.jump ((cases.lookup v).getD default), m)
  | .indirectBr addr dests =>
    match blockOfWord? (← m.evalWord args addr) with
    | none => return (.done (.trapped .branchToNonBlock), m)
    | some target =>
      if target ∈ dests then return (.jump target, m)
      else return (.done (.trapped .branchToUnlisted), m)
  | .invoke callee operands normal unwind =>
    let values ← operands.mapM (m.eval args)
    match ← m.world.call callee values (sizeOf instr.shape) with
    | (.value v, world) => return (.jump normal, { m with world }.keep i v)
    | (.raise exception, world) =>
      return (.jump unwind, { m with world, inFlight := some exception })
  | .ret none => return (.done (.returned none), m)
  | .ret (some value) => return (.done (.returned (some (← m.eval args value))), m)
  | .resume token =>
    let bytes ← m.eval args token
    if bytes.size < 8 then
      throw (.shortValue 8)
    return (.done (.raised bytes.word), m)
  | .unreachable => return (.done (.trapped .unreachable), m)

end Machine

end FlowIR

import FlowIR.Build.Place
import FlowIR.Build.Return

/-!
Emitting code at the end of a current block.

Besides the block, a cursor knows what encloses the code: the landing pads that calls unwind to,
the cleanups that returns pass through, and the blocks behind the switches that can be left. The
innermost one comes first. An operation that fails leaves them as they are at that moment.
-/

namespace FlowIR

structure Cleanup where
  block : BlockId
  /-- The slot that tells the cleanup why it was entered. -/
  flag : Operand
  /-- Some return passes through. -/
  returns : Bool := false

structure Cursor where
  builder : Builder
  current : BlockId
  pads : List BlockId := []
  cleanups : List Cleanup := []
  exits : List BlockId := []

abbrev EmitM := EStateM (Halt BuildError) Cursor

/-- Operations on the function take part in emitting its code. -/
instance : MonadLift (EStateM (Halt BuildError) Builder) (EStateM (Halt BuildError) Cursor) where
  monadLift op := fun ⟨builder, current, pads, cleanups, exits⟩ =>
    match op builder with
    | .ok a builder => .ok a ⟨builder, current, pads, cleanups, exits⟩
    | .error e builder => .error e ⟨builder, current, pads, cleanups, exits⟩

namespace Emit

def builder : EmitM Builder := do
  return (← get).builder

/-- Emits code from the end of the entry block on. -/
def fromEntry {α : Type} (code : EmitM α) : BuildM α := fun b =>
  match code { builder := b, current := b.entry } with
  | .ok a c => .ok a c.builder
  | .error e c => .error e c.builder

def fail {α : Type} (span : Span) (cause : Cause) : EmitM α :=
  liftM (Build.fail span cause : BuildM α)

def isTerminated : EmitM Bool := do
  let c ← get
  c.builder.graph.isTerminated c.current

def moveTo (block : BlockId) : EmitM Unit :=
  modify ({ · with current := block })

def startBlock (block : BlockId) : EmitM Unit := do
  (modify fun b => { b with graph := b.graph.attach block } : BuildM Unit)
  moveTo block

/-- Makes sure that code can be added. What comes after the end of a block goes into a new one,
which nothing leads to. -/
def ensureOpen : EmitM Unit := do
  if ← isTerminated then
    startBlock (← Build.newBlock "dead")

def push (instr : Instr) : EmitM InstrId := do
  ensureOpen
  let i ← Build.newTracked instr
  Build.append (← get).current i
  return i

def emit (op : Op) (shape : Shape) : EmitM Operand := do
  return .result (← push { op, shape })

/-- Adds an instruction whose result gets a fresh name. -/
def named (tag : String) (op : Op) (shape : Shape) : EmitM Operand := do
  let name ← Build.fresh tag
  return .result (← push { op, shape, name := some name })

def perform (op : Op) : EmitM InstrId :=
  push { op }

/-- Goes on to a block, unless the current one has ended. -/
def branchTo (target : BlockId) : EmitM Unit := do
  unless ← isTerminated do
    let _ ← perform (.br target)

/-! ### What encloses the code -/

/-- Emits code whose calls unwind to a landing pad. -/
def withPad {α : Type} (pad : BlockId) (code : EmitM α) : EmitM α := do
  modify fun c => { c with pads := pad :: c.pads }
  let a ← code
  modify fun c => { c with pads := c.pads.tail }
  return a

def withExit {α : Type} (exit : BlockId) (code : EmitM α) : EmitM α := do
  modify fun c => { c with exits := exit :: c.exits }
  let a ← code
  modify fun c => { c with exits := c.exits.tail }
  return a

/-- Emits code whose returns pass through a cleanup, and tells whether there were any. -/
def withCleanup (block : BlockId) (flag : Operand) (code : EmitM Unit) : EmitM Bool := do
  modify fun c => { c with cleanups := { block, flag } :: c.cleanups }
  code
  let returns := (← get).cleanups.head?.any (·.returns)
  modify fun c => { c with cleanups := c.cleanups.tail }
  return returns

end Emit

end FlowIR

import FlowIR.Machine.Step

/-!
Whole runs. A run executes instructions one by one, from the entry block on, and is cut off after
a fixed number of them.
-/

namespace FlowIR

namespace Machine

/-- The number of instructions after which a run is cut off. -/
def stepLimit : Nat := 100000

/-- Executes the rest of a block and what follows it. An instruction that would exceed the limit
is not executed. -/
def run (g : Graph) (args : Array Bytes) :
    (fuel : Nat) → (block : BlockId) → (rest : List InstrId) → Machine →
    Checked (Outcome × Machine)
  | _, block, [], m =>
    match g.block block with
    | .ok b => .ok (.trapped (.fellOff b.name), m)
    | .error f => .error f
  | 0, _, _ :: _, m => .ok (.trapped .stepLimit, m)
  | fuel + 1, block, i :: rest, m =>
    match step g args m i with
    | .error f => .error f
    | .ok (.next, m) => run g args fuel block rest m
    | .ok (.done outcome, m) => .ok (outcome, m)
    | .ok (.jump target, m) =>
      match g.block target with
      | .error f => .error f
      | .ok b => run g args fuel target b.body m

/-- Runs a function with the given physical arguments. -/
def execute (g : Graph) (args : Array Bytes) (m : Machine) : Checked (Outcome × Machine) := do
  match g.entry? with
  | none => return (.trapped .noEntry, m)
  | some entry => run g args stepLimit entry (← g.block entry).body m

end Machine

/-! ### Runs from outside -/

inductive Actual where
  /-- The lowest bytes of an integer. -/
  | int (value : Int) (size : Nat)
  | bytes (data : Bytes)
  /-- A pointer to a new allocation that holds the bytes. -/
  | memory (data : Bytes)

structure Report where
  outcome : Outcome
  /-- The result storage afterwards, for a function that is given a pointer to it. -/
  result : Option Bytes
  /-- The passed allocations afterwards. -/
  memories : List Bytes
  world : World

/-- The allocations of a caller, and the arguments made of them. -/
structure Caller where
  memory : Memory := {}
  args : Array Bytes := #[]
  /-- The allocations passed as arguments, with their sizes. -/
  passed : Array (Nat × Nat) := #[]

namespace Caller

def pass (c : Caller) : Actual → Checked Caller
  | .int value size => do
    return { c with args := c.args.push (Bytes.ofInt (← Machine.fitting size) value) }
  | .bytes data => .ok { c with args := c.args.push data }
  | .memory data => do
    let (ptr, memory) := c.memory.alloc data.size
    return { memory := ← memory.write ptr data
             args := c.args.push (Bytes.ofNat 8 ptr)
             passed := c.passed.push (ptr, data.size) }

/-- Makes the storage for the result, if the function takes a pointer to it; also gives the pointer
and the size. -/
def passResult (g : Graph) : Checked (Option (Nat × Nat) × Caller) :=
  match g.args[0]? with
  | some first =>
    if ArgAttr.sret ∈ first.attrs then do
      let size ← match first.shape.target? with
        | some target => Machine.sizeOf target
        | none => pure 0
      let (ptr, memory) := Memory.alloc {} size
      return (some (ptr, size), { memory, args := #[Bytes.ofNat 8 ptr] })
    else
      .ok (none, {})
  | none => .ok (none, {})

end Caller

/-- Calls a function: makes the arguments, the result pointer first, runs it and looks at the
memory afterwards. -/
def Graph.call (g : Graph) (actuals : List Actual) (world : World) : Checked Report := do
  let (result, caller) ← Caller.passResult g
  let caller ← actuals.foldlM Caller.pass caller
  let (outcome, m) ← Machine.execute g caller.args (Machine.start g caller.memory world)
  let resultAfter ← result.mapM fun (ptr, size) => m.memory.read ptr size
  let memories ← caller.passed.toList.mapM fun (ptr, size) => m.memory.read ptr size
  return ⟨outcome, resultAfter, memories, m.world⟩

end FlowIR

import FlowIR.Convention.Passing

/-!
The calling convention of a function.

The physical arguments are, in this order: the pointer to the caller's result storage, if the
result does not travel in registers; the closure environment; then the parameters. A value larger
than `maxChunks` words travels behind a pointer. So does an aggregate for which too few registers
are left, while a scalar is always passed directly. Registers are handed out from left to right.
-/

namespace FlowIR

structure Convention where
  params : List Placement
  result : Placement
  /-- The shapes of all physical arguments. -/
  argShapes : List Shape

structure Budget where
  int : Nat
  sse : Nat

def Budget.take (b : Budget) (int sse : Nat) : Budget :=
  ⟨b.int - int, b.sse - sse⟩

namespace Convention

/-- Integers below four bytes are widened by the caller. -/
def extensionFor? (t : Ty) : Option Extension := do
  if !t.isInteger then return .none
  if 4 ≤ (← t.size?) then return .none
  return if t.isSigned then .sign else .zero

def whole? (t : Ty) : Option Passing := do
  return .direct [t.shape] (← extensionFor? t)

/-- Whether a value is larger than the words that it may travel in. -/
def isLarge? (target : Target) (t : Ty) : Option Bool := do
  return (← Size.mul target.maxChunks target.wordSize) < (← t.size?)

def inChunks? (t : Ty) (chunks : List Chunk) : Option Passing := do
  return .direct (chunks.map (·.shape)) (← extensionFor? t)

/-- The numbers of integer and of float chunks, as 32-bit counts. The float chunks are those left
of all, which cannot be fewer than none. -/
def registers? (chunks : List Chunk) : Option (Nat × Nat) :=
  let int := chunks.countP (·.cls = .int) % Size.countLimit
  let all := chunks.length % Size.countLimit
  if int ≤ all then some (int, all - int) else none

def passResult? (target : Target) (sig : Signature) : Option Passing := do
  let t := sig.result
  if ← t.isZeroSized? then return .ignored
  if sig.internal then return ← whole? t
  if ← isLarge? target t then return .indirect
  inChunks? t (← t.chunks? target.wordSize)

/-- How a parameter travels, and the registers that are left after it. -/
def passParam? (target : Target) (internal : Bool) (t : Ty) (budget : Budget) :
    Option (Passing × Budget) := do
  if ← t.isZeroSized? then return (.ignored, budget)
  if internal then return (← whole? t, budget)
  if ← isLarge? target t then return (.indirect, budget.take 1 0)
  let chunks ← t.chunks? target.wordSize
  let (int, sse) ← registers? chunks
  if t.isAggregate && (budget.int < int || budget.sse < sse) then
    return (.indirect, budget.take 1 0)
  return (← inChunks? t chunks, budget.take int sse)

/-- Places parameters, the first of which starts at the physical argument `offset`, and adds their
shapes to those of the physical arguments in front of them. -/
def placeParams? (target : Target) (internal : Bool) :
    List Ty → Budget → (offset : Nat) → (shapes : List Shape) → Option (List Placement × List Shape)
  | [], _, _, shapes => some ([], shapes)
  | t :: ts, budget, offset, shapes => do
    let (passing, left) ← passParam? target internal t budget
    let here : Placement := ⟨passing, t, offset⟩
    let (later, all) ←
      placeParams? target internal ts left (offset + here.slots) (shapes ++ here.argShapes)
    return (here :: later, all)

/-- The position of the closure environment, which follows the result pointer. -/
def chainIndex (c : Convention) : Nat :=
  if c.result.passing.isIndirect then 1 else 0

def chain (c : Convention) : Placement :=
  ⟨.direct [.bytePtr] .none, .ptr .void, c.chainIndex⟩

/-- The position of the result pointer, if there is one. -/
def resultPointer? (c : Convention) : Option Nat :=
  if c.result.passing.isIndirect then some 0 else none

/-- The shape that the function physically returns. -/
def returnShape (c : Convention) : Shape :=
  c.result.regShape

end Convention

/-- The calling convention of a signature on a target. -/
def Signature.convention? (sig : Signature) (target : Target) : Option Convention := do
  let passing ← Convention.passResult? target sig
  let budget : Budget := ⟨target.intRegs, target.sseRegs⟩
  let (params, argShapes) ← match passing with
    | .indirect =>
      Convention.placeParams? target sig.internal sig.params (budget.take 1 0) 2
        [.ptr sig.result.shape, .bytePtr]
    | _ => Convention.placeParams? target sig.internal sig.params budget 1 [.bytePtr]
  return ⟨params, ⟨passing, sig.result, 0⟩, argShapes⟩

end FlowIR

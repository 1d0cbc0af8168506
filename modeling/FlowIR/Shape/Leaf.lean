import FlowIR.Shape.Layout

/-!
The scalar leaves of a shape: what remains when every struct and array is opened, each with its
byte offset, in memory order.
-/

namespace FlowIR

structure Leaf where
  shape : Shape
  offset : Nat
deriving DecidableEq

namespace Shape

mutual
/-- The leaves of a value that starts at `base`. All elements of an array are alike, so if the first
has no leaves, none has. -/
def leaves? : Shape → (base : Nat) → Option (List Leaf)
  | .void, _ => some []
  | .struct fields, base => fieldLeaves? fields 0 base
  | .array _ 0, _ => some []
  | .array elem (len + 1), base => do
    let size ← elem.size?
    let first ← elem.leaves? base
    if first.isEmpty then
      return []
    let others ← (List.range len).mapM fun i => do
      elem.leaves? (← Size.add base (← Size.mul (i + 1) size))
    return first ++ others.flatten
  | .int bits, base => some [⟨.int bits, base⟩]
  | .f32, base => some [⟨.f32, base⟩]
  | .f64, base => some [⟨.f64, base⟩]
  | .ptr target, base => some [⟨.ptr target, base⟩]
  | .vector elem lanes, base => some [⟨.vector elem lanes, base⟩]

/-- The leaves of fields of a struct that starts at `base`, when the first field may start
`offset` bytes behind it. -/
def fieldLeaves? : List Shape → (offset base : Nat) → Option (List Leaf)
  | [], _, _ => some []
  | f :: fs, offset, base => do
    let start ← Size.alignUp offset (← f.align?)
    let here ← f.leaves? (← Size.add base start)
    return here ++ (← fieldLeaves? fs (← Size.add start (← f.size?)) base)
end

end Shape

end FlowIR

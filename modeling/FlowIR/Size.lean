/-!
Arithmetic on sizes and offsets. They are 64-bit counts of bytes: a sum or product that reaches
`2 ^ 64` has no value. Registers and physical arguments are counted in 32 bits.
-/

namespace FlowIR.Size

def limit : Nat := 0x10000000000000000

/-- The most bytes that one value or one allocation can take: `2 ^ 63 - 1`. A type may be larger,
as long as no value of it is made. -/
def capacity : Nat := 0x7fffffffffffffff

def check (n : Nat) : Option Nat :=
  if n < limit then some n else none

def add (a b : Nat) : Option Nat :=
  check (a + b)

def mul (a b : Nat) : Option Nat :=
  check (a * b)

/-- One more than the largest 32-bit count: `2 ^ 32`. -/
def countLimit : Nat := 0x100000000

/-- The least multiple of `align` that is not below `offset`. The sum `offset + align` has to be a
size as well; an alignment of zero counts as one. -/
def alignUp (offset align : Nat) : Option Nat := do
  let step := max align 1
  let top ← add offset step
  return (top - 1) / step * step

end FlowIR.Size

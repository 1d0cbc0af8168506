import FlowIR.Fault
import FlowIR.Graph.Instr
import FlowIR.Machine.Ieee
import FlowIR.Shape.Layout

/-!
What the operations of the machine compute. Integer arithmetic wraps at 64 bits and keeps the bytes
of the operands' shape; division, remainder and order are signed or unsigned by the operation.
Floats of 32 bits are computed with 64 and rounded at the end.
-/

namespace FlowIR.Machine

/-- A number of bytes, if a value or an allocation can have that many. -/
def fitting (size : Nat) : Checked Nat :=
  if size ≤ Size.capacity then .ok size else .error (.tooLarge size)

def sizeOf (s : Shape) : Checked Nat := do
  fitting (← require .overflow s.size?)

/-- The number of bits of a shape, all bytes counted. -/
def bitsOf (s : Shape) : Checked Nat := do
  require .overflow (Size.mul (← sizeOf s) 8)

/-- The 64-bit float that a value of the shape holds. -/
def floatOf (s : Shape) (bs : Bytes) : Checked UInt64 :=
  if s = .f32 then
    if 4 ≤ bs.size then
      .ok (Ieee.widen (UInt32.ofNat (ofDigits (bs.take 4).toList)))
    else
      .error (.shortValue 4)
  else
    .ok (UInt64.ofNat bs.word)

/-- The value of the shape that holds a 64-bit float. -/
def bytesOfFloat (s : Shape) (bits : UInt64) : Bytes :=
  if s = .f32 then Bytes.ofNat 4 (Ieee.narrow bits).toNat else Bytes.ofNat 8 bits.toNat

def floatArith (op : ArithOp) (a b : UInt64) : Checked UInt64 :=
  match op with
  | .fadd => .ok (Ieee.lift (· + ·) a b)
  | .fsub => .ok (Ieee.lift (· - ·) a b)
  | .fmul => .ok (Ieee.lift (· * ·) a b)
  | .fdiv => .ok (Ieee.lift (· / ·) a b)
  | _ => .error .wrongOperator

/-- The word that an integer operation gives, for operands of the given number of bits. -/
def intArith (op : ArithOp) (bits a b : Nat) : Checked Nat :=
  match op with
  | .add => .ok (wordOf ((a : Int) + b))
  | .sub => .ok (wordOf ((a : Int) - b))
  | .mul => .ok (wordOf ((a : Int) * b))
  | .sdiv =>
    if signedOf bits b = 0 then .error .divisionByZero
    else .ok (wordOf ((signedOf bits a).tdiv (signedOf bits b)))
  | .udiv => if b = 0 then .error .divisionByZero else .ok (a / b)
  | .srem =>
    if signedOf bits b = 0 then .error .divisionByZero
    else .ok (wordOf ((signedOf bits a).tmod (signedOf bits b)))
  | .urem => if b = 0 then .error .divisionByZero else .ok (a % b)
  | .and => .ok (a &&& b)
  | .or => .ok (a ||| b)
  | .xor => .ok (a ^^^ b)
  | .fadd | .fsub | .fmul | .fdiv => .error .wrongOperator

/-- The result of an operation on two values of a shape. -/
def arith (op : ArithOp) (s : Shape) (l r : Bytes) : Checked Bytes := do
  let size ← sizeOf s
  let bits ← bitsOf s
  if s.isFloat then
    return bytesOfFloat s (← floatArith op (← floatOf s l) (← floatOf s r))
  else
    return Bytes.ofNat size (← intArith op bits l.word r.word)

def compareFloats (pred : Pred) (a b : Float) : Bool :=
  match pred with
  | .oeq => a == b
  | .one => a != b
  | .olt => decide (a < b)
  | .ole => decide (a ≤ b)
  | .ogt => decide (b < a)
  | _ => decide (b ≤ a)

/-- Compares two words, as signed numbers of the given number of bits where the order is
signed. -/
def compareInts (pred : Pred) (bits a b : Nat) : Bool :=
  match pred with
  | .eq => a == b
  | .ne => a != b
  | .slt => decide (signedOf bits a < signedOf bits b)
  | .sle => decide (signedOf bits a ≤ signedOf bits b)
  | .sgt => decide (signedOf bits b < signedOf bits a)
  | .sge => decide (signedOf bits b ≤ signedOf bits a)
  | .ult => decide (a < b)
  | .ule => decide (a ≤ b)
  | .ugt => decide (b < a)
  | _ => decide (b ≤ a)

/-- The truth value of a comparison of two values of a shape. -/
def compare (pred : Pred) (s : Shape) (l r : Bytes) : Checked Bool := do
  if pred.isFloat then
    return compareFloats pred (Float.ofBits (← floatOf s l)) (Float.ofBits (← floatOf s r))
  else
    return compareInts pred (← bitsOf s) l.word r.word

/-- A value of the shape `src`, converted to the shape `dst`. -/
def cast (op : CastOp) (src dst : Shape) (v : Bytes) : Checked Bytes := do
  let bits ← bitsOf src
  match op with
  | .bitcast => return v
  | .zext => return Bytes.ofNat (← sizeOf dst) v.word
  | .sext => return Bytes.ofInt (← sizeOf dst) (signedOf bits v.word)
  | .trunc =>
    if dst = .i1 then
      return Bytes.ofNat 1 (v.word % 2)
    else
      let size ← sizeOf dst
      if size ≤ v.size then return v.take size else throw (.shortValue size)

end FlowIR.Machine

import FlowIR.Machine.Bytes

/-!
Arithmetic on 64-bit floats given by their bits, and their conversion from and to 32 bits.

The bits of an invalid result are fixed too. An operand that is not a number is the result, made
quiet, and the left operand goes before the right one. An operation on numbers without a result,
such as `0 / 0`, gives the quiet one with the sign bit set.
-/

namespace FlowIR.Ieee

def isNaN (bits : UInt64) : Bool :=
  (bits &&& 0x7ff0000000000000) == 0x7ff0000000000000 && (bits &&& 0x000fffffffffffff) != 0

def quiet (bits : UInt64) : UInt64 :=
  bits ||| 0x0008000000000000

/-- What an operation on numbers gives when it has no result. -/
def invalid : UInt64 := 0xfff8000000000000

def lift (op : Float → Float → Float) (a b : UInt64) : UInt64 :=
  if isNaN a then quiet a
  else if isNaN b then quiet b
  else
    let r := op (Float.ofBits a) (Float.ofBits b)
    if r.isNaN then invalid else r.toBits

/-- Whether the bits are those of no number, for 32 bits. -/
def isNaN32 (bits : UInt32) : Bool :=
  (bits &&& 0x7f800000) == 0x7f800000 && (bits &&& 0x007fffff) != 0

def widen (bits : UInt32) : UInt64 :=
  if isNaN32 bits then
    let sign : UInt64 := (bits &&& 0x80000000).toUInt64
    let fraction : UInt64 := (bits &&& 0x007fffff).toUInt64
    quiet ((sign <<< 32) ||| (0x7ff0000000000000 : UInt64) ||| (fraction <<< 29))
  else
    (Float32.ofBits bits).toFloat.toBits

def narrow (bits : UInt64) : UInt32 :=
  if isNaN bits then
    let sign : UInt64 := (bits >>> 32) &&& (0x80000000 : UInt64)
    let fraction : UInt64 := (bits >>> 29) &&& (0x003fffff : UInt64)
    (sign ||| (0x7fc00000 : UInt64) ||| fraction).toUInt32
  else
    (Float.ofBits bits).toFloat32.toBits

end FlowIR.Ieee

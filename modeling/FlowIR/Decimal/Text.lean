import FlowIR.Decimal.Shortest

/-!
Decimal text of 64-bit floats, from their bits: the shortest digits that determine the number, with
a point from `10 ^ -4` up to `10 ^ 16` and with an exponent beyond. A number written with a point
has at least one digit behind it.
-/

namespace FlowIR.Decimal

def zeros (n : Nat) : String :=
  String.ofList (List.replicate n '0')

/-- Digits with a point, `exponent` being the power of ten of the last one. -/
def positional (digits : String) (exponent : Int) : String :=
  if 0 ≤ exponent then
    digits ++ zeros exponent.toNat ++ ".0"
  else
    let places := (-exponent).toNat
    let cs := digits.toList
    if places < cs.length then
      String.ofList (cs.take (cs.length - places)) ++ "." ++
        String.ofList (cs.drop (cs.length - places))
    else
      "0." ++ zeros (places - cs.length) ++ digits

/-- Digits with an exponent, that of the first one. -/
def scientific (digits : String) (exponent : Int) : String :=
  match digits.toList with
  | [] => "e" ++ Int.repr exponent
  | [d] => String.singleton d ++ "e" ++ Int.repr exponent
  | d :: ds => String.singleton d ++ "." ++ String.ofList ds ++ "e" ++ Int.repr exponent

def Digits.text (d : Digits) : String :=
  let digits := Nat.repr d.digits
  let lead := d.exponent + digits.length - 1
  if -4 ≤ lead ∧ lead < 16 then positional digits d.exponent else scientific digits lead

/-- The bit in front of the 52 bits of a fraction. -/
def hidden : Nat := 0x10000000000000

def floatText (bits : UInt64) : String :=
  let n := bits.toNat
  let sign := if n < 0x8000000000000000 then "" else "-"
  let biased : Nat := n / hidden % 2048
  let fraction := n % hidden
  if biased = 2047 then
    if fraction = 0 then sign ++ "inf" else "NaN"
  else if biased = 0 then
    if fraction = 0 then sign ++ "0.0"
    else sign ++ (Rounding.ofBinary fraction (-1074) false).shortest.text
  else
    let dense := fraction == 0 && 1 < biased
    sign ++ (Rounding.ofBinary (hidden + fraction) ((biased : Int) - 1075) dense).shortest.text

end FlowIR.Decimal

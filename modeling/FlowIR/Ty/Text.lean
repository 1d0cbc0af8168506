import FlowIR.Ty.Basic

/-!
The text of a source type: `u8`, `*void`, `struct {i32, i8}`, `(i8, f32)`, `[u8; 4]`.
-/

namespace FlowIR.Ty

/-- The letter in front of an integer type's width. -/
def signLetter : Signedness → String
  | .signed => "i"
  | .unsigned => "u"

mutual
def text : Ty → String
  | .void => "void"
  | .bool => "bool"
  | .int sign width => signLetter sign ++ Nat.repr width.bits
  | .f32 => "f32"
  | .f64 => "f64"
  | .ptr target => "*" ++ target.text
  | .struct fields => "struct \x7b" ++ listText fields ++ "\x7d"
  | .tuple fields => "(" ++ listText fields ++ ")"
  | .array elem len => "[" ++ elem.text ++ "; " ++ Nat.repr len ++ "]"

/-- The texts of several types, with commas between them. -/
def listText : List Ty → String
  | [] => ""
  | t :: ts => t.text ++ moreText ts

/-- The texts of several types, each behind a comma. -/
def moreText : List Ty → String
  | [] => ""
  | t :: ts => ", " ++ t.text ++ moreText ts
end

end FlowIR.Ty

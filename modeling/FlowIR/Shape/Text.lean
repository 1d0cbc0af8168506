import FlowIR.Shape.Basic

/-!
The text of a shape, as it stands in printed graphs: `i32`, `double`, `i8*`, `{ i8*, i32 }`,
`[4 x i8]`, `<2 x float>`.
-/

namespace FlowIR.Shape

mutual
def text : Shape → String
  | .void => "void"
  | .int bits => "i" ++ Nat.repr bits
  | .f32 => "float"
  | .f64 => "double"
  | .ptr target => target.text ++ "*"
  | .struct [] => "\x7b\x7d"
  | .struct (f :: fs) => "\x7b " ++ f.text ++ moreText fs ++ " \x7d"
  | .array elem len => "[" ++ Nat.repr len ++ " x " ++ elem.text ++ "]"
  | .vector elem lanes => "<" ++ Nat.repr lanes ++ " x " ++ elem.text ++ ">"

/-- The text of the fields after the first, each behind a comma. -/
def moreText : List Shape → String
  | [] => ""
  | f :: fs => ", " ++ f.text ++ moreText fs
end

end FlowIR.Shape

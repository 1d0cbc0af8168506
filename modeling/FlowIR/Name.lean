import FlowIR.Assoc

/-!
Fresh names. A supply hands out `tag.0`, `tag.1`, … for each tag separately, so the same requests
always get the same names.
-/

namespace FlowIR

structure NameSupply where
  used : Assoc Nat := {}

namespace NameSupply

/-- The number of names of a tag handed out so far. -/
def count (names : NameSupply) (tag : String) : Nat :=
  (names.used.get? tag).getD 0

def render (tag : String) (n : Nat) : String :=
  tag ++ "." ++ Nat.repr n

/-- The next name of a tag, and the supply without it. -/
def fresh (names : NameSupply) (tag : String) : String × NameSupply :=
  let n := names.count tag
  (render tag n, ⟨names.used.set tag (n + 1)⟩)

/-- The names that a supply hands out for a list of tags, in order. -/
def freshAll (names : NameSupply) : List String → List String
  | [] => []
  | tag :: tags =>
    let (name, rest) := names.fresh tag
    name :: rest.freshAll tags

end NameSupply

end FlowIR

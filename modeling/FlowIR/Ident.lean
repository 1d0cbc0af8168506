/-!
Identifiers. Blocks, instructions, placeholders, variables and labels are numbered from zero in
the order in which they are made. Each kind has a type of its own, so that a block can never be
taken for a label.
-/

namespace FlowIR

structure BlockId where
  index : Nat
deriving DecidableEq, Repr, Inhabited

/-- An instruction of a graph; as an operand it stands for the instruction's result. -/
structure InstrId where
  index : Nat
deriving DecidableEq, Repr, Inhabited

/-- A stand-in for the address of a label that has no place in the layout yet. -/
structure PlaceholderId where
  index : Nat
deriving DecidableEq, Repr, Inhabited

structure VarId where
  index : Nat
deriving DecidableEq, Repr, Inhabited

structure LabelId where
  index : Nat
deriving DecidableEq, Repr, Inhabited

end FlowIR

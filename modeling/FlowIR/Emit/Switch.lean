import FlowIR.Emit.Expr

/-!
The table of a switch: a block for every case, and the case values that lead there. A value that
has been reported as wrong is left out; its case is still reached by falling through.
-/

namespace FlowIR.Emit

/-- The blocks of the cases, the values that lead to them, and the block of the default case. -/
structure CaseTable where
  blocks : List BlockId := []
  values : List (Int × BlockId) := []
  default : Option BlockId := none

def addValues (block : BlockId) : List Expr → List (Int × BlockId) → EmitM (List (Int × BlockId))
  | [], values => return values
  | e :: es, values => do
    if e.isError then
      Build.markError
      addValues block es values
    else
      match e.literal? with
      | none => fail e.span .nonConstantCase
      | some v =>
        if values.any (·.1 = v) then
          fail e.span (.duplicateCase v)
        addValues block es (values ++ [(v, block)])

def addCase (span : Span) (table : CaseTable) (values : List Expr) : EmitM CaseTable := do
  let block ← Build.newBlock (if values.isEmpty then "default" else "case")
  if values.isEmpty && table.default.isSome then
    fail span .duplicateDefault
  let default := if values.isEmpty then some block else table.default
  let values ← addValues block values table.values
  return ⟨table.blocks ++ [block], values, default⟩

/-- The table of a switch whose cases list the given values. -/
def caseTable (span : Span) (cases : List (List Expr)) : EmitM CaseTable :=
  cases.foldlM (addCase span) {}

end FlowIR.Emit

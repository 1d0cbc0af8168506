import FlowIR.Syntax.Stmt

/-!
Programs with error nodes in place of some of their parts.

`Expr.Marks e e'` says that `e'` is `e` with some of its parts, or the whole, replaced by error nodes of the
same types, and `Stmt.Marks` says the same of statements.
-/

namespace FlowIR

mutual

/-- The second expression is the first with error nodes in place of some of its parts. -/
inductive Expr.Marks : Expr → Expr → Prop
  | error (e : Expr) (n : Node) (ty : n.ty = e.ty) : Marks e (.error n)
  | int (n : Node) (value : Int) : Marks (.int n value) (.int n value)
  | float (n : Node) (bits : UInt64) : Marks (.float n bits) (.float n bits)
  | bool (n : Node) (value : Bool) : Marks (.bool n value) (.bool n value)
  | nil (n : Node) : Marks (.nil n) (.nil n)
  | zero (n : Node) : Marks (.zero n) (.zero n)
  | var (n : Node) (v : VarId) : Marks (.var n v) (.var n v)
  | addressOf (n : Node) (v : VarId) : Marks (.addressOf n v) (.addressOf n v)
  | deref (n : Node) {ptr ptr' : Expr} : Marks ptr ptr' → Marks (.deref n ptr) (.deref n ptr')
  | field (n : Node) {base base' : Expr} (index : Nat) :
      Marks base base' → Marks (.field n base index) (.field n base' index)
  | binary (n : Node) (op : BinaryOp) {lhs lhs' rhs rhs' : Expr} :
      Marks lhs lhs' → Marks rhs rhs' → Marks (.binary n op lhs rhs) (.binary n op lhs' rhs')
  | call (n : Node) (callee : String) {args args' : List Expr} :
      MarksAll args args' → Marks (.call n callee args) (.call n callee args')
  | conditional (n : Node) {cond cond' yes yes' no no' : Expr} :
      Marks cond cond' → Marks yes yes' → Marks no no' →
        Marks (.conditional n cond yes no) (.conditional n cond' yes' no')
  | composite (n : Node) {fields fields' : List Expr} :
      MarksAll fields fields' → Marks (.composite n fields) (.composite n fields')
  | labelAddress (n : Node) (l : LabelId) : Marks (.labelAddress n l) (.labelAddress n l)

inductive Expr.MarksAll : List Expr → List Expr → Prop
  | nil : MarksAll [] []
  | cons {e e' : Expr} {es es' : List Expr} : Marks e e' → MarksAll es es' → MarksAll (e :: es) (e' :: es')

end

inductive Expr.MarksOption : Option Expr → Option Expr → Prop
  | none : MarksOption none none
  | some {e e' : Expr} : e.Marks e' → MarksOption (some e) (some e')

mutual

/-- The second statement is the first with error nodes in place of some of its parts. -/
inductive Stmt.Marks : Stmt → Stmt → Prop
  | error (s : Stmt) : Marks s .error
  | eval {value value' : Expr} : value.Marks value' → Marks (.eval value) (.eval value')
  | init (span : Span) (v : VarId) {value value' : Option Expr} :
      Expr.MarksOption value value' → Marks (.init span v value) (.init span v value')
  | assign {target target' value value' : Expr} :
      target.Marks target' → value.Marks value' → Marks (.assign target value) (.assign target' value')
  | ret (span : Span) {values values' : List Expr} :
      Expr.MarksAll values values' → Marks (.ret span values) (.ret span values')
  | block {body body' : List Stmt} : MarksAll body body' → Marks (.block body) (.block body')
  | ite {cond cond' : Expr} {yes yes' no no' : Stmt} :
      cond.Marks cond' → Marks yes yes' → Marks no no' → Marks (.ite cond yes no) (.ite cond' yes' no')
  | switch (span : Span) {value value' : Expr} {cases cases' : List (List Expr × Stmt)} :
      value.Marks value' → MarksCases cases cases' → Marks (.switch span value cases) (.switch span value' cases')
  | leave (span : Span) : Marks (.leave span) (.leave span)
  | goto (span : Span) (l : LabelId) : Marks (.goto span l) (.goto span l)
  | label (span : Span) (l : LabelId) : Marks (.label span l) (.label span l)
  | gotoAddress {addr addr' : Expr} : addr.Marks addr' → Marks (.gotoAddress addr) (.gotoAddress addr')
  | attempt {body body' : Stmt} {handler handler' cleanup cleanup' : Option Stmt} :
      Marks body body' → MarksOption handler handler' → MarksOption cleanup cleanup' →
        Marks (.attempt body handler cleanup) (.attempt body' handler' cleanup')
  | defer (span : Span) {epilogue epilogue' : Expr} {check check' : Stmt} :
      epilogue.Marks epilogue' → Marks check check' →
        Marks (.defer span epilogue check) (.defer span epilogue' check')

inductive Stmt.MarksOption : Option Stmt → Option Stmt → Prop
  | none : MarksOption none none
  | some {s s' : Stmt} : Marks s s' → MarksOption (some s) (some s')

inductive Stmt.MarksAll : List Stmt → List Stmt → Prop
  | nil : MarksAll [] []
  | cons {s s' : Stmt} {ss ss' : List Stmt} : Marks s s' → MarksAll ss ss' → MarksAll (s :: ss) (s' :: ss')

inductive Stmt.MarksCases : List (List Expr × Stmt) → List (List Expr × Stmt) → Prop
  | nil : MarksCases [] []
  | cons {values values' : List Expr} {body body' : Stmt} {cases cases' : List (List Expr × Stmt)} :
      Expr.MarksAll values values' → Marks body body' → MarksCases cases cases' →
        MarksCases ((values, body) :: cases) ((values', body') :: cases')

end

namespace Expr

/-- An error node has the type of what it stands for. -/
theorem Marks.ty_eq {e e' : Expr} (h : e.Marks e') : e'.ty = e.ty := by
  cases h <;> first | rfl | assumption

theorem MarksAll.length_eq : ∀ {es es' : List Expr}, MarksAll es es' → es'.length = es.length
  | [], _, h => by cases h; rfl
  | _ :: _, _, h => by
    cases h with
    | cons _ rest => rw [List.length_cons, List.length_cons, rest.length_eq]

end Expr

end FlowIR

import FlowIR.Emit.Operator
import FlowIR.Syntax.Stmt

/-!
The calls of a program, and those of them that its code makes.

A part of an expression may give no value: a call whose result has no bytes, or an error node. An expression
that needs the value of such a part is left there, and so is a statement; what would have come next is not
looked at. `Expr.calls` and `Stmt.calls` count the calls of a function in a program, all of them or only those
in front of such places. A program in which every value that is needed is given is `solid`, and there the two
numbers are the same (`Stmt.calls_of_solid`).

`Expr.events` and `Stmt.events` list those calls in order, together with where the parts begin and end whose
exceptions are caught or go through a cleanup, and what decides whether there is code at all.
-/

namespace FlowIR

open FlowIR.Expr Stmt

/-! ### Values -/

mutual

def Expr.hasValue : Expr → Bool
  | .int _ _ | .float _ _ | .bool _ _ | .nil _ | .zero _ | .var _ _ | .addressOf _ _ | .composite _ _
  | .labelAddress _ _ => true
  | .deref _ ptr => ptr.hasValue
  | .field _ base _ => base.hasValue
  | .binary _ _ lhs rhs => lhs.hasValue && rhs.hasValue
  | .call n _ args => haveValues args && n.ty.isZeroSized? == some false
  | .conditional _ cond _ _ => cond.hasValue
  | .error _ => false

def Expr.haveValues : List Expr → Bool
  | [] => true
  | e :: es => e.hasValue && haveValues es

end

/-! ### Calls -/

/-- What is counted behind a part: everything, or nothing if the part has no value. -/
def behind (all : Bool) (valued : Bool) (count : Nat) : Nat := if all || valued then count else 0

@[simp] theorem behind_true (valued : Bool) (count : Nat) : behind true valued count = count := rfl

@[simp] theorem behind_valued (all : Bool) (count : Nat) : behind all true count = count := by
  simp [behind]

@[simp] theorem behind_missing (count : Nat) : behind false false count = 0 := rfl

@[simp] theorem behind_zero (all valued : Bool) : behind all valued 0 = 0 := by
  simp [behind]

mutual

/-- The number of calls of `f` in an expression: all of them, or those that are not behind a missing value. -/
def Expr.calls (all : Bool) (f : String) : Expr → Nat
  | .int _ _ | .float _ _ | .bool _ _ | .nil _ | .zero _ | .var _ _ | .addressOf _ _ | .labelAddress _ _
  | .error _ => 0
  | .deref _ ptr => ptr.calls all f
  | .field _ base _ => base.calls all f
  | .binary _ _ lhs rhs => lhs.calls all f + behind all lhs.hasValue (rhs.calls all f)
  | .call _ callee args =>
    argCalls all f args + behind all (haveValues args) (if callee = f then 1 else 0)
  | .conditional _ cond yes no => cond.calls all f + behind all cond.hasValue (yes.calls all f + no.calls all f)
  | .composite _ fields => fieldCalls all f fields

/-- The same of arguments: each is behind the one before it. -/
def Expr.argCalls (all : Bool) (f : String) : List Expr → Nat
  | [] => 0
  | e :: es => e.calls all f + behind all e.hasValue (argCalls all f es)

/-- The same of fields: one without a value does not stop the others. -/
def Expr.fieldCalls (all : Bool) (f : String) : List Expr → Nat
  | [] => 0
  | e :: es => e.calls all f + fieldCalls all f es

end

mutual

/-- The number of calls of `f` in a statement: all of them, or those that are not behind a missing value. -/
def Stmt.calls (all : Bool) (f : String) : Stmt → Nat
  | .eval value => value.calls all f
  | .init _ _ value => (value.map (Expr.calls all f)).getD 0
  | .assign target value => target.calls all f + behind all target.hasValue (value.calls all f)
  | .ret _ values => Expr.fieldCalls all f values
  | .block body => callsIn all f body
  | .ite cond yes no => cond.calls all f + behind all cond.hasValue (yes.calls all f + no.calls all f)
  | .switch _ value cases => value.calls all f + behind all value.hasValue (caseCalls all f cases)
  | .gotoAddress addr => addr.calls all f
  | .attempt body none none => body.calls all f
  | .attempt body (some handler) none => body.calls all f + handler.calls all f
  | .attempt body none (some cleanup) => body.calls all f + cleanup.calls all f
  | .attempt body (some handler) (some cleanup) =>
    body.calls all f + handler.calls all f + cleanup.calls all f
  | .defer _ epilogue check => behind all (!epilogue.isError) (check.calls all f + epilogue.calls all f)
  | .leave _ | .goto _ _ | .label _ _ | .error => 0

def Stmt.callsIn (all : Bool) (f : String) : List Stmt → Nat
  | [] => 0
  | s :: ss => s.calls all f + callsIn all f ss

def Stmt.caseCalls (all : Bool) (f : String) : List (List Expr × Stmt) → Nat
  | [] => 0
  | (values, body) :: cases => fieldCalls all f values + body.calls all f + caseCalls all f cases

end

/-! ### Programs without missing values -/

mutual

/-- Whether every value that the expression needs on the way is given. -/
def Expr.solid : Expr → Bool
  | .int _ _ | .float _ _ | .bool _ _ | .nil _ | .zero _ | .var _ _ | .addressOf _ _ | .labelAddress _ _
  | .error _ => true
  | .deref _ ptr => ptr.solid
  | .field _ base _ => base.solid
  | .binary _ _ lhs rhs => lhs.solid && lhs.hasValue && rhs.solid
  | .call _ _ args => allSolid args && haveValues args
  | .conditional _ cond yes no => cond.solid && cond.hasValue && yes.solid && no.solid
  | .composite _ fields => allSolid fields

def Expr.allSolid : List Expr → Bool
  | [] => true
  | e :: es => e.solid && allSolid es

end

mutual

/-- Whether every value that the statement needs on the way is given. -/
def Stmt.solid : Stmt → Bool
  | .eval value => value.solid
  | .init _ _ value => value.all Expr.solid
  | .assign target value => target.solid && target.hasValue && value.solid
  | .ret _ values => Expr.allSolid values
  | .block body => allSolid body
  | .ite cond yes no => cond.solid && cond.hasValue && yes.solid && no.solid
  | .switch _ value cases => value.solid && value.hasValue && casesSolid cases
  | .gotoAddress addr => addr.solid
  | .attempt body none none => body.solid
  | .attempt body (some handler) none => body.solid && handler.solid
  | .attempt body none (some cleanup) => body.solid && cleanup.solid
  | .attempt body (some handler) (some cleanup) => body.solid && handler.solid && cleanup.solid
  | .defer _ epilogue check => !epilogue.isError && epilogue.solid && check.solid
  | .leave _ | .goto _ _ | .label _ _ | .error => true

def Stmt.allSolid : List Stmt → Bool
  | [] => true
  | s :: ss => s.solid && allSolid ss

def Stmt.casesSolid : List (List Expr × Stmt) → Bool
  | [] => true
  | (values, body) :: cases => Expr.allSolid values && body.solid && casesSolid cases

end

variable {f : String}

/-- In a row of which each one is behind the one before, nothing is left out if all have values. -/
theorem Expr.argCalls_eq_fieldCalls (all : Bool) : ∀ {es : List Expr}, haveValues es = true →
    argCalls all f es = fieldCalls all f es
  | [], _ => rfl
  | e :: es, valued => by
    rw [haveValues, Bool.and_eq_true] at valued
    rw [argCalls, fieldCalls, valued.1, behind_valued, argCalls_eq_fieldCalls all valued.2]

mutual

/-- The code of a solid expression makes all of its calls. -/
theorem Expr.calls_of_solid : ∀ {e : Expr}, e.solid = true → e.calls false f = e.calls true f
  | .int _ _, _ | .float _ _, _ | .bool _ _, _ | .nil _, _ | .zero _, _ | .var _ _, _ | .addressOf _ _, _
  | .labelAddress _ _, _ | .error _, _ => by
    unfold calls
    rfl
  | .deref _ ptr, h => by
    unfold calls
    exact calls_of_solid (e := ptr) h
  | .field _ base _, h => by
    unfold calls
    exact calls_of_solid (e := base) h
  | .binary _ _ lhs rhs, h => by
    simp only [solid, Bool.and_eq_true] at h
    unfold calls
    rw [calls_of_solid h.1.1, calls_of_solid h.2, h.1.2, behind_valued, behind_valued]
  | .call _ callee args, h => by
    simp only [solid, Bool.and_eq_true] at h
    unfold calls
    rw [argCalls_eq_fieldCalls _ h.2, argCalls_eq_fieldCalls _ h.2, fieldCalls_of_solid h.1, h.2,
      behind_valued, behind_valued]
  | .conditional _ cond yes no, h => by
    simp only [solid, Bool.and_eq_true] at h
    unfold calls
    rw [calls_of_solid h.1.1.1, calls_of_solid h.1.2, calls_of_solid h.2, h.1.1.2, behind_valued,
      behind_valued]
  | .composite _ fields, h => by
    unfold calls
    exact fieldCalls_of_solid h

theorem Expr.fieldCalls_of_solid : ∀ {es : List Expr}, allSolid es = true →
    fieldCalls false f es = fieldCalls true f es
  | [], _ => rfl
  | e :: es, h => by
    rw [allSolid, Bool.and_eq_true] at h
    rw [fieldCalls, fieldCalls, calls_of_solid h.1, fieldCalls_of_solid h.2]

end

mutual

/-- The code of a solid statement makes all of its calls. -/
theorem Stmt.calls_of_solid : ∀ {s : Stmt}, s.solid = true → s.calls false f = s.calls true f
  | .eval value, h => by
    unfold calls
    exact Expr.calls_of_solid h
  | .init _ _ none, _ => rfl
  | .init _ _ (some value), h => by
    unfold calls
    exact Expr.calls_of_solid (e := value) h
  | .assign target value, h => by
    simp only [solid, Bool.and_eq_true] at h
    unfold calls
    rw [Expr.calls_of_solid h.1.1, Expr.calls_of_solid h.2, h.1.2, behind_valued, behind_valued]
  | .ret _ values, h => by
    unfold calls
    exact Expr.fieldCalls_of_solid h
  | .block body, h => by
    unfold calls
    exact callsIn_of_solid h
  | .ite cond yes no, h => by
    simp only [solid, Bool.and_eq_true] at h
    unfold calls
    rw [Expr.calls_of_solid h.1.1.1, calls_of_solid h.1.2, calls_of_solid h.2, h.1.1.2, behind_valued,
      behind_valued]
  | .switch _ value cases, h => by
    simp only [solid, Bool.and_eq_true] at h
    unfold calls
    rw [Expr.calls_of_solid h.1.1, caseCalls_of_solid h.2, h.1.2, behind_valued, behind_valued]
  | .gotoAddress addr, h => by
    unfold calls
    exact Expr.calls_of_solid h
  | .attempt body none none, h => by
    unfold calls
    exact calls_of_solid (s := body) h
  | .attempt body (some handler) none, h => by
    simp only [solid, Bool.and_eq_true] at h
    unfold calls
    rw [calls_of_solid h.1, calls_of_solid h.2]
  | .attempt body none (some cleanup), h => by
    simp only [solid, Bool.and_eq_true] at h
    unfold calls
    rw [calls_of_solid h.1, calls_of_solid h.2]
  | .attempt body (some handler) (some cleanup), h => by
    simp only [solid, Bool.and_eq_true] at h
    unfold calls
    rw [calls_of_solid h.1.1, calls_of_solid h.1.2, calls_of_solid h.2]
  | .defer _ epilogue check, h => by
    simp only [solid, Bool.and_eq_true] at h
    unfold calls
    rw [Expr.calls_of_solid h.1.2, calls_of_solid h.2, h.1.1, behind_valued, behind_valued]
  | .leave _, _ | .goto _ _, _ | .label _ _, _ | .error, _ => by
    unfold calls
    rfl

theorem Stmt.callsIn_of_solid : ∀ {ss : List Stmt}, allSolid ss = true → callsIn false f ss = callsIn true f ss
  | [], _ => rfl
  | s :: ss, h => by
    rw [allSolid, Bool.and_eq_true] at h
    rw [callsIn, callsIn, calls_of_solid h.1, callsIn_of_solid h.2]

theorem Stmt.caseCalls_of_solid : ∀ {cases : List (List Expr × Stmt)}, casesSolid cases = true →
    caseCalls false f cases = caseCalls true f cases
  | [], _ => rfl
  | (values, body) :: cases, h => by
    simp only [casesSolid, Bool.and_eq_true] at h
    rw [caseCalls, caseCalls, fieldCalls_of_solid h.1.1, calls_of_solid h.1.2,
      caseCalls_of_solid h.2]

end

/-! ### Steps in order -/

def Ty.isStorable (ty : Ty) : Bool := !ty.isAggregate || ty.size?.isSome

/-- A step of a program that its code depends on. -/
inductive Event where
  | call (callee : String)
  /-- A part begins whose exceptions go to a landing pad of its own. -/
  | enter
  /-- Exceptions go where they went before the last part was entered. -/
  | leave
  /-- The exceptions of a part arrive here: of the one that has just ended, or else of one that begins later. -/
  | land (kind : PadKind)
  /-- There is code only if this holds. -/
  | check (ok : Bool)
  /-- There is an error node. -/
  | mark
  /-- The variable has to be there. -/
  | find (v : VarId)
  /-- A value is put into the variable, whose type has to allow it. -/
  | fill (v : VarId)
  /-- The label has to be there. -/
  | mention (l : LabelId)
  /-- The label gets its place, and has to have none yet. -/
  | place (l : LabelId)
  /-- So many values are returned. -/
  | answer (count : Nat)

def Event.isCall (f : String) : Event → Bool
  | .call callee => callee == f
  | _ => false

attribute [simp] Event.isCall

/-- What comes behind a part: nothing if the part has no value. -/
def reached {α : Type} (valued : Bool) (l : List α) : List α := if valued then l else []

@[simp] theorem reached_true {α : Type} (l : List α) : reached true l = l := rfl

@[simp] theorem reached_false {α : Type} (l : List α) : reached false l = [] := rfl

@[simp] theorem countP_reached {α : Type} (p : α → Bool) (valued : Bool) (l : List α) :
    (reached valued l).countP p = behind false valued (l.countP p) := by
  cases valued <;> simp

/-- The steps of a part whose exceptions go to a landing pad of its own. -/
def enclosed (events : List Event) : List Event := .enter :: events ++ [.leave]

/-- The same with the landing pad behind the part. -/
def padded (kind : PadKind) (events : List Event) : List Event := enclosed events ++ [.land kind]

@[simp] theorem countP_enclosed (events : List Event) :
    (enclosed events).countP (Event.isCall f) = events.countP (Event.isCall f) := by
  simp [enclosed]

@[simp] theorem countP_padded (kind : PadKind) (events : List Event) :
    (padded kind events).countP (Event.isCall f) = events.countP (Event.isCall f) := by
  simp [padded]

mutual

def Expr.events : Expr → List Event
  | .int _ _ | .float _ _ | .bool _ _ | .nil _ | .zero _ => []
  | .var _ v | .addressOf _ v => [.find v]
  | .deref _ ptr => ptr.events
  | .field _ base _ => base.events ++ reached base.hasValue [.check base.ty.isAggregate]
  | .binary _ op lhs rhs =>
    lhs.events ++ reached lhs.hasValue
      (rhs.events ++ reached rhs.hasValue [.check (op.isComparison || (op.arith? lhs.ty).isSome)])
  | .call n callee args =>
    argEvents args ++ reached (haveValues args) [.check n.ty.isZeroSized?.isSome, .call callee]
  | .conditional n cond yes no =>
    cond.events ++ reached cond.hasValue (yes.events ++ reached yes.hasValue [.check n.ty.isStorable] ++
      (no.events ++ reached no.hasValue [.check n.ty.isStorable]))
  | .composite n fields => .check n.ty.isAggregate :: fieldEvents fields
  | .labelAddress _ l => [.mention l]
  | .error _ => [.mark]

/-- The same of arguments: each is behind the one before it. -/
def Expr.argEvents : List Expr → List Event
  | [] => []
  | e :: es => e.events ++ reached e.hasValue (argEvents es)

/-- The same of fields: one without a value does not stop the others. -/
def Expr.fieldEvents : List Expr → List Event
  | [] => []
  | e :: es => e.events ++ reached e.hasValue [.check e.ty.isStorable] ++ fieldEvents es

end

/-- The same of an expression that has to name storage. -/
def Expr.placeEvents (e : Expr) : List Event := if e.isPlace || e.isError then e.events else .check false :: e.events

/-- The same of the values of a case, which must not be among those before. -/
def Expr.valueEvents : List Int → List Expr → List Event
  | _, [] => []
  | vs, e :: es =>
    if e.isError then .mark :: valueEvents vs es
    else match e.literal? with
      | none => .check false :: (e.events ++ valueEvents vs es)
      | some v => .check (!vs.contains v) :: valueEvents (vs ++ [v]) es

/-- The same of the values of a switch, of which one case may be the default. -/
def Expr.tableEvents : List Int → Bool → List (List Expr) → List Event
  | _, _, [] => []
  | vs, default, es :: cases =>
    .check (!(es.isEmpty && default)) :: (valueEvents vs es ++
      tableEvents (vs ++ es.filterMap literal?) (es.isEmpty || default) cases)

def Expr.returnEvents (values : List Expr) : List Event :=
  .answer values.length :: match values with
    | [value] => value.events
    | values => fieldEvents values

mutual

/-- The steps of a statement, inside a switch or not. -/
def Stmt.events (inside : Bool) : Stmt → List Event
  | .eval value | .gotoAddress value => value.events
  | .init _ v none => [.find v]
  | .init _ v (some value) => .find v :: (value.events ++ reached value.hasValue [.fill v])
  | .assign target value =>
    target.placeEvents ++ reached target.hasValue (value.events ++ reached value.hasValue [.check target.ty.isStorable])
  | .ret _ values => returnEvents values
  | .block body => eventsIn inside body
  | .ite cond yes no => cond.events ++ reached cond.hasValue (yes.events inside ++ no.events inside)
  | .switch _ value cases =>
    value.events ++ reached value.hasValue (tableEvents [] false (cases.map Prod.fst) ++ caseEvents cases)
  | .leave _ => [.check inside]
  | .goto _ l => [.mention l]
  | .label _ l => [.place l]
  | .attempt body none none => body.events inside
  | .attempt body (some handler) none => padded .catchAll (body.events inside) ++ handler.events inside
  | .attempt body none (some cleanup) => padded .cleanup (body.events inside) ++ cleanup.events inside
  | .attempt body (some handler) (some cleanup) =>
    padded .catchAll (body.events inside) ++ padded .cleanup (handler.events inside) ++ cleanup.events inside
  | .defer _ epilogue check =>
    if epilogue.isError then [.mark]
    else .check epilogue.isCall :: .land .catchAll :: (check.events inside ++ enclosed epilogue.events)
  | .error => [.mark]

def Stmt.eventsIn (inside : Bool) : List Stmt → List Event
  | [] => []
  | s :: ss => s.events inside ++ eventsIn inside ss

def Stmt.caseEvents : List (List Expr × Stmt) → List Event
  | [] => []
  | (_, body) :: cases => body.events true ++ caseEvents cases

end

mutual

theorem Expr.countP_events : ∀ e : Expr, e.events.countP (Event.isCall f) = e.calls false f
  | .int _ _ | .float _ _ | .bool _ _ | .nil _ | .zero _ | .var _ _ | .addressOf _ _ | .labelAddress _ _
  | .error _ => by simp [events, calls]
  | .deref _ ptr => by rw [events, calls, ptr.countP_events]
  | .field _ base _ => by simp [events, calls, base.countP_events]
  | .binary _ _ lhs rhs => by simp [events, calls, lhs.countP_events, rhs.countP_events]
  | .call _ callee args => by simp [events, calls, countP_argEvents args, List.countP_singleton]
  | .conditional _ cond yes no => by
    simp [events, calls, cond.countP_events, yes.countP_events, no.countP_events]
  | .composite _ fields => by simp [events, calls, countP_fieldEvents fields]

theorem Expr.countP_argEvents : ∀ es : List Expr, (argEvents es).countP (Event.isCall f) = argCalls false f es
  | [] => rfl
  | e :: es => by simp [argEvents, argCalls, e.countP_events, countP_argEvents es]

theorem Expr.countP_fieldEvents : ∀ es : List Expr, (fieldEvents es).countP (Event.isCall f) = fieldCalls false f es
  | [] => rfl
  | e :: es => by simp [fieldEvents, fieldCalls, e.countP_events, countP_fieldEvents es]

end

theorem Expr.countP_placeEvents (e : Expr) : e.placeEvents.countP (Event.isCall f) = e.calls false f := by
  unfold placeEvents
  split <;> simp [e.countP_events]

theorem Expr.countP_valueEvents : ∀ (vs : List Int) (es : List Expr),
    (valueEvents vs es).countP (Event.isCall f) = fieldCalls false f es
  | _, [] => rfl
  | vs, e :: es => by
    rw [fieldCalls, ← e.countP_events]
    cases e with
    | error n => simp [valueEvents, isError, events, countP_valueEvents vs es]
    | int n v | bool n v => simp [valueEvents, isError, literal?, events,
        countP_valueEvents _ es]
    | _ => simp [valueEvents, isError, literal?, countP_valueEvents vs es]

theorem Expr.countP_returnEvents (values : List Expr) :
    (returnEvents values).countP (Event.isCall f) = fieldCalls false f values := by
  unfold returnEvents
  split
  · next value => simp [fieldCalls, value.countP_events]
  · simp [countP_fieldEvents]

mutual

/-- The calls in the list of steps are those that are counted. -/
theorem Stmt.countP_events : ∀ (inside : Bool) (s : Stmt), (s.events inside).countP (Event.isCall f) = s.calls false f
  | _, .eval value | _, .gotoAddress value => by rw [events, calls, value.countP_events]
  | _, .init _ _ none | _, .leave _ | _, .goto _ _ | _, .label _ _ | _, .error => by simp [events, calls]
  | _, .init _ _ (some value) => by simp [events, calls, value.countP_events]
  | _, .assign target value => by simp [events, calls, target.countP_placeEvents, value.countP_events]
  | _, .ret _ values => by rw [events, calls, Expr.countP_returnEvents]
  | i, .block body => by rw [events, calls, countP_eventsIn i body]
  | i, .ite cond yes no => by
    simp [events, calls, cond.countP_events, yes.countP_events i, no.countP_events i]
  | _, .switch _ value cases => by
    simp [events, calls, value.countP_events, countP_caseEvents [] false cases]
  | i, .attempt body none none => by rw [events, calls, body.countP_events i]
  | i, .attempt body (some handler) none => by
    simp [events, calls, body.countP_events i, handler.countP_events i]
  | i, .attempt body none (some cleanup) => by
    simp [events, calls, body.countP_events i, cleanup.countP_events i]
  | i, .attempt body (some handler) (some cleanup) => by
    simp [events, calls, body.countP_events i, handler.countP_events i, cleanup.countP_events i,
      Nat.add_assoc]
  | i, .defer _ epilogue check => by
    unfold events calls
    split <;> simp [*, check.countP_events i, epilogue.countP_events]

theorem Stmt.countP_eventsIn : ∀ (inside : Bool) (ss : List Stmt),
    (eventsIn inside ss).countP (Event.isCall f) = callsIn false f ss
  | _, [] => rfl
  | i, s :: ss => by rw [eventsIn, callsIn, List.countP_append, s.countP_events i, countP_eventsIn i ss]

theorem Stmt.countP_caseEvents : ∀ (vs : List Int) (default : Bool) (cases : List (List Expr × Stmt)),
    (tableEvents vs default (cases.map Prod.fst)).countP (Event.isCall f) +
      (caseEvents cases).countP (Event.isCall f) = caseCalls false f cases
  | _, _, [] => rfl
  | vs, default, (values, body) :: cases => by
    rw [caseCalls, caseEvents, List.map_cons, tableEvents,
      ← countP_caseEvents (vs ++ values.filterMap literal?) (values.isEmpty || default) cases]
    simp [countP_valueEvents, body.countP_events]
    omega

end

end FlowIR

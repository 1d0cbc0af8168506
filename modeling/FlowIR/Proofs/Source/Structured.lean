import FlowIR.Proofs.Source.Exec

/-!
Structured statements: those that use no labels, over integer variables.

The world notes every call, also those that raise a kept exception again. Such notes are not part of
what a statement means. A statement whose regions have cleanups is therefore compared with its code
by what can be seen of the world without them (`World.seen true`), and calls nothing that raises
again itself; any other statement is compared by all that happens.
-/

namespace FlowIR

open Stmt FlowIR.Expr

/-! ### What can be seen of a world -/

namespace World

/-- The world without the notes of exceptions that were raised again. -/
def visible (w : World) : World := { w with trace := w.trace.filter (·.callee ≠ rethrow) }

def seen (hides : Bool) (w : World) : World := if hides then w.visible else w

/-- How the world answers a call that raises nothing again. -/
theorem ask_of_ne {callee : String} (other : callee ≠ rethrow) (args : List Bytes) (size : Nat) (w : World) :
    World.ask callee args size w =
      match w.raises.get? callee with
      | some (left + 1) => .error (.raised (w.lastException + 1))
          { w with trace := w.trace.push ⟨callee, args.map Bytes.int⟩
                   raises := w.raises.set callee left
                   lastException := w.lastException + 1 }
      | _ => .ok (Bytes.ofInt size ((w.returns.get? callee).getD 0))
          { w with trace := w.trace.push ⟨callee, args.map Bytes.int⟩ } := by
  unfold ask call
  dsimp only
  rw [if_neg other]
  cases w.raises.get? callee with
  | none => rfl
  | some left => cases left <;> rfl

end World

/-- What is looked at of the result of an evaluation. -/
def Evaluated.seen {α : Type} (hides : Bool) : Evaluated α → Evaluated α
  | .ok a w => .ok a (w.seen hides)
  | .error stop w => .error stop (w.seen hides)

/-- The evaluation depends on nothing but what is looked at, and where something is hidden, what it raises is
an exception of the world. -/
structure EvalM.Honest {α : Type} (hides : Bool) (x : EvalM α) : Prop where
  seen : ∀ w, x (w.seen hides) = Evaluated.seen hides (x w)
  raised : hides = true → ∀ w exception w₁, x w = .error (.raised exception) w₁ → exception ≤ w₁.lastException

namespace EvalM.Honest

variable {α β : Type} {hides : Bool} {x : EvalM α} {f : α → EvalM β}

/-- Where nothing is hidden there is nothing to show. -/
theorem of_exact (x : EvalM α) : Honest false x where
  seen := fun w => by
    show x w = Evaluated.seen false (x w)
    cases x w <;> rfl
  raised := by
    rintro ⟨⟩

theorem pure (a : α) : Honest hides (pure a : EvalM α) := ⟨fun _ => rfl, by rintro - _ _ _ ⟨⟩⟩

theorem bind (first : x.Honest hides) (second : ∀ a, (f a).Honest hides) : (x >>= f).Honest hides := by
  have unfolded : ∀ w, (x >>= f) w = EStateM.bind x f w := fun _ => rfl
  constructor
  · intro w
    rw [unfolded, unfolded, EStateM.bind, EStateM.bind, first.seen w]
    cases x w with
    | ok a w₁ => exact (second a).seen w₁
    | error stop w₁ => rfl
  · intro hidden w exception w₁ run
    rw [unfolded, EStateM.bind] at run
    split at run
    · next a w₂ _ => exact (second a).raised hidden w₂ exception w₁ run
    · next stopped =>
      cases run
      exact first.raised hidden w exception w₁ stopped

theorem divided (v : Option Int) : (EvalM.divided v).Honest hides := by
  cases v with
  | some v => exact .pure v
  | none => exact ⟨fun _ => rfl, by rintro - _ _ _ ⟨⟩⟩

theorem ask {callee : String} (other : callee ≠ World.rethrow) (args : List Bytes) (size : Nat) :
    (World.ask callee args size).Honest true := by
  have pushed : ∀ w : World, (w.trace.push ⟨callee, args.map Bytes.int⟩).filter (·.callee ≠ World.rethrow) =
      (w.trace.filter (·.callee ≠ World.rethrow)).push ⟨callee, args.map Bytes.int⟩ := fun w =>
    Array.filter_push_of_pos (decide_eq_true other) (Array.size_push _)
  constructor
  · intro w
    rw [World.ask_of_ne other, World.ask_of_ne other]
    have raises : (w.seen true).raises = w.raises := rfl
    rw [raises]
    split <;> simp only [Evaluated.seen, World.seen, World.visible, pushed, if_true]
  · intro _ w exception w₁ run
    rw [World.ask_of_ne other] at run
    split at run
    · cases run
      exact Nat.le_refl _
    · cases run

/-- Where there is nothing to hide, nothing has to be hidden afterwards. -/
theorem fixed (h : x.Honest hides) {w w₁ : World} (before : w.seen hides = w) :
    (∀ a, x w = .ok a w₁ → w₁.seen hides = w₁) ∧ ∀ stop, x w = .error stop w₁ → w₁.seen hides = w₁ := by
  have same := h.seen w
  rw [before] at same
  constructor
  · intro a run
    rw [run] at same
    injection same with _ eq
    exact eq.symm
  · intro stop run
    rw [run] at same
    injection same with _ eq
    exact eq.symm

end EvalM.Honest

/-! ### Expressions that raise nothing again -/

namespace Expr

mutual
/-- Whether the expression calls no function of the given name. -/
def avoids (name : String) : Expr → Bool
  | .binary _ _ lhs rhs => avoids name lhs && avoids name rhs
  | .call _ callee args => callee ≠ name && allAvoid name args
  | .conditional _ cond yes no => avoids name cond && avoids name yes && avoids name no
  | _ => true

def allAvoid (name : String) : List Expr → Bool
  | [] => true
  | e :: es => avoids name e && allAvoid name es
end

/-- Whether the expression raises nothing again, where that would be hidden. -/
def isQuiet (hides : Bool) (e : Expr) : Bool := !hides || e.avoids World.rethrow

variable {vars : VarId → Int} {hides : Bool}

mutual
theorem honest_eval_of_avoids : ∀ {e : Expr}, e.avoids World.rethrow = true → (e.eval vars).Honest true
  | .binary _ op lhs rhs, h => by
    simp only [avoids, Bool.and_eq_true] at h
    rw [eval]
    exact (honest_eval_of_avoids h.1).bind fun a => (honest_eval_of_avoids h.2).bind fun b => .divided _
  | .call n callee args, h => by
    simp only [avoids, Bool.and_eq_true, decide_eq_true_eq] at h
    rw [eval]
    exact (honest_evalAll_of_allAvoid h.2).bind fun values => (EvalM.Honest.ask h.1 values _).bind fun b => .pure _
  | .conditional _ cond yes no, h => by
    simp only [avoids, Bool.and_eq_true] at h
    rw [eval]
    refine (honest_eval_of_avoids h.1.1).bind fun c => ?_
    split
    · exact honest_eval_of_avoids h.1.2
    · exact honest_eval_of_avoids h.2
  | .int _ _, _ | .float _ _, _ | .bool _ _, _ | .nil _, _ | .zero _, _ | .var _ _, _ | .addressOf _ _, _
  | .deref _ _, _ | .field _ _ _, _ | .composite _ _, _ | .labelAddress _ _, _ | .error _, _ => .pure _

theorem honest_evalAll_of_allAvoid : ∀ {es : List Expr}, allAvoid World.rethrow es = true →
    (evalAll vars es).Honest true
  | [], _ => .pure _
  | e :: es, h => by
    simp only [allAvoid, Bool.and_eq_true] at h
    rw [evalAll]
    exact (honest_eval_of_avoids h.1).bind fun v => (honest_evalAll_of_allAvoid h.2).bind fun vs => .pure _
end

theorem honest_eval {e : Expr} (quiet : e.isQuiet hides = true) : (e.eval vars).Honest hides := by
  cases hides with
  | false => exact .of_exact _
  | true => exact honest_eval_of_avoids quiet

theorem honest_perform {e : Expr} (quiet : e.isQuiet hides = true) : (e.perform vars).Honest hides := by
  cases hides with
  | false => exact .of_exact _
  | true =>
    have avoids : e.avoids World.rethrow = true := quiet
    unfold perform
    split
    · simp only [Expr.avoids, Bool.and_eq_true, decide_eq_true_eq] at avoids
      exact (honest_evalAll_of_allAvoid avoids.2).bind fun values =>
        (EvalM.Honest.ask avoids.1 values _).bind fun _ => .pure _
    · exact (honest_eval_of_avoids avoids).bind fun _ => .pure _

theorem honest_initial {value : Option Expr} (quiet : ∀ e ∈ value, e.isQuiet hides = true) :
    (initial vars value).Honest hides := by
  cases value with
  | none => exact .pure 0
  | some e => exact honest_eval (quiet e rfl)

theorem honest_evalReturn {values : List Expr} (quiet : values.all (·.isQuiet hides) = true) :
    (evalReturn vars values).Honest hides := by
  unfold evalReturn
  split
  · next e =>
    have mapped : some <$> e.eval vars = e.eval vars >>= fun a => Pure.pure (some a) := rfl
    rw [mapped]
    refine (honest_eval ?_).bind fun a => .pure _
    simpa using quiet
  · exact .pure _

end Expr

/-! ### Structured statements -/

/-- Whether the type is of values that the machine can handle. -/
def Ty.hasSize (t : Ty) : Bool := (Machine.sizeOf t.shape).toBool

namespace Expr

/-- Whether an expression is one over integers, or a call with such arguments and any result. -/
def isEffect (types : VarId → Option Ty) : Expr → Bool
  | .call n _ args => n.ty.hasSize && areScalars types args
  | e => e.isScalar types

/-- Whether an expression is a literal of the type. -/
def isLiteral (t : Ty) (e : Expr) : Bool := e.literal?.any fun v => t.wrap v = v

end Expr

namespace Stmt

section

variable (types : VarId → Option Ty) (result : Ty) (hides : Bool)

mutual
/-- Whether a statement is structured, for a function with the given result: it evaluates expressions for
their effects, gives values to variables and returns, in blocks, branches, switches over signed integers,
regions and deferred calls. A switch is left only from inside of it, and not through a cleanup. Where
nothing is hidden there are no cleanups. -/
def isStructured (inside : Bool) : Stmt → Bool
  | .eval e => e.isEffect types && e.isQuiet hides
  | .init _ v none => (types v).any (·.isInteger)
  | .init _ v (some e) => types v = some e.ty && e.isScalar types && e.isQuiet hides
  | .assign (.var n v) e =>
    types v = some n.ty && e.isScalar types && e.ty = n.ty && e.isQuiet hides
  | .ret _ values => areReturnable types result values && values.all (·.isQuiet hides)
  | .block body => areStructured inside body
  | .ite cond yes no => cond.isScalar types && cond.ty = .bool && cond.isQuiet hides &&
      isStructured inside yes && isStructured inside no
  | .switch _ value cases => value.isScalar types && value.ty.isSigned && value.isQuiet hides &&
      cases.all (fun c => c.1.all (·.isLiteral value.ty)) && cases.countP (fun c => c.1.isEmpty) ≤ 1 &&
      casesStructured cases
  | .leave _ => inside
  | .attempt body none none => isStructured inside body
  | .attempt body (some handler) none => isStructured inside body && isStructured inside handler
  | .attempt body none (some cleanup) => hides && isStructured false body && isStructured inside cleanup
  | .attempt body (some handler) (some cleanup) => hides && isStructured false body &&
      isStructured false handler && isStructured inside cleanup
  | .defer _ epilogue check => epilogue.isCall && epilogue.isEffect types && epilogue.isQuiet hides &&
      isStructured inside check
  | _ => false

def areStructured (inside : Bool) : List Stmt → Bool
  | [] => true
  | s :: ss => isStructured inside s && areStructured inside ss

def casesStructured : List (List Expr × Stmt) → Bool
  | [] => true
  | (_, body) :: cases => isStructured true body && casesStructured cases
end

end

def caseValues (cases : List (List Expr × Stmt)) : List Int := cases.flatMap fun c => c.1.filterMap (·.literal?)

mutual
/-- Whether the values of each switch in the statement differ from each other. -/
def isDistinct : Stmt → Bool
  | .block body => areDistinct body
  | .ite _ yes no => isDistinct yes && isDistinct no
  | .switch _ _ cases => (caseValues cases).Nodup && casesDistinct cases
  | .attempt body none none => isDistinct body
  | .attempt body (some handler) none => isDistinct body && isDistinct handler
  | .attempt body none (some cleanup) => isDistinct body && isDistinct cleanup
  | .attempt body (some handler) (some cleanup) => isDistinct body && isDistinct handler && isDistinct cleanup
  | .defer _ _ check => isDistinct check
  | _ => true

def areDistinct : List Stmt → Bool
  | [] => true
  | s :: ss => isDistinct s && areDistinct ss

/-- Whether this is so in the bodies of all cases. -/
def casesDistinct : List (List Expr × Stmt) → Bool
  | [] => true
  | (_, body) :: cases => isDistinct body && casesDistinct cases
end

end Stmt

/-! ### Switches are left from inside -/

variable {types : VarId → Option Ty} {result : Ty} {hides : Bool} {inside : Bool}

theorem Exit.ofCases_ne_left (exit : Exit) : exit.ofCases ≠ .left := by
  cases exit <;> rintro ⟨⟩

/-- A region without its cleanup. -/
theorem Stmt.isStructured_region {body cleanup : Stmt} {handler : Option Stmt}
    (h : (attempt body handler (some cleanup)).isStructured types result hides inside = true) :
    (attempt body handler none).isStructured types result hides false = true ∧
      cleanup.isStructured types result hides inside = true := by
  cases handler with
  | none =>
    simp only [isStructured, Bool.and_eq_true] at h ⊢
    exact ⟨h.1.2, h.2⟩
  | some handler =>
    simp only [isStructured, Bool.and_eq_true] at h ⊢
    exact ⟨⟨h.1.1.2, h.1.2⟩, h.2⟩

/-- A statement that stands outside a switch leaves none. -/
theorem Exec.ne_left {s : Stmt} {σ σ' : State} {exit : Exit} (h : Exec s σ exit σ')
    (structured : s.isStructured types result hides false = true) : exit ≠ .left := by
  induction h with
  | eval | evalStops | init | initStops | assign | assignStops | ret | retStops | empty | iteStops | switchStops
  | faulted | deferred | deferFaults => rintro ⟨⟩
  | switch => exact Exit.ofCases_ne_left _
  | leave => cases structured
  | sequence _ _ _ ih =>
    simp only [isStructured, areStructured, Bool.and_eq_true] at structured
    exact ih (by rw [isStructured]; exact structured.2)
  | cutShort _ _ ih =>
    simp only [isStructured, areStructured, Bool.and_eq_true] at structured
    exact ih structured.1
  | ite _ _ ih =>
    simp only [isStructured, Bool.and_eq_true] at structured
    refine ih ?_
    split
    · exact structured.1.2
    · exact structured.2
  | bare _ ih => exact ih (by rwa [isStructured] at structured)
  | uncaught _ _ ih =>
    simp only [isStructured, Bool.and_eq_true] at structured
    exact ih structured.1
  | caught _ _ _ ih =>
    simp only [isStructured, Bool.and_eq_true] at structured
    exact ih structured.2
  | @cleaned _ _ _ pending last _ _ _ _ _ _ ihRegion ihClean =>
    have parts := isStructured_region structured
    cases last with
    | normal => exact ihRegion parts.1
    | _ => exact ihClean parts.2
  | deferAgain _ _ _ _ ih => exact ih structured
  | deferLeaves _ _ _ ih =>
    simp only [isStructured, Bool.and_eq_true] at structured
    exact ih structured.2

/-! ### Nothing is raised again -/

theorem Stmt.areStructured_drop {types : VarId → Option Ty} {result : Ty} {hides : Bool} :
    ∀ {cases : List (List Expr × Stmt)}, casesStructured types result hides cases = true →
    ∀ i, areStructured types result hides true ((cases.drop i).map Prod.snd) = true
  | [], _, i => by simp [areStructured]
  | (_, body) :: cases, h, i => by
    simp only [casesStructured, Bool.and_eq_true] at h
    cases i with
    | zero =>
      have rest := areStructured_drop h.2 0
      simp only [List.drop_zero, List.map_cons, areStructured, Bool.and_eq_true] at rest ⊢
      exact ⟨h.1, rest⟩
    | succ i => exact areStructured_drop h.2 i

theorem Stmt.isQuiet_of_init {span : Span} {v : VarId} {value : Option Expr}
    (h : (init span v value).isStructured types result hides inside = true) :
    ∀ e ∈ value, e.isQuiet hides = true := by
  rintro e ⟨⟩
  simp only [isStructured, Bool.and_eq_true] at h
  exact h.2

/-- A structured statement notes nothing that has to be hidden. -/
theorem Exec.seen_eq {s : Stmt} {σ σ' : State} {exit : Exit} (h : Exec s σ exit σ')
    (structured : s.isStructured types result hides inside = true) (before : σ.world.seen hides = σ.world) :
    σ'.world.seen hides = σ'.world := by
  induction h generalizing inside with
  | empty | leave => exact before
  | eval run =>
    simp only [isStructured, Bool.and_eq_true] at structured
    exact ((honest_perform structured.2).fixed before).1 _ run
  | evalStops run =>
    simp only [isStructured, Bool.and_eq_true] at structured
    exact ((honest_perform structured.2).fixed before).2 _ run
  | init run => exact ((honest_initial (isQuiet_of_init structured)).fixed before).1 _ run
  | initStops run => exact ((honest_initial (isQuiet_of_init structured)).fixed before).2 _ run
  | assign run =>
    simp only [isStructured, Bool.and_eq_true] at structured
    exact ((honest_eval structured.2).fixed before).1 _ run
  | assignStops run =>
    simp only [isStructured, Bool.and_eq_true] at structured
    exact ((honest_eval structured.2).fixed before).2 _ run
  | ret run =>
    simp only [isStructured, Bool.and_eq_true] at structured
    exact ((honest_evalReturn structured.2).fixed before).1 _ run
  | retStops run =>
    simp only [isStructured, Bool.and_eq_true] at structured
    exact ((honest_evalReturn structured.2).fixed before).2 _ run
  | sequence _ _ ihFirst ihRest =>
    simp only [isStructured, areStructured, Bool.and_eq_true] at structured
    exact ihRest (by rw [isStructured]; exact structured.2) (ihFirst structured.1 before)
  | cutShort _ _ ih =>
    simp only [isStructured, areStructured, Bool.and_eq_true] at structured
    exact ih structured.1 before
  | ite run _ ih =>
    simp only [isStructured, Bool.and_eq_true] at structured
    obtain ⟨⟨⟨-, quiet⟩, yes⟩, no⟩ := structured
    have after := ((honest_eval quiet).fixed before).1 _ run
    split at ih
    · exact ih yes after
    · exact ih no after
  | iteStops run =>
    simp only [isStructured, Bool.and_eq_true] at structured
    exact ((honest_eval structured.1.1.2).fixed before).2 _ run
  | @switch _ _ cases a _ _ _ _ run _ ih =>
    simp only [isStructured, Bool.and_eq_true] at structured
    obtain ⟨⟨⟨⟨-, quiet⟩, -⟩, -⟩, bodies⟩ := structured
    obtain ⟨i, eq⟩ := exists_selected_eq_drop a cases
    have rest : (block ((selected a cases).map Prod.snd)).isStructured types result hides true = true := by
      rw [isStructured, eq]
      exact areStructured_drop bodies i
    exact ih rest (((honest_eval quiet).fixed before).1 _ run)
  | switchStops run =>
    simp only [isStructured, Bool.and_eq_true] at structured
    exact ((honest_eval structured.1.1.1.2).fixed before).2 _ run
  | bare _ ih => exact ih (by rwa [isStructured] at structured) before
  | uncaught _ _ ih =>
    simp only [isStructured, Bool.and_eq_true] at structured
    exact ih structured.1 before
  | caught _ _ ihBody ihHandler =>
    simp only [isStructured, Bool.and_eq_true] at structured
    exact ihHandler structured.2 (ihBody structured.1 before)
  | cleaned _ _ _ ihRegion ihClean =>
    have parts := isStructured_region structured
    exact ihClean parts.2 (ihRegion parts.1 before)
  | faulted _ ih => exact ih (isStructured_region structured).1 before
  | deferred run =>
    simp only [isStructured, Bool.and_eq_true] at structured
    exact ((honest_perform structured.1.2).fixed before).1 _ run
  | deferFaults run =>
    simp only [isStructured, Bool.and_eq_true] at structured
    exact ((honest_perform structured.1.2).fixed before).2 _ run
  | deferAgain run _ _ ihCheck ihAgain =>
    have parts := structured
    simp only [isStructured, Bool.and_eq_true] at parts
    exact ihAgain structured (ihCheck parts.2 (((honest_perform parts.1.2).fixed before).2 _ run))
  | deferLeaves run _ _ ih =>
    simp only [isStructured, Bool.and_eq_true] at structured
    exact ih structured.2 (((honest_perform structured.1.2).fixed before).2 _ run)

end FlowIR

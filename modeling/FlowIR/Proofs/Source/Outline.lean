import FlowIR.Emit.Return
import FlowIR.Proofs.Build.Fit
import FlowIR.Proofs.Source.Calls
import FlowIR.Proofs.Source.Marked

/-!
What of a program decides whether its code can be emitted.

The steps of a program are gone through in the order in which its code is emitted, and there is no way on where
emission fails (`Trail.along`). Nothing is kept of the code: only what has become of the labels and whether there was
an error node. An error node in place of a part never makes it fail, and as long as there was none the labels are
where they would be otherwise (`Stmt.events_cover`).
-/

namespace FlowIR

open FlowIR.Expr Trail

namespace Trail

variable {k : Scope} {t t' u : Trail} {n m : List Event}

def allows (k : Scope) (t : Trail) : Event → Bool
  | .check ok => ok
  | .find v => v.index < k.types.length
  | .fill v => k.types[v.index]?.all Ty.isStorable
  | .mention l => k.labels l
  | .place l => k.labels l && !t.placed l
  | .answer count => count = Emit.returnArity k.signature.result count
  | .call _ | .enter | .leave | .land _ | .mark => true

def after (t : Trail) : Event → Trail
  | .mark => { t with seen := true }
  | .mention l => t.use l
  | .place l => t.place l
  | _ => t

/-- What has become of the labels along steps in order, if there is code for them. -/
def along (k : Scope) (t : Trail) : List Event → Option Trail
  | [] => some t
  | e :: n => if t.allows k e then (t.after e).along k n else none

theorem along_append : ∀ {n : List Event} {t : Trail}, t.along k (n ++ m) = (t.along k n).bind (·.along k m)
  | [], _ => rfl
  | e :: n, t => by
    rw [List.cons_append, along, along]
    split
    · exact along_append
    · rfl

/-- Labels keep their places, and an error node is not forgotten. -/
theorem keeps_of_along : ∀ {n : List Event} {t : Trail}, t.along k n = some u →
    (∀ l, t.placed l = true → u.placed l = true) ∧ (t.seen = true ∨ .mark ∈ n → u.seen = true)
  | [], _, run => by
    cases run
    exact ⟨fun _ => id, fun seen => seen.elim id (by rintro ⟨⟩)⟩
  | e :: n, t, run => by
    obtain ⟨-, rest⟩ := Option.ite_none_right_eq_some.mp run
    obtain ⟨placed, seen⟩ := keeps_of_along rest
    have here : (∀ l, t.placed l = true → (t.after e).placed l = true) ∧
        (t.seen = true ∨ .mark = e → (t.after e).seen = true) := by
      cases e <;> simp +contextual [after, place, use]
    refine ⟨fun l there => placed l (here.1 l there), fun marked => seen ?_⟩
    rcases marked with before | mem
    · exact .inl (here.2 (.inl before))
    · exact (List.mem_cons.mp mem).imp (fun same => here.2 (.inr same)) id

/-- The second trail is the first, or there was an error node on it and labels may be missing. -/
structure Covers (t t' : Trail) : Prop where
  placed : ∀ l, t'.placed l = true → t.placed l = true
  exact : t'.seen = false → t' = t

end Trail

/-! ### Error nodes -/

/-- Where there is a way along the first steps there is one along the second. -/
def Covers (k : Scope) (n n' : List Event) : Prop :=
  ∀ t t' u : Trail, t.Covers t' → t.along k n = some u → ∃ u', t'.along k n' = some u' ∧ u.Covers u'

/-- The same of steps that come to a value: there is one for both, or none for the second, behind an error node. -/
structure CoversValue (k : Scope) (n n' : List Event) (valued valued' : Bool) : Prop where
  steps : Covers k n n'
  value : valued' = valued ∨ valued' = false ∧ .mark ∈ n'

namespace Covers

variable {k : Scope} {n n' m m' : List Event} {valued valued' : Bool}

/-- One after the other. -/
theorem append (first : Covers k n n') (second : Covers k m m') : Covers k (n ++ m) (n' ++ m') := by
  intro t t' u covers run
  rw [along_append] at run ⊢
  obtain ⟨s, run, rest⟩ := Option.bind_eq_some_iff.mp run
  obtain ⟨s', run', covers'⟩ := first t t' s covers run
  rw [run']
  exact second s s' u covers' rest

theorem step (e : Event) : Covers k [e] [e] := by
  intro t t' u covers run
  obtain ⟨allowed, same⟩ := Option.ite_none_right_eq_some.mp run
  cases same
  have allowed' : t'.allows k e = true := by
    cases e with
    | place l =>
      simp only [allows, Bool.and_eq_true, Bool.not_eq_true'] at allowed ⊢
      exact ⟨allowed.1, Bool.eq_false_iff.mpr fun placed => Bool.false_ne_true
        (allowed.2.symm.trans (covers.placed l placed))⟩
    | _ => exact allowed
  refine ⟨t'.after e, if_pos allowed', ?_⟩
  cases e with
  | mark => exact ⟨covers.placed, by rintro ⟨⟩⟩
  | mention l => exact ⟨covers.placed, fun calm => by rw [after, after, covers.exact calm]⟩
  | place l =>
    refine ⟨fun m placed => ?_, fun calm => by rw [after, after, covers.exact calm]⟩
    simp only [after, place, Bool.or_eq_true] at placed ⊢
    exact placed.imp id (covers.placed m)
  | _ => exact covers

theorem refl : ∀ n : List Event, Covers k n n
  | [] => fun t t' u covers run => by
    cases run
    exact ⟨t', rfl, covers⟩
  | e :: n => (step e).append (refl n)

theorem check {ok ok' : Bool} (h : ok = true → ok' = true) : Covers k [.check ok] [.check ok'] := by
  cases ok with
  | false => rintro t t' u - ⟨⟩
  | true =>
    rw [h rfl]
    exact step _

/-- An error node in place of anything. -/
theorem error (n : List Event) : Covers k n [.mark] := fun t t' u covers run =>
  ⟨_, rfl, fun l placed => (keeps_of_along run).1 l (covers.placed l placed), by rintro ⟨⟩⟩

theorem enclosed (h : Covers k n n') : Covers k (enclosed n) (enclosed n') :=
  ((step .enter).append h).append (step .leave)

theorem padded (kind : PadKind) (h : Covers k n n') : Covers k (padded kind n) (padded kind n') :=
  h.enclosed.append (step (.land kind))

/-- Where the first steps never come to an end. -/
theorem fail (n' : List Event) : Covers k (.check false :: n) n' := by
  rintro t t' u - ⟨⟩

end Covers

namespace CoversValue

variable {k : Scope} {n n' m m' : List Event} {v v' w w' : Bool}

section

variable (first : CoversValue k n n' v v')

include first

/-- What needs a value goes on in the second only if it goes on in the first. -/
theorem behind (second : Covers k m m') : Covers k (n ++ reached v m) (n' ++ reached v' m') := by
  rcases first.value with rfl | ⟨rfl, marked⟩
  · refine first.steps.append ?_
    cases v' with
    | false => exact .refl []
    | true => exact second
  · intro t t' u covers run
    rw [along_append] at run
    obtain ⟨s, run, rest⟩ := Option.bind_eq_some_iff.mp run
    obtain ⟨s', run', covers'⟩ := first.steps t t' s covers run
    rw [reached_false, List.append_nil]
    refine ⟨s', run', fun l placed => (keeps_of_along rest).1 l (covers'.placed l placed), fun calm => ?_⟩
    cases ((keeps_of_along run').2 (.inr marked)).symm.trans calm

theorem further (second : Covers k m m') : CoversValue k (n ++ reached v m) (n' ++ reached v' m') v v' :=
  ⟨first.behind second, first.value.imp id fun missing => ⟨missing.1, List.mem_append_left _ missing.2⟩⟩

theorem through (second : CoversValue k m m' w w') :
    CoversValue k (n ++ reached v m) (n' ++ reached v' m') (v && w) (v' && w') := by
  refine ⟨first.behind second.steps, ?_⟩
  rcases first.value with rfl | ⟨rfl, marked⟩
  · cases v' with
    | false => exact .inl rfl
    | true => exact second.value.imp id fun missing => ⟨missing.1, List.mem_append_right _ missing.2⟩
  · exact .inr ⟨rfl, List.mem_append_left _ marked⟩

end

theorem refl (n : List Event) (v : Bool) : CoversValue k n n v v := ⟨.refl n, .inl rfl⟩

end CoversValue

mutual

theorem Expr.events_cover (k : Scope) : ∀ {e e' : Expr}, e.Marks e' →
    CoversValue k e.events e'.events e.hasValue e'.hasValue
  | e, _, .error _ n _ => ⟨.error e.events, .inr ⟨rfl, List.mem_singleton.mpr rfl⟩⟩
  | _, _, .int _ _ | _, _, .float _ _ | _, _, .bool _ _ | _, _, .nil _ | _, _, .zero _ | _, _, .var _ _
  | _, _, .addressOf _ _ | _, _, .labelAddress _ _ => .refl _ _
  | _, _, .deref _ ptr => by
    simp only [events, hasValue]
    exact events_cover k ptr
  | _, _, .field _ _ base => by
    simp only [events, hasValue, base.ty_eq]
    exact (events_cover k base).further (.refl _)
  | _, _, .binary _ _ lhs rhs => by
    simp only [events, hasValue, lhs.ty_eq]
    exact (events_cover k lhs).through ((events_cover k rhs).further (.refl _))
  | _, _, .call _ _ args => by
    simp only [events, hasValue]
    exact (argEvents_cover k args).through (.refl _ _)
  | _, _, .conditional _ cond yes no => by
    simp only [events, hasValue]
    exact (events_cover k cond).further (((events_cover k yes).behind (.refl _)).append
      ((events_cover k no).behind (.refl _)))
  | _, _, .composite _ fields => by
    simp only [events, hasValue]
    exact ⟨(Covers.step _).append (fieldEvents_cover k fields), .inl rfl⟩

theorem Expr.argEvents_cover (k : Scope) : ∀ {es es' : List Expr}, Expr.MarksAll es es' →
    CoversValue k (argEvents es) (argEvents es') (haveValues es) (haveValues es')
  | _, _, .nil => .refl _ _
  | _, _, .cons head tail => (events_cover k head).through (argEvents_cover k tail)

theorem Expr.fieldEvents_cover (k : Scope) : ∀ {es es' : List Expr}, Expr.MarksAll es es' →
    Covers k (fieldEvents es) (fieldEvents es')
  | _, _, .nil => .refl _
  | _, _, .cons head tail => by
    simp only [fieldEvents, head.ty_eq]
    exact ((events_cover k head).behind (.refl _)).append (fieldEvents_cover k tail)

end

namespace Expr

variable {k : Scope}

theorem placeEvents_cover {e e' : Expr} (h : e.Marks e') :
    CoversValue k e.placeEvents e'.placeEvents e.hasValue e'.hasValue := by
  have whole := events_cover k h
  unfold placeEvents
  split
  · next named =>
    have named' : (e'.isPlace || e'.isError) = true := by
      cases h <;> first | rfl | exact named
    rw [if_pos named']
    exact whole
  · refine ⟨.fail _, whole.value.imp id fun missing => ⟨missing.1, ?_⟩⟩
    split
    · exact missing.2
    · exact List.mem_cons_of_mem _ missing.2

theorem Marks.literal?_eq {e e' : Expr} (h : e.Marks e') (whole : e'.isError = false) :
    e'.literal? = e.literal? ∧ e.isError = false := by
  cases h <;> first | exact ⟨rfl, rfl⟩ | cases whole

/-- A value that is left out is not there for later cases. -/
theorem MarksAll.literals_subset : ∀ {es es' : List Expr}, MarksAll es es' →
    es'.filterMap literal? ⊆ es.filterMap literal?
  | _, _, .nil => fun _ => id
  | e :: _, e' :: _, .cons head tail => by
    cases whole : e'.isError with
    | true =>
      have missing : e'.literal? = none := by cases e' <;> first | rfl | cases whole
      rw [List.filterMap_cons_none missing]
      exact fun v mem => List.mem_filterMap.mpr
        ((List.mem_filterMap.mp (tail.literals_subset mem)).imp fun _ found =>
          ⟨List.mem_cons_of_mem _ found.1, found.2⟩)
    | false =>
      simp only [List.filterMap_cons, (head.literal?_eq whole).1]
      split
      · exact tail.literals_subset
      · exact List.cons_subset_cons _ tail.literals_subset

theorem valueEvents_cover : ∀ {es es' : List Expr} {vs vs' : List Int}, MarksAll es es' → vs' ⊆ vs →
    Covers k (valueEvents vs es) (valueEvents vs' es')
  | _, _, _, _, .nil, _ => .refl []
  | e :: _, e' :: _, _, _, .cons head tail, sub => by
    unfold valueEvents
    cases whole : e'.isError with
    | true =>
      rw [if_pos rfl]
      split
      · exact (Covers.error [_]).append (valueEvents_cover tail sub)
      · split
        · exact .fail _
        · exact (Covers.error [_]).append (valueEvents_cover tail fun _ mem => List.mem_append_left _ (sub mem))
    | false =>
      obtain ⟨same, whole'⟩ := head.literal?_eq whole
      rw [same, whole', if_neg Bool.false_ne_true, if_neg Bool.false_ne_true]
      split
      · exact .fail _
      · next v _ =>
        refine (Covers.check fun new => ?_).append (valueEvents_cover tail ?_)
        · simp only [Bool.not_eq_true', List.contains_eq_mem, decide_eq_false_iff_not] at new ⊢
          exact fun mem => new (sub mem)
        · exact List.append_subset.mpr ⟨fun _ mem => List.mem_append_left _ (sub mem), List.subset_append_right _ _⟩

theorem returnEvents_cover {es es' : List Expr} (h : MarksAll es es') :
    Covers k (returnEvents es) (returnEvents es') := by
  unfold returnEvents
  rw [h.length_eq]
  refine (Covers.step _).append ?_
  cases h with
  | nil => exact .refl []
  | cons head tail =>
    cases tail with
    | nil => exact (events_cover k head).steps
    | cons next rest => exact fieldEvents_cover k (.cons head (.cons next rest))

end Expr

namespace Stmt

variable {k : Scope}

theorem tableEvents_cover : ∀ {cases cases' : List (List Expr × Stmt)} {vs vs' : List Int} {default : Bool},
    MarksCases cases cases' → vs' ⊆ vs →
      Covers k (tableEvents vs default (cases.map Prod.fst)) (tableEvents vs' default (cases'.map Prod.fst))
  | _, _, _, _, _, .nil, _ => .refl []
  | (es, _) :: _, (es', _) :: _, _, _, _, .cons values _ rest, sub => by
    have empty : es'.isEmpty = es.isEmpty := by cases values <;> rfl
    simp only [List.map_cons, tableEvents, empty]
    refine (Covers.step _).append ((valueEvents_cover values sub).append (tableEvents_cover rest ?_))
    exact List.append_subset.mpr ⟨fun _ mem => List.mem_append_left _ (sub mem),
      fun _ mem => List.mem_append_right _ (values.literals_subset mem)⟩

mutual

/-- Error nodes in place of parts do not make it fail. -/
theorem events_cover (k : Scope) (inside : Bool) : ∀ {s s' : Stmt}, s.Marks s' →
    Covers k (s.events inside) (s'.events inside)
  | s, _, .error _ => .error (s.events inside)
  | _, _, .eval value | _, _, .gotoAddress value => by
    simp only [events]
    exact (Expr.events_cover k value).steps
  | _, _, .init _ v .none | _, _, .leave _ | _, _, .goto _ _ | _, _, .label _ _ => .refl _
  | _, _, .init _ v (.some value) => (Covers.step _).append ((Expr.events_cover k value).behind (.refl _))
  | _, _, .assign target value => by
    simp only [events, target.ty_eq]
    exact (Expr.placeEvents_cover target).behind ((Expr.events_cover k value).behind (.refl _))
  | _, _, .ret _ values => by
    simp only [events]
    exact Expr.returnEvents_cover values
  | _, _, .block all => by
    simp only [events]
    exact eventsIn_cover k inside all
  | _, _, .ite cond yes no => by
    simp only [events]
    exact (Expr.events_cover k cond).behind ((events_cover k inside yes).append (events_cover k inside no))
  | _, _, .switch _ value every => by
    simp only [events]
    exact (Expr.events_cover k value).behind ((tableEvents_cover every fun _ => id).append (caseEvents_cover k every))
  | _, _, .attempt body .none .none => by
    simp only [events]
    exact events_cover k inside body
  | _, _, .attempt body (.some handler) .none => by
    simp only [events]
    exact ((events_cover k inside body).padded _).append (events_cover k inside handler)
  | _, _, .attempt body .none (.some cleanup) => by
    simp only [events]
    exact ((events_cover k inside body).padded _).append (events_cover k inside cleanup)
  | _, _, .attempt body (.some handler) (.some cleanup) => by
    simp only [events]
    exact (((events_cover k inside body).padded _).append ((events_cover k inside handler).padded _)).append
      (events_cover k inside cleanup)
  | .defer _ e _, .defer _ e' _, .defer _ epilogue check => by
    simp only [events]
    cases whole : e'.isError with
    | true => exact .error _
    | false =>
      have whole' : e.isError = false := (epilogue.literal?_eq whole).2
      have call : e.isCall = true → e'.isCall = true := by
        cases epilogue <;> first | exact id | cases whole
      rw [whole', if_neg Bool.false_ne_true, if_neg Bool.false_ne_true]
      exact (Covers.check call).append ((Covers.step _).append ((events_cover k inside check).append
        (Expr.events_cover k epilogue).steps.enclosed))

theorem eventsIn_cover (k : Scope) (inside : Bool) : ∀ {ss ss' : List Stmt}, MarksAll ss ss' →
    Covers k (eventsIn inside ss) (eventsIn inside ss')
  | _, _, .nil => .refl []
  | _, _, .cons head tail => (events_cover k inside head).append (eventsIn_cover k inside tail)

theorem caseEvents_cover (k : Scope) : ∀ {cases cases' : List (List Expr × Stmt)}, MarksCases cases cases' →
    Covers k (caseEvents cases) (caseEvents cases')
  | _, _, .nil => .refl []
  | _, _, .cons _ head tail => (events_cover k true head).append (caseEvents_cover k tail)

end

end Stmt

end FlowIR

import FlowIR.Emit.Cursor

/-!
What an operation with a state ensures.

`Ensures x s Q E` says that `x`, started in `s`, ends with a result and a state of which `Q` holds,
or with an error and a state of which `E` holds. The rules follow the way operations are put
together: `ensures_bind` for sequences, one rule for each access to the state, and the lifting rules
for operations on the function that take part in emitting code.
-/

namespace FlowIR

section Rules

variable {ε σ α β : Type} {Q R : α → σ → Prop} {E F : ε → σ → Prop} {s : σ} {x : EStateM ε σ α}
  {f : α → EStateM ε σ β}

/-- What holds after an operation, be it of its result or of its error. -/
def Ensures (x : EStateM ε σ α) (s : σ) (Q : α → σ → Prop) (E : ε → σ → Prop) : Prop :=
  match x s with
  | .ok a after => Q a after
  | .error e after => E e after

/-- The operation succeeds, with a result and a state of which `Q` holds. -/
abbrev Succeeds (x : EStateM ε σ α) (s : σ) (Q : α → σ → Prop) : Prop := Ensures x s Q fun _ _ => False

/-- What is ensured holds of any result that an operation has. -/
theorem Ensures.of_ok {a : α} {after : σ} (h : Ensures x s Q E) (run : x s = .ok a after) : Q a after := by
  unfold Ensures at h
  rwa [run] at h

/-- A result that an operation has is all that has to be looked at. -/
theorem Ensures.of_run {a : α} {after : σ} (run : x s = .ok a after) (q : Q a after) : Ensures x s Q E := by
  unfold Ensures
  rwa [run]

/-- What is ensured holds of any error that an operation has. -/
theorem Ensures.of_error {e : ε} {after : σ} (h : Ensures x s Q E) (run : x s = .error e after) : E e after := by
  unfold Ensures at h
  rwa [run] at h

/-- An operation that ensures something and cannot fail has a result. -/
theorem Ensures.exists_ok (h : Ensures x s Q fun _ _ => False) : ∃ a after, x s = .ok a after ∧ Q a after := by
  unfold Ensures at h
  cases run : x s with
  | ok a after => exact ⟨a, after, rfl, by rwa [run] at h⟩
  | error e after => rw [run] at h; exact h.elim

theorem Ensures.mono (h : Ensures x s Q E) (hq : ∀ a after, Q a after → R a after)
    (he : ∀ e after, E e after → F e after) : Ensures x s R F := by
  unfold Ensures at h ⊢
  cases run : x s with
  | ok a after => rw [run] at h; exact hq a after h
  | error e after => rw [run] at h; exact he e after h

theorem Ensures.imp (h : Ensures x s Q E) (hq : ∀ a after, Q a after → R a after) : Ensures x s R E :=
  h.mono hq fun _ _ he => he

/-- What succeeds needs no look at errors. -/
theorem Ensures.of_succeeds (h : Succeeds x s Q) : Ensures x s Q E := h.mono (fun _ _ q => q) fun _ _ => False.elim

theorem Ensures.and (h : Ensures x s Q E) (k : Ensures x s R F) :
    Ensures x s (fun a after => Q a after ∧ R a after) (fun e after => E e after ∧ F e after) := by
  unfold Ensures at h k ⊢
  cases run : x s with
  | ok a after => rw [run] at h k; exact ⟨h, k⟩
  | error e after => rw [run] at h k; exact ⟨h, k⟩

@[simp] theorem ensures_pure {a : α} : Ensures (pure a) s Q E ↔ Q a s := Iff.rfl

/-- Reading the state changes nothing. -/
theorem get_bind_apply {f : σ → EStateM ε σ α} : (get >>= f) s = f s s := rfl

@[simp] theorem ensures_get {Q : σ → σ → Prop} :
    Ensures (get : EStateM ε σ σ) s Q E ↔ Q s s := Iff.rfl

@[simp] theorem ensures_modify {f : σ → σ} {Q : PUnit → σ → Prop} :
    Ensures (modify f : EStateM ε σ PUnit) s Q E ↔ Q ⟨⟩ (f s) := Iff.rfl

@[simp] theorem ensures_modifyGet {f : σ → α × σ} :
    Ensures (modifyGet f : EStateM ε σ α) s Q E ↔ Q (f s).1 (f s).2 := Iff.rfl

/-- A sequence ensures what its second part ensures after its first part. -/
theorem ensures_bind {Q : β → σ → Prop} :
    Ensures (x >>= f) s Q E ↔ Ensures x s (fun a after => Ensures (f a) after Q E) E := by
  unfold Ensures
  show (match EStateM.bind x f s with
    | .ok a after => Q a after
    | .error e after => E e after) ↔ _
  unfold EStateM.bind
  cases x s <;> rfl

theorem Ensures.bind {Q : β → σ → Prop}
    (first : Ensures x s R E) (second : ∀ a after, R a after → Ensures (f a) after Q E) : Ensures (x >>= f) s Q E :=
  ensures_bind.mpr (first.imp second)

theorem Ensures.get {f : σ → EStateM ε σ α} (h : Ensures (f s) s Q E) : Ensures (get >>= f) s Q E := h

theorem Ensures.modify {f : σ → σ} {g : PUnit → EStateM ε σ α} (h : Ensures (g ⟨⟩) (f s) Q E) :
    Ensures (modify f >>= g) s Q E := h

theorem Ensures.after {a : α} {mid : σ} {Q : β → σ → Prop}
    (run : x s = .ok a mid) (h : Ensures (f a) mid Q E) : Ensures (x >>= f) s Q E :=
  ensures_bind.mpr (.of_run run h)

/-- A sequence that has a result has gone through its first part. -/
theorem exists_of_bind {b : β} {after : σ}
    (run : (x >>= f) s = .ok b after) : ∃ a mid, x s = .ok a mid ∧ f a mid = .ok b after := by
  have unfolded : EStateM.bind x f s = .ok b after := run
  unfold EStateM.bind at unfolded
  cases first : x s with
  | ok a mid =>
    rw [first] at unfolded
    exact ⟨a, mid, rfl, unfolded⟩
  | error e mid =>
    rw [first] at unfolded
    cases unfolded

/-- An operation that happens or not, and what follows it. -/
theorem Ensures.when {c : Prop} [Decidable c] {x : EStateM ε σ Unit} {f : Unit → EStateM ε σ β}
    {P : σ → Prop} {Q : β → σ → Prop} (first : Ensures (if c then x else pure ()) s (fun _ mid => P mid) E)
    (second : ∀ mid, P mid → Ensures (f ()) mid Q E) : Ensures (if c then x >>= f else f ()) s Q E := by
  split
  · next yes =>
    rw [if_pos yes] at first
    exact first.bind fun _ mid p => second mid p
  · next no =>
    rw [if_neg no] at first
    exact second s first

/-- An invariant of the list that is left is kept by a loop over the list. -/
theorem Ensures.forM {γ : Type} {f : γ → EStateM ε σ PUnit} {I : List γ → σ → Prop}
    (step : ∀ a rest s, I (a :: rest) s → Ensures (f a) s (fun _ after => I rest after) E) :
    ∀ (l : List γ) (s : σ), I l s → Ensures (l.forM f) s (fun _ after => I [] after) E
  | [], _, h => h
  | a :: rest, s, h => by
      show Ensures (f a >>= fun _ => rest.forM f) s _ _
      exact (step a rest s h).bind fun _ after h => Ensures.forM step rest after h

end Rules

/-! ### Lifting -/

section Lifting

variable {ε σ α : Type} {Q : α → σ → Prop} {E : Halt ε → σ → Prop} {s : σ}

/-- A checked operation has its result, or a fault, and leaves the state alone. -/
theorem ensures_checked {x : Checked α} :
    Ensures (liftM x : EStateM (Halt ε) σ α) s Q E ↔
      (∀ a, x = .ok a → Q a s) ∧ ∀ f, x = .error f → E (.fault f) s := by
  cases x with
  | ok a => exact ⟨fun h => ⟨fun _ eq => Except.ok.inj eq ▸ h, fun _ eq => (nomatch eq)⟩,
      fun h => h.1 a rfl⟩
  | error f => exact ⟨fun h => ⟨fun _ eq => (nomatch eq), fun _ eq => Except.error.inj eq ▸ h⟩,
      fun h => h.2 f rfl⟩

/-- A checked operation that has a result. -/
theorem Ensures.of_checked {x : Checked α} {a : α} (run : x = .ok a) (q : Q a s) :
    Ensures (liftM x : EStateM (Halt ε) σ α) s Q E :=
  ensures_checked.mpr ⟨fun b eq => by cases run.symm.trans eq; exact q,
    fun f eq => by cases run.symm.trans eq⟩

/-- An operation on the function does the same to the function at a cursor, and nothing else. -/
theorem ensures_lift {x : BuildM α} {c : Cursor} {Q : α → Cursor → Prop} {E : Halt BuildError → Cursor → Prop} :
    Ensures (liftM x : EmitM α) c Q E ↔
      Ensures x c.builder (fun a b => Q a { c with builder := b })
        (fun e b => E e { c with builder := b }) := by
  unfold Ensures
  cases run : x c.builder <;> simp only [liftM, monadLift, MonadLift.monadLift, run]

/-- Code from the entry block on does to the function what it does there. -/
theorem ensures_fromEntry {x : EmitM α} {b : Builder} {Q : α → Builder → Prop}
    {E : Halt BuildError → Builder → Prop} :
    Ensures (Emit.fromEntry x) b Q E ↔
      Ensures x { builder := b, current := b.entry } (fun a c => Q a c.builder) (fun e c => E e c.builder) := by
  unfold Ensures Emit.fromEntry
  cases x { builder := b, current := b.entry } <;> rfl

theorem exists_of_fromEntry {x : EmitM α} {b after : Builder} {a : α} (run : Emit.fromEntry x b = .ok a after) :
    ∃ c, x { builder := b, current := b.entry } = .ok a c ∧ c.builder = after := by
  unfold Emit.fromEntry at run
  split at run
  · next c found =>
    cases run
    exact ⟨c, found, rfl⟩
  · cases run

end Lifting

end FlowIR

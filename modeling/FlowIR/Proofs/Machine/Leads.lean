import FlowIR.Proofs.Machine.Step

/-!
What a run comes to.

A run is followed from one configuration to the next: `Leads` says that the run is cut off, or that it
comes to a configuration of which something is known, with no more steps left than before. The rules
follow the steps of the machine one by one, and `Leads.bind` puts stretches of a run together.

Each step raises at most one exception, so the steps that are left also bound how far the numbers of
exceptions can grow. `Leads` keeps count of that.
-/

namespace FlowIR

/-- Answering a call raises at most one new exception. -/
theorem World.lastException_call {w after : World} {name : String} {args : List Bytes}
    {size : Checked Nat} {reply : Reply} (run : w.call name args size = .ok (reply, after)) :
    w.lastException ≤ after.lastException ∧ after.lastException ≤ w.lastException + 1 := by
  unfold call at run
  dsimp only at run
  split at run
  · split at run
    · cases run
    · cases run
      exact ⟨Nat.le_refl _, Nat.le_succ _⟩
  · split at run
    · cases run
      exact ⟨Nat.le_succ _, Nat.le_refl _⟩
    · rw [Checked.bind_eq_ok_iff] at run
      obtain ⟨n, -, run⟩ := run
      cases run
      exact ⟨Nat.le_refl _, Nat.le_succ _⟩

namespace Machine

variable {g : Graph} {args : Array Bytes} {m after : Machine} {i : InstrId}

/-- A step raises at most one new exception. -/
theorem lastException_step {flow : Flow} (run : step g args m i = .ok (flow, after)) :
    after.world.lastException ≤ m.world.lastException + 1 := by
  obtain ⟨op, -, grows, -⟩ := step_spec run
  rcases grows.world with same | ⟨callee, values, size, reply, answered⟩
  · rw [same]
    exact Nat.le_succ _
  · exact (World.lastException_call answered).2

/-- Where a run is: before the rest of a block, or at its end. -/
inductive Config where
  | before (block : BlockId) (rest : List InstrId) (m : Machine)
  | over (result : Checked (Outcome × Machine))

namespace Config

/-- What comes of a configuration with the given number of steps left. -/
def outcome (g : Graph) (args : Array Bytes) (fuel : Nat) : Config → Checked (Outcome × Machine)
  | .before x rest m => run g args fuel x rest m
  | .over result => result

def lastException : Config → Nat
  | .before _ _ m => m.world.lastException
  | .over (.ok (_, m)) => m.world.lastException
  | .over (.error _) => 0

end Config

/-- The run is cut off, or it comes to a configuration of which `P` holds. -/
def Leads (g : Graph) (args : Array Bytes) (fuel : Nat) (s : Config) (P : Config → Prop) : Prop :=
  (∃ m, s.outcome g args fuel = .ok (.trapped .stepLimit, m)) ∨
    ∃ left t, left ≤ fuel ∧ t.lastException + left ≤ s.lastException + fuel ∧ P t ∧
      s.outcome g args fuel = t.outcome g args left

namespace Leads

variable {P Q : Config → Prop} {s : Config} {fuel : Nat} {x : BlockId} {rest : List InstrId}

/-- The run is there already. -/
theorem here (h : P s) : Leads g args fuel s P := .inr ⟨fuel, s, Nat.le_refl _, Nat.le_refl _, h, rfl⟩

/-- One stretch of a run after another. -/
theorem bind (first : Leads g args fuel s P)
    (second : ∀ left t, left ≤ fuel → t.lastException + left ≤ s.lastException + fuel → P t →
      Leads g args left t Q) : Leads g args fuel s Q := by
  rcases first with cut | ⟨left, t, fewer, bound, p, same⟩
  · exact .inl cut
  · rcases second left t fewer bound p with ⟨m, cut⟩ | ⟨left', t', fewer', bound', q, same'⟩
    · exact .inl ⟨m, same.trans cut⟩
    · exact .inr ⟨left', t', Nat.le_trans fewer' fewer, Nat.le_trans bound' bound, q,
        same.trans same'⟩

theorem mono (first : Leads g args fuel s P) (weaker : ∀ t, P t → Q t) : Leads g args fuel s Q :=
  first.bind fun _ t _ _ p => here (weaker t p)

/-- A step to another configuration. -/
theorem tick (t : Config) (cut : ∃ m, s.outcome g args 0 = .ok (.trapped .stepLimit, m))
    (same : ∀ left, s.outcome g args (left + 1) = t.outcome g args left) (slow : t.lastException ≤ s.lastException + 1)
    (later : ∀ left, left < fuel → t.lastException + left ≤ s.lastException + fuel → Leads g args left t P) :
    Leads g args fuel s P := by
  cases fuel with
  | zero => exact .inl cut
  | succ fuel =>
    rcases later fuel (Nat.lt_succ_self _) (by omega) with ⟨m, cut⟩ | ⟨left, u, fewer, bound, p, eq⟩
    · exact .inl ⟨m, (same fuel).trans cut⟩
    · exact .inr ⟨left, u, Nat.le_succ_of_le fewer, by omega, p, (same fuel).trans eq⟩

/-- A step to the next instruction. -/
theorem next (exec : step g args m i = .ok (.next, after)) (later : ∀ left, left < fuel →
      after.world.lastException + left ≤ m.world.lastException + fuel →
      Leads g args left (.before x rest after) P) : Leads g args fuel (.before x (i :: rest) m) P :=
  tick (.before x rest after) ⟨m, rfl⟩ (fun _ => by simp only [Config.outcome, run, exec])
    (lastException_step exec) later

/-- A step to another block. -/
theorem jump {t : BlockId} (exec : step g args m i = .ok (.jump t, after)) (there : t.index < g.blocks.size)
    (later : ∀ left, left < fuel →
      after.world.lastException + left ≤ m.world.lastException + fuel →
      Leads g args left (.before t (g.body t) after) P) : Leads g args fuel (.before x (i :: rest) m) P := by
  obtain ⟨b, hb⟩ := Graph.exists_block there
  exact tick (.before t (g.body t) after) ⟨m, rfl⟩
    (fun _ => by simp only [Config.outcome, run, exec, hb, Graph.body_of_block hb]) (lastException_step exec) later

/-- The last step. -/
theorem done {o : Outcome} (exec : step g args m i = .ok (.done o, after))
    (ended : P (.over (.ok (o, after)))) : Leads g args fuel (.before x (i :: rest) m) P :=
  tick (.over (.ok (o, after))) ⟨m, rfl⟩ (fun _ => by simp only [Config.outcome, run, exec]) (lastException_step exec)
    fun _ _ _ => here ended

/-- A step that has no meaning. -/
theorem fault {f : Fault} (exec : step g args m i = .error f) (ended : P (.over (.error f))) :
    Leads g args fuel (.before x (i :: rest) m) P :=
  tick (.over (.error f)) ⟨m, rfl⟩ (fun _ => by simp only [Config.outcome, run, exec]) (Nat.zero_le _)
    fun _ _ _ => here ended

/-- A run that comes to its end ends like that. -/
theorem outcome_eq (first : Leads g args fuel s P) (ends : ∀ t, P t → ∃ r, t = .over r) :
    (∃ m, s.outcome g args fuel = .ok (.trapped .stepLimit, m)) ∨
      ∃ r, P (.over r) ∧ s.outcome g args fuel = r := by
  rcases first with cut | ⟨left, t, -, -, p, same⟩
  · exact .inl cut
  · obtain ⟨r, rfl⟩ := ends t p
    exact .inr ⟨r, p, same⟩

end Leads

end Machine

end FlowIR

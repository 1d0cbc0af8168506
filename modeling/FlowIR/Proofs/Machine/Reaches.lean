import FlowIR.Proofs.Machine.Step

/-!
The points of a run.

`Reaches` follows a run instruction by instruction and keeps the history of what has been executed. A run
that fails because a value is not there fails at one of these points, for an operand of the instruction
that is next (`execute_blames`).
-/

namespace FlowIR

namespace Machine

/-- A run from `m₀` has executed `history`, latest first, and is about to execute `rest` in a block. -/
inductive Reaches (g : Graph) (args : Array Bytes) (m₀ : Machine) :
    (history : List InstrId) → BlockId → (rest : List InstrId) → Machine → Prop
  | start {entry : BlockId} {b : Block} : g.entry? = some entry → g.block entry = .ok b →
      Reaches g args m₀ [] entry b.body m₀
  | next {history : List InstrId} {x : BlockId} {i : InstrId} {rest : List InstrId} {m after : Machine} :
      Reaches g args m₀ history x (i :: rest) m → step g args m i = .ok (.next, after) →
      Reaches g args m₀ (i :: history) x rest after
  | jump {history : List InstrId} {x t : BlockId} {i : InstrId} {rest : List InstrId}
      {m after : Machine} {b : Block} :
      Reaches g args m₀ history x (i :: rest) m → step g args m i = .ok (.jump t, after) →
      g.block t = .ok b → Reaches g args m₀ (i :: history) t b.body after

variable {g : Graph} {args : Array Bytes} {m₀ : Machine} {P : Fault → Prop}

/-- Wherever a run is, a failure for a missing value comes from an operand of an instruction that it
executes. -/
theorem Reaches.run_blames
    (each : ∀ {history x i rest m}, Reaches g args m₀ history x (i :: rest) m → ∀ op, g.op? i = some op →
      ∀ v ∈ op.operands, (m.eval args v).Blames P) :
    ∀ {fuel : Nat} {history rest : List InstrId} {x : BlockId} {m : Machine},
      Reaches g args m₀ history x rest m → (run g args fuel x rest m).Blames P := by
  have atEnd : ∀ {fuel : Nat} {x : BlockId} {m : Machine}, (run g args fuel x [] m).Blames P := by
    intro fuel x m
    unfold run
    split
    · exact blames_ok
    · next failed => exact blames_of_error (blames_block g x) failed
  intro fuel
  induction fuel with
  | zero =>
    intro history rest x m h
    cases rest with
    | nil => exact atEnd
    | cons i rest => exact blames_ok
  | succ fuel ih =>
    intro history rest x m h
    cases rest with
    | nil => exact atEnd
    | cons i rest =>
      have stepped : (step g args m i).Blames P := step_blames (each h)
      unfold run
      split
      · next failed => exact blames_of_error stepped failed
      · next next => exact ih (.next h next)
      · exact blames_ok
      · next t _ jumped =>
        split
        · next failed => exact blames_of_error (blames_block g t) failed
        · next hb => exact ih (.jump h jumped hb)

/-- Wherever a run is, it is ended by an instruction, or is cut off, or comes to the end of a block. -/
theorem Reaches.run_ended : ∀ {fuel : Nat} {history rest : List InstrId} {x : BlockId} {m after : Machine}
    {o : Outcome}, Reaches g args m₀ history x rest m → run g args fuel x rest m = .ok (o, after) →
      (∃ history x i rest m, Reaches g args m₀ history x (i :: rest) m ∧ step g args m i = .ok (.done o, after)) ∨
        o = .trapped .stepLimit ∨
        (∃ name, o = .trapped (.fellOff name)) ∧ ∃ history x m, Reaches g args m₀ history x [] m := by
  intro fuel
  induction fuel with
  | zero =>
    intro history rest x m after o h ended
    cases rest with
    | nil =>
      unfold run at ended
      split at ended <;> cases ended
      exact .inr (.inr ⟨⟨_, rfl⟩, _, _, _, h⟩)
    | cons i rest =>
      cases ended
      exact .inr (.inl rfl)
  | succ fuel ih =>
    intro history rest x m after o h ended
    cases rest with
    | nil =>
      unfold run at ended
      split at ended <;> cases ended
      exact .inr (.inr ⟨⟨_, rfl⟩, _, _, _, h⟩)
    | cons i rest =>
      unfold run at ended
      split at ended
      · cases ended
      · next next => exact ih (.next h next) ended
      · next stepped =>
        cases ended
        exact .inl ⟨_, _, _, _, _, h, stepped⟩
      · next t _ jumped =>
        split at ended
        · cases ended
        · next hb => exact ih (.jump h jumped hb) ended

theorem execute_blames
    (each : ∀ {history x i rest m}, Reaches g args m₀ history x (i :: rest) m → ∀ op, g.op? i = some op →
      ∀ v ∈ op.operands, (m.eval args v).Blames P) : (execute g args m₀).Blames P := by
  unfold execute
  split
  · exact blames_pure
  · next entry first =>
    cases hb : g.block entry with
    | error f => exact blames_of_error (blames_block g entry) hb
    | ok b => exact Reaches.run_blames each (.start first hb)

end Machine

end FlowIR

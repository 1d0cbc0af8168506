import FlowIR.Proofs.Graph.Verified
import FlowIR.Proofs.Machine.Reaches

/-!
Runs of functions that the verifier accepts.

Control enters reachable blocks of the layout only, and leaves a block only from its last instruction, so
no run comes to the end of a block and no run needs a block that is not reachable. The machine never looks
at the layout except for the entry block: taking out the unreachable blocks changes no run.
-/

namespace FlowIR

open FlowIR.Graph

namespace Machine

variable {g : Graph} {args : Array Bytes} {m₀ m after : Machine} {history rest : List InstrId}
  {x : BlockId} {found : List BlockId}

/-! ### Where control is -/

section

variable (verified : g.verify = .ok ⟨⟩) (reachable : g.reachable = .ok found)
  (h : Reaches g args m₀ history x rest m)

include verified reachable h

/-- Every point of a run lies in a reachable block of the layout, before its end. -/
theorem Reaches.inside : x ∈ g.layout ∧ x ∈ found ∧ rest ≠ [] ∧ rest <:+ g.body x := by
  have sound := (verify_eq_ok_iff.mp verified).2
  have nonempty : ∀ {y : BlockId} {b : Block}, y ∈ g.layout → g.block y = .ok b →
      b.body ≠ [] ∧ b.body <:+ g.body y := by
    intro y b laid hb
    obtain ⟨i, -, last, -, -⟩ := (sound y laid).ends
    rw [body_of_block hb] at last ⊢
    exact ⟨List.ne_nil_of_mem (List.mem_of_getLast? last), List.suffix_rfl⟩
  induction h with
  | start first hb =>
    have laid := List.mem_of_head? first
    have reached := mem_of_mem_starts reachable (List.mem_append_left _ (Option.mem_toList.mpr first))
    exact ⟨laid, reached, nonempty laid hb⟩
  | @next history x i rest m after _ stepped ih =>
    obtain ⟨laid, reached, -, suffix⟩ := ih
    obtain ⟨op, hop, -, plain, -⟩ := step_spec stepped
    refine ⟨laid, reached, ?_, (List.suffix_cons i rest).trans suffix⟩
    -- The last instruction of a block ends it, so it is not the one that was executed.
    rintro rfl
    obtain ⟨k, op', last, hop', hterm⟩ := (sound x laid).ends
    obtain ⟨done, split⟩ := suffix
    rw [← split, List.getLast?_concat] at last
    cases last
    cases hop.symm.trans hop'
    exact absurd hterm (by simp [plain])
  | @jump history x t i rest m after b _ jumped hb ih =>
    obtain ⟨laid, reached, -, suffix⟩ := ih
    obtain ⟨op, hop, -, target, -⟩ := step_spec jumped
    have here : i ∈ g.body x := suffix.subset List.mem_cons_self
    obtain ⟨laid', reached'⟩ := successor_mem_of_verify verified reachable laid reached here hop target
    exact ⟨laid', reached', nonempty laid' hb⟩

/-- The instruction that is executed next uses no placeholder. -/
theorem Reaches.whole {i : InstrId} (hi : i ∈ rest) {op : Op}
    (hop : g.op? i = some op) {v : Operand} (hv : v ∈ op.operands) : v.isPlaceholder = false := by
  obtain ⟨laid, -, -, suffix⟩ := h.inside verified reachable
  exact ((verify_eq_ok_iff.mp verified).2 x laid).whole i (suffix.subset hi) op hop v hv

/-! ### How a run ends -/

/-- Wherever a run is, it is ended by an instruction or cut off. -/
theorem Reaches.isOfStep_or {fuel : Nat} {o : Outcome} (ended : run g args fuel x rest m = .ok (o, after)) :
    isOfStep o = true ∨ o = .trapped .stepLimit := by
  obtain ⟨_, _, i, _, _, -, stepped⟩ | cut | ⟨-, _, _, _, atEnd⟩ := h.run_ended ended
  · obtain ⟨op, -, -, kind, -⟩ := step_spec stepped
    exact .inl kind
  · exact .inr cut
  · exact absurd rfl (atEnd.inside verified reachable).2.2.1

end

/-! ### Runs and the layout -/

/-- The machine does not look at the layout. -/
theorem run_layout (layout : List BlockId) : ∀ {fuel : Nat} {x : BlockId} {rest : List InstrId}
    {m : Machine}, run { g with layout := layout } args fuel x rest m = run g args fuel x rest m := by
  have sameStep : step { g with layout := layout } = step g := rfl
  have sameBlock : block { g with layout := layout } = g.block := rfl
  intro fuel
  induction fuel with
  | zero =>
    intro x rest m
    cases rest <;> rfl
  | succ fuel ih =>
    intro x rest m
    cases rest with
    | nil => rfl
    | cons i rest => simp only [run, sameStep, sameBlock, ih]

/-- The machine looks at the layout only for the entry block. -/
theorem execute_layout {layout : List BlockId} (first : entry? { g with layout := layout } = g.entry?) :
    execute { g with layout := layout } args m₀ = execute g args m₀ := by
  have sameBlock : block { g with layout := layout } = g.block := rfl
  simp only [execute, first, sameBlock, run_layout]

theorem call_layout {layout : List BlockId}
    (first : entry? { g with layout := layout } = g.entry?) (actuals : List Actual)
    (world : World) : ({ g with layout := layout } : Graph).call actuals world = g.call actuals world := by
  have samePassed : Caller.passResult { g with layout := layout } = Caller.passResult g := rfl
  have sameStart : start { g with layout := layout } = start g := rfl
  simp only [call, samePassed, sameStart, execute_layout first]

/-! ### The whole -/

/-- A function that the verifier accepts stays inside its graph. Every block that a run enters is laid out
and reachable, no operand that is evaluated is a placeholder, and no run lacks an entry block or comes to
the end of a block. Therefore taking out the unreachable blocks takes out no block that a run enters; the
function is accepted again, and every run of it is the same. -/
theorem verified_stays_inside {g : Graph} (verified : g.verify = .ok ⟨⟩) :
    ∃ found removed pruned, g.reachable = .ok found ∧ g.prune = .ok (removed, pruned) ∧
      pruned.verify = .ok ⟨⟩ ∧
      (∀ args m₀ history x rest m, Reaches g args m₀ history x rest m →
        x ∈ g.layout ∧ x ∈ found ∧ x ∈ pruned.layout ∧
        ∀ i op, rest.head? = some i → g.op? i = some op → ∀ v ∈ op.operands, v.isPlaceholder = false) ∧
      (∀ args m₀,
        (∀ p, execute g args m₀ ≠ .error (.unresolved p)) ∧
        (∀ m, execute g args m₀ ≠ .ok (.trapped .noEntry, m)) ∧
        (∀ name m, execute g args m₀ ≠ .ok (.trapped (.fellOff name), m)) ∧
        execute pruned args m₀ = execute g args m₀) ∧
      ∀ actuals world, pruned.call actuals world = g.call actuals world := by
  obtain ⟨found, reachable⟩ := exists_reachable (connected_of_verify verified)
  have first := entry?_filter reachable
  obtain ⟨entry, start⟩ := exists_entry_of_verify verified
  have laid := List.mem_of_head? start
  obtain ⟨b, hb⟩ := exists_block ((verify_eq_ok_iff.mp verified).2 entry laid).placed
  refine ⟨found, _, _, reachable, prune_eq_of_reachable reachable,
    verify_filter_of_verify verified reachable, ?_, ?_, call_layout first⟩
  · intro args m₀ history x rest m h
    obtain ⟨laid, reached, -, -⟩ := h.inside verified reachable
    refine ⟨laid, reached, by simpa using ⟨laid, reached⟩, fun i op next hop v hv => ?_⟩
    exact h.whole verified reachable (List.mem_of_head? next) hop hv
  · intro args m₀
    have ended : ∀ {o m}, execute g args m₀ = .ok (o, m) → isOfStep o = true ∨ o = .trapped .stepLimit := by
      intro o m run
      simp only [execute, start, hb] at run
      exact Reaches.isOfStep_or verified reachable (.start start hb) run
    refine ⟨fun p failed => ?_, fun m run => ?_, fun name m run => ?_, execute_layout first⟩
    · refine execute_blames (P := fun f => ∀ p, f ≠ .unresolved p) (fun h op hop v hv f unset missing => ?_)
        _ failed rfl p rfl
      rcases eval_missing unset missing with ⟨j, -, rfl, -⟩ | ⟨q, rfl, -⟩
      · rintro _ ⟨⟩
      · have real := h.whole verified reachable List.mem_cons_self hop hv
        cases real
    · rcases ended run with kind | cut
      · cases kind
      · cases cut
    · rcases ended run with kind | cut
      · cases kind
      · cases cut

/-- A loop through the entry block, and a block that nothing leads to. -/
def entryLoop : Graph :=
  { name := "f", args := #[{ shape := .i1 }], ret := .void
    blocks := #[{ name := "entry", body := [⟨0⟩] }, { name := "exit", body := [⟨1⟩] },
      { name := "dead", body := [⟨2⟩] }]
    layout := [⟨0⟩, ⟨1⟩, ⟨2⟩]
    instrs := #[{ op := .condBr (.arg 0) ⟨0⟩ ⟨1⟩ }, { op := .ret none }, { op := .br ⟨0⟩ }] }

/-- The dead block is taken out of the loop, and no run changes. -/
theorem verified_stays_inside_loop : entryLoop.verify = .ok ⟨⟩ ∧
    ∃ pruned, entryLoop.prune = .ok (1, pruned) ∧ pruned.layout = [⟨0⟩, ⟨1⟩] ∧ pruned.verify = .ok ⟨⟩ ∧
      ∀ args m₀, execute pruned args m₀ = execute entryLoop args m₀ := by
  have accepted : entryLoop.verify = .ok ⟨⟩ := by rfl
  obtain ⟨found, removed, pruned, -, run, again, -, runs, -⟩ := verified_stays_inside accepted
  have reachable : entryLoop.reachable = .ok [⟨0⟩, ⟨1⟩] := by rfl
  cases run.symm.trans (prune_eq_of_reachable reachable)
  exact ⟨accepted, _, run, by decide, again, fun args m₀ => (runs args m₀).2.2.2⟩

end Machine

end FlowIR

import FlowIR.Proofs.Perform.Simple

/-!
Branches. The arms are parts in blocks of their own (`Cursor.Part`) and meet where the branch ends.
-/

namespace FlowIR

open Machine

variable {F : Frame} {S : Scene} {c mid after : Cursor} {m m' : Machine} {σ : State} {fuel : Nat}
  {watched : Option InstrId}

/-- A branch does what the arm does that its condition selects. -/
theorem enacts_ite {cond : Expr} {yes no : Stmt} {within : Bool} {yesCode noCode : EmitM Unit}
    (scalar : cond.isScalar F.types = true) (isBool : cond.ty = .bool) (quiet : cond.isQuiet F.hides = true)
    (hyes : Enacts F yes within yesCode) (hno : Enacts F no within noCode) :
    Enacts F (.ite cond yes no) within (Emit.branch cond yesCode noCode) := by
  intro c host exits
  have distinct : (Stmt.ite cond yes no).isDistinct = (yes.isDistinct && no.isDistinct) := by
    rw [Stmt.isDistinct]
  unfold Emit.branch
  refine (Emit.condition_succeeds host.able host.declares isBool (Emit.expr_computed scalar)).or ?_
  rintro _ c₁ ⟨v, rfl, flows, offers, runs⟩
  have host₁ := host.adds flows.adds flows.able
  refine newBlocks_ensures (Cursor.Idle.refl flows.able).fresh _ _ _ fun yesBlock noBlock join c₄ adds₄ fresh => ?_
  obtain ⟨⟨waitsYes, waitsNo, waitsJoin⟩, ⟨newYes, newNo, newJoin⟩, apart, apartYes, apartNo⟩ := fresh.three
  have whole : (Op.condBr v yesBlock noBlock).Whole := fun u hu => by
    cases List.mem_singleton.mp hu
    exact offers.whole
  refine (perform_succeeds fresh.able whole rfl).or fun i c₅ branch => ?_
  have adds₅ : c₁.Adds c₅ := adds₄.trans branch.adds
  replace waitsYes := waitsYes.adds branch.adds
  replace waitsNo := waitsNo.adds branch.adds
  replace waitsJoin := waitsJoin.adds branch.adds
  have exits₅ : within = true → c₅.Leavable := fun h => ((exits h).adds flows.adds).adds adds₅
  refine part_succeeds hyes (host₁.adds adds₅ branch.able) exits₅ adds₅ waitsYes newYes waitsJoin.made
    (fun twice => by rw [distinct, twice]; rfl) fun c₆ first distinctYes => ?_
  have waitsJoin₆ := first.waits waitsJoin apartYes
  have exits₆ : within = true → c₆.Leavable := fun h => ((exits h).adds flows.adds).adds first.adds
  refine part_succeeds hno (host₁.adds first.adds first.able) exits₆ first.adds (first.waits waitsNo apart) newNo
    waitsJoin₆.made (fun twice => by rw [distinct, twice, Bool.and_false]) fun c₇ second distinctNo => ?_
  refine ((startBlock_succeeds second.able (second.waits waitsJoin₆ apartNo)).mono ?_ fun _ _ h => h.elim)
  intro _ c₈ enters
  refine ⟨⟨enters.able, flows.adds.trans (enters.adds c₁ second.adds newJoin), ?_⟩,
    by rw [distinct, distinctYes, distinctNo]; rfl⟩
  intro isOpen S inside watched fuel σ m meets
  have inside₇ := inside.extends enters.builder
  have inside₆ := inside₇.extends second.builder
  have inside₅ := inside₆.extends first.builder
  have inside₁ := inside₅.adds adds₅
  have isOpen₁ := flows.isOpen isOpen
  refine meets.evaluate host (inside₁.adds flows.adds) (Expr.honest_eval quiet)
    (runs isOpen S inside₁ fuel σ.vars m meets.ready meets.holds) ?_ ?_
  · rintro left a m' w - run meets' keeps ⟨word, known, truth⟩
    have isOpen₄ : c₄.Open := fresh.isOpen isOpen₁
    obtain ⟨_, found⟩ := branch.there inside₅ rfl
    have there : (if word % 2 = 1 then yesBlock else noBlock).index < S.graph.blocks.size := by
      split
      · exact Nat.lt_of_lt_of_le waitsYes.made inside₅.graph.size
      · exact Nat.lt_of_lt_of_le waitsNo.made inside₅.graph.size
    have meets₁ := meets'.adds flows.adds
    have atJoin : ∀ m'' t, t = Config.before join (S.graph.body join) m'' → c₈.Open ∧ t = c₈.spot S m'' :=
      fun m'' t eq => ⟨enters.starts.open, eq.trans (Cursor.spot_of_starts inside enters.starts).symm⟩
    have keeps' : S.Keeps (c.Touches F) c.graph.instrs.size m m' := keeps.widen fun _ no => no.elim
    rw [← fresh.spot S m']
    refine branch.jump isOpen₄ inside₅ (Scene.step_condBr found known) there fun left' fewer _ => ?_
    by_cases odd : a % 2 = 1
    · rw [if_pos (truth.mpr odd)]
      refine (first.runs S inside₆ watched left' _ m' (meets₁.fewer (Nat.le_of_lt fewer))).mono ?_
      rintro t ⟨exit, σ', exec, lands⟩
      refine ⟨exit, σ', .ite run (by rw [if_pos odd]; exact exec), ?_⟩
      exact (lands.onward (second.builder.trans enters.builder) (fun h => enters.marked (second.marked h))
        fun m'' _ => atJoin m'' t).since flows.adds keeps'
    · rw [if_neg fun odd' => odd (truth.mp odd')]
      refine (second.runs S inside₇ watched left' _ m' (meets₁.fewer (Nat.le_of_lt fewer))).mono ?_
      rintro t ⟨exit, σ', exec, lands⟩
      refine ⟨exit, σ', .ite run (by rw [if_neg odd]; exact exec), ?_⟩
      exact (lands.onward enters.builder enters.marked fun m'' _ => atJoin m'' t).since flows.adds keeps'
  · intro stop w t run lands
    exact ⟨_, _, .iteStops run, lands _ _⟩

end FlowIR

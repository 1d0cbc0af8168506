import FlowIR.Proofs.Emit.Compile

/-!
Returning a value.

The values of a return are evaluated first. Outside any region with a cleanup, the function then ends with
the bytes of the value (`Emit.leaveWith_succeeds`).
-/

namespace FlowIR

open Machine

/-! ### What is returned -/

inductive Operand.Returnable (t : Ty) : Option Operand → Prop where
  | nothing (isVoid : t = .void) : Returnable t none
  | value {v : Operand} (integer : t.isInteger = true) (whole : v.isPlaceholder = false) : Returnable t (some v)

inductive Scene.Returns (S : Scene) (t : Ty) (m : Machine) : Option Operand → Option Int → Prop where
  | nothing : Returns S t m none none
  | value {v : Operand} {a : Int} (gives : S.Gives v t a m) : Returns S t m (some v) (some a)

variable {o : Option Operand}

theorem Operand.Returnable.whole {t : Ty} (h : Operand.Returnable t o) : (Op.ret o).Whole := by
  cases h with
  | nothing => rintro _ ⟨⟩
  | value _ whole =>
    intro v hv
    cases List.mem_singleton.mp hv
    exact whole

theorem Scene.step_ret {S : Scene} {m : Machine} {k : InstrId} {shape : Shape} {name : Option String}
    {t : Ty} {v : Option Int} (hk : S.graph.instr k = .ok ⟨.ret o, shape, name⟩) (returns : S.Returns t m o v) :
    step S.graph S.args m k = .ok (.done (.returned (v.map t.encode)), m) := by
  cases returns with
  | nothing =>
    simp only [step, hk, bind, Except.bind]
    rfl
  | value gives =>
    simp only [step, hk, bind, Except.bind, gives.2]
    rfl

namespace Emit

variable {types : VarId → Option Ty} {slots : VarId → InstrId} {c : Cursor} {t : Ty}

/-- The values of a return. -/
theorem returnOperand_succeeds (able : c.Able) (declares : c.Declares types slots)
    (result : c.builder.signature.result = t) {values : List Expr}
    (returnable : Expr.areReturnable types t values = true) (span : Span) :
    Succeeds (returnOperand values span) c fun r after => ∃ o, r = some o ∧ c.Flows after ∧
      Operand.Returnable t o ∧ c.Runs after (·.Holds types slots) (Expr.evalReturn · values)
        fun S v m' => S.Returns t m' o v := by
  unfold returnOperand
  refine ensures_bind.mpr (.get (ensures_pure.mpr ?_))
  rw [result]
  match values, returnable with
  | [], isVoid =>
    have isVoid : t = .void := by simpa [Expr.areReturnable] using isVoid
    subst isVoid
    refine ⟨none, rfl, .refl able, .nothing rfl, fun _ S _ fuel vars m ready _ => ?_⟩
    exact Cursor.comes_pure ready .nothing
  | [e], returnable =>
    simp only [Expr.areReturnable, Bool.and_eq_true, decide_eq_true_eq] at returnable
    obtain ⟨scalar, ty⟩ := returnable
    have integer : t.isInteger = true := ty ▸ Expr.isInteger_of_isScalar scalar
    have arity : returnArity t 1 = 1 := by
      cases t <;> first | rfl | cases integer
    dsimp only
    rw [List.length_singleton, arity, if_neg (fun ne => ne rfl)]
    refine (expr_computed scalar c able declares).bind ?_
    rintro _ after ⟨v, rfl, computed⟩
    refine ⟨some v, rfl, computed.toFlows, .value integer computed.offers.whole,
      fun isOpen S inside fuel vars m ready holds => ?_⟩
    have leads := computed.runs isOpen S inside fuel vars m ready holds
    have unfolded : Expr.evalReturn vars [e] m.world = (e.eval vars >>= fun a => pure (some a)) m.world := by
      show EStateM.map some (e.eval vars) m.world = EStateM.bind (e.eval vars) _ m.world
      unfold EStateM.map EStateM.bind
      cases e.eval vars m.world <;> rfl
    dsimp only
    rw [unfolded]
    refine Cursor.comes_then leads fun left a m' _ ready' keeps gives => .here ?_
    exact ⟨m', rfl, ready', keeps, rfl, .value (ty ▸ gives)⟩

/-- Leaving the function. -/
theorem leaveWith_succeeds (able : c.Able) (returns : c.builder.convention.Returns t) {o : Option Operand}
    (returnable : Operand.Returnable t o) (span : Span) :
    Succeeds (leaveWith o span) c fun _ after => ∃ i, c.Pushed ⟨.ret o, .void, none⟩ i after := by
  unfold leaveWith
  refine (ensureOpen_succeeds able).bind fun _ mid opens => ?_
  refine .get (ensures_bind.mpr (ensures_lift.mpr ?_))
  obtain ⟨ty, passing⟩ : mid.builder.convention.Returns t := opens.adds.builder.convention ▸ returns
  have prepared : Build.prepareReturn mid.current o span mid.builder = .ok o mid.builder := by
    unfold Build.prepareReturn
    rw [get_bind_apply]
    cases returnable with
    | nothing isVoid =>
      rcases passing with ⟨integer, -⟩ | ⟨-, ignored⟩
      · rw [isVoid] at integer
        cases integer
      · rw [ignored]
        rfl
    | value integer whole =>
      rcases passing with ⟨-, ext, direct⟩ | ⟨isVoid, -⟩
      · have scalar : (mid.builder.convention.result.regShape.isAggregate ||
            mid.builder.convention.result.ty.isAggregate) = false := by
          unfold Placement.regShape
          rw [direct, ty, Ty.isAggregate_of_isInteger integer, Bool.or_false]
          show t.shape.isAggregate = false
          rw [Ty.shape_of_isInteger integer]
          rfl
        rw [direct]
        simp only [scalar]
        rfl
      · rw [isVoid] at integer
        cases integer
  refine .of_run prepared ?_
  refine (perform_succeeds opens.able returnable.whole rfl).bind fun i after pushed => ?_
  exact ⟨i, opens.pushed pushed⟩

/-- The code of a return outside any region with a cleanup: what evaluates the values, then the end of the
function. -/
theorem returnValues_leaves (able : c.Able) (declares : c.Declares types slots)
    (result : c.builder.signature.result = t) (returns : c.builder.convention.Returns t)
    (outside : c.cleanups = []) {values : List Expr} (returnable : Expr.areReturnable types t values = true)
    (span : Span) :
    Succeeds (returnValues values span) c fun _ after => ∃ mid o i, c.Flows mid ∧
      mid.Pushed ⟨.ret o, .void, none⟩ i after ∧ c.Runs mid (·.Holds types slots) (Expr.evalReturn · values)
        fun S v m' => S.Returns t m' o v := by
  unfold returnValues
  refine (returnOperand_succeeds able declares result returnable span).bind ?_
  rintro _ mid ⟨o, rfl, flows, fits, runs⟩
  refine .get ?_
  rw [flows.cleanups, outside]
  refine (leaveWith_succeeds flows.able (flows.adds.builder.convention ▸ returns) fits span).imp ?_
  rintro _ after ⟨i, pushed⟩
  exact ⟨mid, o, i, flows, pushed, runs⟩

end Emit

/-- Executing the end of a function. -/
theorem Cursor.Pushed.leave {S : Scene} {c after : Cursor} {i : InstrId} {t : Ty}
    {v : Option Int} {m : Machine} {fuel : Nat} {P : Config → Prop}
    (h : c.Pushed ⟨.ret o, .void, none⟩ i after) (isOpen : c.Open) (inside : after.In S)
    (returns : S.Returns t m o v) (ended : P (.over (.ok (.returned (v.map t.encode), m)))) :
    S.Leads fuel (c.spot S m) P := by
  obtain ⟨_, found⟩ := h.there inside rfl
  exact h.done isOpen inside (Scene.step_ret found returns) ended

end FlowIR

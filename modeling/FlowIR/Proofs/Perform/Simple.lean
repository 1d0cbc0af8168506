import FlowIR.Proofs.Perform.Basic

/-!
Statements that are no constructs: evaluations, assignments, returns and leaving a switch; and
statements in a row.
-/

namespace FlowIR

open Machine Emit World Ty FlowIR.Expr

/-! ### Calls for their effects -/

/-- How many bytes a call returns makes no difference to the world. -/
theorem World.ask_bind_unit (callee : String) (args : List Bytes) (size : Nat) :
    (ask callee args size >>= fun _ => pure ()) = (ask callee args 0 >>= fun _ =>
    pure () : EvalM Unit) := by
  funext w
  have unfolded : ∀ n, (ask callee args n >>= fun _ => pure () : EvalM Unit) w =
      EStateM.bind (ask callee args n) (fun _ => pure ()) w := fun _ => rfl
  rw [unfolded, unfolded, EStateM.bind, EStateM.bind]
  by_cases again : callee = rethrow
  · subst again
    cases args <;> rfl
  · rw [ask_of_ne again, ask_of_ne again]
    cases w.raises.get? callee with
    | none => rfl
    | some left => cases left <;> rfl

/-- What a call returns has the size that was asked for. -/
theorem Cursor.Comes.sized {S : Scene} {c : Cursor} {goal : Machine → Config} {m : Machine} {w : World}
    {Q : Bytes → Machine → Prop} {callee : String} {args : List Bytes} {size : Nat} {s : Config}
    (h : Comes S c goal m Q (ask callee args size w) s) :
    Comes S c goal m (fun b m' => Q b m' ∧ b.size = size) (ask callee args size w) s := by
  unfold ask at *
  cases answer : w.call callee args (.ok size) with
  | error f =>
    rw [answer] at h
    exact h
  | ok reply =>
    obtain ⟨_ | _, after⟩ := reply
    · rw [answer] at h
      obtain ⟨m', eq, ready, keeps, world, q⟩ := h
      obtain ⟨z, rfl⟩ := value_of_call answer
      exact ⟨m', eq, ready, keeps, world, q, Bytes.size_ofNat _ _⟩
    · rw [answer] at h
      exact h

namespace Ty

variable {t : Ty} {n : Nat}

theorem exists_sizeOf (h : t.hasSize = true) : ∃ n, Machine.sizeOf t.shape = .ok n := by
  unfold hasSize at h
  cases size : Machine.sizeOf t.shape with
  | ok n => exact ⟨n, rfl⟩
  | error f =>
    rw [size] at h
    cases h

theorem isZeroSized?_of_sizeOf (h : Machine.sizeOf t.shape = .ok n) : t.isZeroSized? = some (n == 0) := by
  unfold Machine.sizeOf at h
  obtain ⟨size, sized, fits⟩ := Checked.bind_eq_ok_iff.mp h
  unfold fitting at fits
  split at fits
  · cases fits
    have known : t.size? = some n := require_eq_ok_iff.mp sized
    rw [isZeroSized?, known]
    rfl
  · cases fits

end Ty

namespace Emit

variable {types : VarId → Option Ty} {slots : VarId → InstrId} {c : Cursor}

/-- A call of a function that returns a value of any type. -/
theorem applyCall_effect (able : c.Able) {args : List Operand} (whole : ∀ v ∈ args, v.isPlaceholder = false)
    (callee : String) {t : Ty} (sized : t.hasSize = true) :
    Succeeds (applyCall callee args t) c fun _ after => c.Flows after ∧
      c.Runs after (fun S values m => args.mapM (m.eval S.args) = .ok values)
        (fun values => ask callee values 0 >>= fun _ => pure ()) fun _ _ _ => True := by
  obtain ⟨n, size⟩ := exists_sizeOf sized
  unfold applyCall
  rw [isZeroSized?_of_sizeOf size]
  refine ensures_bind.mpr (.of_checked rfl ?_)
  split
  · have void : Machine.sizeOf .void = .ok 0 := rfl
    refine (callInstr_succeeds able whole callee void none).bind ?_
    rintro v after ⟨flows, -, runs⟩
    refine ⟨flows, fun isOpen S inside fuel values m ready known => ?_⟩
    refine Cursor.comes_then (runs isOpen S inside fuel values m ready known) ?_
    exact fun _ _ m' _ ready' keeps _ => .here ⟨m', rfl, ready', keeps, rfl, trivial⟩
  · next bytes =>
    have pos : 1 ≤ n := Nat.pos_of_ne_zero fun eq => bytes (by rw [eq]; rfl)
    refine (fresh_succeeds c "call").bind fun name mid renamed => ?_
    refine (callInstr_succeeds (renamed.able able) whole callee size (some name)).bind ?_
    rintro v c₁ ⟨flows, offers, runs⟩
    have flows₁ : c.Flows c₁ := renamed.flows able |>.trans flows
    have runs₁ : c.Runs c₁ (fun S values m => args.mapM (m.eval S.args) = .ok values) (ask callee · n)
        fun S b m' => m'.eval S.args v = .ok b ∧ b.size = n := by
      intro isOpen S inside fuel values m ready known
      obtain ⟨names, rfl⟩ := renamed.same
      exact (runs isOpen S inside fuel values m ready known).mono fun _ come => come.sized
    split
    · refine (newTemporary_succeeds flows₁.able size "tmp").bind ?_
      rintro _ c₂ ⟨tmp, rfl, reserves⟩
      have stored : (Op.store v (.result tmp)).Whole := by simp [Op.Whole, Op.operands, offers.whole]
      refine (perform_succeeds reserves.able stored rfl).bind fun i after pushed => ?_
      refine ⟨flows₁.trans ((reserves.flows flows₁.able).trans (pushed.flows rfl)),
        fun isOpen S inside fuel values m ready known => ?_⟩
      have inside₂ := inside.adds pushed.adds
      dsimp only
      rw [← ask_bind_unit callee values n]
      refine Cursor.comes_then (runs₁ isOpen S (inside₂.adds reserves.adds) fuel values m ready known) ?_
      rintro left b m' - ready' keeps ⟨value, rfl⟩
      rw [← reserves.spot]
      have isOpen₂ := (reserves.open_iff flows₁.able).mpr (flows₁.isOpen isOpen)
      refine pushed.store isOpen₂ inside reserves.slot ready' value size pos fun _ _ _ ready'' => .here ?_
      have new : c.graph.instrs.size ≤ tmp.index := reserves.index ▸ flows₁.adds.instrs_le
      exact ⟨_, rfl, ready'', keeps.put ⟨_, inside₂.slot reserves.slot, rfl⟩ (.inl new) _, rfl, trivial⟩
    · refine ⟨flows₁, fun isOpen S inside fuel values m ready known => ?_⟩
      dsimp only
      rw [← ask_bind_unit callee values n]
      refine Cursor.comes_then (runs₁ isOpen S inside fuel values m ready known) ?_
      exact fun _ _ m' _ ready' keeps _ => .here ⟨m', rfl, ready', keeps, rfl, trivial⟩

/-- The code of an expression that is evaluated for its effects. -/
theorem expr_effect (able : c.Able) (declares : c.Declares types slots) {e : Expr}
    (effect : e.isEffect types = true) :
    Succeeds (expr e) c fun _ after => c.Flows after ∧
      c.Runs after (·.Holds types slots) (e.perform ·) fun _ _ _ => True := by
  unfold isEffect at effect
  split at effect
  · next n callee args =>
    simp only [Bool.and_eq_true] at effect
    rw [expr]
    refine (operands_computed effect.2 c able declares).bind ?_
    rintro _ c₁ ⟨values, rfl, flows₁, offered, runs₁⟩
    have whole : ∀ v ∈ values, v.isPlaceholder = false := fun v hv => by
      obtain ⟨_, offers⟩ := offered v hv
      exact offers.whole
    refine (applyCall_effect flows₁.able whole callee effect.1).imp ?_
    rintro _ after ⟨flows, runs⟩
    refine ⟨flows₁.trans flows, fun isOpen S inside fuel vars m ready holds => ?_⟩
    dsimp only
    rw [Expr.perform]
    refine Cursor.comes_bind flows₁.adds
      (runs₁ isOpen S (inside.adds flows.adds) fuel vars m ready holds) ?_
    intro left bytes m₁ _ ready₁ _ known
    exact runs (flows₁.isOpen isOpen) S inside left bytes m₁ ready₁ known
  · next plain =>
    refine (expr_computed effect c able declares).imp ?_
    rintro _ after ⟨v, rfl, computed⟩
    refine ⟨computed.toFlows, fun isOpen S inside fuel vars m ready holds => ?_⟩
    dsimp only
    rw [Expr.perform]
    · refine Cursor.comes_then (computed.runs isOpen S inside fuel vars m ready holds) ?_
      exact fun _ _ m' _ ready' keeps _ => .here ⟨m', rfl, ready', keeps, rfl, trivial⟩
    · exact plain

end Emit

variable {F : Frame} {S : Scene} {c mid after : Cursor} {m m' : Machine} {σ : State} {fuel : Nat}
  {watched : Option InstrId} {t : Ty} {v : VarId} {span : Span}

/-- A statement whose code is always emitted. -/
theorem Enacts.of_succeeds {s : Stmt} {within : Bool} {code : EmitM Unit} (distinct : s.isDistinct = true)
    (h : ∀ c : Cursor, c.Hosts F → (within = true → c.Leavable) →
      Succeeds code c fun _ after => c.Performs F s after) : Enacts F s within code := by
  intro c host exits
  refine (h c host exits).mono (fun _ _ performs => ⟨performs, distinct⟩) fun _ _ failed => failed.elim

theorem enacts_eval {e : Expr} (effect : e.isEffect F.types = true) (quiet : e.isQuiet F.hides = true)
    (within : Bool) : Enacts F (.eval e) within (stmt (.eval e)) := by
  refine .of_succeeds rfl fun c host _ => ?_
  rw [stmt]
  refine (expr_effect host.able host.declares effect).bind ?_
  rintro _ after ⟨flows, runs⟩
  refine ⟨flows.able, flows.adds, fun isOpen S inside watched fuel σ m meets => ?_⟩
  refine meets.evaluate host (inside.adds flows.adds) (honest_perform quiet)
    (runs isOpen S inside fuel σ.vars m meets.ready meets.holds) ?_ ?_
  · intro left _ m' w _ run meets' keeps _
    exact .here ⟨.normal, _, .eval run, m', ⟨flows.isOpen isOpen, rfl⟩, meets'.toTracks,
      keeps.widen fun _ no => no.elim⟩
  · intro stop w t run lands
    exact ⟨_, _, .evalStops run, lands _ _⟩

/-! ### Variables -/

/-- A variable gets a value. -/
theorem Cursor.Meets.set (meets : c.Meets F S watched fuel σ m) (host : c.Hosts F) (inside : c.In S)
    (known : F.types v = some t) {a : Int} (ready : S.Ready (S.put m (F.slots v) (t.encode a))) :
    c.Proceeds F S watched m (S.put m (F.slots v) (t.encode a)) (σ.set v a) := by
  have slotOf : ∀ {u t'}, F.types u = some t' → S.graph.Slot (F.slots u) := fun known' =>
    ⟨_, inside.slot (host.declares _ _ known').1, rfl⟩
  have slot := slotOf known
  refine ⟨⟨ready, fun u t' known' => ?_, meets.world, fun i eq => ?_, meets.void⟩, ?_⟩
  · by_cases same : u = v
    · subst same
      cases known.symm.trans known'
      rw [meets.ready.cell_put slot, State.set]
      simp only [if_true]
    · rw [Scene.cell_put_ne slot (slotOf known') fun eq => same (host.apart _ _ eq), State.set]
      simp only [if_neg same]
      exact meets.holds u t' known'
  · obtain ⟨i', eq', hop⟩ := host.kept _ (meets.slot i eq)
    cases eq'
    have apart : i ≠ F.slots v := fun same => host.own i (meets.slot i eq) v t known same.symm
    rw [Scene.cell_put_ne slot ⟨_, inside.slot hop, rfl⟩ apart]
    exact meets.latest i eq
  · exact (Scene.Keeps.refl S _ _ m).put slot (.inr (.inl ⟨v, t, known, rfl⟩)) _

/-- Storing a value into a variable. -/
theorem Cursor.Pushed.assigns {k : InstrId} {value : Operand} {a : Int} {P : Config → Prop}
    (h : c.Pushed ⟨.store value (.result (F.slots v)), .void, none⟩ k after) (isOpen : c.Open)
    (inside : after.In S) (host : c.Hosts F) (known : F.types v = some t) (integer : t.isInteger = true)
    (meets : c.Meets F S watched fuel σ m) (gives : m.eval S.args value = .ok (t.encode a))
    (later : ∀ left m', left < fuel → c.Proceeds F S watched m m' (σ.set v a) →
      S.Leads left (after.spot S m') P) : S.Leads fuel (c.spot S m) P := by
  have size : Machine.sizeOf t.shape = .ok (t.encode a).size := by
    rw [size_encode]
    exact sizeOf_shape integer
  have pos : 1 ≤ (t.encode a).size := by
    rw [size_encode]
    exact bits_pos integer
  refine h.store isOpen inside (host.declares v t known).1 meets.ready gives size pos
    fun left fewer _ ready => later left _ fewer ?_
  exact meets.set host (inside.adds h.adds) known ready

/-- Noting something about a variable takes no code. -/
theorem updateVar_succeeds (able : c.Able) (v : VarId) {f : Variable → Variable} (slot : ∀ x, (f x).slot = x.slot)
    (ty : ∀ x, (f x).ty = x.ty) :
    Succeeds (liftM (Build.updateVar v f) : EmitM Unit) c fun _ after => c.Flows after ∧
      (∀ S m, after.spot S m = c.spot S m) := by
  refine ensures_lift.mpr (ensures_modify.mpr ⟨⟨⟨able.placed, able.entry, able.current, able.listed, able.late,
    able.pads, able.cleanups⟩, ?_, rfl, id⟩, fun _ _ => rfl⟩)
  exact { Cursor.Adds.refl c with builder := .updateVar c.builder v slot ty }

/-- Storing an integer. -/
theorem storeValue_succeeds (able : c.Able) (integer : t.isInteger = true) {v : Operand}
    (whole : v.isPlaceholder = false) (i : InstrId) :
    Succeeds (storeValue (.result i) v t) c fun k after =>
      c.Pushed ⟨.store v (.result i), .void, none⟩ k after := by
  have stored : storeOp (.result i) v t = .ok (.store v (.result i)) := by
    unfold storeOp
    rw [isAggregate_of_isInteger integer]
    rfl
  unfold storeValue
  rw [stored]
  refine ensures_bind.mpr (.of_checked rfl ?_)
  exact perform_succeeds able (by simp [Op.Whole, Op.operands, whole]) rfl

theorem constant_zero (integer : t.isInteger = true) : Machine.constant (.zero t.shape) = .ok (t.encode 0) := by
  have zeros : t.encode 0 = Bytes.zeros (t.bits / 8) := Bytes.ofNat_zero _
  simp only [Machine.constant, sizeOf_shape integer, bind, Except.bind, zeros]
  rfl

theorem Ty.fits_zero (t : Ty) : t.Fits 0 := by
  show t.wrap 0 = 0
  unfold wrap
  split <;> simp

/-- The code that initializes a variable computes the value, stores it and makes a note. -/
theorem Cursor.Performs.init {stored : Cursor} {value : Option Expr}
    {operand : Operand} {k : InstrId} (host : c.Hosts F) (known : F.types v = some t)
    (integer : t.isInteger = true) (quiet : ∀ e ∈ value, e.isQuiet F.hides = true) (flows : c.Flows mid)
    (pushed : mid.Pushed ⟨.store operand (.result (F.slots v)), .void, none⟩ k stored)
    (noted : stored.Flows after) (same : ∀ S m, after.spot S m = stored.spot S m)
    (runs : c.Runs mid (·.Holds F.types F.slots) (initial · value) (·.Gives operand t)) :
    c.Performs F (.init span v value) after where
  able := noted.able
  adds := flows.adds.trans (pushed.adds.trans noted.adds)
  runs := fun isOpen S inside watched fuel σ m meets => by
    have inside₂ := inside.adds noted.adds
    have inside₁ := inside₂.adds pushed.adds
    refine meets.evaluate host (inside₁.adds flows.adds) (honest_initial quiet)
      (runs isOpen S inside₁ fuel σ.vars m meets.ready meets.holds) ?_ ?_
    · intro left a m' w _ run meets' keeps gives
      refine pushed.assigns (flows.isOpen isOpen) inside₂ (host.adds flows.adds flows.able) known integer
        (meets'.adds flows.adds) gives.2 fun left' m'' _ follows => .here ?_
      refine ⟨.normal, _, .init run, m'', ⟨noted.isOpen (pushed.open_iff.mpr rfl), (same S m'').symm⟩, ?_⟩
      exact follows.since flows.adds (keeps.widen fun _ no => no.elim)
    · intro stop w t run lands
      exact ⟨_, _, .initStops run, lands _ _⟩

/-- An initialization stores the first value of a variable. -/
theorem enacts_init {value : Option Expr} (known : F.types v = some t) (integer : t.isInteger = true)
    (fits : ∀ e ∈ value, e.ty = t ∧ e.isScalar F.types = true ∧ e.isQuiet F.hides = true) (within : Bool) :
    Enacts F (.init span v value) within (stmt (.init span v value)) := by
  refine .of_succeeds rfl fun c host _ => ?_
  obtain ⟨x, found, ty⟩ := host.typed v t known
  have slot : x.slot = .result (F.slots v) := by
    obtain ⟨-, x', found', slot⟩ := host.declares v t known
    cases found.symm.trans found'
    exact slot
  rw [stmt]
  unfold initVar builder
  refine ensures_bind.mpr (.get (ensures_pure.mpr ?_))
  rw [found]
  dsimp only
  rw [slot, ty]
  cases value with
  | none =>
    have whole : (Op.store (.const (.zero t.shape)) (.result (F.slots v))).Whole := by
      simp [Op.Whole, Op.operands, Operand.isPlaceholder, Operand.placeholder?]
    refine (perform_succeeds host.able whole rfl).bind fun k stored pushed => ?_
    refine (updateVar_succeeds pushed.able v (fun _ => by rfl) fun _ => by rfl).imp ?_
    rintro _ after ⟨noted, same⟩
    refine .init host known integer (fun _ none => by cases none) (.refl host.able) pushed noted same
      fun _ S _ fuel vars m ready _ => ?_
    exact Cursor.comes_pure ready ⟨fits_zero t, constant_zero integer⟩
  | some e =>
    obtain ⟨rfl, scalar, quiet⟩ := fits e rfl
    refine (expr_computed scalar c host.able host.declares).bind ?_
    rintro _ mid ⟨operand, rfl, computed⟩
    refine (storeValue_succeeds computed.able integer computed.offers.whole _).bind fun k stored pushed => ?_
    refine (updateVar_succeeds pushed.able v (fun _ => by rfl) fun _ => by rfl).imp ?_
    rintro _ after ⟨noted, same⟩
    exact .init host known integer (fun _ some => by cases some; exact quiet) computed.toFlows pushed noted same
      computed.runs

/-- An assignment to a variable stores the value in its slot. -/
theorem enacts_assign {n : Node} {e : Expr} (known : F.types v = some n.ty)
    (scalar : e.isScalar F.types = true) (ty : e.ty = n.ty) (quiet : e.isQuiet F.hides = true) (within : Bool) :
    Enacts F (.assign (.var n v) e) within (stmt (.assign (.var n v) e)) := by
  refine .of_succeeds rfl fun c host _ => ?_
  have integer : n.ty.isInteger = true := ty ▸ isInteger_of_isScalar scalar
  obtain ⟨-, x, found, slot⟩ := host.declares v n.ty known
  rw [stmt]
  unfold assign
  rw [place]
  refine ensures_bind.mpr (.after (lookupVar_of_known found n.span) ?_)
  rw [slot]
  refine ensures_pure.mpr ?_
  refine (expr_computed scalar c host.able host.declares).bind ?_
  rintro _ mid ⟨operand, rfl, computed⟩
  refine (storeValue_succeeds computed.able integer computed.offers.whole _).bind fun k after pushed => ?_
  refine ⟨pushed.able, computed.adds.trans pushed.adds, fun isOpen S inside watched fuel σ m meets => ?_⟩
  have inside₁ := inside.adds pushed.adds
  refine meets.evaluate host (inside₁.adds computed.adds) (honest_eval quiet)
    (computed.runs isOpen S inside₁ fuel σ.vars m meets.ready meets.holds) ?_ ?_
  · intro left a m' w _ run meets' keeps gives
    refine pushed.assigns (computed.isOpen isOpen) inside (host.adds computed.adds computed.able) known integer
      (meets'.adds computed.adds) (ty ▸ gives.2) fun left' m'' _ follows => .here ?_
    refine ⟨.normal, _, .assign run, m'', ⟨pushed.open_iff.mpr rfl, rfl⟩, ?_⟩
    exact follows.since computed.adds (keeps.widen fun _ no => no.elim)
  · intro stop w t run lands
    exact ⟨_, _, .assignStops run, lands _ _⟩

/-- Leaving the innermost switch. -/
theorem enacts_leave (span : Span) : Enacts F (.leave span) true (stmt (.leave span)) := by
  refine .of_succeeds rfl fun c host exits => ?_
  obtain ⟨exit, head, made⟩ := exits rfl
  rw [stmt]
  refine .get ?_
  rw [head]
  dsimp only
  have whole : (Op.br exit).Whole := by rintro _ ⟨⟩
  refine (perform_succeeds host.able whole rfl).bind fun i after pushed => ?_
  refine ⟨pushed.able, pushed.adds, fun isOpen S inside watched fuel σ m meets => ?_⟩
  refine pushed.goes isOpen inside made fun _ _ _ => .here ?_
  exact ⟨.left, σ, .leave, exit, m, head, rfl, .refl meets.toTracks⟩

/-! ### Returns -/

/-- Asking for the slot of the result takes no code. -/
theorem returnSlot_succeeds (able : c.Able) (kept : c.Kept) (result : c.builder.signature.result = t)
    (integer : t.isInteger = true) :
    Succeeds (liftM Build.returnSlot : EmitM Operand) c fun v after => ∃ j, v = .result j ∧ c.Flows after ∧
      after.builder.returnSlot = some (.result j) ∧ after.graph.op? j = some (.alloca t.shape) ∧
      ∀ S m, after.spot S m = c.spot S m := by
  refine ensures_lift.mpr ?_
  unfold Build.returnSlot
  refine .get ?_
  cases made : c.builder.returnSlot with
  | some v =>
    obtain ⟨j, rfl, hop⟩ := kept v made
    exact ensures_pure.mpr ⟨j, rfl, .refl able, made, result ▸ hop, fun _ _ => rfl⟩
  | none =>
    dsimp only
    refine .get ?_
    rw [result]
    refine (ensures_lift.mp (newTemporary_succeeds able (sizeOf_shape integer) "retval")).bind ?_
    rintro _ b ⟨j, rfl, reserves⟩
    refine .modify (ensures_pure.mpr ?_)
    have isOpen := (reserves.open_iff able).mpr
    have result' := (congrArg Signature.result reserves.adds.builder.signature).trans result
    refine ⟨j, rfl, ⟨?_, ?_, reserves.cleanups, isOpen⟩, rfl, reserves.slot, fun S m => reserves.spot⟩
    · exact ⟨reserves.able.placed, reserves.able.entry, reserves.able.current, reserves.able.listed,
        reserves.able.late, reserves.able.pads, reserves.able.cleanups⟩
    · have grows := reserves.adds.builder
      refine { reserves.adds with builder := { grows with returnSlot := ?_ }, kept := ?_, returnSlot := ?_ }
      · intro v hv
        rw [made] at hv
        cases hv
      · rintro - _ ⟨⟩
        have shape : b.signature.result.shape = t.shape := congrArg shape result'
        exact ⟨j, rfl, shape ▸ reserves.slot⟩
      · rintro _ ⟨⟩
        exact .inr ⟨j, rfl, Nat.le_of_eq reserves.index.symm⟩

/-- Keeping the result on its way through cleanups. -/
theorem keepResult_succeeds (host : c.Hosts F) {o : Option Operand} (returnable : Operand.Returnable F.result o) :
    Succeeds (keepResult o) c fun _ after => c.Flows after ∧
      (c.Open → ∀ S : Scene, after.In S → ∀ watched fuel σ m v, c.Meets F S watched fuel σ m →
        S.Returns F.result m o v → S.Leads fuel (c.spot S m) fun t => ∃ m', t = after.spot S m' ∧
          c.Proceeds F S watched m m' { σ with latest := v } ∧ (F.result.isInteger = true → ∃ j a,
            after.builder.returnSlot = some (.result j) ∧ v = some a ∧ S.cell m' j = F.result.encode a)) := by
  unfold keepResult builder
  refine ensures_bind.mpr (.get (ensures_pure.mpr ?_))
  rw [host.result]
  cases returnable with
  | nothing isVoid =>
    refine ensures_pure.mpr ⟨.refl host.able, fun _ S _ watched fuel σ m v meets returns => .here ?_⟩
    cases returns
    have unset : σ.latest = none := meets.void isVoid
    have same : { σ with latest := none } = σ := by rw [← unset]
    rw [same, isVoid]
    exact ⟨m, rfl, .refl meets.toTracks, by rintro ⟨⟩⟩
  | @value v integer whole =>
    dsimp only
    rw [isZeroSized?_of_isInteger integer]
    refine ensures_bind.mpr (.of_checked rfl ?_)
    rw [if_neg Bool.false_ne_true]
    refine (returnSlot_succeeds host.able host.kept host.result integer).bind ?_
    rintro _ mid ⟨j, rfl, flows, made, hop, same⟩
    refine (storeValue_succeeds flows.able integer whole j).bind fun k after pushed => ?_
    refine ⟨flows.trans (pushed.flows rfl), fun isOpen S inside watched fuel σ m r meets returns => ?_⟩
    have inside₁ := inside.adds pushed.adds
    cases returns with
    | @value _ a gives =>
      have size : Machine.sizeOf F.result.shape = .ok (F.result.encode a).size := by
        rw [size_encode]
        exact sizeOf_shape integer
      have pos : 1 ≤ (F.result.encode a).size := by
        rw [size_encode]
        exact bits_pos integer
      have slot : S.graph.Slot j := ⟨_, inside₁.slot hop, rfl⟩
      have held : S.cell (S.put m j (F.result.encode a)) j = F.result.encode a := meets.ready.cell_put slot
      rw [← same]
      refine pushed.store (flows.isOpen isOpen) inside hop meets.ready gives.2 size pos
        fun left _ _ ready => .here ⟨_, rfl, ⟨⟨ready, ?_, meets.world, ?_, ?_⟩, ?_⟩, ?_⟩
      · intro v t known
        have hopv := (host.declares v t known).1
        have own := (host.adds flows.adds flows.able).own j made v t known
        rw [Scene.cell_put_ne slot ⟨_, (inside₁.adds flows.adds).slot hopv, rfl⟩ own]
        exact meets.holds v t known
      · intro i eq
        have slot' := flows.adds.builder.returnSlot _ (meets.slot i eq)
        cases made.symm.trans slot'
        exact ⟨a, rfl, held⟩
      · intro isVoid
        rw [isVoid] at integer
        cases integer
      · refine (Scene.Keeps.refl S _ _ m).put slot ?_ _
        rcases flows.adds.returnSlot _ made with old | ⟨_, eq, new⟩
        · exact .inr (.inr (.inl old))
        · cases eq
          exact .inl new
      · exact fun _ => ⟨j, a, pushed.adds.builder.returnSlot _ made, rfl, held⟩

structure Cursor.EntersCleanup (c : Cursor) (reason : Emit.Reason) (flag : InstrId) (block : BlockId)
    (after : Cursor) : Prop where
  able : after.Able
  adds : c.Adds after
  cleanups : after.cleanups = c.cleanups
  runs : c.Open → ∀ S : Scene, after.In S → ∀ fuel m (P : Config → Prop), S.Ready m →
    (∀ left, left < fuel → S.Ready (S.put m flag (i8.encode reason.code)) →
      S.Leads left (.before block (S.graph.body block) (S.put m flag (i8.encode reason.code))) P) →
    S.Leads fuel (c.spot S m) P

/-- The reason is stored in the flag, and the cleanup is entered. -/
theorem enterCleanup_succeeds (able : c.Able) (reason : Emit.Reason) {flag : InstrId}
    (hop : c.graph.op? flag = some (.alloca .i8)) {block : BlockId} (made : block.index < c.graph.blocks.size) :
    Succeeds (enterCleanup reason (.result flag) block) c fun _ after =>
      c.EntersCleanup reason flag block after := by
  unfold enterCleanup
  have whole : (Op.store (.i8 reason.code) (.result flag)).Whole := by
    rintro v (_ | ⟨_, _ | ⟨_, ⟨⟩⟩⟩) <;> rfl
  refine (perform_succeeds able whole rfl).bind fun k c₁ stored => ?_
  refine (perform_succeeds stored.able (by rintro _ ⟨⟩) rfl).bind
    fun i after pushed => ?_
  refine ⟨pushed.able, stored.adds.trans pushed.adds, pushed.cleanups.trans stored.cleanups,
    fun isOpen S inside fuel m P ready later => ?_⟩
  have value : m.eval S.args (.i8 reason.code) = .ok (i8.encode reason.code) :=
    constant_int (t := .i8) rfl reason.code
  have size : (i8.encode reason.code).size = 1 := size_encode _ _
  refine stored.store isOpen (inside.adds pushed.adds) hop ready value (by rw [size]; rfl)
    (Nat.le_of_eq size.symm) fun left fewer _ ready' => ?_
  refine pushed.goes (stored.open_iff.mpr rfl) inside (Nat.lt_of_lt_of_le made stored.adds.blocks_le)
    fun left' fewer' _ => ?_
  exact later left' (Nat.lt_trans fewer' fewer) ready'

structure Cursor.Routes (c : Cursor) (F : Frame) (k : Cleanup) (after : Cursor) : Prop where
  able : after.Able
  adds : c.Adds after
  marked : after.marked = true
  runs : c.Open → ∀ S : Scene, after.In S → ∀ watched fuel σ m, c.Meets F S watched fuel σ m →
    S.Leads fuel (c.spot S m) fun t => ∃ m' i, k.flag = .result i ∧
      t = .before k.block (S.graph.body k.block) m' ∧ c.Proceeds F S watched m m' σ ∧
      S.cell m' i = i8.encode Emit.Reason.ret.code ∧
      ∀ j, c.builder.returnSlot = some (.result j) → S.cell m' j = S.cell m j

/-- A return inside a region enters the innermost cleanup. -/
theorem routeReturn_succeeds (host : c.Hosts F) {k : Cleanup} (head : c.cleanups.head? = some k) :
    Succeeds (routeReturn k) c fun _ after => c.Routes F k after := by
  obtain ⟨ks, eq⟩ := List.head?_eq_some_iff.mp head
  have mem : k ∈ c.cleanups := eq ▸ List.mem_cons_self
  obtain ⟨made, i, flag, hop⟩ := host.able.cleanups k mem
  unfold routeReturn
  refine .modify ?_
  rw [eq, flag]
  dsimp only
  generalize hc : ({ c with cleanups := { k with returns := true } :: ks } : Cursor) = noted
  have adds : c.Adds noted := by
    rw [← hc]
    refine { Cursor.Adds.refl c with cleanups := ?_ }
    rw [eq]
    exact ⟨true, fun _ => rfl, rfl⟩
  have able : noted.Able := by
    rw [← hc]
    refine ⟨host.able.placed, host.able.entry, host.able.current, host.able.listed, host.able.late,
      host.able.pads, fun k' hk' => ?_⟩
    rcases List.mem_cons.mp hk' with rfl | later
    · exact ⟨made, i, flag, hop⟩
    · exact host.able.cleanups k' (eq ▸ List.mem_cons_of_mem _ later)
  refine (enterCleanup_succeeds able .ret (adds.op? hop) (Nat.lt_of_lt_of_le made adds.blocks_le)).imp ?_
  intro _ after enters
  refine ⟨enters.able, adds.trans enters.adds, ?_, fun isOpen S inside watched fuel σ m meets => ?_⟩
  · unfold Cursor.marked
    rw [enters.cleanups, ← hc]
    rfl
  have inside₁ := (inside.adds enters.adds).adds adds
  have slot : S.graph.Slot i := ⟨_, inside₁.slot hop, rfl⟩
  have own := host.flags k mem i flag
  have start : c.spot S m = noted.spot S m := by rw [← hc]; rfl
  have isOpen' : noted.Open := by rw [← hc]; exact isOpen
  rw [start]
  refine enters.runs isOpen' S inside fuel m _ meets.ready fun left _ ready => .here ?_
  have keeps : S.Keeps (· = i) c.graph.instrs.size m (S.put m i (i8.encode Emit.Reason.ret.code)) :=
    (Scene.Keeps.refl S (· = i) _ m).put slot (.inr rfl) _
  refine ⟨_, i, flag, rfl, ⟨meets.toTracks.keeps host inside₁ meets.slot ready keeps ?_ meets.world, ?_⟩,
    meets.ready.cell_put slot, fun j made' => ?_⟩
  · rintro _ rfl
    exact own
  · exact (Scene.Keeps.refl S _ _ m).put slot (.inr (.inr (.inr ⟨k, head, flag⟩))) _
  · obtain ⟨_, eq', hop'⟩ := host.kept _ made'
    cases eq'
    exact Scene.cell_put_ne slot ⟨_, inside₁.slot hop', rfl⟩ fun same => own.2 (same ▸ made')

/-- A return leaves the function, or enters the innermost cleanup on its way out. -/
theorem enacts_ret {values : List Expr} (returnable : areReturnable F.types F.result values = true)
    (quiet : values.all (·.isQuiet F.hides) = true) (within : Bool) :
    Enacts F (.ret span values) within (stmt (.ret span values)) := by
  refine .of_succeeds rfl fun c host _ => ?_
  rw [stmt]
  cases head : c.cleanups.head? with
  | none =>
    have outside := List.head?_eq_none_iff.mp head
    refine (returnValues_leaves host.able host.declares host.result host.returns outside returnable
      span).imp ?_
    rintro _ after ⟨mid, o, i, flows, pushed, runs⟩
    refine ⟨pushed.able, flows.adds.trans pushed.adds, fun isOpen S inside watched fuel σ m meets => ?_⟩
    have inside₁ := inside.adds pushed.adds
    refine meets.evaluate host (inside₁.adds flows.adds) (honest_evalReturn quiet)
      (runs isOpen S inside₁ fuel σ.vars m meets.ready meets.holds) ?_ ?_
    · intro left v m' w _ run meets' keeps returns
      exact pushed.leave (flows.isOpen isOpen) inside returns ⟨_, _, .ret run, .ended head rfl meets'.world⟩
    · intro stop w t run lands
      exact ⟨_, _, .retStops run, lands _ _⟩
  | some k =>
    unfold returnValues
    refine (returnOperand_succeeds host.able host.declares host.result returnable span).bind ?_
    rintro _ c₁ ⟨o, rfl, flows, fits, runs⟩
    have host₁ := host.adds flows.adds flows.able
    refine .get ?_
    rw [flows.cleanups, head]
    dsimp only
    refine (keepResult_succeeds host₁ fits).bind ?_
    rintro _ c₂ ⟨flows', runs'⟩
    have host₂ := host₁.adds flows'.adds flows'.able
    have head₂ : c₂.cleanups.head? = some k := by rw [flows'.cleanups, flows.cleanups, head]
    refine (routeReturn_succeeds host₂ head₂).imp fun _ after routes => ?_
    refine ⟨routes.able, flows.adds.trans (flows'.adds.trans routes.adds),
      fun isOpen S inside watched fuel σ m meets => ?_⟩
    have inside₂ := inside.adds routes.adds
    have inside₁ := inside₂.adds flows'.adds
    refine meets.evaluate host (inside₁.adds flows.adds) (honest_evalReturn quiet)
      (runs isOpen S inside₁ fuel σ.vars m meets.ready meets.holds) ?_ ?_
    · intro left v m₁ w _ run meets₁ keeps returns
      have isOpen₁ := flows.isOpen isOpen
      refine (runs' isOpen₁ S inside₂ watched left _ m₁ v (meets₁.adds flows.adds) returns).bind ?_
      rintro left' _ - bound ⟨m₂, rfl, follows, held⟩
      have meets₂ := (meets₁.next follows.toTracks bound).adds (flows.adds.trans flows'.adds)
      refine (routes.runs (flows'.isOpen isOpen₁) S inside watched left' _ m₂ meets₂).mono ?_
      rintro t ⟨m₃, i, flag, rfl, follows', cell, same⟩
      refine ⟨_, _, .ret run, ?_⟩
      have keeps₂ := (keeps.widen fun _ no => no.elim).trans
        (follows.since flows.adds (.refl _ _ _ _)).keeps
      unfold Cursor.Lands Cursor.Leaves
      rw [head]
      refine ⟨m₃, i, flag, rfl, follows'.since (flows.adds.trans flows'.adds) keeps₂, cell, routes.marked, ?_⟩
      intro integer
      obtain ⟨j, a, made, eq, value⟩ := held integer
      exact ⟨j, a, routes.adds.builder.returnSlot _ made, eq, (same j made).trans value⟩
    · intro stop w t run lands
      exact ⟨_, _, .retStops run, lands _ _⟩

/-! ### Statements in a row -/

theorem Cursor.Performs.empty (able : c.Able) : c.Performs F (.block []) c where
  able := able
  adds := .refl c
  runs := fun isOpen _ _ _ _ σ m meets =>
    .here ⟨.normal, σ, .empty, m, ⟨isOpen, rfl⟩, .refl meets.toTracks⟩

theorem Cursor.Performs.sequence {s : Stmt} {ss : List Stmt} (first : c.Performs F s mid)
    (rest : mid.Performs F (.block ss) after) : c.Performs F (.block (s :: ss)) after where
  able := rest.able
  adds := first.adds.trans rest.adds
  runs := fun isOpen S inside watched fuel σ m meets => by
    have inside₁ := inside.adds rest.adds
    refine Cursor.Does.bind (first.runs isOpen S inside₁ watched fuel σ m meets) (.refl c) (.refl _ _ _ _) ?_ ?_
    · rintro left σ₁ m₁ _ fewer bound exec ⟨isOpen₁, rfl⟩ follows
      have meets₁ := (meets.next follows.toTracks bound).adds first.adds
      refine (rest.runs isOpen₁ S inside watched left σ₁ m₁ meets₁).mono ?_
      rintro t ⟨exit, σ₂, exec', lands⟩
      exact ⟨exit, σ₂, .sequence exec exec', lands.since first.adds follows.keeps⟩
    · intro exit σ₁ t early exec lands
      exact ⟨exit, σ₁, .cutShort exec early, lands.onward rest.adds.builder rest.adds.marked
        fun _ eq => absurd eq early⟩

end FlowIR

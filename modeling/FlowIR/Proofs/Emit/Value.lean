import FlowIR.Proofs.Emit.Spot

/-!
The code of an expression computes the value of the expression.

`Cursor.Computed` says it of one expression at one cursor: the code can be emitted, and wherever the
finished function is run, it comes to what evaluating the expression comes to (`Cursor.Comes`). Each
way of forming expressions has a lemma of its own, and `Emit.expr_computed` puts them together.
-/

namespace FlowIR

open Machine Cursor Ty

/-! ### Variables and values -/

section Variables

variable {types : VarId → Option Ty} {slots : VarId → InstrId} {vars : VarId → Int} {c after : Cursor}
  {S : Scene} {m m' : Machine} {v : Operand} {t : Ty}

/-- The variables of the given types have the given slots. -/
def Cursor.Declares (c : Cursor) (types : VarId → Option Ty) (slots : VarId → InstrId) : Prop :=
  ∀ v t, types v = some t → c.graph.op? (slots v) = some (.alloca t.shape) ∧
    ∃ x, c.builder.var? v = some x ∧ x.slot = .result (slots v)

theorem Cursor.Declares.adds (h : c.Declares types slots) (k : c.Adds after) : after.Declares types slots := by
  intro v t known
  obtain ⟨hop, x, found, slot⟩ := h v t known
  obtain ⟨x', found', slot', -⟩ := k.builder.vars v x found
  exact ⟨k.op? hop, x', found', slot'.trans slot⟩

/-- The slots of the variables hold the given values. -/
def Scene.Holds (S : Scene) (types : VarId → Option Ty) (slots : VarId → InstrId) (vars : VarId → Int)
    (m : Machine) : Prop :=
  ∀ v t, types v = some t → S.cell m (slots v) = t.encode (vars v)

theorem Scene.Holds.keeps (h : S.Holds types slots vars m) (declares : c.Declares types slots)
    (inside : c.In S) (keeps : S.Keeps (fun _ => False) c.graph.instrs.size m m') : S.Holds types slots vars m' := by
  intro v t known
  obtain ⟨hop, -⟩ := declares v t known
  rw [keeps.cells (slots v) (Graph.index_lt_of_op? hop) ⟨_, inside.slot hop, rfl⟩ id]
  exact h v t known

def Scene.Gives (S : Scene) (v : Operand) (t : Ty) (a : Int) (m : Machine) : Prop :=
  t.Fits a ∧ m.eval S.args v = .ok (t.encode a)

theorem Scene.Gives.keeps {a : Int} {shape : Shape} (h : S.Gives v t a m) (offers : c.Offers v shape)
    (keeps : S.Keeps (fun _ => False) c.graph.instrs.size m m') : S.Gives v t a m' :=
  ⟨h.1, (keeps.eval offers.below).trans h.2⟩

end Variables

/-! ### Steps of the machine -/

namespace Scene

variable {S : Scene} {m : Machine} {k : InstrId} {name : Option String} {shape : Shape}

theorem step_arith {op : ArithOp} {l r : Operand} {s : Shape} {a b : Bytes}
    (hk : S.graph.instr k = .ok ⟨.arith op l r, shape, name⟩) (hs : S.graph.shapeOf l = .ok s)
    (ha : m.eval S.args l = .ok a) (hb : m.eval S.args r = .ok b) :
    step S.graph S.args m k = (arith op s a b).map (m.proceed k) := by
  simp only [step, hk, hs, ha, hb, bind, Except.bind]
  cases arith op s a b <;> rfl

theorem step_compare {pred : Pred} {l r : Operand} {s : Shape} {a b : Bytes} {truth : Bool}
    (hk : S.graph.instr k = .ok ⟨.compare pred l r, shape, name⟩) (hs : S.graph.shapeOf l = .ok s)
    (ha : m.eval S.args l = .ok a) (hb : m.eval S.args r = .ok b) (result : compare pred s a b = .ok truth) :
    step S.graph S.args m k = .ok (.next, m.keep k (Bytes.ofNat 1 truth.toNat)) := by
  simp only [step, hk, hs, ha, hb, bind, Except.bind, result]
  rfl

theorem step_cast {op : CastOp} {v : Operand} {s dst : Shape} {a b : Bytes}
    (hk : S.graph.instr k = .ok ⟨.cast op v dst, shape, name⟩) (hs : S.graph.shapeOf v = .ok s)
    (ha : m.eval S.args v = .ok a) (result : cast op s dst a = .ok b) :
    step S.graph S.args m k = .ok (.next, m.keep k b) := by
  simp only [step, hk, hs, ha, bind, Except.bind, result]
  rfl

theorem step_condBr {v : Operand} {yes no : BlockId} {w : Nat}
    (hk : S.graph.instr k = .ok ⟨.condBr v yes no, shape, name⟩) (hv : m.evalWord S.args v = .ok w) :
    step S.graph S.args m k = .ok (.jump (if w % 2 = 1 then yes else no), m) := by
  simp only [step, hk, hv, bind, Except.bind]
  rfl

/-- A call, or its fault. -/
theorem step_call {callee : String} {args : List Operand} {values : List Bytes}
    (hk : S.graph.instr k = .ok ⟨.call callee args, shape, name⟩) (hv : args.mapM (m.eval S.args) = .ok values) :
    step S.graph S.args m k =
      match m.world.call callee values (sizeOf shape) with
      | .ok (.value v, world) => .ok (.next, { m with world }.keep k v)
      | .ok (.raise exception, world) => .ok (.done (.raised exception), { m with world })
      | .error f => .error f := by
  simp only [step, hk, hv, bind, Except.bind]
  cases m.world.call callee values (sizeOf shape) with
  | error f => rfl
  | ok answer => obtain ⟨_ | _, world⟩ := answer <;> rfl

theorem step_invoke {callee : String} {args : List Operand} {values : List Bytes} {normal unwind : BlockId}
    (hk : S.graph.instr k = .ok ⟨.invoke callee args normal unwind, shape, name⟩)
    (hv : args.mapM (m.eval S.args) = .ok values) :
    step S.graph S.args m k =
      match m.world.call callee values (sizeOf shape) with
      | .ok (.value v, world) => .ok (.jump normal, { m with world }.keep k v)
      | .ok (.raise exception, world) =>
        .ok (.jump unwind, { m with world, inFlight := some exception })
      | .error f => .error f := by
  simp only [step, hk, hv, bind, Except.bind]
  cases m.world.call callee values (sizeOf shape) with
  | error f => rfl
  | ok answer => obtain ⟨_ | _, world⟩ := answer <;> rfl

end Scene

/-! ### Expressions -/

/-- Wherever the code between the cursors is run with what is given, it comes to what the evaluation comes to. -/
def Cursor.Runs {ι α : Type} (c after : Cursor) (given : Scene → ι → Machine → Prop) (eval : ι → EvalM α)
    (Q : Scene → α → Machine → Prop) : Prop :=
  c.Open → ∀ S : Scene, after.In S → ∀ fuel x m, S.Ready m → given S x m →
    S.Leads fuel (c.spot S m) (Comes S c (after.spot S) m (Q S) (eval x m.world))

/-- The code has been emitted that computes an expression, with the operand as the result. -/
structure Cursor.Computed (c : Cursor) (types : VarId → Option Ty) (slots : VarId → InstrId) (e : Expr)
    (v : Operand) (after : Cursor) : Prop extends c.Flows after where
  offers : after.Offers v e.ty.shape
  runs : c.Runs after (·.Holds types slots) (e.eval ·) (·.Gives v e.ty)

def Codes (types : VarId → Option Ty) (slots : VarId → InstrId) (e : Expr)
    (code : EmitM (Option Operand)) : Prop :=
  ∀ c : Cursor, c.Able → c.Declares types slots →
    Succeeds code c fun r after => ∃ v, r = some v ∧ c.Computed types slots e v after

namespace Emit

variable {types : VarId → Option Ty} {slots : VarId → InstrId} {c : Cursor}

/-- A variable that is there is found. -/
theorem lookupVar_of_known {v : VarId} {x : Variable} (found : c.builder.var? v = some x) (span : Span) :
    lookupVar v span c = .ok x c := by
  unfold lookupVar builder
  rw [bind_assoc, get_bind_apply, pure_bind, found]
  rfl

variable (able : c.Able)

include able

/-- Code of a constant. -/
theorem constant_computed {e : Expr} {k : Constant} {a : Int} (shape : k.shape = e.ty.shape) (fits : e.ty.Fits a)
    (bytes : constant k = .ok (e.ty.encode a)) (means : ∀ vars, e.eval vars = pure a) :
    c.Computed types slots e (.const k) c where
  toFlows := .refl able
  offers := shape ▸ c.offers_const k
  runs := fun _ S _ fuel vars m ready _ => by
    dsimp only
    rw [means vars]
    exact comes_pure ready ⟨fits, bytes⟩

/-- Reading a slot. -/
theorem load_succeeds {i : InstrId} {t : Ty} (integer : t.isInteger = true)
    (hop : c.graph.op? i = some (.alloca t.shape)) (tag : String) :
    Succeeds (loadValue (.result i) t tag) c fun v after => c.Flows after ∧ after.Offers v t.shape ∧
      c.Runs after (fun S a m => S.cell m i = t.encode a) (fun a => pure (t.wrap a)) (·.Gives v t) := by
  unfold loadValue
  rw [if_neg (by rw [isAggregate_of_isInteger integer]; exact Bool.false_ne_true)]
  have whole : (Op.load (.result i)).Whole := fun v hv => by cases List.mem_singleton.mp hv; rfl
  refine (named_succeeds able whole rfl tag t.shape).imp ?_
  rintro _ after ⟨k, name, rfl, pushed⟩
  refine ⟨pushed.flows rfl, pushed.offers, fun isOpen S inside fuel a m ready holds => ?_⟩
  obtain ⟨name', found⟩ := pushed.there inside rfl
  have slot := (inside.adds pushed.adds).slot hop
  have size : Machine.sizeOf t.shape = .ok (S.cell m i).size := by
    rw [holds, size_encode]
    exact sizeOf_shape integer
  refine pushed.value isOpen inside rfl rfl ready (Scene.step_load_all ready found ⟨_, slot, rfl⟩ size)
    fun value => ⟨fits_wrap t a, ?_⟩
  rw [value, holds, encode_wrap integer]

/-- Applying an operator. -/
theorem applyBinary_succeeds {lhs : Node} {l r : Operand} (op : BinaryOp)
    (integer : lhs.ty.isInteger = true) (hl : c.Offers l lhs.ty.shape) (hr : c.Offers r lhs.ty.shape) :
    Succeeds (applyBinary op lhs l r) c fun v after => c.Flows after ∧
      after.Offers v (op.resultTy lhs.ty).shape ∧
      (c.Open → ∀ S : Scene, after.In S → ∀ fuel a b m, S.Ready m → S.Gives l lhs.ty a m →
        S.Gives r lhs.ty b m → S.Leads fuel (c.spot S m) (Cursor.Comes S c (after.spot S) m
          (S.Gives v (op.resultTy lhs.ty)) (EvalM.divided (op.apply lhs.ty a b) m.world))) := by
  unfold applyBinary
  by_cases comparison : op.isComparison = true
  · rw [if_pos comparison, BinaryOp.resultTy, if_pos comparison]
    have whole : (Op.compare (op.pred lhs.ty) l r).Whole := by
      simp [Op.Whole, Op.operands, hl.whole, hr.whole]
    refine (named_succeeds able whole rfl _ .i1).bind ?_
    rintro _ mid ⟨i, name, rfl, compared⟩
    have whole' : (Op.cast .zext (.result i) .i8).Whole := fun v hv => by
      cases List.mem_singleton.mp hv
      rfl
    refine (named_succeeds compared.able whole' rfl "zext" .i8).imp ?_
    rintro _ after ⟨j, name', rfl, cast⟩
    refine ⟨(compared.flows rfl).trans (cast.flows rfl), cast.offers,
      fun isOpen S inside fuel a b m ready ga gb => ?_⟩
    have inside₁ := inside.adds cast.adds
    obtain ⟨truth, result, value⟩ := compare_encode integer comparison ga.1 gb.1
    obtain ⟨_, found⟩ := compared.there inside₁ rfl
    obtain ⟨_, found'⟩ := cast.there inside rfl
    have exec := Scene.step_compare found (hl.shapeOf (inside₁.adds compared.adds)) ga.2 gb.2 result
    rw [value]
    refine comes_bind (x := pure truth) (f := fun t => pure t.toInt)
      (Q := fun t m' => m'.eval S.args (.result i) = .ok (Bytes.ofNat 1 t.toNat)) compared.adds
      (compared.value isOpen inside₁ rfl rfl ready exec fun value => value) ?_
    intro left t m' _ ready' _ held
    have exec' : step S.graph S.args m' j = .ok (.next, m'.keep j (bool.encode t.toInt)) :=
      Scene.step_cast found' (compared.offers.shapeOf inside₁) held (by cases t <;> rfl)
    refine cast.value ((compared.flows rfl).isOpen isOpen) inside rfl rfl ready' exec' fun value => ?_
    exact ⟨by cases t <;> rfl, value⟩
  · rw [if_neg comparison, BinaryOp.resultTy, if_neg comparison]
    obtain ⟨aop, means⟩ : ∃ aop, op.arith? lhs.ty = some aop := by
      unfold BinaryOp.arith?
      rw [isFloat_of_isInteger integer, isAggregate_of_isInteger integer,
        isVoid_of_isInteger integer]
      cases op <;> first | exact ⟨_, rfl⟩ | exact absurd rfl comparison
    have whole : (Op.arith aop l r).Whole := by simp [Op.Whole, Op.operands, hl.whole, hr.whole]
    simp only [means]
    refine (named_succeeds able whole rfl aop.text lhs.ty.shape).imp ?_
    rintro _ after ⟨i, name, rfl, pushed⟩
    refine ⟨pushed.flows rfl, pushed.offers, fun isOpen S inside fuel a b m ready ga gb => ?_⟩
    obtain ⟨_, found⟩ := pushed.there inside rfl
    have exec := Scene.step_arith found (hl.shapeOf (inside.adds pushed.adds)) ga.2 gb.2
    rw [arith_encode integer means ga.1 gb.1] at exec
    have fits : ∀ u, op.apply lhs.ty a b = some u → lhs.ty.Fits u := fun u applied => by
      have fits := BinaryOp.fits_apply applied
      rwa [BinaryOp.resultTy, if_neg comparison] at fits
    cases applied : op.apply lhs.ty a b with
    | none =>
      rw [applied] at exec
      exact pushed.fault isOpen inside exec rfl
    | some u =>
      rw [applied] at exec
      exact pushed.value isOpen inside rfl rfl ready exec fun value => ⟨fits u applied, value⟩

/-- The truth value of a condition, as a branch takes it. -/
theorem condition_succeeds (declares : c.Declares types slots) {cond : Expr}
    {code : EmitM (Option Operand)} (isBool : cond.ty = .bool) (codes : Codes types slots cond code) :
    Succeeds (condition cond code) c fun r after => ∃ v, r = some v ∧ c.Flows after ∧
      after.Offers v .i1 ∧ c.Runs after (·.Holds types slots) (cond.eval ·) fun S a m' =>
        ∃ w, m'.evalWord S.args v = .ok w ∧ (w % 2 = 1 ↔ a % 2 = 1) := by
  unfold condition
  cases literal : cond.boolLiteral? with
  | some b =>
    refine ⟨_, rfl, .refl able, c.offers_const _, fun _ S _ fuel vars m ready _ => ?_⟩
    obtain ⟨n, eq⟩ : ∃ n, cond = .bool n b := by
      cases cond <;> first | cases literal; exact ⟨_, rfl⟩ | cases literal
    subst eq
    dsimp only
    rw [Expr.eval]
    exact comes_pure ready (by cases b <;> exact ⟨_, rfl, by decide⟩)
  | none =>
    refine (codes c able declares).bind ?_
    rintro _ mid ⟨v, rfl, computed⟩
    have whole : (Op.cast .trunc v .i1).Whole := fun u hu => by
      cases List.mem_singleton.mp hu
      exact computed.offers.whole
    refine (named_succeeds computed.able whole rfl "trunc" .i1).bind ?_
    rintro _ after ⟨i, name, rfl, cast⟩
    refine ⟨_, rfl, computed.toFlows.trans (cast.flows rfl), cast.offers,
      fun isOpen S inside fuel vars m ready holds => ?_⟩
    have inside₁ := inside.adds cast.adds
    obtain ⟨_, found⟩ := cast.there inside rfl
    refine comes_map (computed.runs isOpen S inside₁ fuel vars m ready holds) ?_
    rintro left a m' - ready' keeps ⟨-, held⟩
    rw [isBool] at held
    have small : (bool.encode a).word = bool.word a := word_encode rfl a
    have exec : step S.graph S.args m' i = .ok (.next, m'.keep i (Bytes.ofNat 1 (bool.word a % 2))) := by
      refine Scene.step_cast found (computed.offers.shapeOf inside₁) held ?_
      rw [isBool, ← small]
      rfl
    refine (cast.value (computed.isOpen isOpen) inside rfl rfl ready' exec fun value => ?_).mono
      fun _ come => come.since computed.adds.pads computed.adds.instrs_le keeps
    refine ⟨bool.word a % 2, ?_, ?_⟩
    · unfold evalWord
      rw [Checked.bind_eq_ok_iff]
      refine ⟨_, value, congrArg Except.ok ?_⟩
      rw [Bytes.word_ofNat]
      exact Nat.mod_eq_of_lt (Nat.lt_of_lt_of_le (Nat.mod_lt _ (by decide)) (by decide))
    · have cast := cast_word .bool a
      have modulus : (bool.modulus : Int) = 256 := rfl
      rw [modulus] at cast
      omega

/-- The call itself. -/
theorem callInstr_succeeds {args : List Operand}
    (whole : ∀ v ∈ args, v.isPlaceholder = false) (callee : String) {shape : Shape} {size : Nat}
    (sized : Machine.sizeOf shape = .ok size) (name : Option String) :
    Succeeds (callInstr callee args shape name) c fun v after => c.Flows after ∧ after.Offers v shape ∧
      c.Runs after (fun S values m => args.mapM (m.eval S.args) = .ok values) (World.ask callee · size)
        fun S b m' => m'.eval S.args v = .ok b := by
  unfold callInstr
  refine .get ?_
  cases hpad : c.pads.head? with
  | none =>
    have pushes := @push_succeeds c ⟨.call callee args, shape, name⟩ able whole rfl
    refine pushes.bind fun i after pushed => ?_
    refine ⟨pushed.flows rfl, pushed.offers, fun isOpen S inside fuel values m ready known => ?_⟩
    obtain ⟨_, found⟩ := pushed.there inside rfl
    have exec := Scene.step_call found known
    rw [sized] at exec
    dsimp only
    unfold World.ask
    cases answer : m.world.call callee values (.ok size) with
    | error f =>
      rw [answer] at exec
      exact pushed.fault isOpen inside exec rfl
    | ok reply =>
      obtain ⟨reply, world⟩ := reply
      rw [answer] at exec
      have ready' : S.Ready { m with world } := ready.congr rfl rfl
      have keeps : S.Keeps (fun _ => False) c.graph.instrs.size m { m with world } :=
        (Scene.Keeps.refl S _ _ m).congr rfl rfl
      cases reply with
      | value b =>
        refine pushed.next isOpen inside exec fun left fewer bound => .here ?_
        exact ⟨_, rfl, ready'.keep (pushed.not_slot inside rfl rfl),
          keeps.keep (Nat.le_of_eq pushed.index.symm) b, rfl, ready'.eval_keep (pushed.below inside)⟩
      | raise exception =>
        refine pushed.done isOpen inside exec ⟨_, ?_, ready', keeps, rfl⟩
        unfold raising
        rw [hpad]
  | some pad =>
    refine (newBlock_succeeds able "cont").bind fun cont mid made => ?_
    have pushes := @push_succeeds mid ⟨.invoke callee args cont pad, shape, name⟩ made.able whole rfl
    refine pushes.bind fun i mid' pushed => ?_
    refine (startBlock_succeeds pushed.able (made.waits.adds pushed.adds)).bind fun _ after enters => ?_
    have adds : c.Adds after :=
      enters.adds c (made.adds.trans pushed.adds) (Nat.le_of_eq made.index.symm)
    refine ⟨⟨enters.able, adds, enters.cleanups.trans (pushed.cleanups.trans made.cleanups),
      fun _ => enters.starts.open⟩, pushed.offers.of_instrs enters.instrs,
      fun isOpen S inside fuel values m ready known => ?_⟩
    have inside' := inside.extends enters.builder
    obtain ⟨_, found⟩ := pushed.there inside' rfl
    have exec := Scene.step_invoke found known
    rw [sized] at exec
    rw [← made.spot]
    have isOpen' := made.open_iff.mpr isOpen
    dsimp only
    unfold World.ask
    cases answer : m.world.call callee values (.ok size) with
    | error f =>
      rw [answer] at exec
      exact pushed.fault isOpen' inside' exec rfl
    | ok reply =>
      obtain ⟨reply, world⟩ := reply
      rw [answer] at exec
      have ready' : S.Ready { m with world } := ready.congr rfl rfl
      have keeps : S.Keeps (fun _ => False) c.graph.instrs.size m { m with world } :=
        (Scene.Keeps.refl S _ _ m).congr rfl rfl
      cases reply with
      | value b =>
        have there : cont.index < S.graph.blocks.size :=
          Nat.lt_of_lt_of_le (enters.starts.current ▸ enters.able.current) inside.graph.size
        refine pushed.jump isOpen' inside' exec there fun left fewer bound => .here ?_
        have new : c.graph.instrs.size ≤ i.index :=
          Nat.le_of_eq (by rw [pushed.index, made.instrs])
        exact ⟨_, (spot_of_starts inside enters.starts).symm,
          ready'.keep (pushed.not_slot inside' rfl rfl), keeps.keep new b, rfl,
          ready'.eval_keep (pushed.below inside')⟩
      | raise exception =>
        have there : pad.index < S.graph.blocks.size :=
          Nat.lt_of_lt_of_le (able.pads pad (List.mem_of_mem_head? hpad))
            (inside.adds adds).graph.size
        refine pushed.jump isOpen' inside' exec there fun left fewer bound => .here ?_
        refine ⟨_, ?_, ready', keeps, rfl⟩
        unfold raising
        rw [hpad]

/-- A call of a function that returns an integer. -/
theorem applyCall_succeeds {args : List Operand}
    (whole : ∀ v ∈ args, v.isPlaceholder = false) (callee : String) {t : Ty} (integer : t.isInteger = true) :
    Succeeds (applyCall callee args t) c fun r after => ∃ v, r = some v ∧ c.Flows after ∧
      after.Offers v t.shape ∧ c.Runs after (fun S values m => args.mapM (m.eval S.args) = .ok values)
        (fun values => World.ask callee values (t.bits / 8) >>= fun b => pure (t.decode b)) (·.Gives v t) := by
  unfold applyCall
  rw [isZeroSized?_of_isInteger integer]
  refine ensures_bind.mpr (ensures_checked.mpr ⟨?_, fun _ eq => (nomatch eq)⟩)
  rintro _ ⟨⟩
  rw [if_neg Bool.false_ne_true]
  refine (fresh_succeeds c "call").bind fun name mid renamed => ?_
  refine (callInstr_succeeds (renamed.able able) whole callee (sizeOf_shape integer)
    (some name)).bind ?_
  rintro v after ⟨flows, offers, runs⟩
  rw [if_neg (by rw [isAggregate_of_isInteger integer]; exact Bool.false_ne_true)]
  refine ⟨v, rfl, (renamed.flows able).trans flows, offers, fun isOpen S inside fuel values m ready known => ?_⟩
  obtain ⟨names, rfl⟩ := renamed.same
  have called := runs isOpen S inside fuel values m ready known
  refine called.mono fun s come => ?_
  dsimp only at come
  unfold World.ask at come
  show Cursor.Comes S c (after.spot S) m (S.Gives v t)
    (EStateM.bind (World.ask callee values (t.bits / 8)) (fun b => pure (t.decode b)) m.world) s
  unfold EStateM.bind World.ask
  cases answer : m.world.call callee values (.ok (t.bits / 8)) with
  | error f =>
    rw [answer] at come
    exact come
  | ok reply =>
    obtain ⟨_ | _, world⟩ := reply
    · rw [answer] at come
      obtain ⟨m', rfl, ready', keeps, world', value⟩ := come
      obtain ⟨z, rfl⟩ := World.value_of_call answer
      refine ⟨m', rfl, ready', keeps, world', fits_wrap t _, ?_⟩
      rw [value, encode_decode integer]
    · rw [answer] at come
      exact come

end Emit

/-! ### Choices -/

/-- What one arm of a choice is like: it starts a block of its own, and leaves its value in the slot
on the way to the join. The choice itself started at `base`. -/
structure Cursor.Arm (base c : Cursor) (types : VarId → Option Ty) (slots : VarId → InstrId)
    (block join : BlockId) (slot : InstrId) (e : Expr) (after : Cursor) : Prop where
  able : after.Able
  adds : base.Adds after
  cleanups : after.cleanups = c.cleanups
  builder : c.builder.Extends after.builder
  op? : ∀ {i op}, c.graph.op? i = some op → after.graph.op? i = some op
  waits : ∀ {y}, c.Waits y → y ≠ block → after.Waits y
  runs : ∀ final : Cursor, after.builder.Extends final.builder → final.Able → final.Starts join →
    ∀ S : Scene, final.In S → ∀ fuel vars m, S.Ready m → S.Holds types slots vars m →
      S.Leads fuel (.before block (S.graph.body block) m)
        (Cursor.Comes S base (final.spot S) m
          (fun a m' => e.ty.Fits a ∧ S.cell m' slot = e.ty.encode a) (e.eval vars m.world))

namespace Emit

variable {types : VarId → Option Ty} {slots : VarId → InstrId} {c : Cursor}

/-- The code of one arm of a choice stores the value of the arm. -/
theorem choiceArm_succeeds {base : Cursor} {block join : BlockId} {slot : InstrId} {e : Expr}
    {code : EmitM (Option Operand)} (able : c.Able) (adds : base.Adds c)
    (declares : base.Declares types slots) (waits : c.Waits block) (newBlock : base.graph.blocks.size ≤ block.index)
    (hop : c.graph.op? slot = some (.alloca e.ty.shape))
    (newSlot : base.graph.instrs.size ≤ slot.index) (integer : e.ty.isInteger = true)
    (codes : Codes types slots e code) :
    Succeeds (choiceArm block join (.result slot) e.ty code) c fun _ after =>
      base.Arm c types slots block join slot e after := by
  unfold choiceArm
  refine (startBlock_succeeds able waits).bind fun _ c₁ enters => ?_
  have adds₁ := enters.adds base adds newBlock
  refine (codes c₁ enters.able (declares.adds adds₁)).bind ?_
  rintro _ c₂ ⟨v, rfl, computed⟩
  have scalar : e.ty.isAggregate = false := isAggregate_of_isInteger integer
  have stored : storeOp (.result slot) v e.ty = .ok (.store v (.result slot)) := by
    unfold storeOp
    rw [scalar]
    rfl
  have whole : (Op.store v (.result slot)).Whole := by
    simp [Op.Whole, Op.operands, computed.offers.whole]
  dsimp only
  unfold storeValue
  rw [stored]
  refine ensures_bind.mpr (ensures_bind.mpr (ensures_checked.mpr ⟨?_, by rintro _ ⟨⟩⟩))
  rintro _ ⟨⟩
  refine (perform_succeeds computed.able whole rfl).imp fun k c₃ store => ?_
  refine (branchTo_succeeds store.able join).imp fun _ c₄ branches => ?_
  have open₁ : c₁.Open := enters.starts.open
  have open₂ := computed.isOpen open₁
  have open₃ : c₃.Open := store.open_iff.mpr rfl
  obtain ⟨j, branch⟩ := branches.pushed open₃
  have tail : c₁.Adds c₄ := computed.adds.trans (store.adds.trans branches.adds)
  refine
    { able := branches.able
      adds := adds₁.trans tail
      cleanups := branches.cleanups.trans (store.cleanups.trans (computed.cleanups.trans enters.cleanups))
      builder := enters.builder.trans tail.builder
      op? := fun {i op} h => tail.op? (by rwa [Graph.op?, enters.instrs])
      waits := fun hy ne => (enters.waits _ hy ne).adds tail
      runs := fun final grows able' starts S inside fuel vars m ready holds => ?_ }
  have inside₄ := inside.extends grows
  have inside₃ := inside₄.adds branches.adds
  have inside₂ := inside₃.adds store.adds
  have inside₁ := inside₂.adds computed.adds
  rw [← spot_of_starts inside₁ enters.starts]
  have value : S.Leads fuel (c₁.spot S m)
      (Cursor.Comes S base (c₂.spot S) m (S.Gives v e.ty) (e.eval vars m.world)) :=
    (computed.runs open₁ S inside₂ fuel vars m ready holds).mono fun _ come =>
      come.since adds₁.pads adds₁.instrs_le (.refl _ _ _ _)
  refine comes_map value ?_
  rintro left a m' - ready' keeps ⟨fits, value⟩
  have hop₂ : c₂.graph.op? slot = some (.alloca e.ty.shape) :=
    computed.adds.op? (by rwa [Graph.op?, enters.instrs])
  have slot' : S.graph.Slot slot := ⟨_, inside₂.slot hop₂, rfl⟩
  have size : Machine.sizeOf e.ty.shape = .ok (e.ty.encode a).size := by
    rw [size_encode]
    exact sizeOf_shape integer
  have pos : 1 ≤ (e.ty.encode a).size := by
    rw [size_encode]
    exact bits_pos integer
  refine store.store open₂ inside₃ hop₂ ready' value size pos fun _ _ _ ready'' => ?_
  refine branch.branch open₃ grows inside able' starts fun _ _ _ => .here ?_
  exact ⟨_, rfl, ready'', keeps.put slot' (.inl newSlot) _, rfl, fits, ready'.cell_put slot'⟩

/-- A choice between two values. -/
theorem choice_succeeds {cond : Operand} {t : Ty} {yes no : Expr} {yesCode noCode : EmitM (Option Operand)}
    (able : c.Able) (declares : c.Declares types slots) (offers : c.Offers cond .i1)
    (integer : t.isInteger = true) (hyes : yes.ty = t) (hno : no.ty = t)
    (yesCodes : Codes types slots yes yesCode) (noCodes : Codes types slots no noCode) :
    Succeeds (choice cond t yesCode noCode) c fun v after => c.Flows after ∧ after.Offers v t.shape ∧
      (c.Open → ∀ S : Scene, after.In S → ∀ fuel vars m w, S.Ready m → S.Holds types slots vars m →
        m.evalWord S.args cond = .ok w → S.Leads fuel (c.spot S m)
          (Cursor.Comes S c (after.spot S) m (S.Gives v t)
            ((if w % 2 = 1 then yes.eval vars else no.eval vars) m.world))) := by
  unfold choice
  refine (newTemporary_succeeds able (sizeOf_shape integer) "tmpv").bind ?_
  rintro _ c₁ ⟨slot, rfl, reserves⟩
  refine newBlocks_ensures (reserves.idle able).fresh _ _ _ fun yesBlock noBlock join c₄ adds₄ fresh => ?_
  obtain ⟨⟨waitsYes, waitsNo, waitsJoin⟩, ⟨newYes, newNo, newJoin⟩, apart, apartYes, apartNo⟩ := fresh.three
  have whole : (Op.condBr cond yesBlock noBlock).Whole := fun v hv => by
    cases List.mem_singleton.mp hv
    exact offers.whole
  refine (perform_succeeds fresh.able whole rfl).bind fun i c₅ branch => ?_
  have adds₅ : c.Adds c₅ := fresh.adds.trans branch.adds
  have hop₅ : c₅.graph.op? slot = some (.alloca t.shape) := branch.adds.op? (adds₄.op? reserves.slot)
  replace waitsYes := waitsYes.adds branch.adds
  replace waitsNo := waitsNo.adds branch.adds
  replace waitsJoin := waitsJoin.adds branch.adds
  have newSlot := Nat.le_of_eq reserves.index.symm
  refine (hyes ▸ choiceArm_succeeds branch.able adds₅ declares waitsYes newYes
    (hyes ▸ hop₅) newSlot (hyes ▸ integer) yesCodes).bind fun _ c₆ first => ?_
  refine (hno ▸ choiceArm_succeeds first.able first.adds declares
    (first.waits waitsNo apart) newNo (hno ▸ first.op? hop₅) newSlot (hno ▸ integer)
    noCodes).bind fun _ c₇ second => ?_
  refine (startBlock_succeeds second.able (second.waits (first.waits waitsJoin apartYes) apartNo)).bind
    fun _ c₈ enters => ?_
  have adds₈ : c.Adds c₈ := enters.adds c second.adds newJoin
  have hop₈ : c₈.graph.op? slot = some (.alloca t.shape) := by
    rw [Graph.op?, enters.instrs]
    exact second.op? (first.op? hop₅)
  refine (load_succeeds enters.able integer hop₈ "tmpv.ld").imp ?_
  rintro v after ⟨flows, given, runs⟩
  have cleanups : c₈.cleanups = c.cleanups :=
    enters.cleanups.trans (second.cleanups.trans (first.cleanups.trans (branch.cleanups.trans fresh.cleanups)))
  refine ⟨⟨flows.able, adds₈.trans flows.adds, flows.cleanups.trans cleanups,
    fun _ => flows.isOpen enters.starts.open⟩, given, ?_⟩
  intro isOpen S inside fuel vars m w ready holds known
  have inside₈ := inside.adds flows.adds
  have inside₇ := inside₈.extends enters.builder
  have inside₆ := inside₇.extends second.builder
  have inside₅ := inside₆.extends first.builder
  have isOpen₄ : c₄.Open := fresh.isOpen isOpen
  obtain ⟨_, found⟩ := branch.there inside₅ rfl
  have thereYes : yesBlock.index < S.graph.blocks.size :=
    Nat.lt_of_lt_of_le waitsYes.made inside₅.graph.size
  have thereNo : noBlock.index < S.graph.blocks.size :=
    Nat.lt_of_lt_of_le waitsNo.made inside₅.graph.size
  -- Both arms end at the join with their value in the slot, and the load is the same for both.
  have finish : ∀ (left : Nat) (s : Config) (e : Expr), e.ty = t →
      S.Leads left s (Cursor.Comes S c (c₈.spot S) m
        (fun a m' => e.ty.Fits a ∧ S.cell m' slot = e.ty.encode a) (e.eval vars m.world)) →
      S.Leads left s (Cursor.Comes S c (after.spot S) m (S.Gives v t) (e.eval vars m.world)) := by
    rintro left s e rfl arm
    refine comes_map arm ?_
    rintro left' a m' - ready' keeps ⟨fits, held⟩
    have loaded := runs enters.starts.open S inside left' a m' ready' held
    dsimp only at loaded
    rw [fits] at loaded
    exact loaded.mono fun _ come => come.since adds₈.pads adds₈.instrs_le keeps
  rw [← fresh.spot S m]
  refine branch.jump isOpen₄ inside₅ (Scene.step_condBr found known) (by split <;> assumption)
    fun left _ _ => ?_
  by_cases truth : w % 2 = 1
  · rw [if_pos truth, if_pos truth]
    exact finish left _ yes hyes (first.runs c₈ (second.builder.trans enters.builder) enters.able
      enters.starts S inside₈ left vars m ready holds)
  · rw [if_neg truth, if_neg truth]
    exact finish left _ no hno (second.runs c₈ enters.builder enters.able enters.starts S inside₈ left
      vars m ready holds)

/-- An integer literal. -/
theorem constant_int {t : Ty} (integer : t.isInteger = true) (value : Int) :
    constant (.int t.shape value) = .ok (t.encode value) := by
  simp only [constant, sizeOf_shape integer, bind, Except.bind]
  rfl

mutual
/-- The code of an expression computes its value. -/
theorem expr_computed : ∀ {e : Expr}, e.isScalar types = true → Codes types slots e (expr e)
  | .int n value, h => fun c able _ => by
    have integer : n.ty.isInteger = true := h
    rw [expr]
    refine ⟨_, rfl, constant_computed able (a := n.ty.wrap value) rfl (fits_wrap _ _) ?_ fun _ => ?_⟩
    · exact (constant_int integer value).trans (congrArg Except.ok (encode_wrap integer value).symm)
    · rw [Expr.eval]
  | .bool n value, h => fun c able _ => by
    have isBool : n.ty = .bool := by simpa [Expr.isScalar] using h
    rw [expr]
    have ty : (Expr.bool n value).ty = .bool := isBool
    refine ⟨_, rfl, constant_computed able (a := value.toInt) ?_ ?_ ?_ fun _ => ?_⟩
    · rw [ty]
      rfl
    · rw [ty]
      cases value <;> rfl
    · rw [ty]
      exact constant_int (t := .bool) rfl _
    · rw [Expr.eval]
  | .zero n, h => fun c able _ => by
    have integer : n.ty.isInteger = true := h
    rw [expr]
    unfold zeroValue
    rw [if_neg (by rw [isAggregate_of_isInteger integer]; exact Bool.false_ne_true)]
    refine ⟨_, rfl, constant_computed able (a := 0) rfl ?_ ?_ fun _ => ?_⟩
    · show n.ty.wrap 0 = 0
      unfold wrap
      split <;> simp
    · have zeros : n.ty.encode 0 = Bytes.zeros (n.ty.bits / 8) := Bytes.ofNat_zero _
      show constant (.zero n.ty.shape) = .ok (n.ty.encode 0)
      simp only [constant, sizeOf_shape integer, bind, Except.bind, zeros]
      rfl
    · rw [Expr.eval] <;> exact nofun
  | .var n v, h => fun c able declares => by
    simp only [Expr.isScalar, Bool.and_eq_true, decide_eq_true_eq] at h
    obtain ⟨integer, known⟩ := h
    obtain ⟨hop, x, found, slot⟩ := declares v n.ty known
    rw [expr]
    refine .after (lookupVar_of_known found n.span) ?_
    rw [slot]
    refine (load_succeeds able integer hop _).bind ?_
    rintro w after ⟨flows, offers, runs⟩
    refine ⟨w, rfl, flows, offers, fun isOpen S inside fuel vars m ready holds => ?_⟩
    dsimp only
    rw [Expr.eval]
    exact runs isOpen S inside fuel (vars v) m ready (holds v n.ty known)
  | .binary n op lhs rhs, h => fun c able declares => by
    simp only [Expr.isScalar, Bool.and_eq_true, decide_eq_true_eq] at h
    obtain ⟨⟨⟨hl, hr⟩, same⟩, result⟩ := h
    rw [expr]
    refine (expr_computed hl c able declares).bind ?_
    rintro _ c₁ ⟨l, rfl, left⟩
    refine (expr_computed hr c₁ left.able (declares.adds left.adds)).bind ?_
    rintro _ c₂ ⟨r, rfl, right⟩
    have offers' : c₂.Offers r lhs.ty.shape := same ▸ right.offers
    have applies := @applyBinary_succeeds c₂ right.able lhs.node l r op (Expr.isInteger_of_isScalar hl)
      (left.offers.adds right.adds) offers'
    refine applies.bind ?_
    rintro v after ⟨flows, offers, runs⟩
    have ty : (Expr.binary n op lhs rhs).ty = op.resultTy lhs.ty := result
    refine ⟨v, rfl, left.toFlows.trans (right.toFlows.trans flows), ty ▸ offers,
      fun isOpen S inside fuel vars m ready holds => ?_⟩
    have inside₂ := inside.adds flows.adds
    have inside₁ := inside₂.adds right.adds
    dsimp only
    rw [Expr.eval, ty]
    refine comes_bind left.adds (left.runs isOpen S inside₁ fuel vars m ready holds) ?_
    intro left₁ a m₁ _ ready₁ keeps₁ ga
    have holds₁ := holds.keeps declares (inside₁.adds left.adds) keeps₁
    refine comes_bind right.adds
      (right.runs (left.isOpen isOpen) S inside₂ left₁ vars m₁ ready₁ holds₁) ?_
    intro left₂ b m₂ _ ready₂ keeps₂ gb
    rw [same] at gb
    exact runs (right.isOpen (left.isOpen isOpen)) S inside left₂ a b m₂ ready₂
      (ga.keeps left.offers keeps₂) gb
  | .call n callee args, h => fun c able declares => by
    simp only [Expr.isScalar, Bool.and_eq_true] at h
    obtain ⟨integer, scalars⟩ := h
    rw [expr]
    refine (operands_computed scalars c able declares).bind ?_
    rintro _ c₁ ⟨values, rfl, flows₁, offered, runs₁⟩
    have whole : ∀ v ∈ values, v.isPlaceholder = false := fun v hv => by
      obtain ⟨_, offers⟩ := offered v hv
      exact offers.whole
    refine (applyCall_succeeds flows₁.able whole callee integer).imp ?_
    rintro _ after ⟨v, rfl, flows, offers, runs⟩
    refine ⟨v, rfl, flows₁.trans flows, offers, fun isOpen S inside fuel vars m ready holds => ?_⟩
    dsimp only
    rw [Expr.eval]
    refine comes_bind flows₁.adds
      (runs₁ isOpen S (inside.adds flows.adds) fuel vars m ready holds) ?_
    intro left bytes m₁ _ ready₁ _ known
    exact runs (flows₁.isOpen isOpen) S inside left bytes m₁ ready₁ known
  | .conditional n cond yes no, h => fun c able declares => by
    simp only [Expr.isScalar, Bool.and_eq_true, decide_eq_true_eq] at h
    obtain ⟨⟨⟨⟨⟨hc, isBool⟩, hy⟩, hn⟩, tyYes⟩, tyNo⟩ := h
    have integer : n.ty.isInteger = true := tyYes ▸ Expr.isInteger_of_isScalar hy
    rw [expr]
    refine (condition_succeeds able declares isBool (expr_computed hc)).bind ?_
    rintro _ c₁ ⟨w, rfl, flows₁, offers₁, runs₁⟩
    refine (choice_succeeds flows₁.able (declares.adds flows₁.adds) offers₁ integer tyYes tyNo
      (expr_computed hy) (expr_computed hn)).bind ?_
    rintro v after ⟨flows, offers, runs⟩
    refine ⟨v, rfl, flows₁.trans flows, offers, fun isOpen S inside fuel vars m ready holds => ?_⟩
    have inside₁ := inside.adds flows.adds
    dsimp only
    rw [Expr.eval]
    refine comes_bind flows₁.adds (runs₁ isOpen S inside₁ fuel vars m ready holds) ?_
    rintro left a m₁ - ready₁ keeps₁ ⟨w', known, truth⟩
    have holds₁ := holds.keeps declares (inside₁.adds flows₁.adds) keeps₁
    have chosen := runs (flows₁.isOpen isOpen) S inside left vars m₁ w' ready₁ holds₁ known
    simp only [truth] at chosen
    exact chosen
  | .float _ _, h | .nil _, h | .addressOf _ _, h | .deref _ _, h | .field _ _ _, h
  | .composite _ _, h | .labelAddress _ _, h | .error _, h => by simp [Expr.isScalar] at h

/-- The code of arguments computes their values. -/
theorem operands_computed : ∀ {es : List Expr}, Expr.areScalars types es = true →
    ∀ c : Cursor, c.Able → c.Declares types slots →
      Succeeds (operands es) c fun r after => ∃ vs, r = some vs ∧ c.Flows after ∧
        (∀ v ∈ vs, ∃ shape, after.Offers v shape) ∧ c.Runs after (·.Holds types slots) (Expr.evalAll · es)
          fun S bs m' => vs.mapM (m'.eval S.args) = .ok bs
  | [], _, c, able, _ => by
    rw [operands]
    refine ⟨[], rfl, .refl able, nofun, fun _ S _ fuel vars m ready _ => ?_⟩
    dsimp only
    rw [Expr.evalAll]
    exact comes_pure ready rfl
  | e :: es, h, c, able, declares => by
    simp only [Expr.areScalars, Bool.and_eq_true] at h
    obtain ⟨he, hes⟩ := h
    rw [operands]
    refine (expr_computed he c able declares).bind ?_
    rintro _ c₁ ⟨v, rfl, first⟩
    have passed : passValue v e.ty = pure v := by
      unfold passValue
      rw [isAggregate_of_isInteger (Expr.isInteger_of_isScalar he), if_neg Bool.false_ne_true]
    dsimp only
    rw [passed]
    refine ensures_bind.mpr (ensures_pure.mpr ?_)
    refine (operands_computed hes c₁ first.able (declares.adds first.adds)).bind ?_
    rintro _ after ⟨vs, rfl, flows, offers, runs⟩
    refine ⟨v :: vs, rfl, first.toFlows.trans flows, ?_, fun isOpen S inside fuel vars m ready holds => ?_⟩
    · exact List.forall_mem_cons.mpr ⟨⟨_, first.offers.adds flows.adds⟩, offers⟩
    · have inside₁ := inside.adds flows.adds
      dsimp only
      rw [Expr.evalAll]
      refine comes_bind first.adds (first.runs isOpen S inside₁ fuel vars m ready holds) ?_
      intro left₁ a m₁ _ ready₁ keeps₁ ga
      have holds₁ := holds.keeps declares (inside₁.adds first.adds) keeps₁
      refine comes_then
        (runs (first.isOpen isOpen) S inside left₁ vars m₁ ready₁ holds₁) ?_
      intro left₂ bs m₂ _ ready₂ keeps₂ known
      refine .here ⟨m₂, rfl, ready₂, keeps₂, rfl, ?_⟩
      show (v :: vs).mapM (m₂.eval S.args) = _
      rw [List.mapM_cons, (ga.keeps first.offers keeps₂).2, known]
      rfl
end

end Emit

end FlowIR

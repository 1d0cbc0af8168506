import FlowIR.Machine.Run
import FlowIR.Proofs.Graph.View

/-!
What one step of the machine can do, and where it can fail.

`step_spec` says what a step does to the results, and where control goes. `step_blames` says that a step
that fails because a value is not there fails for one of the operands of its instruction.
-/

namespace FlowIR

open Checked

/-! ### Failures -/

/-- The fault lies in an operand: its value is not there. -/
@[simp] def Fault.isMissing : Fault → Bool
  | .unset _ | .unresolved _ => true
  | _ => false

/-- If the operation fails for a missing operand, then with one of the given faults. -/
def Checked.Blames {α : Type} (x : Checked α) (P : Fault → Prop) : Prop :=
  ∀ f, x = .error f → f.isMissing = true → P f

section Blames

variable {α β : Type} {P : Fault → Prop} {f : α → Checked β}

@[simp] theorem blames_ok {a : α} : Checked.Blames (.ok a) P := by
  rintro f ⟨⟩

@[simp] theorem blames_pure {a : α} : Checked.Blames (pure a) P := blames_ok

@[simp] theorem blames_error {f : Fault} : Checked.Blames (.error f : Checked α) P ↔ (f.isMissing = true → P f) := by
  simp [Checked.Blames]

@[simp] theorem blames_throw {f : Fault} : Checked.Blames (throw f : Checked α) P ↔ (f.isMissing = true → P f) :=
  blames_error

/-- A failure that is passed on is the same failure. -/
theorem blames_of_error {x : Checked α} {f : Fault} (h : x.Blames P) (failed : x = .error f) :
    Checked.Blames (.error f : Checked β) P := by
  rintro f ⟨⟩ missing
  exact h _ failed missing

@[simp] theorem blames_require {f : Fault} {o : Option α} (other : f.isMissing = false) :
    Checked.Blames (require f o) P := by
  cases o with
  | none =>
    exact blames_error.mpr fun missing => absurd missing (by simp only [other, Bool.false_eq_true, not_false_eq_true])
  | some a => exact blames_ok

@[simp] theorem blames_bind {x : Checked α} (first : x.Blames P)
    (rest : ∀ a, (f a).Blames P) : Checked.Blames (x >>= f) P := by
  cases x with
  | ok a => exact rest a
  | error e => exact blames_of_error first rfl

theorem blames_ok_bind {a : α} :
    Checked.Blames ((.ok a : Checked α) >>= f) P ↔ (f a).Blames P := Iff.rfl

theorem blames_mapM {l : List α} (each : ∀ a ∈ l, (f a).Blames P) : (l.mapM f).Blames P := by
  induction l with
  | nil => simp
  | cons a l ih =>
    rw [List.mapM_cons]
    refine blames_bind (each a (List.mem_cons_self ..)) fun _ => ?_
    exact blames_bind (ih fun b hb => each b (List.mem_cons_of_mem a hb)) fun _ => blames_pure

end Blames

namespace Machine

variable {g : Graph} {args : Array Bytes} {m after : Machine} {i j : InstrId}

def Has (m : Machine) (j : InstrId) : Prop := ∃ v, m.results[j.index]? = some (some v)

theorem has_keep {v : Bytes} (inside : i.index < m.results.size) : (m.keep i v).Has i :=
  ⟨v, by simp [keep, inside]⟩

theorem Has.keep (h : m.Has j) (i : InstrId) (v : Bytes) : (m.keep i v).Has j := by
  obtain ⟨w, hw⟩ := h
  by_cases same : i.index = j.index
  · have inside : j.index < m.results.size := (Array.getElem?_eq_some_iff.mp hw).1
    exact ⟨v, by simp [Machine.keep, same, inside]⟩
  · exact ⟨w, by simp [Machine.keep, same, hw]⟩

theorem size_keep (m : Machine) (i : InstrId) (v : Bytes) : (m.keep i v).results.size = m.results.size := by
  simp [Machine.keep]

/-- Nothing that was computed is lost, and at most one call is answered. -/
structure Grows (m after : Machine) : Prop where
  size : after.results.size = m.results.size
  has : ∀ j, m.Has j → after.Has j
  world : after.world = m.world ∨ ∃ callee values size reply, m.world.call callee values size = .ok (reply, after.world)

theorem Grows.of_results (h : after.results = m.results) (world : after.world = m.world ∨
    ∃ callee values size reply, m.world.call callee values size = .ok (reply, after.world)) : m.Grows after :=
  ⟨by rw [h], fun j ⟨v, hv⟩ => ⟨v, h ▸ hv⟩, world⟩

theorem Grows.keep (h : m.Grows after) (i : InstrId) (v : Bytes) : m.Grows (after.keep i v) :=
  ⟨(size_keep after i v).trans h.size, fun j hj => (h.has j hj).keep i v, h.world⟩

/-- Whether an instruction can end a run like this. A run can also lack an entry block, be cut off, or come
to the end of a block. -/
def isOfStep : Outcome → Bool
  | .trapped .noEntry | .trapped .stepLimit | .trapped (.fellOff _) => false
  | _ => true

/-- What comes of executing an instruction: it goes on with the next one and its result is there, it
goes to one of its successors, or it ends the run. Only a landing pad misses an exception. -/
def Lands (op : Op) (i : InstrId) (m after : Machine) : Flow → Prop
  | .next => op.isTerminator = false ∧ (op.yields = true → i.index < after.results.size → after.Has i)
  | .jump t => t ∈ op.successors ∧ (op.normal? = some t → i.index < after.results.size → after.Has i) ∧
      (op.unwind? = some t → op.normal? ≠ none → after.inFlight ≠ none)
  | .done outcome => isOfStep outcome = true ∧
      (outcome = .trapped .padWithoutException → op.isLandingPad = true ∧ m.inFlight = none)

theorem Grows.proceed (h : m.Grows after) {op : Op} (plain : op.isTerminator = false) (i : InstrId)
    (v : Bytes) : m.Grows (after.proceed i v).2 ∧ Lands op i m (after.proceed i v).2 (after.proceed i v).1 := by
  refine ⟨h.keep i v, plain, fun _ inside => has_keep ?_⟩
  rwa [Machine.proceed, size_keep] at inside

/-- A case of a switch is one of its blocks. -/
theorem lookup_mem_successors {value : Operand} {default : BlockId} {cases : List (Int × BlockId)}
    (v : Int) : (cases.lookup v).getD default ∈ (Op.switch value default cases).successors := by
  rw [Op.mem_successors_switch]
  cases found : cases.lookup v with
  | none => exact .inl rfl
  | some t =>
    obtain ⟨before, after, eq, -⟩ := List.lookup_eq_some_iff.mp found
    refine .inr (List.mem_map.mpr ⟨(v, t), ?_, rfl⟩)
    rw [eq]
    exact List.mem_append_right _ (List.mem_cons_self ..)

/-- What one step does. -/
theorem step_spec {flow : Flow} (run : step g args m i = .ok (flow, after)) :
    ∃ op, g.op? i = some op ∧ m.Grows after ∧ Lands op i m after flow := by
  unfold step at run
  rw [bind_eq_ok_iff] at run
  obtain ⟨instr, hinstr, run⟩ := run
  refine ⟨instr.op, Graph.op?_of_instr hinstr, ?_⟩
  have same : ∀ mid : Machine, mid.results = m.results → mid.world = m.world → m.Grows mid := fun _ h w =>
    .of_results h (.inl w)
  cases hop : instr.op with
  | alloca shape =>
    simp only [hop, bind_eq_ok_iff] at run
    obtain ⟨size, -, run⟩ := run
    cases run
    exact Grows.proceed (same { m with memory := (m.memory.alloc size).2 } rfl rfl) rfl i _
  | load ptr =>
    simp only [hop, bind_eq_ok_iff] at run
    obtain ⟨address, -, size, -, data, -, run⟩ := run
    cases run
    exact Grows.proceed (same _ rfl rfl) rfl i _
  | store value ptr =>
    simp only [hop, bind_eq_ok_iff] at run
    obtain ⟨data, -, address, -, memory, -, run⟩ := run
    cases run
    exact ⟨same _ rfl rfl, rfl, by rintro ⟨⟩⟩
  | cast op value dst =>
    simp only [hop, bind_eq_ok_iff] at run
    obtain ⟨v, -, shape, -, result, -, run⟩ := run
    cases run
    exact Grows.proceed (same _ rfl rfl) rfl i _
  | fieldAddr base index =>
    simp only [hop, bind_eq_ok_iff] at run
    obtain ⟨ptr, -, shape, -, address, -, run⟩ := run
    cases run
    exact Grows.proceed (same _ rfl rfl) rfl i _
  | memcpy dst src size align =>
    simp only [hop, bind_eq_ok_iff] at run
    obtain ⟨address, -, source, -, data, -, memory, -, run⟩ := run
    cases run
    exact ⟨same _ rfl rfl, rfl, by rintro ⟨⟩⟩
  | arith op lhs rhs =>
    simp only [hop, bind_eq_ok_iff] at run
    obtain ⟨shape, -, l, -, r, -, result, -, run⟩ := run
    cases run
    exact Grows.proceed (same _ rfl rfl) rfl i _
  | compare pred lhs rhs =>
    simp only [hop, bind_eq_ok_iff] at run
    obtain ⟨shape, -, l, -, r, -, truth, -, run⟩ := run
    cases run
    exact Grows.proceed (same _ rfl rfl) rfl i _
  | call callee operands =>
    simp only [hop, bind_eq_ok_iff] at run
    obtain ⟨values, -, ⟨reply, world⟩, answered, run⟩ := run
    have grows : m.Grows { m with world } := .of_results rfl (.inr ⟨_, _, _, _, answered⟩)
    cases reply with
    | value v =>
      cases run
      exact grows.proceed rfl i _
    | raise exception =>
      cases run
      exact ⟨grows, rfl, by rintro ⟨⟩⟩
  | landingPad kind =>
    simp only [hop] at run
    split at run
    · next empty =>
      cases run
      exact ⟨same _ rfl rfl, rfl, fun _ => ⟨rfl, empty⟩⟩
    · cases run
      exact Grows.proceed (same { m with inFlight := none } rfl rfl) rfl i _
  | br target =>
    simp only [hop] at run
    cases run
    exact ⟨same _ rfl rfl, List.mem_singleton.mpr rfl, by rintro ⟨⟩, by rintro ⟨⟩⟩
  | condBr cond yes no =>
    simp only [hop, bind_eq_ok_iff] at run
    obtain ⟨word, -, run⟩ := run
    cases run
    refine ⟨same _ rfl rfl, ?_, by rintro ⟨⟩, by rintro ⟨⟩⟩
    split <;> simp [Op.successors]
  | switch value default cases =>
    simp only [hop, bind_eq_ok_iff] at run
    obtain ⟨shape, -, bits, -, word, -, run⟩ := run
    cases run
    exact ⟨same _ rfl rfl, lookup_mem_successors _, by rintro ⟨⟩, by rintro ⟨⟩⟩
  | indirectBr addr dests =>
    simp only [hop, bind_eq_ok_iff] at run
    obtain ⟨word, -, run⟩ := run
    split at run
    · cases run
      exact ⟨same _ rfl rfl, rfl, by rintro ⟨⟩⟩
    · split at run
      · next listed =>
        cases run
        exact ⟨same _ rfl rfl, listed, by rintro ⟨⟩, by rintro ⟨⟩⟩
      · cases run
        exact ⟨same _ rfl rfl, rfl, by rintro ⟨⟩⟩
  | invoke callee operands normal unwind =>
    simp only [hop, bind_eq_ok_iff] at run
    obtain ⟨values, -, ⟨reply, world⟩, answered, run⟩ := run
    have grows : m.Grows { m with world } := .of_results rfl (.inr ⟨_, _, _, _, answered⟩)
    cases reply with
    | value v =>
      cases run
      refine ⟨grows.keep i v, by simp [Op.successors], fun _ inside => has_keep ?_, fun same apart => ?_⟩
      · rwa [size_keep] at inside
      · exact absurd (if_pos (Option.some.inj same).symm) apart
    | raise exception =>
      cases run
      -- The landing pad is entered only if it is not where the call goes on normally.
      refine ⟨{ grows with }, by simp [Op.successors], fun both => ?_, fun _ _ => Option.some_ne_none _⟩
      simp only [Op.normal?] at both
      split at both
      · cases both
      · next apart => exact absurd (Option.some.inj both) apart
  | ret value =>
    cases value with
    | none =>
      simp only [hop] at run
      cases run
      exact ⟨same _ rfl rfl, rfl, by rintro ⟨⟩⟩
    | some value =>
      simp only [hop, bind_eq_ok_iff] at run
      obtain ⟨v, -, run⟩ := run
      cases run
      exact ⟨same _ rfl rfl, rfl, by rintro ⟨⟩⟩
  | resume token =>
    simp only [hop, bind_eq_ok_iff] at run
    obtain ⟨bytes, -, run⟩ := run
    split at run
    · cases run
    · cases run
      exact ⟨same _ rfl rfl, rfl, by rintro ⟨⟩⟩
  | unreachable =>
    simp only [hop] at run
    cases run
    exact ⟨same _ rfl rfl, rfl, by rintro ⟨⟩⟩

/-! ### Steps fail for missing operands only where an operand is missing -/

theorem blames_instr (g : Graph) (i : InstrId) : (g.instr i).Blames P := blames_require rfl

theorem blames_block (g : Graph) (x : BlockId) : (g.block x).Blames P := blames_require rfl

@[simp] theorem blames_sizeOf (s : Shape) : (sizeOf s).Blames P := by
  refine blames_bind (blames_require rfl) fun n => ?_
  unfold fitting
  split <;> simp

@[simp] theorem blames_bitsOf (s : Shape) : (bitsOf s).Blames P :=
  blames_bind (blames_sizeOf s) fun _ => blames_require rfl

theorem blames_floatOf (s : Shape) (bs : Bytes) : (floatOf s bs).Blames P := by
  unfold floatOf
  split
  · split <;> simp
  · simp

theorem blames_arith (op : ArithOp) (s : Shape) (l r : Bytes) : (arith op s l r).Blames P := by
  refine blames_bind (blames_sizeOf s) fun size => blames_bind (blames_bitsOf s) fun bits => ?_
  split
  · refine blames_bind (blames_floatOf s l) fun a => blames_bind (blames_floatOf s r) fun b => ?_
    refine blames_bind ?_ fun _ => blames_pure
    unfold floatArith
    split <;> simp
  · refine blames_bind ?_ fun _ => blames_pure
    unfold intArith
    split <;> first | simp; done | (split <;> simp)

theorem blames_compare (pred : Pred) (s : Shape) (l r : Bytes) : (compare pred s l r).Blames P := by
  unfold compare
  split
  · exact blames_bind (blames_floatOf s l) fun _ => blames_bind (blames_floatOf s r) fun _ =>
      blames_pure
  · exact blames_bind (blames_bitsOf s) fun _ => blames_pure

theorem blames_cast (op : CastOp) (src dst : Shape) (v : Bytes) : (cast op src dst v).Blames P := by
  refine blames_bind (blames_bitsOf src) fun bits => ?_
  split
  · exact blames_pure
  · exact blames_bind (blames_sizeOf dst) fun _ => blames_pure
  · exact blames_bind (blames_sizeOf dst) fun _ => blames_pure
  · split
    · exact blames_pure
    · refine blames_bind (blames_sizeOf dst) fun _ => ?_
      split <;> simp

theorem blames_locate (memory : Memory) (ptr size : Nat) : (memory.locate ptr size).Blames P := by
  unfold Memory.locate
  dsimp only
  split
  · rintro f ⟨⟩ ⟨⟩
  · refine blames_bind (blames_require rfl) fun _ => ?_
    split <;> simp

theorem blames_read (memory : Memory) (ptr size : Nat) : (memory.read ptr size).Blames P :=
  blames_bind (blames_locate memory ptr size) fun _ => blames_pure

theorem blames_write (memory : Memory) (ptr : Nat) (data : Bytes) : (memory.write ptr data).Blames P :=
  blames_bind (blames_locate memory ptr data.size) fun _ => blames_pure

theorem blames_worldCall (world : World) (callee : String) (values : List Bytes) {size : Checked Nat}
    (hsize : size.Blames P) : (world.call callee values size).Blames P := by
  unfold World.call
  dsimp only
  split
  · split
    · rintro f ⟨⟩ ⟨⟩
    · simp
  · split
    · simp
    · exact blames_bind hsize fun _ => blames_pure

theorem blames_shapeOf (g : Graph) (v : Operand) : (g.shapeOf v).Blames P := by
  unfold Graph.shapeOf
  split
  · exact blames_bind (blames_require rfl) fun _ => blames_pure
  · exact blames_bind (blames_require rfl) fun _ => blames_pure
  all_goals exact blames_pure

/-- A value is missing only of an instruction that has not been executed, or of a placeholder. -/
theorem eval_missing {v : Operand} {f : Fault} (failed : m.eval args v = .error f) (missing : f.isMissing = true) :
    (∃ j, v = .result j ∧ f = .unset j ∧ ¬ m.Has j) ∨ ∃ p, v = .placeholder p ∧ f = .unresolved p := by
  cases v with
  | result j =>
    cases found : m.results[j.index]?.join with
    | some value =>
      rw [eval, found] at failed
      cases failed
    | none =>
      rw [eval, found] at failed
      cases failed
      refine .inl ⟨j, rfl, rfl, ?_⟩
      rintro ⟨value, there⟩
      rw [there] at found
      cases found
  | placeholder p =>
    cases failed
    exact .inr ⟨p, rfl, rfl⟩
  | const c =>
    have none : (constant c).Blames fun _ => False := by
      cases c <;> first
        | exact blames_bind (blames_sizeOf _) fun _ => blames_pure
        | exact blames_pure
    exact absurd (none f failed missing) id
  | arg n =>
    have none : (require (.noArg n) args[n]?).Blames fun _ => False := blames_require rfl
    exact absurd (none f failed missing) id
  | blockAddr b => cases failed

theorem blames_evalWord {v : Operand} (h : (m.eval args v).Blames P) : (m.evalWord args v).Blames P :=
  blames_bind h fun _ => blames_pure

/-- A step that fails for a missing operand fails like one of its operands. -/
theorem step_blames (each : ∀ op, g.op? i = some op → ∀ v ∈ op.operands, (m.eval args v).Blames P) :
    (step g args m i).Blames P := by
  unfold step
  cases hinstr : g.instr i with
  | error f => exact blames_of_error (blames_instr g i) hinstr
  | ok instr =>
    have uses := each instr.op (Graph.op?_of_instr hinstr)
    refine blames_ok_bind.mpr ?_
    cases hop : instr.op with
    | alloca shape => exact blames_bind (blames_sizeOf shape) fun _ => blames_pure
    | load ptr =>
      have hptr := uses ptr (by simp [hop, Op.operands])
      exact blames_bind (blames_evalWord hptr) fun _ => blames_bind (blames_sizeOf _) fun _ =>
        blames_bind (blames_read _ _ _) fun _ => blames_pure
    | store value ptr =>
      have hvalue := uses value (by simp [hop, Op.operands])
      have hptr := uses ptr (by simp [hop, Op.operands])
      exact blames_bind hvalue fun _ => blames_bind (blames_evalWord hptr) fun _ =>
        blames_bind (blames_write _ _ _) fun _ => blames_pure
    | cast op value dst =>
      have hvalue := uses value (by simp [hop, Op.operands])
      exact blames_bind hvalue fun _ => blames_bind (blames_shapeOf g value) fun _ =>
        blames_bind (blames_cast _ _ _ _) fun _ => blames_pure
    | fieldAddr base index =>
      have hbase := uses base (by simp [hop, Op.operands])
      refine blames_bind (blames_evalWord hbase) fun _ => blames_bind (blames_shapeOf g base)
        fun _ => blames_bind ?_ fun _ => blames_pure
      exact blames_bind (blames_require rfl) fun _ => blames_require rfl
    | memcpy dst src size align =>
      have hdst := uses dst (by simp [hop, Op.operands])
      have hsrc := uses src (by simp [hop, Op.operands])
      exact blames_bind (blames_evalWord hdst) fun _ => blames_bind (blames_evalWord hsrc) fun _ =>
        blames_bind (blames_read _ _ _) fun _ => blames_bind (blames_write _ _ _) fun _ =>
        blames_pure
    | arith _ lhs rhs | compare _ lhs rhs =>
      have hlhs := uses lhs (by simp [hop, Op.operands])
      have hrhs := uses rhs (by simp [hop, Op.operands])
      refine blames_bind (blames_shapeOf g lhs) fun _ => blames_bind hlhs fun _ => blames_bind hrhs fun _ =>
        blames_bind ?_ fun _ => blames_pure
      first | exact blames_arith _ _ _ _ | exact blames_compare _ _ _ _
    | call _ operands | invoke _ operands =>
      have each : ∀ v ∈ operands, (m.eval args v).Blames P := fun v hv =>
        uses v (by simpa [hop, Op.operands] using hv)
      refine blames_bind (blames_mapM each) fun values =>
        blames_bind (blames_worldCall _ _ _ (blames_sizeOf _)) fun reply => ?_
      split <;> exact blames_pure
    | landingPad kind =>
      dsimp only
      split <;> exact blames_pure
    | br target => exact blames_pure
    | condBr cond yes no =>
      exact blames_bind (blames_evalWord (uses cond (by simp [hop, Op.operands]))) fun _ => blames_pure
    | switch value default cases =>
      have hvalue := uses value (by simp [hop, Op.operands])
      exact blames_bind (blames_shapeOf g value) fun _ => blames_bind (blames_bitsOf _) fun _ =>
        blames_bind (blames_evalWord hvalue) fun _ => blames_pure
    | indirectBr addr dests =>
      refine blames_bind (blames_evalWord (uses addr (by simp [hop, Op.operands]))) fun word => ?_
      split
      · exact blames_pure
      · split <;> exact blames_pure
    | ret value =>
      cases value with
      | none => exact blames_pure
      | some value =>
        exact blames_bind (uses value (by simp [hop, Op.operands])) fun _ => blames_pure
    | resume token =>
      refine blames_bind (uses token (by simp [hop, Op.operands])) fun bytes => ?_
      dsimp only
      split
      · rintro f ⟨⟩ ⟨⟩
      · exact blames_pure
    | unreachable => exact blames_pure

end Machine

end FlowIR

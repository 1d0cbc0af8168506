import FlowIR.Proofs.Build.Fit
import FlowIR.Proofs.Emit.Code

/-!
The code of programs is put together by the rules.

The code of an expression keeps the values that are known, and the code of a statement only storage and blocks.
Both are told from the expression or statement alone: whether there is a value and whether it is the mere address
of a label, and which steps the code is for, in order.
-/

namespace FlowIR

open FlowIR.Expr

/-- The expression is the address of a label and nothing else. -/
def Expr.isLabelAddress : Expr → Bool
  | .labelAddress _ _ => true
  | _ => false

mutual

/-- Whether the statement returns just the address of a label, and not through a cleanup of its own. -/
def Stmt.returnsAddress : Stmt → Bool
  | .ret _ [value] => value.isLabelAddress
  | .block body => returnAddress body
  | .ite _ yes no => yes.returnsAddress || no.returnsAddress
  | .switch _ _ cases => casesReturnAddress cases
  | .attempt body none none => body.returnsAddress
  | .attempt body (some handler) none => body.returnsAddress || handler.returnsAddress
  | .attempt _ _ (some cleanup) => cleanup.returnsAddress
  | .defer _ _ check => check.returnsAddress
  | _ => false

def Stmt.returnAddress : List Stmt → Bool
  | [] => false
  | s :: ss => s.returnsAddress || returnAddress ss

def Stmt.casesReturnAddress : List (List Expr × Stmt) → Bool
  | [] => false
  | (_, body) :: cases => body.returnsAddress || casesReturnAddress cases

end

open FlowIR.Fact (Follows Reaches Usable values)

namespace Emit

variable {i r k a b : Bool} {Γ : List Fact} {v dst base : Operand} {code : EmitM (Option Operand)} {ty : Ty}

/-! ### Values -/

theorem loadValue_code (ty : Ty) (tag : String) (h : Follows Γ (.value v a))
    (less : (a && ty.isAggregate) = true → b = true) :
    Code i r [] Γ k (loadValue v ty tag) Any (fun u => [.value u b]) [] := by
  unfold loadValue
  split
  · next aggregate =>
    exact .pure trivial (List.forall_mem_singleton.mpr (h.weaken fun _ holds => less (by rw [holds, aggregate]; rfl)))
  · exact .loosen (.named tag _ rfl rfl (by simpa [Op.operands] using h.usable))

/-- A value can be stored exactly if its type is storable. -/
theorem isOk_storeOp (dst v : Operand) (ty : Ty) : (storeOp dst v ty).isOk = ty.isStorable := by
  unfold storeOp Ty.isStorable
  cases ty.isAggregate with
  | false => rfl
  | true =>
    cases size : ty.size? with
    | none => rfl
    | some n =>
      obtain ⟨a, align⟩ := ty.shape.exists_align size
      have align : ty.align? = some a := align
      rw [align]
      rfl

theorem storeValue_code {n : List Event} (hd : Usable Γ dst) (hv : Usable Γ v)
    (tells : Tells Γ n ty.isStorable) : Does i r [] Γ k (storeValue dst v ty) n := by
  refine .calls (.checked (isOk_storeOp dst v ty ▸ tells)) fun op run => ?_
  unfold storeOp at run
  split at run
  · obtain ⟨size, -, run⟩ := Checked.bind_eq_ok_iff.mp run
    obtain ⟨align, -, run⟩ := Checked.bind_eq_ok_iff.mp run
    cases run
    exact .perform rfl (by simp [Op.operands, hd, hv]) (by simp [Op.successors])
  · cases run
    exact .perform rfl (by simp [Op.operands, hd, hv]) (by simp [Op.successors])

theorem fieldAddr_code (index : Nat) (ty : Ty) (h : Usable Γ base) :
    Code i r [] Γ k (fieldAddr base index ty) Any (fun u => [.value u false]) [] :=
  .named _ _ rfl rfl (by simpa [Op.operands] using h)

/-- A pointer is converted, unless it is of the type already. The address of a label never points to an
aggregate. -/
theorem pointerTo_code (ty : Ty) (h : Follows Γ (.value v a)) :
    Code i r [] Γ k (pointerTo v ty) Any (fun u => [.value u (a && !ty.isAggregate)]) [] := by
  unfold pointerTo
  rw [← bind_assoc]
  refine .seq (.shapeOf h) fun shape bytes => ?_
  split
  · next same =>
    have scalar : v.isAddress = true → ty.isAggregate = false := fun isAddress => by
      rw [bytes isAddress] at same
      cases ty <;> first | rfl | simp [Shape.bytePtr, Ty.shape] at same
    exact .pure trivial (List.forall_mem_singleton.mpr (h.weaken fun address holds => by
      rw [holds, scalar address]
      rfl))
  · exact .loosen (.named _ _ rfl rfl (by simpa [Op.operands] using h.usable))

theorem zeroValue_code (ty : Ty) : Code i r [] Γ k (zeroValue ty) Any (fun u => [.value u false]) [] := by
  have zero : ∀ {Γ : List Fact}, Follows Γ (.value (.const (.zero ty.shape)) false) := .const _
  unfold zeroValue
  dsimp only
  split
  · refine .seq (.newTemporary _ _) fun tmp _ => .seq (.perform rfl ?_ (by simp [Op.successors])) fun _ _ =>
      .pure trivial (by simpa using .slot (by simp))
    simpa [Op.operands] using ⟨zero.usable, .of_slot (by simp)⟩
  · exact .pure trivial (List.forall_mem_singleton.mpr zero)

theorem passValue_code (ty : Ty) (h : Follows Γ (.value v a)) :
    Code i r [] Γ k (passValue v ty) Any (fun u => [.value u true]) [] := by
  unfold passValue
  split
  · exact .loosen (.named _ _ rfl rfl (by simpa [Op.operands] using h.usable))
  · exact .pure trivial (List.forall_mem_singleton.mpr (h.weaken fun _ _ => rfl))

theorem applyBinary_code (op : BinaryOp) (lhs : Node) {l r' : Operand} (hl : Usable Γ l) (hr : Usable Γ r') :
    Code i r [] Γ k (applyBinary op lhs l r') Any (fun u => [.value u false])
      [.check (op.isComparison || (op.arith? lhs.ty).isSome)] := by
  unfold applyBinary
  split
  · next holds =>
    rw [holds]
    exact .passes .check (.seq (.named _ _ rfl rfl (by simpa [Op.operands] using ⟨hl, hr⟩)) fun truth _ =>
      .named _ _ rfl rfl (by simpa [Op.operands] using .of_value (a := false) (by simp)))
  · next holds =>
    rw [Bool.eq_false_iff.mpr holds]
    cases op.arith? lhs.ty with
    | some arith => exact .passes .check (.named _ _ rfl rfl (by simpa [Op.operands] using ⟨hl, hr⟩))
    | none => exact .fail _ (by simp) .check (m := [])

theorem fieldOf_code (node : Node) (ty : Ty) (index : Nat) (h : Usable Γ base) :
    Code i r [] Γ k (fieldOf node base ty index) Any (fun u => [.value u false]) [.check ty.isAggregate] := by
  unfold fieldOf
  cases ty.isAggregate with
  | true => exact .passes .check (fieldAddr_code _ _ h)
  | false => exact .fail _ (by simp) .check (m := [])

/-! ### Expressions -/

theorem condition_code {cond : Expr} (h : Code i r [] Γ true code (Gives cond.hasValue) (values a) cond.events) :
    Code i r [] Γ k (condition cond code) (Gives cond.hasValue) (values false) cond.events := by
  unfold condition
  cases cond with
  | bool n value => exact .pure rfl (by simpa using .const _)
  | _ =>
    exact h.map rfl rfl fun v => .some (.named _ _ rfl rfl (by simpa [Op.operands] using .of_value (a := a) (by simp)))

/-- A call. A result without bytes is no result. -/
theorem applyCall_code (callee : String) {args : List Operand} (ty : Ty) (h : ∀ v ∈ args, Usable Γ v) :
    Code i r [] Γ k (applyCall callee args ty) (Gives (ty.isZeroSized? == some false)) (values false)
      [.check ty.isZeroSized?.isSome, .call callee] := by
  have tells : Tells Γ [.check ty.isZeroSized?.isSome] (require .overflow ty.isZeroSized?).isOk := by
    cases ty.isZeroSized? <;> exact .check
  refine .before (.checked tells) fun zero run => ?_
  rw [require_eq_ok_iff.mp run]
  split
  · next holds =>
    rw [holds]
    exact .calls (.call _ h) fun _ _ => .pure rfl (by simp)
  · next holds =>
    rw [Bool.eq_false_iff.mpr holds, ← bind_assoc]
    refine .calls (.namedCall _ _ h) fun result _ => ?_
    split
    · exact .seq (.newTemporary _ _) fun tmp _ => .seq (.perform rfl
        (by simpa [Op.operands] using ⟨.of_value (a := false) (by simp), .of_slot (by simp)⟩) (by simp [Op.successors]))
        fun _ _ => .pure rfl (by simpa using .slot (by simp))
    · exact .pure rfl (by simpa using .mem (by simp))

/-- One arm of a choice. The values that were there before the choice are there again behind it. -/
theorem choiceArm_code {S : Operand → Bool → Prop} {block join : BlockId} {slot : Operand} {valued : Bool}
    {n : List Event} (all : .all S ∈ Γ) (starts : .join S block ∈ Γ)
    (waits : .join S join ∈ Γ) (keeps : .slot slot ∈ Γ)
    (h : ∀ Γ' : List Fact, .all S ∈ Γ' → (∀ f ∈ Γ, f.lasts = true → f ∈ Γ') →
      Code i r [] Γ' true code (Gives valued) (values a) n) :
    Code i r [block] Γ false (choiceArm block join slot ty code) Any (fun _ => [.all S])
      (n ++ reached valued [.check ty.isStorable]) := by
  have ends : ∀ Γ' : List Fact, .all S ∈ Γ' → .join S join ∈ Γ' →
      Code i r [] Γ' false (branchTo join) Any (fun _ => [.all S]) [] := fun Γ' all waits =>
    .frame (.branchTo (.inr (.inr ⟨S, waits, all⟩))) fun _ _ => List.forall_mem_singleton.mpr (.mem all)
  refine .start (.startJoin starts all) fun _ _ => .value (h _ (by simp) (by simp +contextual)) ?_ ?_
  · rintro rfl
    exact ends _ (by simp) (by simp [waits])
  · rintro rfl v
    exact .calls (storeValue_code (.of_slot (by simp [keeps])) (.of_value List.mem_cons_self) .check) fun _ _ =>
      ends _ (by simp) (by simp [waits])

/-- A choice has the steps of both arms, and an arm with a value checks its type. -/
theorem choice_code {cond : Operand} {yes no : EmitM (Option Operand)} {valued valued' : Bool}
    {n m : List Event} (uses : Usable Γ cond) (first : Code i r [] Γ true yes (Gives valued) (values a) n)
    (second : Code i r [] Γ true no (Gives valued') (values b) m) :
    Code i r [] Γ k (choice cond ty yes no) Any (fun v => [.value v false])
      (n ++ reached valued [.check ty.isStorable] ++ (m ++ reached valued' [.check ty.isStorable])) := by
  refine .keeping fun S within => .seq (.newTemporary _ _) fun slot _ =>
    .newBlock _ (.inr (.inr ⟨S, by simp, rfl⟩)) (fun yesBlock =>
    .newBlock _ (.inr (.inr ⟨S, by simp, rfl⟩)) (fun noBlock =>
    .newBlock _ (.inr (.inr ⟨S, by simp, rfl⟩)) (fun join => .seq (.perform rfl ?_ ?_) fun _ _ => ?_)
      (by simp)) (by simp)) (by simp)
  · simpa [Op.operands] using uses.mono (by simp +contextual)
  · simp only [Op.successors, List.mem_cons, List.not_mem_nil, or_false]
    rintro t (rfl | rfl) <;> exact .inr (.inr ⟨S, by simp⟩)
  · have again : ∀ {x : EmitM (Option Operand)} {valued : Bool} {c : Bool} {l : List Event},
        Code i r [] Γ true x (Gives valued) (values c) l → ∀ Γ' : List Fact, .all S ∈ Γ' →
        (∀ f ∈ Γ, f.lasts = true → f ∈ Γ') → Code i r [] Γ' true x (Gives valued) (values c) l :=
      fun h Γ' all lasting => h.conseq (fun f known => .of_within (within f known) all (lasting f known)) (fun _ => id)
        (fun _ _ _ => .mem) id
    show Code i r ([yesBlock] ++ ([noBlock] ++ [join])) _ _ _ _ _ _
    refine .bind (choiceArm_code (S := S) (by simp) (by simp) (by simp) (by simp) fun Γ' all lasting =>
      again first Γ' all fun f known => lasting f (by simp [known])) (fun _ _ => ?_) (by rintro ⟨⟩)
    rw [← List.append_nil (m ++ _)]
    refine .bind (choiceArm_code (S := S) (by simp) (by simp) (by simp) (by simp) fun Γ' all lasting =>
      again second Γ' all fun f known holds => lasting f (by simpa [known] using .inr holds) holds) (fun _ _ => ?_)
      (by rintro ⟨⟩)
    exact .start (.startJoin (S := S) (by simp) (by simp)) fun _ _ =>
      .frame (loadValue_code (a := false) (b := false) _ _
      (.slot (by simp)) id) fun v _ => by simpa using ⟨.mem (by simp), .mem (by simp)⟩

/-- What a field is taken of. -/
theorem base_code {base : Expr} {P : Option Operand → Prop}
    (storage : Code i r [] Γ k (place base) P (values true) base.placeEvents)
    (value : Code i r [] Γ k (expr base) P (values a) base.events) :
    Code i r [] Γ k (if base.isPlace then place base else expr base) P (values true) base.events := by
  split
  · next named => rwa [placeEvents, named, Bool.true_or, if_pos rfl] at storage
  · refine value.conseq (fun _ => .mem) (fun _ => id) (fun v _ f known => ?_) id
    cases v with
    | none => exact absurd known List.not_mem_nil
    | some v =>
      rw [List.mem_singleton.mp known]
      exact (Follows.mem (List.mem_singleton.mpr rfl)).weaken fun _ _ => rfl

mutual

/-- The code of an expression. -/
theorem expr_code {i r k : Bool} {Γ : List Fact} : ∀ e : Expr,
    Code i r [] Γ k (expr e) (Gives e.hasValue) (values e.isLabelAddress) e.events
  | .int _ _ | .float _ _ | .bool _ _ | .nil _ => by
    unfold expr
    exact .pure rfl (by simpa using .const _)
  | .zero n => by
    unfold expr
    exact .some (zeroValue_code _)
  | .var n v => by
    unfold expr
    exact .calls (.lookupVar v _) fun x _ => .some (loadValue_code (a := false) _ _ (.slot (by simp)) id)
  | .addressOf n v => by
    unfold expr
    exact .calls (.lookupVar v _) fun x _ => .seq (.updateVar v (fun _ => rfl) fun _ => rfl) fun _ _ =>
      .pure rfl (by simpa using .slot (by simp))
  | .deref n ptr => by
    unfold expr
    refine (expr_code ptr).map rfl rfl fun p => .seq (pointerTo_code _ (.mem List.mem_cons_self)) fun addr _ =>
      .some (loadValue_code _ _ (.mem List.mem_cons_self) ?_)
    cases n.ty.isAggregate <;> simp
  | .field n base index => by
    unfold expr
    exact (base_code (place_code base) (expr_code base)).further rfl rfl fun v =>
      .calls (fieldOf_code _ _ _ (.of_value List.mem_cons_self)) fun addr _ =>
      .some (loadValue_code _ _ (.mem List.mem_cons_self) id)
  | .binary _ op lhs rhs => by
    unfold expr
    exact (expr_code lhs).through rfl rfl fun l => (expr_code rhs).further rfl rfl fun r =>
      .some (applyBinary_code _ _ (.of_value (List.mem_cons_of_mem _ List.mem_cons_self))
        (.of_value List.mem_cons_self))
  | .call n callee args => by
    unfold expr
    exact (operands_code args).through rfl rfl fun vs => applyCall_code _ _ fun v hv =>
      .of_value (List.mem_append_left _ (List.mem_map_of_mem hv))
  | .conditional n cond yes no => by
    unfold expr
    exact .further (condition_code (expr_code cond)) rfl rfl fun c =>
      .some (choice_code (.of_value List.mem_cons_self) (expr_code yes) (expr_code no))
  | .composite n fields => by
    unfold expr
    exact .guard .check (by simp) (by simp) fun _ => .seq (.newTemporary _ _) fun tmp _ =>
      .calls (storeFields_code fields _ (.of_slot (by simp))) fun _ _ => .pure rfl (by simpa using .slot (by simp))
  | .labelAddress n label => by
    unfold expr
    exact .some (.addressOfLabel label n.span)
  | .error _ => by
    unfold expr
    exact .calls .markError fun _ _ => .pure rfl (by simp)

/-- The code of an expression that names storage. -/
theorem place_code {i r k : Bool} {Γ : List Fact} : ∀ e : Expr,
    Code i r [] Γ k (place e) (Gives e.hasValue) (values true) e.placeEvents
  | .var n v => by
    unfold place
    exact .calls (.lookupVar v _) fun x _ => .pure rfl (by simpa using .slot (by simp))
  | .deref n ptr => by
    unfold place
    exact (expr_code ptr).map rfl rfl fun p => .seq (pointerTo_code _ (.mem List.mem_cons_self)) fun addr _ =>
      .pure rfl (by simpa using (Follows.mem List.mem_cons_self).weaken fun _ _ => rfl)
  | .field n base index => by
    unfold place
    exact (base_code (place_code base) (expr_code base)).further rfl rfl fun v =>
      .some (fieldOf_code _ _ _ (.of_value List.mem_cons_self)).loosen
  | .error _ => by
    unfold place
    exact .calls .markError fun _ _ => .pure rfl (by simp)
  | .int _ _ | .float _ _ | .bool _ _ | .nil _ | .zero _ | .addressOf _ _ | .binary _ _ _ _
  | .call _ _ _ | .conditional _ _ _ _ | .composite _ _ | .labelAddress _ _ => by
    unfold place
    exact .fail _ (by simp) .check

theorem operands_code {i r k : Bool} {Γ : List Fact} : ∀ es : List Expr,
    Code i r [] Γ k (operands es) (Gives (haveValues es)) (fun vs => (vs.getD []).map (.value · true))
      (argEvents es)
  | [] => by
    unfold operands
    exact .pure rfl (by simp)
  | e :: es => by
    unfold operands
    refine (expr_code e).through rfl rfl fun v => .seq (passValue_code _ (.mem List.mem_cons_self)) fun v' _ =>
      (operands_code es).map rfl rfl fun vs => .pure rfl ?_
    simpa using ⟨.mem (by simp), fun v hv => .mem (by simp [hv])⟩

theorem storeFields_code {i r k : Bool} {Γ : List Fact} {base : Operand} : ∀ (es : List Expr) (index : Nat),
    Usable Γ base → Does i r [] Γ k (storeFields base index es) (fieldEvents es)
  | [], _, _ => by
    unfold storeFields
    exact .skip
  | e :: es, index, known => by
    unfold storeFields fieldEvents
    rw [List.append_assoc]
    refine .value (expr_code e) (fun none => ?_) fun there v => ?_
    · rw [none]
      exact storeFields_code es _ known
    · rw [there]
      exact .seq (fieldAddr_code _ _ (known.mono (by simp +contextual))) fun addr _ => .before (storeValue_code
        (.of_value List.mem_cons_self) (.of_value (List.mem_cons_of_mem _ List.mem_cons_self)) .check) fun _ _ =>
        storeFields_code es _ (known.mono (by simp +contextual))

end

/-! ### Returns -/

/-- A return without values is one of a result without bytes. -/
theorem isZeroSized?_of_returnArity {result : Ty} (h : 0 = returnArity result 0) : result.isZeroSized? = some true := by
  cases result with
  | void => rfl
  | tuple fields =>
    cases fields with
    | nil => rfl
    | cons _ _ => cases h
  | _ => cases h

/-- The size of a result is known. -/
theorem isZeroSized_tells (known : .result ty ∈ Γ) : Tells Γ [] (require .overflow ty.isZeroSized?).isOk := by
  refine .sized known fun size => ?_
  obtain ⟨n, size⟩ := Option.isSome_iff_exists.mp size
  rw [Ty.isZeroSized?, size]
  rfl

/-- The returned values, as one operand, and what follows. Where there is none, the result has no bytes. -/
theorem returnOperand_code (vs : List Expr) (span : Span) {f : Option (Option Operand) → EmitM Unit}
    (rest : ∀ (ty : Ty) (operand : Option (Option Operand)), (operand = some none → ty.isZeroSized? = some true) →
      Does i r [] (values (Stmt.ret span vs).returnsAddress operand.join ++ .result ty :: Γ) k (f operand) []) :
    Does i r [] Γ k (returnOperand vs span >>= f) (returnEvents vs) := by
  unfold returnOperand
  rw [bind_assoc]
  refine .result (fun b c same => by rw [same]) fun b => .calls
    (P := fun operand => operand = some none → b.signature.result.isZeroSized? = some true)
    (Δ := fun operand => values (Stmt.ret span vs).returnsAddress operand.join)
    (.guard (.answer List.mem_cons_self) (by simp) (by simp) fun arity => ?_) (rest _)
  rcases vs with _ | ⟨value, _ | ⟨next, others⟩⟩
  · exact .pure (fun _ => isZeroSized?_of_returnArity (of_decide_eq_true arity)) (by simp)
  · refine .calls (expr_code value) fun v _ => ?_
    cases v with
    | none =>
      refine .seq (.checked (isZeroSized_tells (by simp))) fun zero run => ?_
      cases zero with
      | true => exact .pure (fun _ => require_eq_ok_iff.mp run) (by simp)
      | false => exact .pure (by simp) (by simp)
    | some v => exact .pure (by simp) (by simpa using .mem (by simp [Stmt.returnsAddress]))
  · exact .seq (.newTemporary _ _) fun tmp _ => .calls (storeFields_code _ _ (.of_slot (by simp))) fun _ _ =>
      .pure (by simp) (by simpa using .slot (by simp))

theorem keepResult_code {operand : Option Operand} (h : ∀ v ∈ operand, Usable Γ v) :
    Does i r [] Γ k (keepResult operand) [] := by
  refine .result (fun b c same => by rw [same]) fun b => ?_
  cases operand with
  | none => exact .skip
  | some v =>
    refine .seq (.checked (isZeroSized_tells (by simp))) fun zero _ => ?_
    split
    · exact .skip
    · refine .seq .returnSlot fun slot _ => .seq (storeValue_code (.of_slot (by simp))
        ((h v rfl).mono (by simp +contextual))
        (.sized (show Fact.result b.signature.result ∈ _ by simp) fun size => ?_)) fun _ _ => .skip
      rw [Ty.isStorable, size, Bool.or_true]

/-- A cleanup is entered with the reason in its flag. -/
theorem enterCleanup_code (reason : Reason) {flag : Operand} {x : BlockId} (flags : Usable Γ flag)
    (waits : Reaches Γ x) : Does i r [] Γ k (enterCleanup reason flag x) [] :=
  .seq (.perform rfl (by simpa [Op.operands] using ⟨(Follows.const (a := false) _).usable, flags⟩)
    (by simp [Op.successors]))
    fun _ _ => .seq (.perform rfl (by simp [Op.operands]) (by simpa [Op.successors] using waits)) fun _ _ => .skip

theorem routeReturn_code {x : Cleanup} (returns : .returns ∈ Γ) (flags : .flag x.flag ∈ Γ)
    (waits : .target x.block ∈ Γ) : Does i r [] Γ k (routeReturn x) [] :=
  .seq (.markReturns returns) fun _ _ => enterCleanup_code _ (.inr flags) (.inr (.inl waits))

theorem returnValues_code (vs : List Expr) (span : Span)
    (allowed : (Stmt.ret span vs).returnsAddress = true → r = true) :
    Does i r [] Γ k (returnValues vs span) (returnEvents vs) := by
  refine .returning (returnOperand_code vs span fun ty operand empty => ?_)
  cases operand with
  | none => exact .skip
  | some operand =>
    refine .cleanup (f := fun cleanup => do keepResult operand; routeReturn cleanup)
      (g := leaveWith operand span) (fun _ => rfl) (fun cleanup => ?_) ?_
    · refine .seq (keepResult_code fun v hv => ?_) fun _ _ => routeReturn_code (by simp) (by simp) (by simp)
      rw [hv]
      exact .of_value (a := (Stmt.ret span vs).returnsAddress) (by simp)
    · refine .leaveWith span List.mem_cons_self (fun v hv => ?_) fun none => ⟨ty, by simp, empty (by rw [none])⟩
      rw [hv]
      exact (Follows.mem (List.mem_cons_of_mem _ List.mem_cons_self)).weaken fun _ => allowed

theorem returnKept_code (returns : .returns ∈ Γ) : Does i r [] Γ k returnKept [] := by
  refine .cleanup (f := routeReturn) (fun _ => rfl)
    (fun cleanup => routeReturn_code (by simp [returns]) (by simp) (by simp)) ?_
  refine .result (fun b c same => by rw [same]) fun b => .seq
    (.checked (isZeroSized_tells (by simp))) fun zero run => ?_
  split
  · next holds =>
    exact .leaveWith _ (by simp) (by simp) fun _ => ⟨b.signature.result,
      by simp, by rw [require_eq_ok_iff.mp run, holds]⟩
  · refine .seq .returnSlot fun slot _ => .seq (loadValue_code (a := false) _ _ (.slot (by simp)) id) fun v _ =>
      .leaveWith _ (by simp) ?_ (by rintro ⟨⟩)
    rintro _ ⟨⟩
    exact (Follows.mem List.mem_cons_self).weaken fun _ holds => absurd holds Bool.false_ne_true

/-! ### Regions -/

variable {pad target block cont : BlockId} {flag kept : Operand} {f : CaseTable → EmitM Unit}

section Parts

variable {Λ : List BlockId} {next : BlockId} {body : EmitM Unit} {n m : List Event} (hb : Does i r [] [] false body n)
  (lands : .unwind pad ∈ Γ) (goesOn : .block next ∈ Γ)

include hb lands goesOn

/-- A part whose exceptions are caught, and what follows its landing pad. -/
theorem caught_code {f : Unit → EmitM Unit} (waits : .block target ∈ Γ)
    (rest : Does i r Λ (Fact.after false Γ) false (f ()) m) :
    Does i r (pad :: Λ) Γ false
      (withPad pad body >>= fun _ => branchTo next >>= fun _ => catchInto pad target >>= f)
      (padded .catchAll n ++ m) := by
  have front : (withPad pad body >>= fun _ => branchTo next >>= fun _ => catchInto pad target >>= f) =
      (do withPad pad body; branchTo next; startBlock pad; landingPad .catchAll) >>= fun _ =>
        perform (.br target) >>= fun _ => f () := by
    simp only [catchInto, bind_assoc, pure_bind]
  rw [front]
  refine .bind (.part .catchAll lands goesOn hb) (fun _ _ => .seq (.perform rfl (by simp [Op.operands]) ?_) fun _ _ =>
    rest.widen (by simp +contextual)) (by rintro ⟨⟩)
  simpa [Op.successors] using .inl (by simpa using waits)

/-- A part whose exceptions are kept, and enter a cleanup. -/
theorem raised_code (keeps : .slot kept ∈ Γ) (flags : .slot flag ∈ Γ) (waits : .block block ∈ Γ) :
    Does i r [pad] Γ false
      (withPad pad body >>= fun _ => branchTo next >>= fun _ => cleanUpRaised pad kept flag block)
      (padded .cleanup n) := by
  have front : (withPad pad body >>= fun _ => branchTo next >>= fun _ => cleanUpRaised pad kept flag block) =
      (do withPad pad body; branchTo next; startBlock pad; landingPad .cleanup) >>= fun token =>
        perform (.store token kept) >>= fun _ => enterCleanup .reraise flag block := by
    simp only [cleanUpRaised, bind_assoc]
  rw [front, ← List.append_nil (padded .cleanup n)]
  refine .bind (.part .cleanup lands goesOn hb) (fun token _ => .seq (.perform rfl ?_ (by simp [Op.successors]))
    fun _ _ => enterCleanup_code _ (.of_slot (by simpa using flags)) (.inl (by simpa using waits))) (by rintro ⟨⟩)
  simpa [Op.operands] using ⟨.of_value List.mem_cons_self, .of_slot (by simpa using keeps)⟩

end Parts

theorem trap_code : Does i r [] Γ k (do let _ ← perform .unreachable) [] :=
  .seq (.perform rfl (by simp [Op.operands]) (by simp [Op.successors])) fun _ _ => .skip

theorem reraise_code (keeps : .slot kept ∈ Γ) : Does i r [] Γ false (reraise kept) [] := by
  refine .pad (fun c => by cases c.pads.head? <;> rfl) (fun pad => ?_) ?_
  · refine .seq (.named _ _ rfl rfl (by simpa [Op.operands] using .of_slot (by simp [keeps]))) fun ptr _ =>
      .seq (.named _ _ rfl rfl (by simpa [Op.operands] using .of_value List.mem_cons_self)) fun exception _ =>
      .newBlock _ (.inl rfl) (fun x => ?_) (by simp)
    rw [← bind_assoc]
    exact .seq (.rethrow (.of_value (a := false) (by simp)) (.inl (by simp)) (by simp)) fun _ _ =>
      .start (.startBlock (by simp)) fun _ _ => trap_code
  · exact .seq (.named _ _ rfl rfl (by simpa [Op.operands] using .of_slot keeps)) fun token _ =>
      .seq (.perform rfl (by simpa [Op.operands] using .of_value List.mem_cons_self) (by simp [Op.successors]))
        fun _ _ => .skip

/-- What follows the choice whether there is a block for returns. -/
theorem resume_code (state : Operand) (reraiseBlock : BlockId) (returnBlock : Option BlockId)
    (known : Usable Γ state) (keeps : .slot kept ∈ Γ) (goesOn : .block cont ∈ Γ) (first : .block reraiseBlock ∈ Γ)
    (second : ∀ x ∈ returnBlock, .block x ∈ Γ ∧ .returns ∈ Γ) : Does i r
      (reraiseBlock :: returnBlock.toList) Γ false (do
      let badBlock ← Build.newBlock "finbad"
      let returnCase := returnBlock.toList.map fun b => (Reason.ret.code, b)
      let cases := [(Reason.reraise.code, reraiseBlock), (Reason.proceed.code, cont)] ++ returnCase
      let _ ← perform (.switch state badBlock cases)
      startBlock reraiseBlock
      reraise kept
      if let some block := returnBlock then
        startBlock block
        returnKept
      startBlock badBlock
      let _ ← perform .unreachable : EmitM Unit) [] := by
  refine .newBlock _ (.inl rfl) (fun bad => .seq (.perform rfl ?_ ?_) fun _ _ => .start (.startBlock (by simp [first]))
    fun _ _ => .act (n := []) (reraise_code (by simpa using keeps)) fun _ _ => ?_) (by simp)
  · simpa [Op.operands] using known.mono (by simp +contextual)
  · intro t target
    simp only [Op.mem_successors_switch, List.map_append, List.map_map, List.mem_append, List.mem_map,
      Option.mem_toList, List.map_cons, List.map_nil, List.mem_cons, List.not_mem_nil, or_false] at target
    obtain rfl | (rfl | rfl) | ⟨x, found, rfl⟩ := target
    · exact .inl (by simp)
    · exact .inl (by simp [first])
    · exact .inl (by simp [goesOn])
    · exact .inl (by simp [(second x found).1])
  · cases returnBlock with
    | none => exact .start (.startBlock (by simp)) fun _ _ => trap_code
    | some x =>
      obtain ⟨waits, returns⟩ := second x rfl
      exact .start (.startBlock (by simp [waits])) fun _ _ => .seq (returnKept_code (by simp [returns])) fun _ _ =>
        .start (.startBlock (by simp)) fun _ _ => trap_code

/-- The end of a cleanup. -/
theorem dispatch_code {returns : Bool} (flags : .slot flag ∈ Γ) (keeps : .slot kept ∈ Γ) (goesOn : .block cont ∈ Γ)
    (passes : returns = true → .returns ∈ Γ) : Does i r [] Γ false (dispatch flag kept cont returns) [] := by
  refine .seq (.named _ _ rfl rfl (by simpa [Op.operands] using .of_slot flags)) fun state _ =>
    .newBlock _ (.inl rfl) (fun reraiseBlock => ?_) (by simp)
  cases returns with
  | false =>
    exact resume_code state reraiseBlock none (.of_value (a := false) (by simp)) (by simp [keeps])
      (by simp [goesOn]) (by simp) (by rintro _ ⟨⟩)
  | true =>
    rw [if_pos rfl, bind_map_left]
    exact .newBlock _ (.inl rfl) (fun x => resume_code state reraiseBlock (some x)
      (.of_value (a := false) (by simp)) (by simp [keeps]) (by simp [goesOn]) (by simp)
      (by simp [passes rfl])) (by simp)

section Regions

variable {t : Bool} {body handler cleanup : EmitM Unit} {n m l : List Event}

section

variable (hb : Does i r [] [] false body n)

include hb

theorem tryCatch_code (hh : Does i r [] [] false handler m) :
    Does i r [] [] false (tryCatch body handler) (padded .catchAll n ++ m) := by
  refine .newBlock _ (.inr (.inl rfl)) (fun pad => .newBlock _ (.inl rfl) (fun target =>
    .newBlock _ (.inl rfl) (fun cont => caught_code hb (by simp) (by simp) (by simp)
      (.start (.startBlock (by simp)) fun _ _ => ?_)) (by simp)) (by simp)) (by simp)
  exact .last hh.anywhere fun _ _ => .seq (.branchTo (.inl (by simp))) fun _ _ => .startBlock (by simp)

/-- A body without a handler, in front of its cleanup. -/
theorem guarded_none_code {finok : BlockId}
    (lands : .unwind pad ∈ Γ) (proceeds : .block finok ∈ Γ) (keeps : .slot kept ∈ Γ) (flags : .slot flag ∈ Γ)
    (waits : .block block ∈ Γ) :
    Does i r [pad] Γ false (guarded body none pad finok block flag kept) (padded .cleanup n) :=
  raised_code hb lands proceeds keeps flags waits

/-- A body and its handler, in front of the cleanup. -/
theorem guarded_some_code {finok pad' : BlockId} (hh : Does i r [] [] false handler m)
    (lands : .unwind pad ∈ Γ) (handles : .block target ∈ Γ) (lands' : .unwind pad' ∈ Γ)
    (proceeds : .block finok ∈ Γ) (keeps : .slot kept ∈ Γ) (flags : .slot flag ∈ Γ) (waits : .block block ∈ Γ) :
    Does i r [pad, target, pad'] Γ false
      (guarded body (some (handler, ⟨target, pad'⟩)) pad finok block flag kept)
      (padded .catchAll n ++ padded .cleanup m) :=
  caught_code hb lands proceeds handles (.start (.startBlock (by simp [handles])) fun _ _ =>
    raised_code hh (by simp [lands']) (by simp [proceeds]) (by simp [keeps]) (by simp [flags]) (by simp [waits]))

end

/-- What follows a body and its handler, whose code lays out `Λ`. -/
theorem finally_code {Λ : List BlockId} {found : Option (EmitM Unit × HandlerBlocks)}
    (hc : Does i r [] [] false cleanup l) (free : .outside ∉ Γ) (flags : .slot flag ∈ Γ) (keeps : .slot kept ∈ Γ)
    (hg : ∀ (finok block : BlockId) (Γ' : List Fact), (∀ f ∈ Γ, f ∈ Γ') → .block finok ∈ Γ' → .block block ∈ Γ' →
      Does i t Λ Γ' false (guarded body found pad finok block flag kept) n) :
    Does i r Λ Γ false (do
      let finok ← Build.newBlock "finok"
      let cleanupBlock ← Build.newBlock "finally"
      let cont ← Build.newBlock "cont"
      let returns ← withCleanup cleanupBlock flag (guarded body found pad finok cleanupBlock flag kept)
      startBlock finok
      enterCleanup .proceed flag cleanupBlock
      startBlock cleanupBlock
      cleanup
      unless ← isTerminated do
        dispatch flag kept cont returns
      startBlock cont : EmitM Unit) (n ++ l) := by
  refine .newBlock _ (.inl rfl) (fun finok => .newBlock _ (.inl rfl) (fun block =>
    .newBlock _ (.inl rfl) (fun cont => ?_) (by simp)) (by simp)) (by simp)
  rw [List.append_assoc, List.append_assoc]
  refine .bind (.withCleanup (by simp [flags]) (by simp) (by simp [free])
    (hg finok block _ (by simp +contextual) (by simp)
    (by simp))) (fun returns _ => ?_) (by rintro ⟨⟩)
  refine .start (.startBlock (by simp)) fun _ _ => .seq (enterCleanup_code _ (.of_slot (by simp [flags]))
    (.inl (by simp))) fun _ _ =>
    .start (.startBlock (by simp)) fun _ _ => .last hc.anywhere fun _ _ => .ended fun ended => ?_
  cases ended with
  | true => exact .startBlock (by simp)
  | false =>
    exact .act (n := []) (dispatch_code (by simp [flags]) (by simp [keeps]) (by simp)
      fun holds => by simp [holds]) fun _ _ =>
      .startBlock (by simp)

theorem tryFinally_none_code (hb : Does i t [] [] false body n) (hc : Does i r [] [] false cleanup l) :
    Does i r [] [] false (tryFinally body none cleanup) (padded .cleanup n ++ l) :=
  .seq (.newTemporary _ _) fun flag _ => .seq (.newTemporary _ _) fun kept _ =>
    .newBlock _ (.inr (.inl rfl)) (fun pad =>
    finally_code hc (by simp) (by simp) (by simp) fun finok block Γ' sub proceeds waits =>
      guarded_none_code hb (sub _ (by simp)) proceeds (sub _ (by simp)) (sub _ (by simp)) waits) (by simp)

/-- A region with a handler and a cleanup has a landing pad for either. -/
theorem tryFinally_some_code (hb : Does i t [] [] false body n) (hh : Does i t [] [] false handler m)
    (hc : Does i r [] [] false cleanup l) :
    Does i r [] [] false (tryFinally body (some handler) cleanup)
      (padded .catchAll n ++ padded .cleanup m ++ l) := by
  refine .seq (.newTemporary _ _) fun flag _ => .seq (.newTemporary _ _) fun kept _ =>
    .newBlock _ (.inr (.inl rfl)) (fun pad =>
    .newBlock _ (.inl rfl) (fun target => .newBlock _ (.inr (.inl rfl)) (fun pad' => ?_) (by simp)) (by simp)) (by simp)
  refine finally_code (t := t) hc (by simp) (by simp) (by simp) fun finok block Γ' sub proceeds waits => ?_
  exact guarded_some_code hb hh (sub _ (by simp)) (sub _ (by simp)) (sub _ (by simp)) proceeds
    (sub _ (by simp)) (sub _ (by simp)) waits

/-- A deferred call lands, runs its check, and calls inside its own landing pad. -/
theorem deferred_code {check : EmitM Unit} (hk : Does i r [] [] false check n) (epilogue : Expr) (span : Span) :
    Does i r [] [] false (deferred epilogue check span)
      (if epilogue.isError then [.mark] else
        .check epilogue.isCall :: .land .catchAll :: (n ++ enclosed epilogue.events)) := by
  unfold deferred
  split
  · exact .calls .markError fun _ _ => .skip
  · -- The epilogue comes last, so the landing pad is laid out before anything unwinds to it.
    refine .guard .check (by simp) (by simp) fun _ => .newBlock _ (.inr (.inl rfl)) (fun pad => .newBlock _ (.inl rfl)
      (fun target => .newBlock _ (.inl rfl) (fun finish => .seq (.branchTo (.inl (by simp))) fun _ _ => ?_)
        (by simp)) (by simp)) (by simp)
    have front : (catchInto pad target >>= fun _ => startBlock target >>= fun _ => check >>= fun _ =>
          branchTo finish >>= fun _ => startBlock finish >>= fun _ => withPad pad (expr epilogue) >>= fun _ =>
          pure PUnit.unit) =
        (do
          startBlock pad
          let _ ← landingPad .catchAll
          (do
            let _ ← perform (.br target)
            startBlock target
            check
            branchTo finish
            startBlock finish)
          withPad pad (expr epilogue)) >>= fun _ => pure PUnit.unit := by
      simp only [catchInto, bind_assoc, pure_bind]
    show Code _ _ _ _ _ (catchInto pad target >>= fun _ => _) _ _ _
    rw [front, ← List.append_nil (Event.land PadKind.catchAll :: _)]
    refine .bind (Θ := []) (.deferral (Λ := [target, finish]) .catchAll (by simp) ?_
      (expr_code (k := true) epilogue).forget) (fun _ _ => .skip) (by rintro ⟨⟩)
    refine .seq (.perform rfl (by simp [Op.operands]) ?_) fun _ _ => .start (.startBlock (by simp)) fun _ _ => ?_
    · simpa [Op.successors] using .inl (by simp)
    · exact .last hk.anywhere fun _ _ => .seq (.branchTo (.inl (by simp))) fun _ _ => .startBlock (by simp)

end Regions

/-! ### Switches -/

/-- The blocks that a table mentions are there, and these are the values in it. -/
structure CaseTable.Known (Γ : List Fact) (vs : List Int) (hasDefault : Bool) (table : CaseTable) : Prop where
  blocks : ∀ x ∈ table.blocks, .block x ∈ Γ
  values : ∀ p ∈ table.values, .block p.2 ∈ Γ
  default : ∀ x ∈ table.default, .block x ∈ Γ
  listed : table.values.map (·.1) = vs
  isSome : table.default.isSome = hasDefault

/-- Case values are literals or errors, so nothing is called for them. -/
theorem addValues_code (waits : .block block ∈ Γ) : ∀ (es : List Expr) (vs : List (Int × BlockId)),
    (∀ p ∈ vs, .block p.2 ∈ Γ) →
    Code i r [] Γ k (addValues block es vs) (fun vs' => vs'.map (·.1) = vs.map (·.1) ++ es.filterMap literal?)
      (fun vs => vs.map (.block ·.2)) (valueEvents (vs.map (·.1)) es)
  | [], vs, known => .pure (List.append_nil _).symm fun f hf => by
      obtain ⟨p, hp, rfl⟩ := List.mem_map.mp hf
      exact .mem (known p hp)
  | e :: es, vs, known => by
    unfold addValues valueEvents
    split
    · next isError =>
      cases e with
      | error n => exact .before .markError fun _ _ => addValues_code waits es vs known
      | _ => cases isError
    · cases literal : e.literal? with
      | none => exact .fail _ (by simp) .check
      | some v =>
        rw [List.filterMap_cons_some literal]
        have later := addValues_code waits es (vs ++ [(v, block)]) fun p hp => by
          obtain old | new := List.mem_append.mp hp
          · exact known p old
          · rw [List.mem_singleton.mp new]
            exact waits
        rw [List.map_append] at later
        refine .guard .check (by simp) (by simp) fun _ => later.conseq (fun _ => .mem) (fun _ same => ?_)
          (fun _ _ _ => .mem) id
        rw [same, List.append_assoc]
        rfl

/-- A case is added to a table, and what follows lays out its block too. -/
theorem addCase_code {span : Span} {table : CaseTable} {m : List Event}
    {vs : List Int} {default : Bool} (es : List Expr) (known : table.Known Γ vs default)
    (rest : ∀ (table' : CaseTable) (Γ' : List Fact), (∀ f ∈ Γ, f ∈ Γ') →
      table'.Known Γ' (vs ++ es.filterMap literal?) (es.isEmpty || default) →
      table'.blocks.length = table.blocks.length + 1 → Does i r table'.blocks Γ' k (f table') m) :
    Does i r table.blocks Γ k (addCase span table es >>= f)
      (.check (!(es.isEmpty && default)) :: (valueEvents vs es ++ m)) := by
  unfold addCase
  rw [bind_assoc]
  refine .newBlock _ (.inl rfl) (fun x => ?_) (by simp)
  have added : Does i r (table.blocks ++ [x]) (.block x :: Γ) k (do
      let vs ← addValues x es table.values
      f ⟨table.blocks ++ [x], vs, if es.isEmpty then some x else table.default⟩) (valueEvents vs es ++ m) := by
    rw [← known.listed]
    refine .before (addValues_code List.mem_cons_self es _ fun p hp => List.mem_cons_of_mem _ (known.values p hp))
      fun vs' same => rest ⟨_, vs', _⟩ _ (by simp +contextual) ⟨?_, ?_, ?_, ?_, ?_⟩ (by simp)
    · intro y hy
      obtain old | new := List.mem_append.mp hy
      · simp [known.blocks y old]
      · simp [List.mem_singleton.mp new]
    · exact fun p hp => List.mem_append_left _ (List.mem_map.mpr ⟨p, hp, rfl⟩)
    · intro y hy
      dsimp only at hy
      split at hy
      · cases hy
        simp
      · simp [known.default y hy]
    · rw [← known.listed]
      exact same
    · rw [← known.isSome]
      cases es.isEmpty <;> rfl
  rw [← known.isSome]
  cases twice : es.isEmpty && table.default.isSome with
  | true => exact .fail span (by simp) .check
  | false =>
    simp only [Bool.false_eq_true, if_false, bind_assoc, pure_bind]
    exact .passes .check added

/-- A table is made, and what follows lays out its blocks. -/
theorem caseTable_code {span : Span} {m : List Event} :
    ∀ (cases : List (List Expr)) (table : CaseTable) {Γ : List Fact} {vs : List Int} {default : Bool},
    table.Known Γ vs default →
    (∀ (table' : CaseTable) (Γ' : List Fact) (vs' : List Int) (default' : Bool), (∀ f ∈ Γ, f ∈ Γ') →
      table'.Known Γ' vs' default' → table'.blocks.length = table.blocks.length + cases.length →
      Does i r table'.blocks Γ' k (f table') m) → Does i r table.blocks Γ k (cases.foldlM (addCase span) table >>= f)
      (tableEvents vs default cases ++ m)
  | [], table, Γ, vs, default, known, rest => rest table Γ vs default (fun _ => id) known rfl
  | es :: cases, table, Γ, vs, default, known, rest => by
    rw [List.foldlM_cons, bind_assoc, tableEvents, List.cons_append, List.append_assoc]
    refine addCase_code es known fun table' Γ' more known' size => caseTable_code cases table' known'
      fun table'' Γ'' vs'' default'' more' known'' size' =>
      rest table'' Γ'' vs'' default'' (fun f hf => more' f (more f hf)) known'' ?_
    rw [size', size, List.length_cons]
    omega

/-! ### Statements -/

theorem initVar_eq (span : Span) (v : VarId) (value : Option Expr) :
    initVar span v value = lookupVar v span >>= fun x => (match value with
      | none => do
        let store ← perform (.store (.const (.zero x.ty.shape)) x.slot)
        Build.updateVar v ({ · with initializer := some store })
      | some value => do
        let some operand ← expr value | return
        let store ← storeValue x.slot operand x.ty
        Build.updateVar v ({ · with initializer := some store })) := by
  unfold initVar lookupVar
  rw [bind_assoc]
  congr
  funext b
  cases b.var? v with
  | none => cases value <;> rfl
  | some x => rfl

theorem initVar_code (span : Span) (v : VarId) (value : Option Expr) :
    Does i r [] Γ k (initVar span v value) ((Stmt.init span v value).events i) := by
  rw [initVar_eq]
  cases value with
  | none =>
    refine .calls (.lookupVar v span) fun x _ => .seq (.perform rfl ?_ (by simp [Op.successors])) fun _ _ =>
      .updateVar v (fun _ => rfl) fun _ => rfl
    simpa [Op.operands] using ⟨(Follows.const (a := false) _).usable, .of_slot (by simp)⟩
  | some e =>
    exact .before (.lookupVar v span) fun x _ => .needs (expr_code e) rfl fun o =>
      .calls (storeValue_code (.of_slot (by simp))
      (.of_value List.mem_cons_self) (.fill (by simp))) fun _ _ => .updateVar v (fun _ => rfl) fun _ => rfl

theorem assign_code (target value : Expr) :
    Does i r [] Γ k (assign target value) ((Stmt.assign target value).events i) :=
  .needs (place_code target) rfl fun _ => .needs (expr_code value) rfl fun _ => .calls (storeValue_code
    (.of_value (List.mem_cons_of_mem _ List.mem_cons_self)) (.of_value List.mem_cons_self) .check) fun _ _ => .skip

/-- A branch has the steps of its condition, and of both arms if the condition has a value. -/
theorem branch_code (cond : Expr) {yes no : EmitM Unit} {n m : List Event}
    (hy : Does i r [] [] false yes n) (hn : Does i r [] [] false no m) :
    Does i r [] [] false (branch cond yes no) (cond.events ++ reached cond.hasValue (n ++ m)) := by
  refine .needs (condition_code (expr_code cond)) rfl fun c => .newBlock _ (.inl rfl) (fun yesBlock =>
    .newBlock _ (.inl rfl) (fun noBlock => .newBlock _ (.inl rfl) (fun join => .seq (.perform rfl ?_ ?_) fun _ _ =>
    .start (.startBlock (by simp)) fun _ _ => .act hy.anywhere fun _ _ => .seq (.branchTo (.inl (by simp))) fun _ _ =>
    .start (.startBlock (by simp)) fun _ _ => .last hn.anywhere fun _ _ => .seq (.branchTo (.inl (by simp))) fun _ _ =>
    .startBlock (by simp)) (by simp)) (by simp)) (by simp)
  · simpa [Op.operands] using .of_value (a := false) (by simp)
  · simp only [Op.successors, List.mem_cons, List.not_mem_nil, or_false]
    rintro t (rfl | rfl) <;> exact .inl (by simp)

theorem jumpTo_code (addr : Expr) : Does i r [] Γ k (jumpTo addr) addr.events := by
  have all : Does i r [] Γ k (jumpTo addr) (addr.events ++ reached addr.hasValue []) :=
    .needs (expr_code addr) rfl fun v => .jump (.of_value List.mem_cons_self)
  cases h : addr.hasValue <;> simpa [h] using all

mutual

/-- The code of a statement. -/
theorem stmt_code {i r : Bool} : ∀ s : Stmt, (s.returnsAddress = true → r = true) →
    Does i r [] [] false (stmt s) (s.events i)
  | .eval value, _ => by
    unfold stmt
    exact .calls (expr_code value) fun _ _ => .skip
  | .init span v value, _ => by
    unfold stmt
    exact initVar_code span v value
  | .assign target value, _ => by
    unfold stmt
    exact assign_code target value
  | .ret span values, allowed => by
    unfold stmt
    exact returnValues_code values span allowed
  | .block body, allowed => by
    unfold stmt
    exact stmts_code body allowed
  | .ite cond yes no, allowed => by
    simp only [Stmt.returnsAddress, Bool.or_eq_true] at allowed
    unfold stmt
    exact branch_code cond (stmt_code yes fun h => allowed (.inl h)) (stmt_code no fun h => allowed (.inr h))
  | .switch span value cases, allowed => by
    unfold stmt
    refine .needs (expr_code value) rfl fun v => caseTable_code (cases.map Prod.fst) {}
      ⟨by simp, by simp, by simp, rfl, rfl⟩ fun table Γ' _ _ more known size => .newBlock _ (.inl rfl) (fun exit =>
      .seq (.perform rfl ?_ ?_) fun _ _ => ?_) (by simp)
    · simpa [Op.operands] using .of_value (List.mem_cons_of_mem _ (more _ List.mem_cons_self))
    · intro t target
      obtain rfl | there := Op.mem_successors_switch.mp target
      · cases h : table.default with
        | none => exact .inl (by simp)
        | some x => exact .inl (by simp [known.default x h])
      · obtain ⟨p, hp, rfl⟩ := List.mem_map.mp there
        exact .inl (by simp [known.values p hp])
    · rw [List.length_map] at size
      rw [← List.append_nil (Stmt.caseEvents cases)]
      exact .bind (.withExit (by simp) (caseBodies_code cases table.blocks allowed (by simp)
        (fun x hx => by simp [known.blocks x hx]) (by simpa using size))) (fun _ _ =>
          .startBlock (by simp)) (by rintro ⟨⟩)
  | .leave span, _ => by
    unfold stmt
    exact .exit span (f := fun exit => do let _ ← perform (.br exit)) (fun _ => rfl) fun exit =>
      .seq (.perform rfl (by simp [Op.operands]) (by simpa [Op.successors] using .inl (by simp))) fun _ _ => .skip
  | .goto span l, _ => by
    unfold stmt
    rw [← bind_assoc]
    exact .last (.goto l span) fun _ _ => .skip
  | .label span l, _ => by
    unfold stmt
    exact .placeLabel l span
  | .gotoAddress addr, _ => by
    unfold stmt
    exact jumpTo_code addr
  | .attempt body none none, allowed => by
    unfold stmt
    exact stmt_code body allowed
  | .attempt body (some handler) none, allowed => by
    simp only [Stmt.returnsAddress, Bool.or_eq_true] at allowed
    unfold stmt
    exact tryCatch_code (stmt_code body fun h => allowed (.inl h)) (stmt_code handler fun h => allowed (.inr h))
  | .attempt body none (some cleanup), allowed => by
    unfold stmt
    exact tryFinally_none_code (t := true) (stmt_code body fun _ => rfl) (stmt_code cleanup allowed)
  | .attempt body (some handler) (some cleanup), allowed => by
    unfold stmt
    exact tryFinally_some_code (t := true) (stmt_code body fun _ => rfl) (stmt_code handler fun _ => rfl)
      (stmt_code cleanup allowed)
  | .defer span epilogue check, allowed => by
    unfold stmt
    exact deferred_code (stmt_code check allowed) epilogue span
  | .error, _ => by
    unfold stmt
    exact .markError

theorem stmts_code {i r : Bool} : ∀ ss : List Stmt, (Stmt.returnAddress ss = true → r = true) →
    Does i r [] [] false (stmts ss) (Stmt.eventsIn i ss)
  | [], _ => by
    unfold stmts
    exact .skip
  | s :: ss, allowed => by
    simp only [Stmt.returnAddress, Bool.or_eq_true] at allowed
    unfold stmts
    exact .act (stmt_code s fun h => allowed (.inl h)) fun _ _ => (stmts_code ss fun h => allowed (.inr h)).anywhere

/-- The code of the cases lays out their blocks. -/
theorem caseBodies_code {r : Bool} {exit : BlockId} : ∀ (cases : List (List Expr × Stmt)) (blocks : List BlockId)
    {Γ : List Fact}, (Stmt.casesReturnAddress cases = true → r = true) → .block exit ∈ Γ →
    (∀ x ∈ blocks, .block x ∈ Γ) → blocks.length = cases.length →
    Does true r blocks Γ false (caseBodies blocks exit cases) (Stmt.caseEvents cases)
  | [], [], _, _, _, _, _ => by
    unfold caseBodies
    exact .skip
  | (_, body) :: cases, x :: xs, _, allowed, waits, known, size => by
    simp only [Stmt.casesReturnAddress, Bool.or_eq_true] at allowed
    unfold caseBodies
    refine .start (.startBlock (known x List.mem_cons_self)) fun _ _ => .act
      (stmt_code body fun h => allowed (.inl h)).anywhere fun _ _ => .seq (.branchTo (.inl ?_)) fun _ _ =>
      caseBodies_code cases xs (fun h => allowed (.inr h)) (by simp [waits])
        (fun y hy => by simp [known y (List.mem_cons_of_mem _ hy)]) (Nat.succ.inj size)
    cases xs with
    | nil => simp [waits]
    | cons y ys => simp [known y (by simp)]

end

end Emit

end FlowIR

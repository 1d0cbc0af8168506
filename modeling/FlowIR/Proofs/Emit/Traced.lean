import FlowIR.Proofs.Build.Fit
import FlowIR.Proofs.Emit.Program
import FlowIR.Proofs.Source.Outline

/-!
Emission goes the way of the steps of the program and keeps track of the addresses of labels.

At a cursor that is fit, the parts that code is put together from have what they work on, so that emitting them
succeeds (`Safe`). The code of a program can be emitted exactly if there is a way along its steps, and then the
labels are where the steps lead (`Emit.walks_code`).

The code of an expression only adds uses of addresses: an operand that it has got from a part of it is still known
when it is used. The code of a statement may give labels their places. One way of returning does not record what it
uses: the address of a label that is returned and has to be loaded through memory. It is taken only outside of all
cleanups, and only if the result of the function is loaded that way; `Cursor.Allows` is what excludes it.
-/

namespace FlowIR

open Build List

/-! ### Where code is emitted -/

/-- The function is fit, the uses of labels are tracked, and the current block is there. -/
structure Cursor.Fit (strict : Prop) (c : Cursor) : Prop where
  builder : c.builder.Fit
  tracked : c.builder.Tracked strict
  current : c.current.index < c.builder.footing.blocks
  flags : ∀ x ∈ c.cleanups, x.flag.isAddress = false

/-- The second cursor has come from the first by emitting code, and the labels are where the trail says. If `keeps`
holds, addresses that were known still are. -/
structure Cursor.Treads (strict : Prop) (keeps : Bool) (c : Cursor) (t : Trail) (after : Cursor) : Prop where
  fit : after.Fit strict
  below : (c.builder.footing.on t).Below after.builder.footing
  follows : c.builder.Follows keeps after.builder
  around : (after.exits, after.pads, after.cleanups.length) = (c.exits, c.pads, c.cleanups.length)

variable {strict : Prop} {keeps : Bool} {c : Cursor}

namespace Cursor.Treads

variable {mid after : Cursor} {t u : Trail}

theorem refl (fit : c.Fit strict) : c.Treads strict keeps c.builder.trail c := ⟨fit, .refl _, .refl _, rfl⟩

theorem trans (h : c.Treads strict keeps t mid) (k : mid.Treads strict keeps u after) : c.Treads strict keeps u after :=
  ⟨k.fit, (h.below.off.trans k.below.off).on k.below.trail, h.follows.trans k.follows, k.around.trans h.around⟩

theorem imp {k : Bool} (h : c.Treads strict k t after) (less : keeps = true → k = true) :
    c.Treads strict keeps t after :=
  ⟨h.fit, h.below, ⟨h.follows.same, fun holds => h.follows.knows (less holds)⟩, h.around⟩

theorem depth (h : c.Treads strict keeps t after) : after.cleanups.length = c.cleanups.length :=
  congrArg (·.2.2) h.around

theorem knows (h : c.Treads strict true t after) {v : Operand} (known : c.builder.Knows v) : after.builder.Knows v :=
  h.follows.knows rfl v known

end Cursor.Treads

/-! ### What is known -/

/-- The operand can be used, and is an address only if `a` says so. -/
structure Cursor.Serves (c : Cursor) (v : Operand) (a : Bool) : Prop where
  there : c.builder.footing.Holds v
  knows : c.builder.Knows v
  address : v.isAddress = true → a = true

def Fact.Holds (c : Cursor) : Fact → Prop
  | .value v a => c.Serves v a
  | .all S => ∀ v a, S v a → c.Serves v a
  | .slot v => v.isAddress = false ∧ c.builder.footing.Holds v
  | .flag v => v.isAddress = false
  | .block x | .join _ x | .unwind x => x.index < c.builder.footing.blocks
  | .outside => c.cleanups.length = 0
  | .typed v ty => c.builder.footing.scope.types[v.index]? = some ty
  | .result ty => ty = c.builder.footing.scope.signature.result
  | .target _ | .returns => True

theorem Cursor.Serves.of_plain {v : Operand} {a : Bool} (plain : v.isAddress = false)
    (there : c.builder.footing.Holds v) : c.Serves v a :=
  ⟨there, Builder.knows_of_plain plain, by simp [plain]⟩

/-- A fact that lasts goes on to hold, and so does any other where no label gets its place. -/
theorem Cursor.Treads.fact {after : Cursor} {t : Trail} (h : c.Treads strict keeps t after) {f : Fact}
    (holds : f.Holds c) (stays : keeps = true ∨ f.lasts = true) : f.Holds after := by
  have serves : keeps = true → ∀ {v a}, c.Serves v a → after.Serves v a := fun kept {v a} served =>
    ⟨served.there.mono h.below.off, h.follows.knows kept v served.knows, served.address⟩
  cases f with
  | value v a => exact serves (stays.resolve_right Bool.false_ne_true) holds
  | all S => exact fun v a there => serves (stays.resolve_right Bool.false_ne_true) (holds v a there)
  | slot v => exact ⟨holds.1, holds.2.mono h.below.off⟩
  | block x | join S x | unwind x => exact h.below.block holds
  | typed v ty => exact Eq.trans (congrArg (fun k : Scope => k.types[v.index]?) h.below.scope) holds
  | result ty => exact Eq.trans holds (congrArg (·.signature.result) h.below.scope).symm
  | outside => exact h.depth.trans holds
  | flag v | target x | returns => exact holds

theorem Cursor.Treads.facts {after : Cursor} {t : Trail} (h : c.Treads strict keeps t after) {Γ : List Fact}
    (known : ∀ f ∈ Γ, f.Holds c) : ∀ f ∈ Fact.after keeps Γ, f.Holds after := by
  intro f hf
  cases keeps with
  | true => exact h.fact (known f hf) (.inl rfl)
  | false => exact h.fact (known f (Fact.mem_after_false.mp hf).1) (.inr (Fact.mem_after_false.mp hf).2)

namespace Fact

variable {Γ : List Fact} {f : Fact}

/-- Most facts are about the function alone. -/
theorem Holds.congr {d : Cursor} (h : f.Holds c) (builder : d.builder = c.builder)
    (depth : d.cleanups.length = c.cleanups.length ∨ f ≠ .outside) : f.Holds d := by
  obtain ⟨b, current, pads, cleanups, exits⟩ := d
  cases builder
  cases f with
  | value v a => exact ⟨h.there, h.knows, h.address⟩
  | all S => exact fun v a there => ⟨(h v a there).there, (h v a there).knows, (h v a there).address⟩
  | outside => exact (depth.resolve_right fun other => other rfl).trans h
  | _ => exact h

theorem Follows.holds (h : Follows Γ f) (known : ∀ f ∈ Γ, f.Holds c) : f.Holds c := by
  cases h with
  | mem there => exact known f there
  | slot there => exact .of_plain (known _ there).1 (known _ there).2
  | const => exact .of_plain rfl trivial
  | value there less =>
    obtain ⟨there, knows, address⟩ := known _ there
    exact ⟨there, knows, fun on => less on (address on)⟩
  | held there holds less =>
    obtain ⟨there, knows, address⟩ := known _ there _ _ holds
    exact ⟨there, knows, fun on => less on (address on)⟩
  | fewer there fewer => exact fun v a holds => known _ there v a (fewer v a holds)

theorem Usable.knows {v : Operand} (h : Usable Γ v) (known : ∀ f ∈ Γ, f.Holds c) : c.builder.Knows v :=
  h.elim (fun ⟨_, follows⟩ => (follows.holds known).knows) fun flag => Builder.knows_of_plain (known _ flag)

end Fact

/-- The steps tell what is checked. -/
theorem Tells.along {Γ : List Fact} {n : List Event} {ok : Bool} (h : Tells Γ n ok) (known : ∀ f ∈ Γ, f.Holds c)
    (sized : ∃ size, c.builder.signature.result.size? = some size) (t : Trail) :
    t.along c.builder.scope n = if ok then some t else none := by
  cases h with
  | check => rfl
  | sized there fine =>
    obtain ⟨size, found⟩ := sized
    have same : _ = c.builder.signature.result := known _ there
    rw [fine (by rw [same, found]; rfl)]
    rfl
  | fill there =>
    have found : c.builder.scope.types[_]? = some _ := known _ there
    simp only [Trail.along, Trail.allows, found]
    rfl
  | answer there =>
    have same : _ = c.builder.signature.result := known _ there
    rw [same]
    rfl

/-! ### Code that can always be emitted -/

/-- Emitting the code succeeds and mentions no label. -/
def Safe {α : Type} (strict : Prop) (c : Cursor) (x : EmitM α) (Q : α → Cursor → Prop) : Prop :=
  Succeeds x c fun a after => c.Treads strict true c.builder.trail after ∧ Q a after

namespace Safe

variable {α β : Type} {Q : α → Cursor → Prop} {x : EmitM α}

theorem pure {a : α} (fit : c.Fit strict) (q : Q a c) : Safe strict c (pure a) Q := ⟨.refl fit, q⟩

theorem mono {R : α → Cursor → Prop} (h : Safe strict c x Q)
    (weaker : ∀ a after, c.Treads strict true c.builder.trail after → Q a after → R a after) : Safe strict c x R :=
  Ensures.imp h fun a after kept => ⟨kept.1, weaker a after kept.1 kept.2⟩

theorem bind {R : β → Cursor → Prop} {f : α → EmitM β} (first : Safe strict c x Q)
    (second : ∀ a mid, c.Treads strict true c.builder.trail mid → Q a mid → Safe strict mid (f a) R) :
    Safe strict c (x >>= f) R := by
  refine Ensures.bind first fun a mid ⟨treads, q⟩ => Ensures.imp (second a mid treads q) ?_
  have trail : mid.builder.trail = c.builder.trail := treads.below.trail
  exact fun _ _ ⟨treads', r⟩ => ⟨trail ▸ treads.trans treads', r⟩

theorem get {f : Cursor → EmitM α} (h : Safe strict c (f c) Q) : Safe strict c (get >>= f) Q := h

theorem builder {f : Builder → EmitM α} (h : Safe strict c (f c.builder) Q) : Safe strict c (Emit.builder >>= f) Q := h

theorem lift {x : BuildM α} {P : α → Builder → Prop} {Q : Footing → α → Prop} (fit : c.Fit strict)
    (notes : Notes strict true x c.builder P) (fits : Fits c.builder.footing x Q) :
    Safe strict c (liftM x) fun a after => P a after.builder ∧ Q after.builder.footing a := by
  refine ensures_lift.mpr ((Ensures.and notes (fits c.builder fit.builder rfl)).mono ?_ fun _ _ he => he.2)
  rintro a b ⟨⟨tracked, follows, p⟩, fit', le, q⟩
  exact ⟨⟨⟨fit', tracked, le.block fit.current, fit.flags⟩, le, follows, rfl⟩, p, q⟩

end Safe

namespace Emit

section Safe

variable (fit : c.Fit strict)

include fit

theorem isTerminated_safe : Safe strict c isTerminated fun _ _ => True := by
  obtain ⟨t, run⟩ := fit.builder.exists_isTerminated fit.current
  exact Safe.get (.of_checked run ⟨.refl fit, trivial⟩)

theorem moveTo_safe {x : BlockId} (there : x.index < c.builder.footing.blocks) :
    Safe strict c (moveTo x) fun _ _ => True :=
  ⟨⟨⟨fit.builder, fit.tracked, there, fit.flags⟩, .refl _, .refl _, rfl⟩, trivial⟩

theorem startBlock_safe {x : BlockId} (there : x.index < c.builder.footing.blocks) :
    Safe strict c (startBlock x) fun _ _ => True :=
  (Safe.lift fit (attach_notes fit.tracked x) (attach_fits x)).bind fun _ _ treads _ =>
    moveTo_safe treads.fit (treads.below.block there)

theorem newBlock_safe (tag : String) :
    Safe strict c (liftM (newBlock tag) : EmitM BlockId) fun x after => x.index < after.builder.footing.blocks :=
  (Safe.lift fit (newBlock_notes fit.tracked tag) (newBlock_fits tag)).mono fun _ _ _ made => made.2

theorem ensureOpen_safe : Safe strict c ensureOpen fun _ _ => True := by
  refine (isTerminated_safe fit).bind fun ended _ treads _ => ?_
  split
  · exact (newBlock_safe treads.fit _).bind fun _ _ treads there => startBlock_safe treads.fit there
  · exact .pure treads.fit trivial

/-- An instruction can be added if its operands are known. -/
theorem push_safe {instr : Instr} (known : ∀ v ∈ instr.op.operands, c.builder.Knows v)
    (branch : ∀ addr dests, instr.op ≠ .indirectBr addr dests) :
    Safe strict c (push instr) fun i after => i.index < after.builder.footing.instrs := by
  refine (ensureOpen_safe fit).bind fun _ mid treads _ => ?_
  refine (Safe.lift treads.fit (newTracked_notes treads.fit.tracked (fun v mem =>
    treads.knows (known v mem)) branch)
    (newTracked_fits instr)).bind fun i mid treads made => .get ?_
  exact (Safe.lift treads.fit (append_notes treads.fit.tracked _ i)
    (append_fits treads.fit.current made.2)).bind fun _ _ treads _ => .pure treads.fit (treads.below.instr made.2)

theorem named_safe (tag : String) {op : Op} (shape : Shape) (known : ∀ v ∈ op.operands, c.builder.Knows v)
    (branch : ∀ addr dests, op ≠ .indirectBr addr dests) {a : Bool} :
    Safe strict c (named tag op shape) fun v after => after.Serves v a := by
  refine (Safe.lift fit (fresh_notes fit.tracked tag) (fresh_fits tag)).bind fun name mid treads _ => ?_
  exact (push_safe treads.fit (fun v mem => treads.knows (known v mem)) branch).bind fun i _ treads made =>
    .pure treads.fit (.of_plain rfl made)

theorem branchTo_safe (x : BlockId) : Safe strict c (branchTo x) fun _ _ => True := by
  refine (isTerminated_safe fit).bind fun ended _ treads _ => ?_
  split
  · exact .pure treads.fit trivial
  · exact (push_safe treads.fit (by simp [Op.operands]) (by simp)).bind fun _ _ treads _ => .pure treads.fit trivial

theorem callInstr_safe (callee : String) {args : List Operand} (shape : Shape) (name : Option String)
    (known : ∀ v ∈ args, c.builder.Knows v) {a : Bool} :
    Safe strict c (callInstr callee args shape name) fun v after => after.Serves v a := by
  refine .get ?_
  split
  · refine (newBlock_safe fit _).bind fun cont mid treads there => ?_
    have known' : ∀ v ∈ args, mid.builder.Knows v := fun v mem => treads.knows (known v mem)
    exact (push_safe treads.fit (by exact known') (by simp)).bind fun i _ treads made =>
      (startBlock_safe treads.fit (treads.below.block there)).bind fun _ _ treads _ =>
        .pure treads.fit (.of_plain rfl (treads.below.instr made))
  · exact (push_safe fit (by exact known) (by simp)).bind fun i _ treads made => .pure treads.fit (.of_plain rfl made)

/-- What is returned may be an address only if it need not be loaded, and where the result does not travel there need
not be anything. -/
theorem leaveWith_safe {operand : Option Operand} (span : Span) (known : ∀ v ∈ operand, c.builder.Knows v)
    (unused : strict → c.builder.convention.loadsResult = true → ∀ v ∈ operand, v.isAddress = false)
    (given : operand = none → c.builder.convention.result.passing = .ignored) :
    Safe strict c (leaveWith operand span) fun _ _ => True := by
  refine (ensureOpen_safe fit).bind fun _ mid treads _ => .get ?_
  have convention := treads.follows.convention
  refine (Safe.lift treads.fit (prepareReturn_notes treads.fit.tracked _ span (fun v mem =>
    treads.knows (known v mem))
    fun s loads v mem p hole => ?_) (prepareReturn_fits treads.fit.current span fun none => ?_)).bind
    fun value mid treads returns => ?_
  · rw [convention] at loads
    cases hole ▸ unused s loads v mem
  · show mid.builder.convention.result.passing = .ignored
    rw [convention]
    exact given none
  · exact (push_safe treads.fit (by simpa [Op.operands] using returns.1) (by simp)).bind
      fun _ _ treads _ => .pure treads.fit trivial

/-- Jumping to a label through its address is recorded as such. -/
theorem jump_safe {v : Operand} (known : c.builder.Knows v) : Safe strict c (do
    let i ← perform (.indirectBr v [])
    (modify fun b => { b with labels := b.labels.recordBranch i } : BuildM Unit)) fun _ _ => True := by
  show Safe strict c (push { op := .indirectBr v [] } >>= _) _
  rw [push, bind_assoc]
  refine (ensureOpen_safe fit).bind fun _ mid treads _ => ?_
  have spec := Ensures.and (newBranch_notes treads.fit.tracked (treads.knows known) mid.current)
    (newBranch_fits v treads.fit.current mid.builder treads.fit.builder rfl)
  simp only [Safe, Succeeds, ensures_bind, ensures_lift, ensures_get, ensures_modify, ensures_pure] at spec ⊢
  refine spec.mono (fun _ _ inner => inner.mono ?_ fun _ _ he => he.2) fun _ _ he => he.2
  rintro - _ ⟨⟨tracked, follows, -⟩, fit', le, -⟩
  exact ⟨⟨⟨fit', tracked, le.block treads.fit.current, treads.fit.flags⟩, le, follows, rfl⟩, trivial⟩

end Safe

end Emit

/-! ### Steps -/

/-- A return of a mere label address, if there is one, need not be loaded or goes through a cleanup. -/
def Cursor.Allows (strict : Prop) (c : Cursor) (returnsAddress : Bool) : Prop :=
  strict → c.cleanups.length = 0 → c.builder.convention.loadsResult = true → returnsAddress = false

structure Cursor.Steady (strict : Prop) (k : Scope) (i r : Bool) (Γ : List Fact) (c : Cursor) : Prop where
  fit : c.Fit strict
  scope : c.builder.scope = k
  inside : c.exits.isEmpty = !i
  around : ∀ x ∈ c.exits ++ c.pads, x.index < c.builder.footing.blocks
  allowed : c.Allows strict r
  facts : ∀ f ∈ Γ, f.Holds c

/-- Emitting the code goes along the steps, and keeps track of the addresses also when an error is reported. -/
def Walks {α : Type} (strict : Prop) (k : Scope) (i r : Bool) (Γ : List Fact) (keeps : Bool) (x : EmitM α)
    (P : α → Prop)
    (Δ : α → List Fact) (n : List Event) : Prop :=
  ∀ c : Cursor, c.Steady strict k i r Γ → Ensures x c (fun a after => ∃ t, c.builder.trail.along k n = some t ∧
    c.Treads strict keeps t after ∧ P a ∧ ∀ f ∈ Δ a, f.Holds after)
    fun e after => e.Leaves (after.builder.Tracked strict) ∧ c.builder.trail.along k n = none

namespace Cursor.Steady

variable {k : Scope} {i r : Bool} {Γ Γ' : List Fact} {after : Cursor} {t : Trail}

variable (h : c.Steady strict k i r Γ)

include h

theorem with_facts (facts : ∀ f ∈ Γ', f.Holds c) : c.Steady strict k i r Γ' := { h with facts }

theorem cons {f : Fact} (new : f.Holds c) : c.Steady strict k i r (f :: Γ) :=
  h.with_facts (forall_mem_cons.mpr ⟨new, h.facts⟩)

/-- What could stand before the code can stand behind it. -/
theorem next (treads : c.Treads strict keeps t after) : after.Steady strict k i r (Fact.after keeps Γ) where
  fit := treads.fit
  scope := treads.below.scope.trans h.scope
  inside := congrArg (·.1.isEmpty) treads.around ▸ h.inside
  around x hx := treads.below.block (h.around x (congrArg (fun l => l.1 ++ l.2.1) treads.around ▸ hx))
  allowed s none loads := h.allowed s (treads.depth ▸ none) (treads.follows.convention ▸ loads)
  facts := treads.facts h.facts

end Cursor.Steady

namespace Walks

variable {α β : Type} {k : Scope} {i r j : Bool} {Γ : List Fact} {x : EmitM α} {f : α → EmitM β} {P : α → Prop}
  {R : β → Prop} {Δ : α → List Fact} {E : β → List Fact} {n m : List Event}

/-- Code that can always be emitted. -/
theorem of_safe (h : ∀ c : Cursor, c.Steady strict k i r Γ → Safe strict c x fun a after =>
    P a ∧ ∀ f ∈ Δ a, f.Holds after)
    (silent : ∀ t : Trail, t.along k n = some t) : Walks strict k i r Γ keeps x P Δ n := fun c steady =>
  Ensures.mono (h c steady) (fun _ _ ⟨treads, kept⟩ => ⟨_, silent _, treads.imp fun _ => rfl, kept⟩)
    fun _ _ he => he.elim

theorem bind (first : Walks strict k i r Γ j x P Δ n)
    (second : ∀ a, P a → Walks strict k i r (Δ a ++ Fact.after j Γ) keeps (f a) R E m)
    (less : keeps = true → j = true) : Walks strict k i r Γ keeps (x >>= f) R E (n ++ m) := by
  intro c steady
  rw [Trail.along_append]
  refine Ensures.bind ((first c steady).mono (fun _ _ h => h) fun _ _ he => ⟨he.1, by rw [he.2]; rfl⟩) ?_
  rintro a mid ⟨t, run, treads, holds, facts⟩
  have trail : mid.builder.trail = t := treads.below.trail
  rw [run, ← trail]
  have later := steady.next treads
  refine (second a holds mid (later.with_facts (forall_mem_append.mpr ⟨facts, later.facts⟩))).imp ?_
  rintro b after ⟨u, run', treads', kept⟩
  exact ⟨u, run', (treads.imp less).trans treads', kept⟩

/-- An operation on the function that is a step. -/
theorem step {x : BuildM α} {e : Event} {P : Builder → α → Builder → Prop} {Q : Footing → α → Prop}
    (notes : ∀ b : Builder, b.Tracked strict → Notes strict keeps x b (P b))
    (fits : ∀ b : Builder, b.Fit → b.scope = k → Ensures x b (fun a after => b.trail.allows k e = true ∧ after.Fit ∧
      (b.footing.on (b.trail.after e)).Below after.footing ∧ Q after.footing a) fun _ _ => b.trail.allows k e = false)
    (facts : ∀ b a after, P b a after.builder → Q after.builder.footing a → ∀ f ∈ Δ a, f.Holds after) :
    Walks strict k i r Γ keeps (liftM x) Any Δ [e] := by
  intro c steady
  refine ensures_lift.mpr ((Ensures.and (notes c.builder steady.fit.tracked)
    (fits c.builder steady.fit.builder steady.scope)).mono ?_ ?_)
  · rintro a b ⟨⟨tracked, follows, p⟩, allowed, fit, le, q⟩
    exact ⟨_, if_pos allowed, ⟨⟨fit, tracked, le.block steady.fit.current, steady.fit.flags⟩, le, follows,
      rfl⟩, trivial,
      facts _ a { c with builder := b } p q⟩
  · rintro _ _ ⟨leaves, refused⟩
    exact ⟨leaves, if_neg (Bool.eq_false_iff.mp refused)⟩

/-- Code that needs nothing to be known can stand anywhere. -/
theorem anywhere (h : Walks strict k i r [] keeps x P Δ n) : Walks strict k i r Γ keeps x P Δ n := fun c steady =>
  h c (steady.with_facts (by rintro _ ⟨⟩))

end Walks

theorem Trail.along_enclosed {k : Scope} {n : List Event} (t : Trail) : t.along k (enclosed n) = t.along k n := by
  have last : t.along k (n ++ [.leave]) = t.along k n := by
    rw [along_append]
    cases t.along k n <;> rfl
  exact last

namespace Emit

variable {k : Scope} {i r : Bool} {Γ : List Fact}

theorem lookupVar_walks (v : VarId) (span : Span) :
    Walks strict k i r Γ keeps (lookupVar v span) Any (fun x => [.slot x.slot, .typed v x.ty]) [.find v] := by
  intro c steady
  have types : c.builder.scope.types[v.index]? = (c.builder.var? v).map (·.ty) := by
    simp [Builder.scope, Builder.var?]
  have allowed : c.builder.trail.allows k (.find v) = (c.builder.var? v).isSome := by
    rw [← steady.scope, ← Option.isSome_map, ← types, Bool.eq_iff_iff]
    simp [Trail.allows]
  unfold lookupVar builder
  rw [bind_assoc]
  refine .get ?_
  rw [pure_bind]
  cases found : c.builder.var? v with
  | none =>
    rw [found] at allowed
    exact ⟨⟨by simp, by simp, steady.fit.tracked⟩, if_neg (Bool.eq_false_iff.mp allowed)⟩
  | some x =>
    rw [found] at allowed types
    have plain : x.slot.isAddress = false := by
      refine steady.fit.tracked.plain x.slot ?_
      simp only [Builder.roots, mem_append, mem_map, Array.mem_toList_iff]
      exact .inl (.inl ⟨x, Array.mem_of_getElem? found, rfl⟩)
    exact ⟨_, if_pos allowed, .refl steady.fit, trivial, forall_mem_cons.mpr
      ⟨⟨plain, holds_var steady.fit.builder found⟩, forall_mem_singleton.mpr types⟩⟩

theorem labelBlock_walks (l : LabelId) (span : Span) :
    Walks strict k i r Γ keeps (liftM (labelBlock l span)) Any (fun _ => []) [.mention l] :=
  .step (Q := fun _ _ => True) (fun _ tracked => labelBlock_notes tracked l span)
    (fun _ fit here => (labelBlock_fit fit l span).mono
      (fun _ _ ⟨known, fit, le, _⟩ => ⟨here ▸ known, fit, le, trivial⟩) fun _ _ unknown => here ▸ unknown)
    fun _ _ _ _ _ _ known => absurd known not_mem_nil

/-- A label is placed where the cursor stands. -/
theorem placeLabel_walks (l : LabelId) (span : Span) :
    Walks strict k i r Γ false (placeLabel l span) Any (fun _ => []) [.place l] := by
  have defined : Walks strict k i r Γ false (liftM (defineLabel l span)) Any (fun x =>
    [.block x]) [.place l] := by
    refine .step (Q := fun w x => x.index < w.blocks) (fun _ tracked => defineLabel_notes tracked l span)
      (fun b fit here => (defineLabel_fit fit l span).mono ?_ ?_) fun _ _ _ _ there =>
        forall_mem_singleton.mpr there
    · rintro x after ⟨known, free, fit, le, there⟩
      exact ⟨by rw [Trail.allows, ← here, known, free]; rfl, fit, le, there⟩
    · intro _ _ refused
      rw [Trail.allows, ← here]
      rcases refused with unknown | placed
      · rw [unknown, Bool.false_and]
      · rw [placed, Bool.not_true, Bool.and_false]
  refine defined.bind (fun x _ => .of_safe (fun c steady => (branchTo_safe steady.fit x).bind fun _ _ treads _ => ?_)
    fun _ => rfl) id
  have there : x.index < c.builder.footing.blocks := steady.facts (.block x) mem_cons_self
  exact (moveTo_safe treads.fit (treads.below.block there)).mono fun _ _ _ _ =>
    ⟨trivial, by rintro _ ⟨⟩⟩

theorem markError_walks : Walks strict k i r Γ keeps (liftM markError) Any (fun _ => []) [.mark] := by
  refine .step (Q := fun _ _ => True) (fun _ tracked => markError_notes tracked) (fun b fit _ => ?_)
    fun _ _ _ _ _ _ known => absurd known not_mem_nil
  have le : b.footing.Within ({ b with errorSeen := true } : Builder).footing :=
    ⟨Nat.le_refl _, Nat.le_refl _, Nat.le_refl _, rfl⟩
  exact ⟨rfl, fit.grow le rfl (fun _ => .inl) (fun _ _ => .inl) (fun _ => .inl) (fun _ _ => .inl) fun _ _ => .inl,
    le.on rfl, trivial⟩

/-! ### What encloses code -/

section Enclosing

variable {α : Type} {x : BlockId} {n : List Event}

theorem withPad_walks {code : EmitM α} (h : Walks strict k i r Γ keeps code Any (fun _ => []) n)
    (waits : .unwind x ∈ Γ) :
    Walks strict k i r Γ false (withPad x code) Any (fun _ => []) (enclosed n) := by
  intro c steady
  rw [Trail.along_enclosed]
  refine .modify ?_
  have start : ({ c with pads := x :: c.pads } : Cursor).Steady strict k i r Γ :=
    { steady with
      fit := { steady.fit with }
      around := fun y hy => (mem_cons.mp (perm_middle.mem_iff.mp hy)).elim
        (fun eq => eq ▸ steady.facts _ waits) (steady.around y)
      facts := fun f hf => (steady.facts f hf).congr rfl (.inl rfl) }
  refine (h _ start).bind ?_
  rintro - after ⟨t, run, treads, -⟩
  refine .modify ⟨t, run, ⟨⟨treads.fit.builder, treads.fit.tracked, treads.fit.current,
    treads.fit.flags⟩, treads.below, (treads.imp (by rintro ⟨⟩)).follows, ?_⟩, trivial,
      by rintro _ ⟨⟩⟩
  exact congrArg (fun l => (l.1, l.2.1.tail, l.2.2)) treads.around

theorem withExit_walks {code : EmitM Unit} (h : Walks strict k true r Γ keeps code Any (fun _ => []) n)
    (waits : .block x ∈ Γ) : Walks strict k i r Γ false (withExit x code) Any (fun _ => []) n := by
  intro c steady
  refine .modify ?_
  have start : ({ c with exits := x :: c.exits } : Cursor).Steady strict k true r Γ :=
    { steady with
      fit := { steady.fit with }
      inside := rfl
      around := forall_mem_cons.mpr ⟨steady.facts _ waits, steady.around⟩
      facts := fun f hf => (steady.facts f hf).congr rfl (.inl rfl) }
  refine (h _ start).bind ?_
  rintro - after ⟨t, run, treads, -⟩
  refine .modify ⟨t, run, ⟨⟨treads.fit.builder, treads.fit.tracked, treads.fit.current,
    treads.fit.flags⟩, treads.below, (treads.imp (by rintro ⟨⟩)).follows, ?_⟩, trivial,
      by rintro _ ⟨⟩⟩
  exact congrArg (fun l => (l.1.tail, l.2)) treads.around

/-- Code under a cleanup may return, since its returns go through the cleanup. -/
theorem withCleanup_walks {r' : Bool} {flag : Operand} {code : EmitM Unit}
    (h : Walks strict k i r' Γ keeps code Any (fun _ => []) n) (stored : .slot flag ∈ Γ) (free : .outside ∉ Γ) :
    Walks strict k i r Γ false (withCleanup x flag code) Any
      (fun returned => if returned then [.returns] else []) n := by
  intro c steady
  refine .modify ?_
  have start : ({ c with cleanups := { block := x, flag } :: c.cleanups } : Cursor).Steady strict k i r' Γ :=
    { steady with
      fit := { steady.fit with flags := forall_mem_cons.mpr ⟨(steady.facts _ stored).1, steady.fit.flags⟩ }
      allowed := fun _ none => by cases none
      facts := fun f hf => (steady.facts f hf).congr rfl (.inr fun outside => free (outside ▸ hf)) }
  refine (h _ start).bind ?_
  rintro - after ⟨t, run, treads, -⟩
  refine .get (.modify ⟨t, run, ⟨⟨treads.fit.builder,
    treads.fit.tracked, treads.fit.current, fun y hy => treads.fit.flags y (mem_of_mem_tail hy)⟩, treads.below,
    (treads.imp (by rintro ⟨⟩)).follows, ?_⟩, trivial, fun f hf => Fact.eq_returns_of_mem hf ▸ trivial⟩)
  have depth := treads.depth
  simp only [length_cons] at depth
  rw [length_tail, depth, Nat.add_sub_cancel]
  exact congrArg (fun l => (l.1, l.2.1, c.cleanups.length)) treads.around

end Enclosing

/-- Code that is put together by the rules goes along its steps. -/
theorem walks_code {i r keeps : Bool} {Λ : List BlockId} {Γ : List Fact} {α : Type} {x : EmitM α} {P : α → Prop}
    {Δ : α → List Fact} {n : List Event} (code : Code i r Λ Γ keeps x P Δ n) (k : Scope) :
    Walks strict k i r Γ keeps x P Δ n := by
  have safe : ∀ {i r : Bool} {Γ : List Fact} {keeps : Bool} {α : Type} {x : EmitM α} {Q : α → Cursor → Prop},
      (∀ c : Cursor, c.Steady strict k i r Γ → Safe strict c x Q) → Walks strict k i r Γ keeps x Any (fun _ => []) [] :=
    fun h => .of_safe (fun c steady => (h c steady).mono fun _ _ _ _ =>
      ⟨trivial, by rintro _ ⟨⟩⟩) fun _ => rfl
  have gives : ∀ {i r : Bool} {Γ : List Fact} {keeps : Bool} {x : EmitM Operand} {fact : Operand → Fact}
      {n : List Event}, (∀ t : Trail, t.along k n = some t) →
      (∀ c : Cursor, c.Steady strict k i r Γ → Safe strict c x fun v after => (fact v).Holds after) →
      Walks strict k i r Γ keeps x Any (fun v => [fact v]) n :=
    fun silent h => .of_safe (fun c steady => (h c steady).mono fun _ _ _ holds =>
      ⟨trivial, forall_mem_singleton.mpr holds⟩) silent
  have lands : ∀ {i r : Bool} {Γ : List Fact} {x : BlockId} (kind : PadKind), .unwind x ∈ Γ →
      Walks strict k i r Γ false (do startBlock x; landingPad kind) Any (fun v => [.value v false]) [.land kind] :=
    fun kind waits => gives (fun _ => rfl) fun c steady => (startBlock_safe steady.fit (steady.facts _ waits)).bind
      fun _ _ treads _ => named_safe treads.fit _ _ (by rintro _ ⟨⟩) (by simp)
  have other : ∀ {op : Op}, op.isOrdinary = true → ∀ addr dests, op ≠ .indirectBr addr dests :=
    fun {op} ordinary addr dests eq => by rw [eq] at ordinary; cases ordinary
  induction code with
  | pure holds facts =>
    exact .of_safe (fun c steady => .pure steady.fit ⟨holds, fun f hf => (facts f hf).holds steady.facts⟩) fun _ => rfl
  | bind _ _ less first second => exact first.bind second less
  | conseq _ facts holds gives less ih =>
    refine fun c steady => (ih c (steady.with_facts fun f hf => (facts f hf).holds steady.facts)).imp ?_
    rintro a after ⟨t, run, treads, before, there⟩
    exact ⟨t, run, treads.imp less, holds a before, fun f hf => (gives a before f hf).holds there⟩
  | keeping _ ih =>
    refine fun c steady => (ih c.Serves (fun f hf => ?_) c (steady.cons fun _ _ => id)).imp ?_
    · cases f with
      | value v a | all S => exact steady.facts _ hf
      | _ => trivial
    · rintro a after ⟨t, run, treads, holds, facts⟩
      obtain ⟨all, facts⟩ := forall_mem_cons.mp facts
      have knows : ∀ v, c.builder.Knows v → after.builder.Knows v := by
        intro v known
        cases v with
        | placeholder p => exact (all (.placeholder p) true ⟨trivial, known, fun _ => rfl⟩).knows
        | blockAddr x => exact (all (.blockAddr x) true ⟨trivial, known, fun _ => rfl⟩).knows
        | _ => trivial
      exact ⟨t, run, ⟨treads.fit, treads.below, ⟨treads.follows.same, fun _ => knows⟩, treads.around⟩, holds, facts⟩
  | fail span other tells =>
    refine fun c steady => ⟨⟨other.1, other.2, steady.fit.tracked⟩, ?_⟩
    rw [Trail.along_append, ← steady.scope, tells.along steady.facts steady.fit.builder.terms.sized]
    rfl
  | @checked _ _ _ _ _ _ x tells =>
    refine fun c steady => ?_
    rw [← steady.scope, tells.along steady.facts steady.fit.builder.terms.sized]
    cases x with
    | ok a => exact ⟨_, rfl, .refl steady.fit, rfl, by rintro _ ⟨⟩⟩
    | error e => exact ⟨trivial, rfl⟩
  | shapeOf uses =>
    refine .of_safe (fun c steady => .builder ?_) fun _ => rfl
    obtain ⟨shape, found⟩ := Builder.exists_shapeOf (uses.holds steady.facts).there
    exact .of_checked found ⟨.refl steady.fit, Graph.shapeOf_eq_bytePtr found, by rintro _ ⟨⟩⟩
  | result _ _ ih => exact fun c steady => ih c.builder c (steady.cons rfl)
  | ended _ ih =>
    exact .bind (n := []) (j := true) (safe fun _ steady => isTerminated_safe steady.fit) (fun b _ => ih b) fun _ => rfl
  | cleanup eq _ _ inside outside =>
    refine fun c steady => .get ?_
    rw [eq]
    split
    · next k found =>
      exact inside _ c (steady.with_facts (forall_mem_cons.mpr ⟨steady.fit.flags k (mem_of_head? found),
        forall_mem_cons.mpr ⟨trivial, steady.facts⟩⟩))
    · next found => exact outside c (steady.cons (length_eq_zero_iff.mpr (head?_eq_none_iff.mp found)))
  | pad eq _ _ inside outside =>
    refine fun c steady => .get ?_
    rw [eq]
    split
    · next x found =>
      exact inside x c (steady.cons (steady.around x (mem_append_right _ (mem_of_head? found))))
    · exact outside c steady
  | @exit _ i _ _ _ _ _ _ _ span _ _ eq _ inside =>
    refine fun c steady => .get ?_
    rw [eq]
    have empty := steady.inside
    split
    · next x found =>
      have mem := mem_of_head? found
      cases i with
      | true => exact inside x c (steady.cons (steady.around x (mem_append_left _ mem)))
      | false => rw [isEmpty_iff.mp empty] at mem; cases mem
    · next found =>
      rw [head?_eq_none_iff.mp found] at empty
      cases i with
      | true => cases empty
      | false => exact ⟨⟨by simp, by simp, steady.fit.tracked⟩, rfl⟩
  | lookupVar v span => exact lookupVar_walks v span
  | updateVar v slot ty =>
    exact safe fun _ steady => .lift steady.fit (updateVar_notes steady.fit.tracked v slot)
      (updateVar_fits v slot ty)
  | newTemporary ty tag =>
    exact gives (fun _ => rfl) fun _ steady => .lift steady.fit (newTemporary_notes steady.fit.tracked ty tag)
      (newTemporary_fits ty tag)
  | returnSlot =>
    exact gives (fun _ => rfl) fun _ steady => .lift steady.fit (returnSlot_notes steady.fit.tracked)
      returnSlot_fits
  | named tag shape _ ordinary uses =>
    exact gives (fun _ => rfl) fun _ steady => named_safe steady.fit tag shape (fun v hv =>
      (uses v hv).knows steady.facts)
      (other ordinary)
  | perform ordinary uses =>
    exact safe fun _ steady => push_safe steady.fit (fun v hv => (uses v hv).knows steady.facts) (other ordinary)
  | call shape uses =>
    exact gives (fun _ => rfl) fun _ steady => callInstr_safe steady.fit _ shape _ fun v hv =>
      (uses v hv).knows steady.facts
  | namedCall tag shape uses =>
    exact gives (fun _ => rfl) fun _ steady => (Safe.lift steady.fit (fresh_notes steady.fit.tracked tag)
      (fresh_fits tag)).bind fun _ _ treads _ => callInstr_safe treads.fit _ shape _ fun v hv =>
        treads.knows ((uses v hv).knows steady.facts)
  | rethrow uses =>
    exact safe fun _ steady => .builder (push_safe steady.fit
      (forall_mem_singleton.mpr (uses.knows steady.facts)) (by simp))
  | newBlock tag role _ _ ih =>
    have made : ∀ {i r : Bool} {Γ : List Fact}, Walks strict k i r Γ true
      (liftM (newBlock tag) : EmitM BlockId) Any
        (fun x => [.block x]) [] := .of_safe (fun _ steady => (newBlock_safe steady.fit tag).mono fun _ _ _ there =>
      ⟨trivial, forall_mem_singleton.mpr there⟩) fun _ => rfl
    refine made.bind (fun x _ c steady => ih x c (steady.with_facts (forall_mem_cons.mpr
      ⟨?_, fun f hf => steady.facts f (mem_cons_of_mem _ hf)⟩))) fun _ => rfl
    have there := steady.facts (.block x) mem_cons_self
    obtain rfl | rfl | ⟨S, -, rfl⟩ := role <;> exact there
  | startBlock waits => exact safe fun c steady => startBlock_safe steady.fit (steady.facts _ waits)
  | startJoin waits still =>
    exact .of_safe (fun c steady => (startBlock_safe steady.fit (steady.facts _ waits)).mono fun _ w treads _ =>
      ⟨trivial, forall_mem_singleton.mpr (treads.fact (steady.facts _ still) (.inl rfl))⟩) fun _ => rfl
  | branchTo => exact safe fun _ steady => branchTo_safe steady.fit _
  | returning _ ih => exact fun c steady => ih c (steady.cons trivial)
  | markReturns =>
    refine safe (Q := fun _ _ => True) fun c steady => ⟨⟨⟨steady.fit.builder, steady.fit.tracked, steady.fit.current,
      fun x hx => ?_⟩, .refl _, .refl _, ?_⟩, trivial⟩
    · obtain ⟨old, hold, -, flag⟩ := Cleanup.exists_of_mem_mark hx
      exact flag ▸ steady.fit.flags old hold
    · have depth : (Cleanup.mark c.cleanups).length = c.cleanups.length := by
        simpa using congrArg length (Cleanup.map_mark c.cleanups)
      rw [depth]
  | leaveWith span outside uses empty =>
    refine safe fun c steady => leaveWith_safe steady.fit span (fun v hv => ((uses v hv).holds steady.facts).knows)
      (fun s loads v hv => ?_) fun none => ?_
    · have never := steady.allowed s (steady.facts _ outside) loads
      exact Bool.eq_false_iff.mpr fun address => Bool.false_ne_true
        (never.symm.trans (((uses v hv).holds steady.facts).address address))
    · obtain ⟨ty, known, zero⟩ := empty none
      rw [show ty = _ from steady.facts _ known] at zero
      exact steady.fit.builder.terms.ignored zero
  | markError => exact markError_walks
  | addressOfLabel l span =>
    refine .step (Q := fun w v => w.Holds v) (fun _ tracked => addressOfLabel_notes tracked l span)
      (fun _ fit here => (addressOfLabel_fit fit l span).mono ?_ fun _ _ unknown => here ▸ unknown)
      fun _ _ _ knows there => forall_mem_singleton.mpr ⟨there, knows, fun _ => rfl⟩
    rintro _ _ ⟨known, fit, le, there⟩
    exact ⟨here ▸ known, fit, le, there⟩
  | goto l span =>
    exact (labelBlock_walks l span).bind (j := false) (fun _ _ => safe fun _ steady => push_safe steady.fit
      (by simp [Op.operands]) (by simp)) id
  | jump uses => exact safe fun _ steady => jump_safe steady.fit (uses.knows steady.facts)
  | placeLabel l span => exact placeLabel_walks l span
  | part kind waits next _ ih =>
    refine (withPad_walks (ih.anywhere) waits).bind (fun _ _ => .bind (n := []) (j := true)
      (safe fun _ steady => branchTo_safe steady.fit _) (fun _ _ => lands kind ?_) (by rintro ⟨⟩)) (by rintro ⟨⟩)
    simpa using waits
  | deferral kind waits _ _ check ih =>
    rw [← bind_assoc]
    refine (lands kind waits).bind (fun _ _ => Walks.bind
      (fun c steady => check c (steady.with_facts fun f hf => steady.facts f (mem_append_right _ hf)))
      (fun _ _ => withPad_walks ih.anywhere ?_) (by rintro ⟨⟩)) (by rintro ⟨⟩)
    simpa using waits
  | withExit waits _ ih => exact withExit_walks ih waits
  | withCleanup stored _ free _ ih => exact withCleanup_walks ih stored free

end Emit

end FlowIR

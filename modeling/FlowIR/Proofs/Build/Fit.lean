import FlowIR.Proofs.Build.Owned

/-!
Operations on a function have what they work on.

An identifier that a function under construction keeps is one of a block or an instruction that is there
(`Builder.Fit`). What is there is counted by a `Footing`, which only grows, so that an identifier that has
been handed out stays good. The judgment `Fits` follows operations from one footing to the next: an
operation succeeds, keeps the function fit, declares nothing and mentions no label.
-/

namespace FlowIR

open LabelTable FlowIR.Graph

/-- What code may refer to: the variables with their types, and the labels; and what it has to return. -/
structure Scope where
  types : List Ty
  labels : LabelId → Bool
  convention : Convention
  signature : Signature

/-- What has become of the labels so far, and whether an error node has been seen. -/
structure Trail where
  placed : LabelId → Bool
  used : LabelId → Bool
  seen : Bool

def Trail.use (t : Trail) (l : LabelId) : Trail := { t with used := fun k => k == l || t.used k }

theorem Trail.use_eq_self {t : Trail} {l : LabelId} (used : t.used l = true) : t.use l = t := by
  unfold use
  congr 1
  funext k
  by_cases same : k = l
  · simp [same, used]
  · simp [same]

def Trail.place (t : Trail) (l : LabelId) : Trail := { t.use l with placed := fun k => k == l || t.placed k }

/-- How much there is of a function: blocks, instructions and arguments; and what its code depends on. -/
structure Footing where
  blocks : Nat
  instrs : Nat
  args : Nat
  scope : Scope
  trail : Trail

namespace Footing

def Holds (w : Footing) : Operand → Prop
  | .arg n => n < w.args
  | .result i => i.index < w.instrs
  | .const _ | .blockAddr _ | .placeholder _ => True

structure Within (w v : Footing) : Prop where
  blocks : w.blocks ≤ v.blocks
  instrs : w.instrs ≤ v.instrs
  args : w.args ≤ v.args
  scope : v.scope = w.scope

/-- There is no less than before, and no label has been mentioned. -/
structure Below (w v : Footing) : Prop extends w.Within v where
  trail : v.trail = w.trail

def on (w : Footing) (t : Trail) : Footing := { w with trail := t }

variable {w v u : Footing}

theorem Below.refl (w : Footing) : w.Below w := ⟨⟨Nat.le_refl _, Nat.le_refl _, Nat.le_refl _, rfl⟩, rfl⟩

theorem Within.trans (h : w.Within v) (k : v.Within u) : w.Within u :=
  ⟨Nat.le_trans h.blocks k.blocks, Nat.le_trans h.instrs k.instrs, Nat.le_trans h.args k.args,
    k.scope.trans h.scope⟩

theorem Below.trans (h : w.Below v) (k : v.Below u) : w.Below u :=
  ⟨h.toWithin.trans k.toWithin, k.trail.trans h.trail⟩

/-- What is there is there on any trail. -/
theorem Below.off {t : Trail} (h : (w.on t).Below v) : w.Within v := ⟨h.blocks, h.instrs, h.args, h.scope⟩

theorem Within.on {t : Trail} (h : w.Within v) (trail : v.trail = t) : (w.on t).Below v :=
  ⟨⟨h.blocks, h.instrs, h.args, h.scope⟩, trail⟩

theorem Within.block (h : w.Within v) {x : BlockId} (there : x.index < w.blocks) : x.index < v.blocks :=
  Nat.lt_of_lt_of_le there h.blocks

theorem Within.instr (h : w.Within v) {i : InstrId} (there : i.index < w.instrs) : i.index < v.instrs :=
  Nat.lt_of_lt_of_le there h.instrs

theorem Holds.mono {o : Operand} (h : w.Holds o) (le : w.Within v) : v.Holds o := by
  cases o with
  | arg n => exact Nat.lt_of_lt_of_le h le.args
  | result i => exact le.instr h
  | const _ | blockAddr _ | placeholder _ => trivial

end Footing

def Label.isUsed (l : Label) : Bool := l.block.isSome || l.addressTaken

namespace LabelTable

/-- Whether the label, if there is one, has its place, and whether it has been mentioned. -/
def status (t : LabelTable) (l : LabelId) : Option (Bool × Bool) := (t.get? l).map fun x => (x.defined, x.isUsed)

theorem status_update (t : LabelTable) (l k : LabelId) (f : Label → Label) :
    (t.update l f).status k = if k = l then (t.get? k).map (fun x => ((f x).defined, (f x).isUsed))
      else t.status k := by
  unfold status
  rw [get?_update]
  split
  · rw [Option.map_map]
    rfl
  · rfl

theorem status_update_of_same {t : LabelTable} {l : LabelId} {f : Label → Label}
    (hf : ∀ x, ((f x).defined, (f x).isUsed) = (x.defined, x.isUsed)) : (t.update l f).status = t.status := by
  funext k
  rw [status_update]
  split
  · simp only [hf, status]
  · rfl

theorem status_placeholderFor (t : LabelTable) (l : LabelId) : (t.placeholderFor l).2.status = t.status := by
  unfold placeholderFor
  split
  · rfl
  · exact status_update_of_same (t := t) fun _ => rfl

theorem status_retire (t : LabelTable) (l : LabelId) : (t.retire l).2.status = t.status := by
  unfold retire
  split
  · rfl
  · dsimp only
    split <;> exact status_update_of_same (t := t) fun _ => rfl

def trail (t : LabelTable) (seen : Bool) : Trail :=
  ⟨fun l => (t.status l).any (·.1), fun l => (t.status l).any (·.2), seen⟩

/-- A label is mentioned. -/
theorem trail_update_use {t : LabelTable} {seen : Bool} {l : LabelId} {f : Label → Label}
    (known : (t.status l).isSome = true) (hf : ∀ x, (f x).defined = x.defined ∧ (f x).isUsed = true) :
    (t.update l f).trail seen = (t.trail seen).use l := by
  rw [status, Option.isSome_map, Option.isSome_iff_exists] at known
  obtain ⟨x, found⟩ := known
  unfold trail Trail.use
  congr 1 <;> funext k <;> rw [status_update] <;> split
  · simp only [hf, status]
    cases t.get? k <;> rfl
  · rfl
  · next same =>
    subst same
    simp [hf, found]
  · next other => simp [other]

/-- A label that has been mentioned gets its place. -/
theorem trail_update_place {t : LabelTable} {seen : Bool} {l : LabelId} {u : Trail} (same : t.trail seen = u.use l) :
    (t.update l ({ · with defined := true })).trail seen = u.place l := by
  have placed : ∀ k, (t.status k).any (·.1) = u.placed k := fun k => congrArg (Trail.placed · k) same
  have used : ∀ k, (t.status k).any (·.2) = (u.use l).used k := fun k => congrArg (Trail.used · k) same
  have known : (t.get? l).isSome = true := by
    have here := used l
    rw [status, Option.any_map] at here
    cases found : t.get? l with
    | none => simp [found, Trail.use] at here
    | some x => rfl
  unfold trail Trail.place
  congr 1
  · funext k
    rw [status_update]
    split
    · next same =>
      subst same
      obtain ⟨x, found⟩ := Option.isSome_iff_exists.mp known
      simp [found]
    · next other => simp [other, placed]
  · funext k
    rw [← used, status_update, status]
    split <;> cases t.get? k <;> rfl
  · exact congrArg Trail.seen same

end LabelTable

namespace Builder

def scope (b : Builder) : Scope :=
  ⟨b.vars.toList.map (·.ty), fun l => (b.labels.status l).isSome, b.convention, b.signature⟩

def trail (b : Builder) : Trail := b.labels.trail b.errorSeen

def footing (b : Builder) : Footing :=
  ⟨b.graph.blocks.size, b.graph.instrs.size, b.graph.args.size, b.scope, b.trail⟩

end Builder

/-- An operand that refers to something has a shape. -/
theorem Builder.exists_shapeOf {b : Builder} {v : Operand} (h : b.footing.Holds v) :
    ∃ s, b.graph.shapeOf v = .ok s := by
  cases v with
  | arg n =>
    have there : n < b.graph.args.size := h
    exact ⟨_, by simp [shapeOf, arg, require, there, bind, Except.bind, pure, Except.pure]; rfl⟩
  | result i =>
    have there : i.index < b.graph.instrs.size := h
    exact ⟨_, by simp [shapeOf, instr, require, there, bind, Except.bind, pure, Except.pure]; rfl⟩
  | const _ | blockAddr _ | placeholder _ => exact ⟨_, rfl⟩

mutual

/-- Whatever has a size has an alignment. -/
theorem Shape.exists_align : ∀ (s : Shape) {n : Nat}, s.room.size = some n → ∃ a, s.room.align = some a
  | .void, _, _ | .int _, _, _ | .f32, _, _ | .f64, _, _ | .ptr _, _, _ => ⟨_, rfl⟩
  | .struct fields, n, h => by
    unfold Shape.room at h ⊢
    obtain ⟨size, -, h⟩ := Option.bind_eq_some_iff.mp h
    obtain ⟨align, found, -⟩ := Option.bind_eq_some_iff.mp h
    exact ⟨align, found⟩
  | .array elem len, n, h => by
    unfold Shape.room at h ⊢
    obtain ⟨size, found, -⟩ := Option.bind_eq_some_iff.mp h
    exact elem.exists_align found
  | .vector elem lanes, n, h => by
    unfold Shape.room at h ⊢
    exact ⟨max n 1, by
      show (elem.room.size.bind (Size.mul · lanes)).bind (fun size => some (max size 1)) = _
      have size : elem.room.size.bind (Size.mul · lanes) = some n := h
      rw [size]
      rfl⟩

end

/-- The convention is one for results of the type that the signature gives. -/
structure Convention.Suits (c : Convention) (sig : Signature) : Prop where
  ty : c.result.ty = sig.result
  sized : ∃ n, sig.result.size? = some n
  ignored : sig.result.isZeroSized? = some true → c.result.passing = .ignored

theorem Convention.Suits.exists_align {c : Convention} {sig : Signature} (h : c.Suits sig) :
    ∃ a, sig.result.align? = some a := by
  obtain ⟨n, size⟩ := h.sized
  exact sig.result.shape.exists_align size

theorem Signature.suits_convention? {sig : Signature} {target : Target} {c : Convention}
    (found : sig.convention? target = some c) : c.Suits sig := by
  obtain ⟨ty, passed⟩ := Signature.result_of_convention? found
  obtain ⟨zero, sized, passed⟩ := Option.bind_eq_some_iff.mp passed
  refine ⟨ty, ?_, fun isZero => ?_⟩
  · obtain ⟨n, size, -⟩ := Option.bind_eq_some_iff.mp sized
    exact ⟨n, size⟩
  · cases isZero.symm.trans sized
    exact (Option.some.inj passed).symm

structure Builder.Fit (b : Builder) : Prop where
  rooted : ∀ v ∈ b.roots, b.footing.Holds v
  users : ∀ p i, b.labels.UsedBy p i → i.index < b.graph.instrs.size
  branches : ∀ i ∈ b.labels.branches, i.index < b.graph.instrs.size
  listed : ∀ x, ∀ i ∈ b.graph.body x, i.index < b.graph.instrs.size
  homes : ∀ l x, b.labels.home l = some x → x.index < b.graph.blocks.size
  entry : b.entry.index < b.graph.blocks.size
  terms : b.convention.Suits b.signature

namespace Builder.Fit

variable {b after : Builder}

/-- What is new refers to what is there now, and there is no less than before. -/
theorem grow (h : b.Fit) (le : b.footing.Within after.footing) (entry : after.entry = b.entry)
    (rooted : ∀ v ∈ after.roots, v ∈ b.roots ∨ after.footing.Holds v)
    (users : ∀ p i, after.labels.UsedBy p i → b.labels.UsedBy p i ∨ i.index < after.graph.instrs.size)
    (branches : ∀ i ∈ after.labels.branches, i ∈ b.labels.branches ∨ i.index < after.graph.instrs.size)
    (listed : ∀ x, ∀ i ∈ after.graph.body x, i ∈ b.graph.body x ∨ i.index < after.graph.instrs.size)
    (homes : ∀ l x, after.labels.home l = some x → b.labels.home l = some x ∨ x.index < after.graph.blocks.size) :
    after.Fit := by
  have convention : after.convention = b.convention := congrArg Scope.convention le.scope
  have signature : after.signature = b.signature := congrArg Scope.signature le.scope
  have instr : ∀ i : InstrId, i.index < b.graph.instrs.size → i.index < after.graph.instrs.size :=
    fun i hi => Nat.lt_of_lt_of_le hi le.instrs
  have block : ∀ x : BlockId, x.index < b.graph.blocks.size → x.index < after.graph.blocks.size :=
    fun x hx => Nat.lt_of_lt_of_le hx le.blocks
  constructor
  · exact fun v hv => (rooted v hv).elim (fun old => (h.rooted v old).mono le) id
  · exact fun p i hi => (users p i hi).elim (fun old => instr i (h.users p i old)) id
  · exact fun i hi => (branches i hi).elim (fun old => instr i (h.branches i old)) id
  · exact fun x i hi => (listed x i hi).elim (fun old => instr i (h.listed x i old)) id
  · exact fun l x hx => (homes l x hx).elim (fun old => block x (h.homes l x old)) id
  · rw [entry]
    exact block _ h.entry
  · rw [convention, signature]
    exact h.terms

/-- Another graph with no less in it. -/
theorem regraph (h : b.Fit) {g : Graph} (le : b.footing.Within ({ b with graph := g } : Builder).footing)
    (listed : ∀ x, ∀ i ∈ g.body x, i ∈ b.graph.body x ∨ i.index < g.instrs.size) :
    ({ b with graph := g } : Builder).Fit :=
  h.grow le rfl (fun _ => .inl) (fun _ _ => .inl) (fun _ => .inl) listed fun _ _ => .inl

/-- Another table of the same labels. -/
theorem relabel (h : b.Fit) {t : LabelTable} (scope : ({ b with labels := t } : Builder).scope = b.scope)
    (users : ∀ p i, t.UsedBy p i → b.labels.UsedBy p i ∨ i.index < b.graph.instrs.size)
    (branches : ∀ i ∈ t.branches, i ∈ b.labels.branches ∨ i.index < b.graph.instrs.size)
    (homes : ∀ l x, t.home l = some x → b.labels.home l = some x ∨ x.index < b.graph.blocks.size) :
    ({ b with labels := t } : Builder).Fit :=
  h.grow ⟨Nat.le_refl _, Nat.le_refl _, Nat.le_refl _, scope⟩ rfl (fun _ => .inl) users branches
    (fun _ _ => .inl) homes

/-- Every block that is there can be asked for its end. -/
theorem exists_isTerminated (h : b.Fit) {x : BlockId} (there : x.index < b.graph.blocks.size) :
    ∃ t, b.graph.isTerminated x = .ok t :=
  Graph.exists_isTerminated there fun i hi => by
    have inside := h.listed x i hi
    simp [Graph.op?, inside]

end Builder.Fit

/-! ### The judgment -/

/-- From this footing on, the operation succeeds and keeps the function fit. What comes out is said of the
footing that it leaves. -/
def Fits {α : Type} (w : Footing) (x : BuildM α) (Q : Footing → α → Prop) : Prop :=
  ∀ b : Builder, b.Fit → b.footing = w →
    Succeeds x b fun a after => after.Fit ∧ w.Below after.footing ∧ Q after.footing a

namespace Fits

variable {α β : Type} {w : Footing} {Q : Footing → α → Prop}

theorem pure {a : α} (q : Q w a) : Fits w (pure a) Q := fun b fit same => by
  cases same
  exact ⟨fit, .refl _, q⟩

theorem bind {R : Footing → β → Prop} {x : BuildM α} {f : α → BuildM β} (first : Fits w x Q)
    (second : ∀ a w', w.Below w' → Q w' a → Fits w' (f a) R) : Fits w (x >>= f) R := fun b fit same =>
  (first b fit same).bind fun a mid kept =>
    (second a mid.footing kept.2.1 kept.2.2 mid kept.1 rfl).imp
      fun _ _ later => ⟨later.1, kept.2.1.trans later.2.1, later.2.2⟩

/-- An operation after others. -/
theorem next {b : Builder} {x : BuildM α} (h : Fits b.footing x Q) (fit : b.Fit) (le : w.Below b.footing)
    {E : Halt BuildError → Builder → Prop} :
    Ensures x b (fun a after => after.Fit ∧ w.Below after.footing ∧ Q after.footing a) E :=
  (h b fit rfl).mono (fun _ _ kept => ⟨kept.1, le.trans kept.2.1, kept.2.2⟩) fun _ _ he => he.elim

theorem get {f : Builder → BuildM α} (h : ∀ b : Builder, b.Fit → b.footing = w → Fits w (f b) Q) :
    Fits w (get >>= f) Q := fun b fit same => h b fit same b fit same

theorem checked {x : Checked α} (ok : ∃ a, x = .ok a ∧ Q w a) : Fits w (liftM x : BuildM α) Q :=
  fun b fit same => by
    cases same
    obtain ⟨a, run, q⟩ := ok
    exact .of_checked run ⟨fit, .refl _, q⟩

/-- A change of the function. -/
theorem modify {f : Builder → Builder} (h : ∀ b : Builder, b.Fit → b.footing = w → (f b).Fit ∧ w.Below (f b).footing) :
    Fits w (modify f) fun _ _ => True := fun b fit same => ⟨(h b fit same).1, (h b fit same).2, trivial⟩

/-- A change of the graph that takes nothing away. -/
theorem onGraph {f : Graph → Checked Graph} (h : ∀ b : Builder, b.Fit → b.footing = w → ∃ g, f b.graph = .ok g ∧
      (g.blocks.size = b.graph.blocks.size ∧ g.instrs.size = b.graph.instrs.size ∧ g.args = b.graph.args) ∧
      ∀ x, ∀ i ∈ g.body x, i ∈ b.graph.body x ∨ i.index < w.instrs) :
    Fits w (Build.onGraph f) fun _ _ => True := fun b fit same => by
  obtain ⟨g, good, ⟨blocks, instrs, args⟩, listed⟩ := h b fit same
  cases same
  have footing : ({ b with graph := g } : Builder).footing = b.footing := by
    unfold Builder.footing
    simp only [blocks, instrs, args]
    rfl
  refine ensures_onGraph.mpr ⟨fun g' run => ?_, fun _ run => by cases run.symm.trans good⟩
  cases run.symm.trans good
  have le : b.footing.Below ({ b with graph := g } : Builder).footing := by
    rw [footing]
    exact .refl _
  exact ⟨fit.regraph le.toWithin fun x i hi => (listed x i hi).imp id (instrs ▸ ·), le, trivial⟩

theorem forM {γ : Type} {f : γ → BuildM PUnit} : ∀ (l : List γ) {w : Footing},
    (∀ a ∈ l, ∀ v, w.Below v → Fits v (f a) fun _ _ => True) → Fits w (l.forM f) fun _ _ => True
  | [], _, _ => .pure trivial
  | a :: l, w, h => (h a List.mem_cons_self w (.refl w)).bind fun _ _ le _ =>
    forM l fun b hb v le' => h b (List.mem_cons_of_mem a hb) v (le.trans le')

/-- An operation that happens or not, and what follows it. -/
theorem when {c : Prop} [Decidable c] {x : BuildM Unit} {f : Unit → BuildM α}
    (first : c → Fits w x fun _ _ => True) (second : ∀ w', w.Below w' → Fits w' (f ()) Q) :
    Fits w (if c then x >>= f else f ()) Q := by
  split
  · next yes => exact (first yes).bind fun _ w' le _ => second w' le
  · exact second w (.refl w)

end Fits

/-! ### Basic operations -/

namespace Build

variable {w : Footing} {b : Builder} {x : BlockId}

theorem fresh_fits (tag : String) : Fits w (fresh tag) fun _ _ => True := fun b fit same => by
  cases same
  exact ⟨fit.grow (Footing.Below.refl _).toWithin rfl (fun _ => .inl) (fun _ _ => .inl) (fun _ => .inl)
    (fun _ _ => .inl) fun _ _ => .inl, .refl _, trivial⟩

theorem updateVar_fits (v : VarId) {f : Variable → Variable} (slot : ∀ x, (f x).slot = x.slot)
    (ty : ∀ x, (f x).ty = x.ty) : Fits w (updateVar v f) fun _ _ => True := by
  refine .modify fun b fit same => ?_
  cases same
  have types : (b.vars.modify v.index f).toList.map (·.ty) = b.vars.toList.map (·.ty) := by
    refine List.ext_getElem? fun n => ?_
    simp only [List.getElem?_map, Array.getElem?_toList, Array.getElem?_modify]
    split
    · cases b.vars[n]? <;> simp [ty]
    · rfl
  have le : b.footing.Below ({ b with vars := b.vars.modify v.index f } : Builder).footing := by
    unfold Builder.footing Builder.scope
    simp only [types]
    exact .refl _
  exact ⟨fit.grow le.toWithin rfl (fun _ hu => .inl (Builder.mem_roots_of_modify slot hu)) (fun _ _ => .inl)
    (fun _ => .inl) (fun _ _ => .inl) fun _ _ => .inl, le⟩

/-- The new instruction is there. -/
theorem newInstr_fits (instr : Instr) : Fits w (newInstr instr) fun w' i => i.index < w'.instrs :=
  fun b fit same => by
    cases same
    have size : b.graph.instrs.size < (b.graph.instrs.push instr).size := by
      rw [Array.size_push]
      exact Nat.lt_succ_self _
    have le : b.footing.Below ({ b with graph := (b.graph.newInstr instr).2 } : Builder).footing :=
      ⟨⟨Nat.le_refl _, Nat.le_of_lt size, Nat.le_refl _, rfl⟩, rfl⟩
    exact ⟨fit.regraph le.toWithin fun _ _ => .inl, le, size⟩

/-- A change of the labels that has to do with placeholders and branches only. -/
theorem recount_fit (fit : b.Fit) {t : LabelTable} (status : t.status = b.labels.status)
    (users : ∀ p i, t.UsedBy p i → b.labels.UsedBy p i ∨ i.index < b.graph.instrs.size)
    (branches : ∀ i ∈ t.branches, i ∈ b.labels.branches ∨ i.index < b.graph.instrs.size)
    (home : t.home = b.labels.home) :
    ({ b with labels := t } : Builder).Fit ∧ b.footing.Below ({ b with labels := t } : Builder).footing := by
  have le : b.footing.Below ({ b with labels := t } : Builder).footing := by
    unfold Builder.footing Builder.scope Builder.trail trail
    simp only [status]
    exact .refl _
  exact ⟨fit.relabel le.scope users branches fun l x hx => .inl (home ▸ hx), le⟩

theorem newTracked_fits (instr : Instr) : Fits w (newTracked instr) fun w' i => i.index < w'.instrs := by
  refine (newInstr_fits instr).bind fun i w' _ there => Fits.bind (.modify fun b fit same => ?_) fun _ v le _ =>
    .pure (le.instr there)
  cases same
  have records := LabelTable.Records.recordUses b.labels (instr.op.operands.filterMap (·.placeholder?)) i
  refine recount_fit fit ?_ (fun p j used => ?_) (fun j hj => .inl ?_) records.home
  · funext l
    exact congrArg (Option.map _) (records.get? l)
  · rcases usedBy_of_recordUses used with old | rfl
    · exact .inl old
    · exact .inr there
  · exact branches_recordUses b.labels _ i ▸ hj

/-- An instruction can be listed in a block, if both are there. -/
theorem append_fits {i : InstrId} (block : x.index < w.blocks) (instr : i.index < w.instrs) :
    Fits w (append x i) fun _ _ => True := by
  refine .onGraph fun b fit same => ?_
  cases same
  have run : b.graph.append x i = .ok { b.graph with blocks := b.graph.blocks.modify x.index _ } := if_pos block
  refine ⟨_, run, ⟨Array.size_modify, rfl, rfl⟩, fun y j hj => ?_⟩
  rw [body_of_append run] at hj
  split at hj
  · next here =>
    rcases List.mem_append.mp hj with old | new
    · exact .inl (here ▸ old)
    · cases List.mem_singleton.mp new
      exact .inr instr
  · exact .inl hj

theorem newBlock_fits (tag : String) : Fits w (newBlock tag) fun w' x => x.index < w'.blocks := by
  refine (fresh_fits tag).bind fun name w' _ _ => ?_
  intro b fit same
  cases same
  have size : b.graph.blocks.size < (b.graph.newBlock name).2.blocks.size := by
    rw [size_newBlock]
    exact Nat.lt_succ_self _
  have le : b.footing.Below ({ b with graph := (b.graph.newBlock name).2 } : Builder).footing :=
    ⟨⟨Nat.le_of_lt size, Nat.le_refl _, Nat.le_refl _, rfl⟩, rfl⟩
  refine ⟨fit.regraph le.toWithin fun x i hi => .inl ?_, le, size⟩
  rwa [← body_newBlock (g := b.graph) name]

theorem attach_fits (x : BlockId) :
    Fits w (modify fun b => { b with graph := b.graph.attach x } : BuildM PUnit) fun _ _ => True := by
  refine .modify fun b fit same => ?_
  cases same
  have le : b.footing.Below ({ b with graph := b.graph.attach x } : Builder).footing := by
    unfold Builder.footing attach
    dsimp only
    split <;> exact .refl _
  exact ⟨fit.regraph le.toWithin fun y i hi => .inl (by rwa [body_attach] at hi), le⟩

theorem takeAddress_fits (block : x.index < w.blocks) : Fits w (takeAddress x) fun _ _ => True := by
  refine .onGraph fun b fit same => ?_
  cases same
  have run : b.graph.updateBlock x ({ · with addressTaken := true }) =
      .ok { b.graph with blocks := b.graph.blocks.modify x.index _ } := if_pos block
  refine ⟨_, run, ⟨Array.size_modify, rfl, rfl⟩, fun y i hi => .inl ?_⟩
  rw [body_of_updateBlock (t := id) run fun _ => rfl] at hi
  split at hi
  · next same => exact same ▸ hi
  · exact hi

theorem updateInstr_fits {i : InstrId} {f : Instr → Instr} (instr : i.index < w.instrs) :
    Fits w (onGraph (·.updateInstr i f)) fun _ _ => True :=
  .onGraph fun b _ same => by
    cases same
    exact ⟨_, if_pos instr, ⟨rfl, Array.size_modify, rfl⟩, fun _ _ => .inl⟩

theorem newSlot_fits (shape : Shape) (name : Option String) : Fits w (newSlot shape name) fun w' v => w'.Holds v := by
  refine (newInstr_fits _).bind fun i w' _ there => Fits.bind (.modify fun b fit same => ?_) fun _ v le _ =>
    .pure (le.instr there)
  cases same
  split <;> exact ⟨fit.grow (Footing.Below.refl _).toWithin rfl (fun _ => .inl) (fun _ _ => .inl) (fun _ => .inl)
    (fun _ _ => .inl) fun _ _ => .inl, .refl _⟩

theorem newTemporary_fits (ty : Ty) (tag : String) : Fits w (newTemporary ty tag) fun w' v => w'.Holds v :=
  (fresh_fits tag).bind fun _ _ _ _ => newSlot_fits _ _

theorem newCast_fits (value : Operand) (dst : Shape) : Fits w (newCast value dst) fun w' i => i.index < w'.instrs :=
  (fresh_fits _).bind fun _ _ _ _ => newInstr_fits _

theorem holds_var (fit : b.Fit) {v : VarId} {x : Variable} (found : b.var? v = some x) : b.footing.Holds x.slot := by
  refine fit.rooted x.slot (List.mem_append_left _ (List.mem_append_left _ (List.mem_map.mpr ⟨x, ?_, rfl⟩)))
  exact Array.mem_toList_iff.mpr (Array.mem_of_getElem? found)

/-! ### Returns and branches -/

theorem returnSlot_fits : Fits w returnSlot fun v o => v.Holds o := by
  refine .get fun b fit same => ?_
  split
  · next slot found =>
    have held : b.footing.Holds slot := by
      refine fit.rooted slot (List.mem_append_right _ ?_)
      rw [found]
      exact List.mem_singleton.mpr rfl
    rw [same] at held
    exact .pure held
  · refine .get fun b _ _ => (newTemporary_fits _ _).bind fun slot v _ held => Fits.bind
      (.modify fun b fit same => ?_) fun _ u le _ => .pure (held.mono le.toWithin)
    cases same
    refine ⟨fit.grow (Footing.Below.refl _).toWithin rfl (fun o ho => ?_) (fun _ _ => .inl) (fun _ => .inl)
      (fun _ _ => .inl) fun _ _ => .inl, .refl _⟩
    simp only [Builder.roots, List.mem_append, Option.mem_toList] at ho ⊢
    rcases ho with old | new
    · exact .inl (.inl old)
    · cases new
      exact .inr held

/-- A value can be returned, and where the result does not travel there need not be one. -/
theorem prepareReturn_fits {value : Option Operand} (there : x.index < w.blocks) (span : Span)
    (given : value = none → w.scope.convention.result.passing = .ignored) :
    Fits w (prepareReturn x value span) fun _ _ => True := by
  refine .get fun b fit same => ?_
  have convention : b.convention = w.scope.convention := congrArg (·.scope.convention) same
  dsimp only
  rw [← convention] at given
  have size : ∃ n, b.convention.result.ty.size? = some n := by
    rw [fit.terms.ty]
    exact fit.terms.sized
  have align : ∃ a, b.convention.result.ty.align? = some a := by
    rw [fit.terms.ty]
    exact fit.terms.exists_align
  obtain ⟨n, size⟩ := size
  obtain ⟨a, align⟩ := align
  split
  · exact .pure trivial
  · refine (Fits.checked (Q := fun _ _ => True) ⟨n, require_eq_ok_iff.mpr size, trivial⟩).bind fun _ _ le _ =>
      (Fits.checked (Q := fun _ _ => True) ⟨a, require_eq_ok_iff.mpr align, trivial⟩).bind fun _ _ le₁ _ => ?_
    exact (newTracked_fits _).bind fun _ _ le₂ pushed =>
      (append_fits (((le.trans le₁).trans le₂).block there) pushed).bind fun _ _ _ _ => .pure trivial
  · split
    · refine Fits.bind (Q := fun _ _ => True) ?_ fun _ _ _ _ => .pure trivial
      refine (newCast_fits _ _).bind fun _ _ le cast => (append_fits (le.block there) cast).bind
        fun _ _ le₁ _ => (fresh_fits _).bind fun _ _ le₂ _ => (newTracked_fits _).bind
        fun _ _ le₃ load => ?_
      have inside := (((le.trans le₁).trans le₂).trans le₃).block there
      exact (append_fits inside load).bind fun _ _ _ _ => .pure trivial
    · exact .pure trivial
  · next travels => exact absurd (given rfl) travels

/-- An indirect branch can be listed and recorded. -/
theorem newBranch_fits (addr : Operand) (there : x.index < w.blocks) : Fits w (do
    let i ← newTracked { op := .indirectBr addr [] }
    append x i
    modify fun b => { b with labels := b.labels.recordBranch i }) fun _ _ => True := by
  refine (newTracked_fits _).bind fun i _ le made => (append_fits (le.block there) made).bind fun _ _ le' _ => .modify
    fun b fit same => ?_
  cases same
  refine recount_fit fit rfl (fun _ _ => .inl) (fun j hj => (List.mem_append.mp hj).imp id fun new => ?_) rfl
  cases List.mem_singleton.mp new
  exact le'.instr made

/-! ### Labels -/

theorem resolve_fits (l : LabelId) (block : x.index < w.blocks) : Fits w (resolve l x) fun _ _ => True := by
  refine .get fun b _ _ => .when (fun _ => takeAddress_fits block) fun w' _ => ?_
  refine Fits.bind (Q := fun v found => ∀ p is, found = some (p, is) → ∀ i ∈ is, i.index < v.instrs)
    (fun b fit same => ?_) fun found v _ users => ?_
  · cases same
    obtain ⟨fit', le⟩ := recount_fit fit (status_retire b.labels l)
      (fun p i used => .inl ((users_of_retire b.labels l).1 p i used))
      (fun i hi => .inl (branches_retire b.labels l ▸ hi)) (home_retire b.labels l)
    exact ⟨fit', le, fun p is retired i hi =>
      fit.users p i ⟨is, (users_of_retire b.labels l).2 p is retired, hi⟩⟩
  · cases found with
    | none => exact .pure trivial
    | some found => exact .forM found.2 fun i hi u le => updateInstr_fits (le.instr (users _ _ rfl i hi))

variable (fit : b.Fit)

include fit

/-- One label is changed: it is mentioned, or gets its place. -/
theorem update_fit {l : LabelId} {f : Label → Label} {t : Trail}
    (homes : ∀ k x, (b.labels.update l f).home k = some x → b.labels.home k = some x ∨ x.index < b.graph.blocks.size)
    (trail : (b.labels.update l f).trail b.errorSeen = t) :
    ({ b with labels := b.labels.update l f } : Builder).Fit ∧
      (b.footing.on t).Below ({ b with labels := b.labels.update l f } : Builder).footing := by
  cases trail
  have scope : ({ b with labels := b.labels.update l f } : Builder).scope = b.scope := by
    unfold Builder.scope
    dsimp only
    congr 1
    funext k
    rw [status_update]
    split
    · rw [status, Option.isSome_map, Option.isSome_map]
    · rfl
  exact ⟨fit.relabel scope (fun _ _ => .inl) (fun _ => .inl) homes,
    ⟨Nat.le_refl _, Nat.le_refl _, Nat.le_refl _, scope⟩, rfl⟩

/-- A label that is there has a block, or gets one. -/
theorem labelBlock_fit (l : LabelId) (span : Span) :
    Ensures (labelBlock l span) b (fun x after => b.scope.labels l = true ∧ after.Fit ∧
      (b.footing.on (b.trail.use l)).Below after.footing ∧ x.index < after.footing.blocks)
      fun _ _ => b.scope.labels l = false := by
  refine .get ?_
  split
  · next label found =>
    have there : b.scope.labels l = true := by simp [Builder.scope, LabelTable.status, found]
    split
    · next x block =>
      have used : b.trail.used l = true := by
        simp [Builder.trail, LabelTable.trail, LabelTable.status, found, Label.isUsed, block]
      rw [Trail.use_eq_self used]
      exact ⟨there, fit, .refl _, fit.homes l x (by rw [LabelTable.home, found]; exact block)⟩
    · refine ((newBlock_fits "label").next fit (.refl _)).bind ?_
      rintro x mid ⟨fit', le, made⟩
      have known : (mid.labels.status l).isSome = true := (congrArg (Scope.labels · l) le.scope).trans there
      have homes : ∀ k y, (mid.labels.update l ({ · with block := some x })).home k = some y →
          mid.labels.home k = some y ∨ y.index < mid.graph.blocks.size := by
        intro k y home
        simp only [LabelTable.home, LabelTable.get?_update] at home
        split at home
        · obtain ⟨_, changed, block⟩ := Option.bind_eq_some_iff.mp home
          obtain ⟨_, -, rfl⟩ := Option.map_eq_some_iff.mp changed
          cases block
          exact .inr made
        · exact .inl home
      have trail : mid.trail = b.trail := le.trail
      obtain ⟨fit'', le'⟩ := update_fit fit' homes (LabelTable.trail_update_use known fun _ => ⟨rfl, rfl⟩)
      refine .modify ⟨there, fit'', ?_, le'.block made⟩
      exact (le.toWithin.trans le'.off).on (le'.trail.trans (congrArg (·.use l) trail))
  · next unknown =>
    have none : b.labels.get? l = none := Option.eq_none_iff_forall_ne_some.mpr unknown
    show b.scope.labels l = false
    simp [Builder.scope, LabelTable.status, none]

/-- The address of a label that is there. -/
theorem addressOfLabel_fit (l : LabelId) (span : Span) :
    Ensures (addressOfLabel l span) b (fun v after => b.scope.labels l = true ∧ after.Fit ∧
      (b.footing.on (b.trail.use l)).Below after.footing ∧ after.footing.Holds v)
      fun _ _ => b.scope.labels l = false := by
  refine .get ?_
  split
  · next label found =>
    have known : b.scope.labels l = true := by simp [Builder.scope, status, found]
    have homes : (b.labels.update l ({ · with addressTaken := true })).home = b.labels.home :=
      home_update fun _ => rfl
    obtain ⟨fit', le⟩ := update_fit fit (fun k x home => .inl (homes ▸ home))
      (trail_update_use known fun x => ⟨rfl, Bool.or_true _⟩)
    refine .modify ?_
    split
    · next x _ block =>
      have there := le.block (fit.homes l x (by rw [home, found]; exact block))
      exact ((takeAddress_fits there).next fit' le).bind fun _ _ kept => ⟨known, kept.1, kept.2.1, trivial⟩
    · refine ensures_bind.mpr (ensures_modifyGet.mpr ?_)
      obtain ⟨fit'', le'⟩ := recount_fit fit' (status_placeholderFor _ l)
        (fun _ _ used => .inl (usedBy_of_placeholderFor used))
        (fun _ hi => .inl (branches_placeholderFor _ l ▸ hi)) (home_placeholderFor _ l)
      exact ⟨known, fit'', le.trans le', trivial⟩
  · next unknown =>
    have none : b.labels.get? l = none := Option.eq_none_iff_forall_ne_some.mpr unknown
    show b.scope.labels l = false
    simp [Builder.scope, status, none]

/-- A label that has no place gets one. -/
theorem defineLabel_fit (l : LabelId) (span : Span) :
    Ensures (defineLabel l span) b (fun x after => b.scope.labels l = true ∧ b.trail.placed l = false ∧ after.Fit ∧
      (b.footing.on (b.trail.place l)).Below after.footing ∧ x.index < after.footing.blocks)
      fun _ _ => b.scope.labels l = false ∨ b.trail.placed l = true := by
  refine Ensures.bind ((labelBlock_fit fit l span).mono (fun _ _ q => q) fun _ _ he => .inl he) ?_
  rintro x mid ⟨known, fit', le, there⟩
  refine .get ?_
  have trail : mid.trail = b.trail.use l := le.trail
  have placed : (mid.labels.get? l).any (·.defined) = b.trail.placed l := by
    have same : mid.trail.placed l = (b.trail.use l).placed l := by rw [trail]
    refine Eq.trans ?_ same
    unfold Builder.trail LabelTable.trail LabelTable.status
    dsimp only
    cases mid.labels.get? l <;> rfl
  rw [placed]
  split
  · next already => exact .inr already
  · next fresh =>
    have homes : (mid.labels.update l ({ · with defined := true })).home = mid.labels.home :=
      home_update fun _ => rfl
    obtain ⟨fit'', le'⟩ := update_fit fit' (fun k x home => .inl (homes ▸ home)) (trail_update_place trail)
    refine .modify (((attach_fits x).next fit'' le').bind ?_)
    rintro - later ⟨fit₁, le₁, -⟩
    exact ((resolve_fits l (le₁.block there)).next fit₁ le₁).bind fun _ last ⟨fit₂, le₂, _⟩ =>
      ⟨known, Bool.eq_false_iff.mpr fresh, fit₂, (le.off.trans le₂.off).on le₂.trail, le₂.block there⟩

end Build

/-- A function that has been set up is fit for its body. -/
theorem Builder.Apportioned.fit {b : Builder} {target : Target} {sig : Signature} {given : Build.Issued}
    (h : b.Apportioned target sig given) {owed : BlockId → Prop} {su : Supply} (sound : b.Sound owed su) : b.Fit where
  rooted v hv := by
    cases v with
    | result i => exact (h.made _ (h.mem_places hv)).elim fun _ slot => index_lt_of_op? slot.1
    | arg n => exact (h.args n (h.mem_places hv)).2
    | _ => trivial
  users p i used := absurd used (h.idle.users p i)
  branches i hi := by
    rw [h.idle.branches] at hi
    cases hi
  listed x i hi := by
    obtain ⟨op, found⟩ := Option.isSome_iff_exists.mp (sound.formed.listed x i hi)
    exact index_lt_of_op? found
  homes l x home := (sound.formed.home_own l x home).1
  entry := sound.formed.placed _ sound.formed.entry_mem
  terms := h.signature ▸ Signature.suits_convention? h.convention

end FlowIR

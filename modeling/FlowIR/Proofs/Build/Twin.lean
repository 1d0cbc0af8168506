import FlowIR.Proofs.Build.Prepare
import FlowIR.Proofs.Graph.Unnamed

/-!
Two runs of one operation, on functions that differ in names only.

`Twins` says of two operations that, started in states that differ in names only, they end alike: both
with related results or both with the same error, and again in such states. They are `Alike` if the results
are equal, and an operation is `Blind` if this holds of two runs of it: it may make names, but it does not
look at them. The rules are instances that follow the way operations are put together, and every operation on
functions is blind.
-/

namespace FlowIR

def Cause.unnamed : Cause → Cause
  | .verify e => .verify e.unnamed
  | c => c

def BuildError.unnamed (e : BuildError) : BuildError := { e with cause := e.cause.unnamed }

def Builder.unnamed (b : Builder) : Builder := { b with names := {}, graph := b.graph.unnamed }

class Renamable (σ : Type) where
  /-- The state without names. -/
  unnamed : σ → σ

instance Builder.named : Renamable Builder := ⟨Builder.unnamed⟩

open Renamable (unnamed)

/-! ### The judgment -/

section Rules

variable {σ α β γ δ : Type} [Renamable σ] {R : α → β → Prop} {P : γ → δ → Prop}
  {x : EStateM (Halt BuildError) σ α} {y : EStateM (Halt BuildError) σ β}

def Twins (R : α → β → Prop) (x : EStateM (Halt BuildError) σ α) (y : EStateM (Halt BuildError) σ β) : Prop :=
  ∀ s t, unnamed s = unnamed t →
    match x s, y t with
    | .ok a s', .ok b t' => R a b ∧ unnamed s' = unnamed t'
    | .error e s', .error f t' => e.map BuildError.unnamed = f.map BuildError.unnamed ∧ unnamed s' = unnamed t'
    | _, _ => False

/-- Started alike, the two operations end alike and with the same result. -/
class Alike (x y : EStateM (Halt BuildError) σ α) : Prop where
  twins : Twins Eq x y

/-- Started alike, two runs of the operation end alike. -/
abbrev Blind (x : EStateM (Halt BuildError) σ α) : Prop := Alike x x

namespace Twins

theorem pure {a : α} {b : β} (h : R a b) : Twins R (pure a : EStateM (Halt BuildError) σ α) (pure b) :=
  fun _ _ same => ⟨h, same⟩

theorem mono {R' : α → β → Prop} (h : Twins R x y) (weaker : ∀ a b, R a b → R' a b) : Twins R' x y := by
  intro s t same
  have ends := h s t same
  cases hx : x s <;> cases hy : y t <;> simp only [hx, hy] at ends ⊢
  · exact ⟨weaker _ _ ends.1, ends.2⟩
  · exact ends

theorem throw {e f : Halt BuildError} (h : e.map BuildError.unnamed = f.map BuildError.unnamed) :
    Twins R (throw e : EStateM (Halt BuildError) σ α) (throw f) :=
  fun _ _ same => ⟨h, same⟩

theorem bind {f : α → EStateM (Halt BuildError) σ γ} {g : β → EStateM (Halt BuildError) σ δ}
    (first : Twins R x y) (second : ∀ a b, R a b → Twins P (f a) (g b)) : Twins P (x >>= f) (y >>= g) := by
  intro s t same
  have ends := first s t same
  simp only [Bind.bind, EStateM.bind]
  cases hx : x s <;> cases hy : y t <;> simp only [hx, hy] at ends ⊢
  · exact second _ _ ends.1 _ _ ends.2
  · exact ends

variable {f : σ → EStateM (Halt BuildError) σ γ} {g : σ → EStateM (Halt BuildError) σ δ}

theorem look
    (h : ∀ s t, unnamed s = unnamed t → Twins P (f s) (g t)) : Twins P (MonadState.get >>= f) (MonadState.get >>= g) :=
  fun s t alike => h s t alike s t alike

/-- What follows a look at the state, and does not depend on names. -/
theorem get (same : ∀ s, f (unnamed s) = f s) (rest : ∀ s, Twins P (f s) (g s)) :
    Twins P (MonadState.get >>= f) (MonadState.get >>= g) := by
  refine look fun s t alike => ?_
  rw [← same s, alike, same t]
  exact rest t

/-- An operation that happens or not, and what follows it. -/
theorem when {c : Prop} [Decidable c] {x : EStateM (Halt BuildError) σ Unit} [first : Blind x]
    {f : Unit → EStateM (Halt BuildError) σ γ} {g : Unit → EStateM (Halt BuildError) σ δ}
    (rest : Twins P (f ()) (g ())) : Twins P (if c then x >>= f else f ()) (if c then x >>= g else g ()) := by
  split
  · exact first.twins.bind fun _ _ _ => rest
  · exact rest

theorem checked (x : Checked α) :
    Twins (fun a b => a = b ∧ x = .ok a) (liftM x : EStateM (Halt BuildError) σ α) (liftM x) := by
  cases x with
  | ok a => exact .pure ⟨rfl, rfl⟩
  | error f => exact .throw rfl

end Twins

namespace Alike

variable {x y x' y' : EStateM (Halt BuildError) σ α} {f g : α → EStateM (Halt BuildError) σ γ}

instance pure {a : α} : Blind (pure a : EStateM (Halt BuildError) σ α) := ⟨.pure rfl⟩

theorem seq (first : Alike x y) (second : ∀ a, Alike (f a) (g a)) : Alike (x >>= f) (y >>= g) :=
  ⟨first.twins.bind fun a _ eq => eq ▸ (second a).twins⟩

instance bind [first : Alike x y] [second : ∀ a, Alike (f a) (g a)] : Alike (x >>= f) (y >>= g) := first.seq second

instance ite {c : Prop} [Decidable c] [Alike x y] [Alike x' y'] :
    Alike (if c then x else x') (if c then y else y') := by
  split <;> infer_instance

theorem get {f g : σ → EStateM (Halt BuildError) σ γ} (same : ∀ s, f (unnamed s) = f s)
    (rest : ∀ s, Alike (f s) (g s)) : Alike (MonadState.get >>= f) (MonadState.get >>= g) :=
  ⟨.get same fun s => (rest s).twins⟩

/-- A change that does not look at names. -/
theorem modifyGet {f : σ → α × σ} (value : ∀ s, (f (unnamed s)).1 = (f s).1)
    (same : ∀ s, (f (unnamed s)).2 = unnamed (f s).2) : Blind (modifyGet f : EStateM (Halt BuildError) σ α) :=
  ⟨fun s t alike => ⟨by rw [← value, alike, value], by rw [← same, alike, same]⟩⟩

theorem modify {f : σ → σ} (same : ∀ s, f (unnamed s) = unnamed (f s)) :
    Blind (modify f : EStateM (Halt BuildError) σ PUnit) :=
  modifyGet (fun _ => rfl) same

instance checked {x : Checked α} : Blind (liftM x : EStateM (Halt BuildError) σ α) :=
  ⟨(Twins.checked x).mono fun _ _ same => same.1⟩

instance forM {f : γ → EStateM (Halt BuildError) σ PUnit} [∀ a, Blind (f a)] : ∀ {l : List γ}, Blind (l.forM f)
  | [] => pure
  | _ :: rest => have : Blind (rest.forM f) := forM; bind

end Alike

end Rules

namespace Build

/-! ### Basic operations -/

theorem twins_fail {α : Type} {span : Span} {cause cause' : Cause} {R : α → α → Prop}
    (same : cause.unnamed = cause'.unnamed) : Twins R (fail span cause : BuildM α) (fail span cause') := by
  refine fun b c alike => ⟨?_, alike⟩
  have name : b.graph.name = c.graph.name := congrArg (·.graph.name) alike
  simp only [Halt.map, BuildError.unnamed, name, same]

instance blind_fail {α : Type} {span : Span} {cause : Cause} : Blind (fail span cause : BuildM α) :=
  ⟨twins_fail rfl⟩

/-- Two fresh names have nothing to do with each other. -/
theorem twins_fresh (tag : String) : Twins (fun _ _ => True) (fresh tag) (fresh tag) :=
  fun _ _ alike => ⟨trivial, alike⟩

/-- Code that uses a fresh name, and goes on alike whatever the name is. -/
instance alike_fresh {α : Type} {t : String} {f g : String → BuildM α} [rest : ∀ n n', Alike (f n) (g n')] :
    Alike (fresh t >>= f) (fresh t >>= g) :=
  ⟨(twins_fresh t).bind fun n n' _ => (rest n n').twins⟩

theorem regraph_unnamed {b c : Builder} (alike : unnamed b = unnamed c) (g g' : Graph) (same : g.unnamed = g'.unnamed) :
    unnamed { b with graph := g } = unnamed { c with graph := g' } := by
  have both : { b.unnamed with graph := g.unnamed } = { c.unnamed with graph := g'.unnamed } := by
    rw [show b.unnamed = c.unnamed from alike, same]
  exact both

/-- Changes of the graph that come to the same without names. -/
theorem alike_onGraph {f f' : Graph → Checked Graph} (k : Graph → Checked Graph)
    (first : ∀ g, (f g).map Graph.unnamed = k g.unnamed)
    (second : ∀ g, (f' g).map Graph.unnamed = k g.unnamed) : Alike (onGraph f) (onGraph f') := by
  refine ⟨.look fun b c alike => ?_⟩
  have same : (f b.graph).map Graph.unnamed = (f' c.graph).map Graph.unnamed := by
    rw [first, second, show b.graph.unnamed = c.graph.unnamed from congrArg Builder.graph alike]
  generalize f b.graph = r, f' c.graph = r' at same ⊢
  rcases r with e | g <;> rcases r' with e' | g' <;>
    simp only [Except.map, reduceCtorEq, Except.error.injEq, Except.ok.injEq] at same
  · exact same ▸ .throw rfl
  · exact fun b c alike => ⟨rfl, regraph_unnamed alike _ _ same⟩

theorem blind_onGraph {f : Graph → Checked Graph} (k : Graph → Checked Graph)
    (same : ∀ g, (f g).map Graph.unnamed = k g.unnamed) : Blind (onGraph f) :=
  alike_onGraph k same same

instance blind_updateVar {v : VarId} {f : Variable → Variable} : Blind (updateVar v f) := .modify fun _ => rfl

instance blind_markError : Blind markError := .modify fun _ => rfl

section Instructions

variable {op : Op} {shape : Shape} {name name' : Option String} {x : BlockId} {i : InstrId}

instance alike_newInstr : Alike (newInstr ⟨op, shape, name⟩) (newInstr ⟨op, shape, name'⟩) := by
  refine ⟨fun b c alike => ?_⟩
  have graphs : b.graph.unnamed = c.graph.unnamed := congrArg Builder.graph alike
  refine ⟨?_, regraph_unnamed alike (b.graph.newInstr _).2 (c.graph.newInstr _).2 ?_⟩
  · have size := congrArg (·.instrs.size) graphs
    simp only [Graph.unnamed, Array.size_map] at size
    exact congrArg InstrId.mk size
  · rw [Graph.newInstr_unnamed, Graph.newInstr_unnamed, graphs]
    rfl

instance alike_newTracked : Alike (newTracked ⟨op, shape, name⟩) (newTracked ⟨op, shape, name'⟩) :=
  alike_newInstr.seq fun i => .seq (.modify fun _ => by rfl) fun _ => .pure

instance blind_append : Blind (append x i) := blind_onGraph (·.append x i) fun g => g.append_unnamed x i

theorem blind_updateInstr {f : Instr → Instr} (same : ∀ x, (f x).unnamed = f x.unnamed) :
    Blind (onGraph (·.updateInstr i f)) :=
  blind_onGraph (·.updateInstr i f) fun g => g.updateInstr_unnamed same i

instance blind_insertFront {is : List InstrId} : Blind (onGraph (·.insertFront x is)) :=
  blind_onGraph (·.insertFront x is) fun g => g.insertFront_unnamed x is

instance blind_newBlock {tag : String} : Blind (newBlock tag) := by
  refine @alike_fresh _ _ _ _ fun n n' => ⟨fun b c alike => ?_⟩
  have graphs : b.graph.unnamed = c.graph.unnamed := congrArg Builder.graph alike
  refine ⟨?_, regraph_unnamed alike (b.graph.newBlock n).2 (c.graph.newBlock n').2 ?_⟩
  · have size := congrArg (·.blocks.size) graphs
    simp only [Graph.unnamed, Array.size_map] at size
    exact congrArg BlockId.mk size
  · rw [Graph.newBlock_unnamed, Graph.newBlock_unnamed, graphs]

instance blind_attach : Blind (modify fun b => { b with graph := b.graph.attach x } : BuildM PUnit) := by
  refine .modify fun b => ?_
  show ({ b.unnamed with graph := b.graph.unnamed.attach x } : Builder) = _
  rw [← Graph.attach_unnamed]
  rfl

end Instructions

/-! ### Labels -/

section Labels

variable {l : LabelId} {block : BlockId} {span : Span}

instance blind_newLabel : Blind (newLabel span) := .modifyGet (fun _ => rfl) fun _ => rfl

instance blind_updateLabel {f : Label → Label} : Blind (updateLabel l f) := .modify fun _ => rfl

instance blind_labelBlock : Blind (labelBlock l span) := by
  refine .get (fun _ => rfl) fun b => ?_
  cases b.labels.get? l with
  | none => exact blind_fail
  | some label =>
    dsimp only
    split <;> infer_instance

instance blind_takeAddress : Blind (takeAddress block) :=
  blind_onGraph (·.updateBlock block ({ · with addressTaken := true })) fun g =>
    g.updateBlock_unnamed (fun _ => by rfl) block

instance blind_resolveIn {p : PlaceholderId} {i : InstrId} : Blind (resolveIn p block i) :=
  blind_updateInstr fun _ => by rfl

instance blind_resolve : Blind (resolve l block) := by
  have rest : ∀ x : BuildM Unit, Blind x → Blind (do
      x
      let retired ← modifyGet fun b => ((b.labels.retire l).1, { b with labels := (b.labels.retire l).2 })
      if let some (p, uses) := retired then
        uses.forM (resolveIn p block) : BuildM Unit) := by
    refine fun x blind => blind.seq fun _ => .seq (.modifyGet (fun _ => by rfl) fun _ => by rfl) fun retired => ?_
    split <;> infer_instance
  refine .get (fun _ => rfl) fun b => ?_
  split
  · exact rest _ blind_takeAddress
  · exact rest (pure ()) .pure

instance blind_defineLabel : Blind (defineLabel l span) :=
  blind_labelBlock.seq fun _ => .get (fun _ => rfl) fun _ => inferInstance

instance blind_addressOfLabel : Blind (addressOfLabel l span) := by
  refine .get (fun _ => rfl) fun b => ?_
  cases b.labels.get? l with
  | none => exact blind_fail
  | some label =>
    refine blind_updateLabel.seq fun _ => ?_
    split
    · infer_instance
    · exact .seq (.modifyGet (fun _ => by rfl) fun _ => by rfl) fun _ => .pure

end Labels

/-! ### Storage -/

section Storage

variable {shape : Shape} {name : String} {ty : Ty} {span : Span} {v : VarId} {p : Placement} {slot : Operand}

instance alike_newSlot {n n' : Option String} : Alike (newSlot shape n) (newSlot shape n') := by
  refine alike_newInstr.seq fun i => .seq (.modify fun b => ?_) fun _ => .pure
  cases placed : b.prologPlaced <;> simp [unnamed, Builder.unnamed, placed]

instance blind_newTemporary {tag : String} : Blind (newTemporary ty tag) := alike_fresh

/-- Naming an argument comes to the same, whatever the name is. -/
instance alike_nameArg {n : Nat} {name name' : String} :
    Alike (onGraph (·.nameArg n name)) (onGraph (·.nameArg n name')) :=
  alike_onGraph (·.updateArg n id) (fun g => g.nameArg_unnamed n name) fun g => g.nameArg_unnamed n name'

instance blind_addArgAttr {n : Nat} {attr : ArgAttr} : Blind (onGraph (·.addArgAttr n attr)) :=
  blind_onGraph (·.addArgAttr n attr) fun g => g.addArgAttr_unnamed n attr

instance blind_nameOperand : Blind (nameOperand slot name) := by
  cases slot with
  | result i => exact blind_onGraph (·.updateInstr i id) fun g => g.updateInstr_unnamed (fun _ => by rfl) i
  | arg n => exact alike_nameArg
  | _ => exact .pure

instance blind_setUpParam : Blind (setUpParam p) := by
  unfold setUpParam
  split
  · infer_instance
  · infer_instance
  · next chunks ext _ => cases extensionAttr? ext <;> infer_instance

instance blind_setUpArgs : Blind setUpArgs := by
  have adds : ∀ slot, Blind (modify fun b => { b with paramSlots := b.paramSlots ++ [slot] } : BuildM PUnit) :=
    fun slot => .modify fun _ => by rfl
  refine .get (fun _ => rfl) fun b => ?_
  split
  · exact .pure
  · refine .seq (.modify fun _ => rfl) fun _ => .get (fun _ => rfl) fun b => ?_
    dsimp only
    split <;> infer_instance

instance blind_addVar {x : Variable} {enter : VarId → VarTables → VarTables} : Blind (addVar x enter) :=
  .modifyGet (fun _ => rfl) fun _ => rfl

instance blind_nameParam : Blind (nameParam p slot name) := by
  unfold nameParam
  split <;> infer_instance

instance blind_registerParam {addressTaken : Bool} : Blind (registerParam name ty addressTaken span) := by
  refine blind_setUpArgs.seq fun _ => .get (fun _ => rfl) fun b => ?_
  dsimp only
  split <;> infer_instance

instance blind_newCast {value : Operand} : Blind (newCast value shape) := alike_fresh

instance blind_newStore {value ptr : Operand} : Blind (newStore value ptr) := alike_newInstr

instance blind_spillEnv : Blind (spillEnv v slot ty) := .get (fun _ => rfl) fun _ => .ite

instance blind_registerEnv : Blind (registerEnv name ty span) := by
  have late : ∀ spill, Blind (modify fun b => { b with lateSlots := b.lateSlots ++ spill } : BuildM PUnit) :=
    fun spill => .modify fun _ => by rfl
  have rest : Blind (do
      let slot ← newSlot ty.shape (some (name ++ ".addr"))
      let v ← addVar { name, ty, kind := .env, slot, span, addressTaken := true } fun v t =>
        { t with env? := some v, owners := (slot, v) :: t.owners }
      if (← get).prologPlaced then
        let spill ← spillEnv v slot ty
        modify fun b => { b with lateSlots := b.lateSlots ++ spill }
      return v) :=
    alike_newSlot.seq fun _ => blind_addVar.seq fun _ => .get (fun _ => rfl) fun _ => .ite
  exact blind_setUpArgs.seq fun _ => .get (fun _ => rfl) fun _ => .ite

instance blind_registerLocal {aliasOf : Option VarId} {addressTaken : Bool} :
    Blind (registerLocal name ty aliasOf addressTaken span) := by
  cases aliasOf with
  | none => exact .bind
  | some earlier =>
    refine .get (fun _ => rfl) fun b => ?_
    split <;> infer_instance

end Storage

/-! ### Returns -/

instance blind_loadThrough {block : BlockId} {ptr : Operand} {shape : Shape} : Blind (loadThrough block ptr shape) := by
  unfold loadThrough
  infer_instance

instance blind_prepareReturn {block : BlockId} {value : Option Operand} {span : Span} :
    Blind (prepareReturn block value span) := by
  refine .get (fun _ => rfl) fun b => ?_
  dsimp only
  split <;> infer_instance

instance blind_returnSlot : Blind returnSlot := by
  refine .get (fun _ => rfl) fun b => ?_
  split
  · exact .pure
  · exact .get (fun _ => rfl) fun _ => blind_newTemporary.seq fun _ => .seq (.modify fun _ => by rfl) fun _ => .pure

/-! ### The prolog -/

section Prolog

variable {index : Nat} {p : Placement}

instance blind_spillChunk {base : Operand} {offset : Nat} {chunk : Shape} :
    Blind (spillChunk base offset index chunk) := by
  unfold spillChunk
  infer_instance

instance blind_spillParam {slot : Operand} : Blind (spillParam p slot) := by
  unfold spillParam
  split <;> infer_instance

instance blind_spillParamAt : Blind (spillParamAt index p) := by
  unfold spillParamAt
  split
  · exact .pure
  · refine .get (fun _ => rfl) fun b => .seq .checked fun slot => blind_spillParam.seq fun spill => ?_
    refine .get (fun _ => rfl) fun b => ?_
    split <;> infer_instance

instance blind_spillParams : ∀ {index : Nat} {ps : List Placement}, Blind (spillParams index ps)
  | _, [] => .pure
  | _, _ :: _ => blind_spillParamAt.seq fun _ => blind_spillParams.seq fun _ => .pure

/-- What follows the spill of the closure environment. -/
instance blind_insertProlog {entry : BlockId} {ps : List Placement} {envSpill : List InstrId} : Blind (do
    let spills ← spillParams 0 ps
    let prolog := (← get).pendingSlots ++ envSpill ++ spills
    onGraph (·.insertFront entry prolog)
    modify ({ · with pendingSlots := [], prologPlaced := true })
    if let some last := prolog.getLast? then
      (← get).params.forM fun v =>
        updateVar v fun x => { x with initializer := x.initializer <|> some last }) := by
  refine blind_spillParams.seq fun spills => .get (fun _ => rfl) fun b => ?_
  refine blind_insertFront.seq fun _ => .seq (.modify fun _ => by rfl) fun _ => ?_
  split
  · exact .get (fun _ => rfl) fun _ => .forM
  · exact .pure

instance blind_placeProlog : Blind placeProlog := by
  refine .get (fun _ => rfl) fun b => ?_
  split
  · exact .pure
  · refine blind_setUpArgs.seq fun _ => .get (fun _ => rfl) fun b => ?_
    dsimp only
    split <;> split <;> infer_instance

end Prolog

/-! ### Finishing -/

instance blind_closeBlock {op : Op} {block : BlockId} : Blind (closeBlock op block) :=
  .get (fun b => by rw [show (unnamed b).graph = b.graph.unnamed from rfl, Graph.isTerminated_unnamed]) fun _ =>
    inferInstance

instance blind_closeBlocks : Blind closeBlocks := .get (fun _ => rfl) fun _ => .forM

instance blind_closeLabel {l : LabelId} : Blind (closeLabel l) :=
  .get (fun _ => rfl) fun _ => .get (fun _ => rfl) fun _ => inferInstance

theorem retarget_unnamed (dests : List BlockId) (instr : Instr) :
    (retarget dests instr).unnamed = retarget dests instr.unnamed := by
  obtain ⟨op, shape, name⟩ := instr
  cases op <;> rfl

instance blind_setIndirectTargets : Blind setIndirectTargets := by
  have sets : ∀ dests i, Blind (onGraph (·.updateInstr i (retarget dests))) := fun dests i =>
    blind_updateInstr (retarget_unnamed dests)
  refine .get (fun b => ?_) fun _ => inferInstance
  rw [show (unnamed b).graph = b.graph.unnamed from rfl, Graph.addressTaken_unnamed]
  rfl

instance blind_placeLateSlots : Blind placeLateSlots :=
  .get (fun _ => rfl) fun _ => blind_insertFront.seq fun _ => .modify fun _ => by rfl

instance blind_prune : Blind (onGraph fun g => return (← g.prune).2) := by
  refine blind_onGraph (fun g => return (← g.prune).2) fun g => ?_
  rw [Graph.prune_unnamed]
  cases g.prune <;> rfl

/-- The finished graphs differ in names only. -/
theorem twins_verify {g g' : Graph} (h : g.unnamed = g'.unnamed) :
    Twins (fun a a' => a.unnamed = a'.unnamed)
      (match g.verify with
        | .ok () => return g
        | .error (.fault f) => throw (.fault f)
        | .error (.error e) => fail {} (.verify e) : BuildM Graph)
      (match g'.verify with
        | .ok () => return g'
        | .error (.fault f) => throw (.fault f)
        | .error (.error e) => fail {} (.verify e) : BuildM Graph) := by
  have same : g.verify.mapError (Halt.map VerifyError.unnamed) =
      g'.verify.mapError (Halt.map VerifyError.unnamed) := by
    rw [← Graph.verify_unnamed, h, Graph.verify_unnamed]
  -- A fault of the one check is the fault of the other, and its error the other's but for block names.
  generalize g.verify = v, g'.verify = v' at same ⊢
  rcases v with e | _ <;> rcases v' with e' | _
  · have errors : e.map VerifyError.unnamed = e'.map VerifyError.unnamed := Except.error.inj same
    rcases e with f | e <;> rcases e' with f' | e' <;>
      simp only [Halt.map, Halt.fault.injEq, Halt.error.injEq, reduceCtorEq] at errors
    · exact .throw (congrArg Halt.fault errors)
    · exact twins_fail (congrArg Cause.verify errors)
  · injection same
  · injection same
  · exact .pure h

theorem twins_finish : Twins (fun g g' => g.unnamed = g'.unnamed) finish finish := by
  have next {x : BuildM PUnit} {f : PUnit → BuildM Graph} (first : Blind x)
      (rest : Twins (fun g g' => g.unnamed = g'.unnamed) (f ⟨⟩) (f ⟨⟩)) :
      Twins (fun g g' => g.unnamed = g'.unnamed) (x >>= f) (x >>= f) :=
    first.twins.bind fun _ _ _ => rest
  have sets : Blind (modify fun b => { b with graph := { b.graph with personality := some b.options.personality } } :
      BuildM PUnit) := .modify fun _ => by rfl
  refine next blind_placeProlog (next blind_closeBlocks (.get (fun _ => rfl) fun b => next .forM ?_))
  refine .get (fun _ => rfl) fun b => .when (next blind_setIndirectTargets (next blind_placeLateSlots ?_))
  refine .get (fun _ => rfl) fun b => .when (.get (fun b => ?_) fun b => (Twins.checked _).bind ?_)
  · rw [show (unnamed b).graph = b.graph.unnamed from rfl, Graph.hasLandingPad_unnamed]
  rintro pad _ ⟨rfl, -⟩
  exact .when (.look fun b c alike => twins_verify (congrArg Builder.graph alike))

/-! ### Setting a function up -/

instance blind_perform {call : Call} : Blind call.perform := by
  cases call <;> unfold Call.perform <;> infer_instance

theorem Call.apply_twin (call : Call) {b c : Builder} (alike : b.unnamed = c.unnamed) :
    (call.apply b).map Builder.unnamed = (call.apply c).map Builder.unnamed := by
  have ends := (blind_perform : Blind call.perform).twins b c alike
  unfold Call.apply
  generalize call.perform b = r, call.perform c = r' at ends ⊢
  rcases r with ⟨_, b'⟩ | ⟨f | e, b'⟩ <;> rcases r' with ⟨_, c'⟩ | ⟨f' | e', c'⟩ <;>
    simp only [Halt.map, Halt.fault.injEq, Halt.error.injEq, reduceCtorEq, false_and] at ends
  · exact congrArg Except.ok ends.2
  · exact congrArg Except.error ends.1
  · exact congrArg Except.ok ends.2

/-- Setting a function up faults alike, or leaves functions that differ in names only. -/
theorem prepare_twin : ∀ (calls : List Call) {b c : Builder}, b.unnamed = c.unnamed →
    (prepare calls b).map Builder.unnamed = (prepare calls c).map Builder.unnamed
  | [], _, _, alike => congrArg Except.ok alike
  | call :: calls, b, c, alike => by
    have first := call.apply_twin alike
    simp only [prepare, List.foldlM_cons]
    generalize call.apply b = r, call.apply c = r' at first ⊢
    rcases r with f | b' <;> rcases r' with f' | c' <;>
      simp only [Except.map, reduceCtorEq, Except.error.injEq, Except.ok.injEq] at first
    · exact congrArg Except.error first
    · exact prepare_twin calls first

end Build

end FlowIR

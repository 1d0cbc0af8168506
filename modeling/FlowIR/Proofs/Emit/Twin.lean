import FlowIR.Proofs.Build.Twin
import FlowIR.Proofs.Emit.Program

/-!
Emitting code does not look at names.

Two cursors that differ in names only are at the same block, with the same enclosing pads, cleanups and
exits. Emitting code at both of them ends alike, by the recursion of expressions and statements.
-/

namespace FlowIR

open Build

instance Cursor.named : Renamable Cursor := ⟨fun c => { c with builder := c.builder.unnamed }⟩

open Renamable (unnamed)

namespace Emit

variable {α : Type}

/-! ### Where code is emitted -/

theorem twins_lift {R : α → α → Prop} {x y : BuildM α} (h : Twins R x y) :
    Twins R (liftM x : EmitM α) (liftM y : EmitM α) := by
  intro ⟨b, current, pads, cleanups, exits⟩ ⟨b', current', pads', cleanups', exits'⟩ alike
  have ends := h b b' (congrArg Cursor.builder alike)
  simp only [liftM, MonadLiftT.monadLift, MonadLift.monadLift] at ends ⊢
  simp only [unnamed, Cursor.mk.injEq] at alike
  generalize x b = r, y b' = r' at ends ⊢
  cases r <;> cases r' <;> first
    | exact ends.elim
    | exact ⟨ends.1, Cursor.mk.injEq .. ▸ ⟨ends.2, alike.2⟩⟩

instance alike_lift {x y : BuildM α} [h : Alike x y] : Alike (liftM x : EmitM α) (liftM y) := ⟨twins_lift h.twins⟩

instance blind_fail {span : Span} {cause : Cause} : Blind (fail span cause : EmitM α) := alike_lift

instance alike_fresh {t : String} {f g : String → EmitM α} [rest : ∀ n n', Alike (f n) (g n')] :
    Alike (liftM (fresh t) >>= f) (liftM (fresh t) >>= g) :=
  ⟨(twins_lift (twins_fresh t)).bind fun n n' _ => (rest n n').twins⟩

/-- What follows a look at the function, and does not depend on names. -/
theorem twins_builder {P : α → α → Prop} {f : Builder → EmitM α} (same : ∀ b, f (unnamed b) = f b)
    (rest : ∀ b, Twins P (f b) (f b)) : Twins P (builder >>= f) (builder >>= f) :=
  .get (fun c => same c.builder) fun c => rest c.builder

instance blind_isTerminated : Blind isTerminated :=
  .get (fun c => congrArg liftM (c.builder.graph.isTerminated_unnamed c.current)) fun _ => .checked

instance blind_moveTo {x : BlockId} : Blind (moveTo x) := .modify fun _ => rfl

instance blind_startBlock {x : BlockId} : Blind (startBlock x) := by
  unfold startBlock
  infer_instance

instance blind_ensureOpen : Blind ensureOpen := by
  unfold ensureOpen
  infer_instance

instance alike_push {op : Op} {shape : Shape} {name name' : Option String} :
    Alike (push ⟨op, shape, name⟩) (push ⟨op, shape, name'⟩) :=
  blind_ensureOpen.seq fun _ => alike_lift.seq fun _ => .get (fun _ => rfl) fun _ => .bind

instance blind_named {tag : String} {op : Op} {shape : Shape} : Blind (named tag op shape) := by
  unfold named
  infer_instance

instance blind_perform {op : Op} : Blind (perform op) := alike_push

instance blind_branchTo {x : BlockId} : Blind (branchTo x) := by
  unfold branchTo
  infer_instance

section Enclosing

variable {x : BlockId} {flag : Operand}

theorem blind_withPad {code : EmitM α} (h : Blind code) : Blind (withPad x code) :=
  .seq (.modify fun _ => rfl) fun _ => h.seq fun _ => .seq (.modify fun _ => rfl) fun _ => .pure

theorem blind_withExit {code : EmitM α} (h : Blind code) : Blind (withExit x code) :=
  .seq (.modify fun _ => rfl) fun _ => h.seq fun _ => .seq (.modify fun _ => rfl) fun _ => .pure

theorem blind_withCleanup {code : EmitM Unit} (h : Blind code) : Blind (withCleanup x flag code) :=
  .seq (.modify fun _ => rfl) fun _ => h.seq fun _ => .get (fun _ => rfl) fun _ =>
    .seq (.modify fun _ => rfl) fun _ => .pure

end Enclosing

/-! ### Variables, calls and returns -/

instance blind_lookupVar {v : VarId} {span : Span} : Blind (lookupVar v span) := by
  have look : ∀ x? : Option Variable, Blind (match x? with
      | some x => return x
      | none => fail span (.unknownVariable v) : EmitM Variable) := fun x? => by cases x? <;> infer_instance
  exact ⟨twins_builder (fun _ => rfl) fun _ => (look _).twins⟩

instance alike_callInstr {callee : String} {args : List Operand} {shape : Shape} {name name' : Option String} :
    Alike (callInstr callee args shape name) (callInstr callee args shape name') := by
  refine .get (fun _ => rfl) fun c => ?_
  split <;> infer_instance

instance blind_leaveWith {operand : Option Operand} {span : Span} : Blind (leaveWith operand span) :=
  blind_ensureOpen.seq fun _ => .get (fun _ => rfl) fun _ => .bind

/-! ### All code -/

/-- Code that is put together by the rules does not look at names. -/
theorem twins_code {i r k : Bool} {Λ : List BlockId} {Γ : List Fact} {x : EmitM α} {P : α → Prop} {Δ : α → List Fact}
    {n : List Event} (h : Code i r Λ Γ k x P Δ n) : Twins (fun a b => a = b ∧ P a) x x := by
  have any : ∀ {α : Type} {x : EmitM α}, Blind x → Twins (fun a b => a = b ∧ Any a) x x :=
    fun blind => blind.twins.mono fun _ _ same => ⟨same, trivial⟩
  have blind : ∀ {α : Type} {x : EmitM α} {P : α → Prop}, Twins (fun a b => a = b ∧ P a) x x → Blind x :=
    fun twins => ⟨twins.mono fun _ _ same => same.1⟩
  induction h with
  | pure holds _ => exact .pure ⟨rfl, holds⟩
  | bind _ _ _ first second =>
    refine first.bind ?_
    rintro a _ ⟨rfl, holds⟩
    exact second a holds
  | conseq _ _ holds _ _ ih => exact ih.mono fun a _ same => ⟨same.1, holds a same.2⟩
  | keeping _ ih => exact ih (fun _ _ => True) fun f _ => by cases f <;> simp [Fact.Within]
  | fail span _ => exact twins_lift (twins_fail rfl)
  | checked => exact .checked _
  | @shapeOf _ _ _ _ v =>
    exact twins_builder (fun b => congrArg liftM (b.graph.shapeOf_unnamed v)) fun b =>
      (Twins.checked _).mono fun _ _ same => ⟨same.1, Graph.shapeOf_eq_bytePtr same.2⟩
  | result same _ ih => exact twins_builder (fun b => same _ b rfl) ih
  | ended _ ih =>
    refine blind_isTerminated.twins.bind ?_
    rintro b _ rfl
    exact ih b
  | cleanup eq _ _ inside outside | pad eq _ _ inside outside =>
    refine .get (fun c => by rw [eq, eq]; rfl) fun c => ?_
    rw [eq]
    split
    · exact inside _
    · exact outside
  | exit span eq _ inside =>
    refine .get (fun c => by rw [eq, eq]; rfl) fun c => ?_
    rw [eq]
    split
    · exact inside _
    · exact twins_lift (twins_fail rfl)
  | newBlock tag _ _ _ ih =>
    refine (alike_lift (x := newBlock tag)).twins.bind ?_
    rintro x _ rfl
    exact ih x
  | rethrow => exact twins_builder (fun _ => rfl) fun _ => any blind_perform
  | returning _ ih => exact ih
  | markReturns => exact any (.modify fun _ => rfl)
  | jump => exact any (blind_perform.seq fun _ => @alike_lift _ _ _ (.modify fun _ => rfl))
  | placeLabel => exact any (alike_lift.seq fun _ => blind_branchTo.seq fun _ => blind_moveTo)
  | part _ _ _ _ ih =>
    exact any ((blind_withPad (blind ih)).seq fun _ => blind_branchTo.seq fun _ => blind_startBlock.seq fun _ =>
      blind_named)
  | deferral _ _ _ _ check ih =>
    exact any (blind_startBlock.seq fun _ => blind_named.seq fun _ => (blind check).seq fun _ =>
      blind_withPad (blind ih))
  | withExit _ _ ih => exact any (blind_withExit (blind ih))
  | withCleanup _ _ _ _ ih => exact any (blind_withCleanup (blind ih))
  | _ => exact any inferInstance

theorem blind_fromEntry {code : EmitM α} (h : Blind code) : Blind (fromEntry code) := by
  refine ⟨fun b c alike => ?_⟩
  have start : unnamed ({ builder := b, current := b.entry } : Cursor) =
    unnamed { builder := c, current := c.entry } := by
    have entry := congrArg Builder.entry alike
    simp only [unnamed, Cursor.mk.injEq, and_true]
    exact ⟨alike, entry⟩
  have ends := h.twins _ _ start
  unfold fromEntry
  generalize code { builder := b, current := b.entry } = r, code { builder := c, current := c.entry } = r' at ends ⊢
  cases r <;> cases r' <;> first
    | exact ends.elim
    | exact ⟨ends.1, congrArg Cursor.builder ends.2⟩

/-- Completing a function does not look at names. -/
theorem twins_function (body : Stmt) : Twins (fun g g' => g.unnamed = g'.unnamed) (function body) (function body) :=
  blind_placeProlog.twins.bind fun _ _ _ => (blind_fromEntry ⟨(twins_code
    (stmt_code (i := true) (r := true) body fun _ => rfl)).mono fun _ _ same => same.1⟩).twins.bind fun _ _ _ =>
      twins_finish

end Emit

/-! ### Whole functions -/

/-- The graph of a function that is set up by calls and then completed, or why there is none. -/
def Session.assemble (s : Session) (name : String) (signature : Signature) (calls : List Build.Call)
    (body : Stmt) : Except (Halt BuildError) Graph :=
  match s.begin name signature with
  | .error f => .error (.fault f)
  | .ok b₀ =>
    match prepare calls b₀ with
    | .error f => .error (.fault f)
    | .ok b =>
      match Emit.function body b with
      | .error e _ => .error e
      | .ok g _ => .ok g

theorem Session.begin_twin (s : Session) (names names' : NameSupply) (name : String) (signature : Signature) :
    (({ s with names } : Session).begin name signature).map Builder.unnamed =
      (({ s with names := names' } : Session).begin name signature).map Builder.unnamed := by
  simp only [begin]
  cases require Fault.overflow (signature.convention? s.target) <;> rfl

/-- The functions of a unit influence each other by names only: whatever names have been handed out, a
function is refused for the same reason and at the same place, or it comes to a graph that is the same
but for the names of its arguments, blocks and instructions. -/
theorem Session.assemble_unnamed (s : Session) (names names' : NameSupply) (name : String)
    (signature : Signature) (calls : List Build.Call) (body : Stmt) :
    ((({ s with names } : Session).assemble name signature calls body).map Graph.unnamed).mapError
        (Halt.map BuildError.unnamed) =
      ((({ s with names := names' } : Session).assemble name signature calls body).map Graph.unnamed).mapError
        (Halt.map BuildError.unnamed) := by
  have begun := s.begin_twin names names' name signature
  unfold assemble
  generalize ({ s with names } : Session).begin name signature = r,
    ({ s with names := names' } : Session).begin name signature = r' at begun ⊢
  rcases r with f | b₀ <;> rcases r' with f' | c₀ <;>
    simp only [Except.map, reduceCtorEq, Except.error.injEq, Except.ok.injEq] at begun
  · rw [begun]
  have prepared := prepare_twin calls begun
  dsimp only
  generalize prepare calls b₀ = r, prepare calls c₀ = r' at prepared ⊢
  rcases r with f | b <;> rcases r' with f' | c <;>
    simp only [Except.map, reduceCtorEq, Except.error.injEq, Except.ok.injEq] at prepared
  · rw [prepared]
  have ends := Emit.twins_function body b c prepared
  dsimp only
  generalize Emit.function body b = r, Emit.function body c = r' at ends ⊢
  cases r <;> cases r' <;> first
    | exact ends.elim
    | exact congrArg Except.ok ends.1
    | exact congrArg Except.error ends.1

end FlowIR

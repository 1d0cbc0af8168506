import FlowIR.Proofs.Emit.Listed
import FlowIR.Proofs.Machine.Defined

/-!
Where exceptions go.

A call unwinds to the landing pad of the innermost part of the program that it is in (`Routes`). In a complete
function landing pads come first in their blocks, and such blocks are entered by calls that unwind and by nothing else
(`Graph.Landed`), so that no run finds a landing pad without an exception. Emitting code puts what encloses it back
(`Restoring`).
-/

namespace FlowIR

open List

def Op.onward : Op → List BlockId
  | .invoke _ _ normal _ => [normal]
  | op => op.successors

theorem Op.successor_of_onward {op : Op} {t : BlockId} (h : t ∈ op.onward) : t ∈ op.successors := by
  cases op with
  | invoke => exact mem_cons.mpr (.inl (mem_singleton.mp h))
  | _ => exact h

/-- A call that unwinds to where it also goes on cannot tell the two. -/
theorem Op.normal?_eq_none {op : Op} {t : BlockId} (unwinds : op.unwind? = some t) (onward : t ∈ op.onward) :
    op.normal? = none := by
  cases op with
  | invoke => exact if_pos ((mem_singleton.mp onward).symm.trans (Option.some.inj unwinds).symm)
  | _ => cases unwinds

namespace Graph

variable {g : Graph} {su : Supply} {entry x t : BlockId}

def IsPad (g : Graph) (x : BlockId) : Prop :=
  ∃ i op, (g.body x).head? = some i ∧ g.op? i = some op ∧ op.isLandingPad = true

/-- In the layout, landing pads come first in their blocks, calls unwind to such blocks, and nothing else leads
there. -/
structure Landed (g : Graph) : Prop where
  entry : ∀ x, g.entry? = some x → ¬ g.IsPad x
  first : ∀ x ∈ g.layout, ∀ k i op, (g.body x)[k]? = some i → g.op? i = some op → op.isLandingPad = true → k = 0
  unwind : ∀ x ∈ g.layout, ∀ i ∈ g.body x, ∀ op, g.op? i = some op → ∀ t, op.unwind? = some t →
    t ∈ g.layout ∧ g.IsPad t
  onward : ∀ x ∈ g.layout, ∀ i ∈ g.body x, ∀ op, g.op? i = some op → ∀ t ∈ op.onward, ¬ g.IsPad t

theorem Ordered.lands_of_isPad (h : g.Ordered su entry) (pad : g.IsPad x) : su.lands x := by
  obtain ⟨i, op, first, hop, isPad⟩ := pad
  rw [head?_eq_getElem?] at first
  exact ((h.uses x 0 i first op hop).2.1.mp isPad).2

theorem Ordered.isPad_of_lands (h : g.Ordered su entry) (sound : g.SoundAt x) (lands : su.lands x) : g.IsPad x := by
  obtain ⟨last, -, found, -⟩ := sound.ends
  obtain ⟨i, rest, body⟩ := exists_cons_of_ne_nil (ne_nil_of_mem (mem_of_getLast? found))
  obtain ⟨op, hop⟩ := Option.isSome_iff_exists.mp (sound.listed i (body ▸ mem_cons_self))
  exact ⟨i, op, by rw [body]; rfl, hop, (h.uses x 0 i (by rw [body]; rfl) op hop).2.1.mpr ⟨rfl, lands⟩⟩

/-- In a finished graph exceptions arrive at landing pads. -/
theorem Ordered.landed (ordered : g.Ordered su entry) (closed : g.Closed entry) (verified : g.verify = .ok ⟨⟩) :
    g.Landed where
  entry x first pad := by
    cases closed.entry_first.symm.trans first
    exact ordered.unsupplied.2 (ordered.lands_of_isPad pad)
  first x _ k i op hi hop isPad := ((ordered.uses x k i hi op hop).2.1.mp isPad).1
  unwind x laid i hi op hop t unwinds := by
    obtain ⟨k, hk⟩ := mem_iff_getElem?.mp hi
    have target := Op.successor_of_unwind? unwinds
    have inside := (closed.targets x laid i hi op hop t target).1
    exact ⟨inside, ordered.isPad_of_lands ((verify_eq_ok_iff.mp verified).2 t inside)
      (((ordered.uses x k i hk op hop).2.2.2 t target).mp unwinds)⟩
  onward x _ i hi op hop t onward pad := by
    obtain ⟨k, hk⟩ := mem_iff_getElem?.mp hi
    obtain ⟨-, -, apart, sends⟩ := ordered.uses x k i hk op hop
    have unwinds := (sends t (Op.successor_of_onward onward)).mpr (ordered.lands_of_isPad pad)
    exact apart (by simp [unwinds]) (Op.normal?_eq_none unwinds onward)

end Graph

/-! ### What encloses a statement -/

/-- What encloses the code is as before, except that returns may have been noted at the innermost cleanup. -/
structure Cursor.Restores (returns : Prop) (c after : Cursor) : Prop where
  pads : after.pads = c.pads
  exits : after.exits = c.exits
  cleanups : after.cleanups = c.cleanups ∨ returns ∧ after.cleanups = Cleanup.mark c.cleanups

theorem Cursor.Restores.trans {returns : Prop} {c mid after : Cursor} (h : c.Restores returns mid)
    (k : mid.Restores returns after) : c.Restores returns after where
  pads := k.pads.trans h.pads
  exits := k.exits.trans h.exits
  cleanups := by
    have twice : ∀ l, Cleanup.mark (Cleanup.mark l) = Cleanup.mark l := fun l => by cases l <;> rfl
    rcases h.cleanups with same | ⟨holds, marked⟩ <;> rcases k.cleanups with same' | ⟨holds', marked'⟩
    · exact .inl (same'.trans same)
    · exact .inr ⟨holds', by rw [marked', same]⟩
    · exact .inr ⟨holds, by rw [same', marked]⟩
    · exact .inr ⟨holds, by rw [marked', marked, twice]⟩

/-- Emitting the code leaves alone what encloses it, and `P` holds of the result. -/
def Restoring (returns : Prop) {α : Type} (x : EmitM α) (P : α → Prop) : Prop :=
  ∀ c, Ensures x c (fun a after => P a ∧ c.Restores returns after) fun _ _ => True

/-- Emitting the code leaves alone what encloses it, and notes no returns. -/
class Reserved {α : Type} (x : EmitM α) : Prop where
  restoring : Restoring False x Any

namespace Restoring

variable {α β : Type} {returns : Prop} {x : EmitM α} {P : α → Prop} {Q : β → Prop}

theorem mono {R : α → Prop} (h : Restoring returns x P) (weaker : ∀ a, P a → R a) : Restoring returns x R :=
  fun c => (h c).imp fun a _ made => ⟨weaker a made.1, made.2⟩

theorem bind {f : α → EmitM β} (first : Restoring returns x P) (second : ∀ a, P a → Restoring returns (f a) Q) :
    Restoring returns (x >>= f) Q := fun c =>
  (first c).bind fun a mid made => (second a made.1 mid).imp fun _ _ more => ⟨more.1, made.2.trans more.2⟩

theorem pure {a : α} (h : P a) : Restoring returns (pure a) P := fun _ => ⟨h, rfl, rfl, .inl rfl⟩

theorem get {f : Cursor → EmitM α} (h : ∀ c, Restoring returns (f c) P) : Restoring returns (get >>= f) P :=
  fun c => h c c

theorem checked {x : Checked α} (h : ∀ a, x = .ok a → P a) : Restoring returns (liftM x : EmitM α) P := fun _ =>
  ensures_checked.mpr ⟨fun a run => ⟨h a run, rfl, rfl, .inl rfl⟩, fun _ _ => trivial⟩

end Restoring

namespace Reserved

variable {α β : Type} {x : EmitM α}

instance bind {f : α → EmitM β} [first : Reserved x] [second : ∀ a, Reserved (f a)] : Reserved (x >>= f) :=
  ⟨first.restoring.bind fun a _ => (second a).restoring⟩

instance pure {a : α} : Reserved (pure a : EmitM α) := ⟨.pure trivial⟩

instance get {f : Cursor → EmitM α} [h : ∀ c, Reserved (f c)] : Reserved (get >>= f) := ⟨.get fun c => (h c).restoring⟩

instance lift {x : BuildM α} : Reserved (liftM x : EmitM α) := ⟨fun c => by
  refine ensures_lift.mpr ?_
  unfold Ensures
  split
  · exact ⟨trivial, rfl, rfl, .inl rfl⟩
  · trivial⟩

instance checked {x : Checked α} : Reserved (liftM x : EmitM α) := ⟨.checked fun _ _ => trivial⟩

instance ite {c : Prop} [Decidable c] {y : EmitM α} [yes : Reserved x] [no : Reserved y] :
    Reserved (if c then x else y) := by
  split <;> assumption

end Reserved

namespace Emit

variable {α : Type} {x : BlockId} {instr : Instr}

instance reserved_moveTo : Reserved (moveTo x) := ⟨fun _ => ⟨trivial, rfl, rfl, .inl rfl⟩⟩

instance reserved_isTerminated : Reserved isTerminated := Reserved.get

instance reserved_startBlock : Reserved (startBlock x) := by
  unfold startBlock
  infer_instance

instance reserved_push : Reserved (push instr) := by
  unfold push ensureOpen
  infer_instance

instance reserved_perform {op : Op} : Reserved (perform op) := reserved_push

instance reserved_branchTo : Reserved (branchTo x) := by
  unfold branchTo
  infer_instance

instance reserved_builder : Reserved builder := Reserved.get

instance reserved_named {tag : String} {op : Op} {shape : Shape} : Reserved (named tag op shape) := by
  unfold named
  infer_instance

instance reserved_landingPad {kind : PadKind} : Reserved (landingPad kind) := reserved_named

instance reserved_lookupVar {v : VarId} {span : Span} : Reserved (lookupVar v span) := by
  have look : ∀ b : Builder, Reserved (match b.var? v with
      | some x => return x
      | none => fail span (.unknownVariable v) : EmitM Variable) := fun b => by
    split
    · exact .pure
    · exact .lift
  exact .bind

instance reserved_callInstr {callee : String} {args : List Operand} {shape : Shape} {name : Option String} :
    Reserved (callInstr callee args shape name) := by
  refine @Reserved.get _ _ fun c => ?_
  split <;> infer_instance

instance reserved_leaveWith {operand : Option Operand} {span : Span} : Reserved (leaveWith operand span) := by
  unfold leaveWith ensureOpen
  infer_instance

instance reserved_placeLabel {l : LabelId} {span : Span} : Reserved (placeLabel l span) := by
  unfold placeLabel
  infer_instance

section Enclosing

variable {returns : Prop} {P : α → Prop}

end Enclosing

variable {s : Session} {name : String} {signature : Signature} {b₀ b last : Builder} {calls : List Build.Call}
  {body : Stmt} {g : Graph}

end Emit

end FlowIR

import FlowIR.Ident

/-!
Faults: the ways in which an operation is asked for something outside its domain.

A fault is not a diagnosis of the program under construction. It says that an identifier names
nothing, that a size does not fit in 64 bits, or that a run did something without a meaning. After
a fault there is nothing to go on with, whereas an ordinary error leaves a state that later calls
can use; `Halt` keeps the two apart.
-/

namespace FlowIR

inductive Fault where
  /-- A size, an offset or an address does not fit in 64 bits. -/
  | overflow
  /-- A value or an allocation would take more bytes than it can. -/
  | tooLarge (size : Nat)
  /-- The block is not one of the graph's. -/
  | noBlock (block : BlockId)
  /-- The instruction is not one of the graph's. -/
  | noInstr (instr : InstrId)
  /-- There is no argument at this position. -/
  | noArg (index : Nat)
  /-- The parameter at this position was never given storage. -/
  | noSlot (index : Nat)
  /-- The result of the instruction is used before the instruction ran. -/
  | unset (instr : InstrId)
  /-- The value of a placeholder is asked for. -/
  | unresolved (placeholder : PlaceholderId)
  /-- The address belongs to no allocation. -/
  | badPointer (address : Nat)
  /-- The access leaves its allocation. -/
  | outOfBounds (address size : Nat)
  /-- The value has fewer bytes than its use takes. -/
  | shortValue (size : Nat)
  /-- The pointer's target has no such field. -/
  | badField (index : Nat)
  /-- An integer is divided by zero. -/
  | divisionByZero
  /-- An integer operation is applied to floats, or a float operation to integers. -/
  | wrongOperator
  /-- The rethrow routine is called without an exception. -/
  | nothingToRethrow
deriving DecidableEq, Repr

abbrev Checked := Except Fault

def require {α : Type} (fault : Fault) : Option α → Checked α
  | some a => .ok a
  | none => .error fault

/-- A required value is the value of the option. -/
@[simp] theorem require_eq_ok_iff {α : Type} {fault : Fault} {o : Option α} {a : α} :
    require fault o = .ok a ↔ o = some a := by
  cases o <;> simp [require]

/-- A checked sequence has a result if and only if both parts have one. -/
theorem Checked.bind_eq_ok_iff {α β : Type} {x : Checked α} {f : α → Checked β} {b : β} :
    x >>= f = .ok b ↔ ∃ a, x = .ok a ∧ f a = .ok b := by
  cases x with
  | ok a => exact ⟨fun h => ⟨a, rfl, h⟩, fun ⟨_, hx, hf⟩ => Except.ok.inj hx ▸ hf⟩
  | error e => exact ⟨fun h => (nomatch h), fun ⟨_, hx, _⟩ => (nomatch hx)⟩

/-- Why a computation stopped early: it faulted, or it reports an error. -/
inductive Halt (ε : Type) where
  | fault (f : Fault)
  | error (e : ε)
deriving DecidableEq, Repr

/-- A checked operation takes part in computations that report errors. -/
instance {ε : Type} : MonadLift (Except Fault) (Except (Halt ε)) where
  monadLift
    | .ok a => .ok a
    | .error f => .error (.fault f)

/-- A checked operation takes part in computations that keep a state. -/
instance {ε σ : Type} : MonadLift (Except Fault) (EStateM (Halt ε) σ) where
  monadLift
    | .ok a => pure a
    | .error f => throw (.fault f)

end FlowIR

import FlowIR.Emit.Function
import FlowIR.Proofs.Build.Tracked
import FlowIR.Proofs.Source.Calls

/-!
The rules by which code is put together.

`Code` is a relation between operations that emit code and what can be said of them by looking at the code
alone. Where a rule uses an operand or a block, it asks that they be known there (`Fact`): an operand has been
computed before, or is storage; a block has been made, or belongs to what encloses the code. A block that is made
has to be laid out, so the relation also lists the blocks that the code lays out. And it lists the steps of the program
that the code is for, those included on which it depends whether there is code at all.

All code of expressions and statements is put together by these rules (`expr_code`, `stmt_code`). An invariant of
the functions under construction is proved by induction on the rules.
-/

namespace FlowIR

/-! ### What is known -/

inductive Fact where
  /-- The value is there. It is the address of a block, or stands for one, only if `address` says so. -/
  | value (v : Operand) (address : Bool)
  /-- All these values are there. -/
  | all (S : Operand → Bool → Prop)
  /-- The storage is there, wherever the code goes on. -/
  | slot (v : Operand)
  /-- The storage is the flag of a cleanup that encloses the code. -/
  | flag (v : Operand)
  /-- The block has been made. Branches may go to it, and it is to be laid out. -/
  | block (x : BlockId)
  /-- Branches may go to the block from where these values are there, so they are there in it. -/
  | join (S : Operand → Bool → Prop) (x : BlockId)
  /-- Branches may go to the block, which belongs to what encloses the code. -/
  | target (x : BlockId)
  /-- Calls may unwind to the block. -/
  | unwind (x : BlockId)
  /-- No cleanup encloses the code. -/
  | outside
  /-- The variable is of the type. -/
  | typed (v : VarId) (ty : Ty)
  /-- The function returns values of the type. -/
  | result (ty : Ty)
  /-- The code has returns in it. -/
  | returns

namespace Fact

/-- Whether the fact holds wherever the code goes on. -/
def lasts : Fact → Bool
  | .value _ _ | .all _ => false
  | _ => true

def isPlain : Fact → Bool
  | .value _ _ | .all _ | .slot _ | .typed _ _ | .result _ => true
  | _ => false

/-- What is left of the facts behind code that keeps the values or not. -/
def after (keeps : Bool) (Γ : List Fact) : List Fact := if keeps then Γ else Γ.filter lasts

@[simp] theorem after_true (Γ : List Fact) : after true Γ = Γ := rfl

variable {Γ : List Fact} {v : Operand}

@[simp] theorem mem_after_false {f : Fact} : f ∈ after false Γ ↔ f ∈ Γ ∧ f.lasts = true := List.mem_filter

attribute [simp] lasts isPlain

theorem eq_returns_of_mem {b : Bool} {f : Fact} (h : f ∈ if b then [returns] else []) : f = returns := by
  cases b <;> simp_all

/-- The fact follows from the others. Storage and constants are values that are no addresses. -/
inductive Follows (Γ : List Fact) : Fact → Prop where
  | mem {f : Fact} (known : f ∈ Γ) : Follows Γ f
  | slot {v : Operand} {a : Bool} (known : .slot v ∈ Γ) : Follows Γ (.value v a)
  | const (c : Constant) {a : Bool} : Follows Γ (.value (.const c) a)
  | value {v : Operand} {a b : Bool} (known : .value v a ∈ Γ) (less : v.isAddress = true → a = true → b = true) :
      Follows Γ (.value v b)
  | held {S : Operand → Bool → Prop} {v : Operand} {a b : Bool} (known : .all S ∈ Γ) (there : S v a)
      (less : v.isAddress = true → a = true → b = true) : Follows Γ (.value v b)
  | fewer {S T : Operand → Bool → Prop} (known : .all S ∈ Γ) (there : ∀ v a, T v a → S v a) : Follows Γ (.all T)

def Usable (Γ : List Fact) (v : Operand) : Prop := (∃ a, Follows Γ (.value v a)) ∨ .flag v ∈ Γ

def Reaches (Γ : List Fact) (x : BlockId) : Prop := .block x ∈ Γ ∨ .target x ∈ Γ ∨ ∃ S, .join S x ∈ Γ ∧ .all S ∈ Γ

theorem Follows.mono {Γ Γ' : List Fact} {f : Fact} (h : Follows Γ f) (sub : ∀ f ∈ Γ, f ∈ Γ') : Follows Γ' f := by
  cases h with
  | mem known => exact .mem (sub _ known)
  | slot known => exact .slot (sub _ known)
  | const c => exact .const c
  | value known less => exact .value (sub _ known) less
  | held known there less => exact .held (sub _ known) there less
  | fewer known there => exact .fewer (sub _ known) there

theorem Follows.weaken {a b : Bool} (h : Follows Γ (.value v a))
    (less : v.isAddress = true → a = true → b = true) : Follows Γ (.value v b) := by
  cases h with
  | mem known => exact .value known less
  | slot known => exact .slot known
  | const c => exact .const c
  | value known less' => exact .value known fun address holds => less address (less' address holds)
  | held known there less' => exact .held known there fun address holds => less address (less' address holds)

theorem Follows.usable {a : Bool} (h : Follows Γ (.value v a)) : Usable Γ v := .inl ⟨a, h⟩

theorem Usable.mono {Γ Γ' : List Fact} (h : Usable Γ v) (sub : ∀ f ∈ Γ, f ∈ Γ') : Usable Γ' v :=
  h.imp (fun ⟨a, h⟩ => ⟨a, h.mono sub⟩) (sub _)

theorem Usable.of_value {a : Bool} (known : .value v a ∈ Γ) : Usable Γ v := (Follows.mem known).usable

theorem Usable.of_slot (known : .slot v ∈ Γ) : Usable Γ v := (Follows.slot (a := false) known).usable

def values (a : Bool) (v : Option Operand) : List Fact := v.toList.map (.value · a)

@[simp] theorem values_none (a : Bool) : values a none = [] := rfl

@[simp] theorem values_some (a : Bool) (v : Operand) : values a (some v) = [.value v a] := rfl

def Within (S : Operand → Bool → Prop) : Fact → Prop
  | .value v a => S v a
  | .all T => ∀ v a, T v a → S v a
  | _ => True

theorem Follows.of_within {S : Operand → Bool → Prop} {f : Fact} (h : f.Within S) (known : .all S ∈ Γ)
    (lasting : f.lasts = true → f ∈ Γ) : Follows Γ f := by
  cases f with
  | value v a => exact .held known h fun _ => id
  | all T => exact .fewer known h
  | _ => exact .mem (lasting rfl)

end Fact

/-- The instruction needs no more than that its operands are there and that its targets wait. -/
def Op.isOrdinary : Op → Bool
  | .alloca _ | .call _ _ | .indirectBr _ _ | .invoke _ _ _ _ | .landingPad _ => false
  | _ => true

/-- The address of a block points to bytes. -/
theorem Graph.shapeOf_eq_bytePtr {g : Graph} {v : Operand} {shape : Shape} (run : g.shapeOf v = .ok shape)
    (address : v.isAddress = true) : shape = .bytePtr := by
  cases v <;> first | exact (Except.ok.inj run).symm | cases address

theorem Op.isAlloca_of_isOrdinary {op : Op} (h : op.isOrdinary = true) : op.isAlloca = false := by
  cases op <;> first | rfl | cases h

theorem Op.unwind?_of_isOrdinary {op : Op} (h : op.isOrdinary = true) : op.isInner = true ∧ op.unwind? = none := by
  cases op <;> first | exact ⟨rfl, rfl⟩ | cases h

/-- Marks the innermost cleanup as one that returns pass through. -/
def Cleanup.mark : List Cleanup → List Cleanup
  | [] => []
  | inner :: outer => { inner with returns := true } :: outer

/-- The blocks and flags of cleanups stay the same. -/
theorem Cleanup.map_mark (l : List Cleanup) :
    (mark l).map (fun x => (x.block, x.flag)) = l.map fun x => (x.block, x.flag) := by
  cases l <;> rfl

theorem Cleanup.exists_of_mem_mark {l : List Cleanup} {x : Cleanup} (h : x ∈ mark l) :
    ∃ y ∈ l, y.block = x.block ∧ y.flag = x.flag := by
  have mem : (x.block, x.flag) ∈ l.map fun x => (x.block, x.flag) := map_mark l ▸ List.mem_map.mpr ⟨x, h, rfl⟩
  obtain ⟨y, hy, eq⟩ := List.mem_map.mp mem
  exact ⟨y, hy, Prod.mk.inj eq⟩

/-! ### The rules -/

open FlowIR.Fact Emit

/-- The steps tell whether something that is checked here is so. The result is always of a size. -/
inductive Tells (Γ : List Fact) : List Event → Bool → Prop where
  | check {ok : Bool} : Tells Γ [.check ok] ok
  | sized {ty : Ty} {ok : Bool} (known : .result ty ∈ Γ) (fine : ty.size?.isSome = true → ok = true) : Tells Γ [] ok
  | fill {v : VarId} {ty : Ty} (known : .typed v ty ∈ Γ) : Tells Γ [.fill v] ty.isStorable
  | answer {ty : Ty} {count : Nat} (known : .result ty ∈ Γ) :
      Tells Γ [.answer count] (decide (count = returnArity ty count))

abbrev Any {α : Type} : α → Prop := fun _ => True

/-- The code is put together by the rules. It starts where `Γ` is known and lays out `Λ`. Behind it `P`
holds of the result and `Δ` is known, and also what was known before, values only if `k` holds. Its steps are `n`.
Only if `i` holds a switch can be left, and unless `r` holds no mere address of a label is returned. -/
inductive Code : (i r : Bool) → (Λ : List BlockId) → (Γ : List Fact) → (k : Bool) → {α : Type} →
    EmitM α → (P : α → Prop) → (Δ : α → List Fact) → (n : List Event) → Prop where
  | pure {a : α} (holds : P a) (facts : ∀ f ∈ Δ a, Follows Γ f) : Code i r [] Γ k (pure a) P Δ []
  | bind {x : EmitM α} {f : α → EmitM β} {P : α → Prop} {Δ : α → List Fact} (first : Code i r Λ Γ k' x P Δ n)
      (second : ∀ a, P a → Code i r Θ (Δ a ++ after k' Γ) k (f a) R E m) (keeps : k = true → k' = true) :
      Code i r (Λ ++ Θ) Γ k (x >>= f) R E (n ++ m)
  | conseq {x : EmitM α} {P R : α → Prop} {Δ E : α → List Fact} (h : Code i r Λ Γ' k' x P Δ n)
      (facts : ∀ f ∈ Γ', Follows Γ f) (holds : ∀ a, P a → R a) (gives : ∀ a, P a → ∀ f ∈ E a, Follows (Δ a) f)
      (keeps : k = true → k' = true) : Code i r Λ Γ k x R E n
  -- The values that are there at this point can be named.
  | keeping {x : EmitM α} {Δ : α → List Fact} (h : ∀ S, (∀ f ∈ Γ, f.Within S) →
      Code i r Λ (.all S :: Γ) false x P (fun a => .all S :: Δ a) n) : Code i r Λ Γ k x P Δ n
  | fail (span : Span) {cause : Cause} (other : (∀ n, cause ≠ .danglingLabelAddress n) ∧ ∀ v, cause ≠ .verify v)
      (tells : Tells Γ n false) : Code i r Λ Γ k (Emit.fail span cause) P Δ (n ++ m)
  -- What does not depend on names can be looked at.
  | checked {x : Checked α} (tells : Tells Γ n x.isOk) :
      Code i r [] Γ k (liftM x) (fun a => x = .ok a) (fun _ => []) n
  | shapeOf {v : Operand} {a : Bool} (uses : Follows Γ (.value v a)) :
      Code i r [] Γ k (do liftM ((← builder).graph.shapeOf v)) (fun s => v.isAddress = true → s = .bytePtr)
        (fun _ => []) []
  | result {f : Builder → EmitM α} (same : ∀ b c : Builder, b.signature = c.signature → f b = f c)
      (h : ∀ b, Code i r Λ (.result b.signature.result :: Γ) k (f b) P Δ n) : Code i r Λ Γ k (builder >>= f) P Δ n
  | ended {f : Bool → EmitM α} (h : ∀ b, Code i r Λ Γ k (f b) P Δ n) : Code i r Λ Γ k (isTerminated >>= f) P Δ n
  | cleanup {f : Cleanup → EmitM α} {g : EmitM α} {h : Cursor → EmitM α}
      (eq : ∀ c, h c = match c.cleanups.head? with | some k => f k | none => g)
      (inside : ∀ x, Code i r Λ (.flag x.flag :: .target x.block :: Γ) k (f x) P Δ n)
      (outside : Code i r Λ (.outside :: Γ) k g P Δ n) : Code i r Λ Γ k (get >>= h) P Δ n
  | pad {f : BlockId → EmitM α} {g : EmitM α} {h : Cursor → EmitM α}
      (eq : ∀ c, h c = match c.pads.head? with | some x => f x | none => g)
      (inside : ∀ x, Code i r Λ (.unwind x :: Γ) k (f x) P Δ n) (outside : Code i r Λ Γ k g P Δ n) :
      Code i r Λ Γ k (get >>= h) P Δ n
  | exit (span : Span) {f : BlockId → EmitM α} {h : Cursor → EmitM α}
      (eq : ∀ c, h c = match c.exits.head? with | some x => f x | none => Emit.fail span .breakOutsideSwitch)
      (inside : ∀ x, Code i r Λ (.block x :: Γ) k (f x) P Δ n) : Code i r Λ Γ k (get >>= h) P Δ (.check i :: n)
  -- Storage.
  | lookupVar (v : VarId) (span : Span) :
      Code i r [] Γ k (lookupVar v span) Any (fun x => [.slot x.slot, .typed v x.ty]) [.find v]
  | updateVar (v : VarId) {f : Variable → Variable} (slot : ∀ x, (f x).slot = x.slot) (ty : ∀ x, (f x).ty = x.ty) :
      Code i r [] Γ k (liftM (Build.updateVar v f) : EmitM Unit) Any (fun _ => []) []
  | newTemporary (ty : Ty) (tag : String) :
      Code i r [] Γ k (liftM (Build.newTemporary ty tag) : EmitM Operand) Any (fun v => [.slot v]) []
  | returnSlot : Code i r [] Γ k (liftM Build.returnSlot : EmitM Operand) Any (fun v => [.slot v]) []
  -- Instructions.
  | named (tag : String) {op : Op} (shape : Shape) (yields : op.yields = true) (ordinary : op.isOrdinary = true)
      (uses : ∀ v ∈ op.operands, Usable Γ v) :
      Code i r [] Γ k (named tag op shape) Any (fun v => [.value v false]) []
  | perform {op : Op} (ordinary : op.isOrdinary = true) (uses : ∀ v ∈ op.operands, Usable Γ v)
      (targets : ∀ t ∈ op.successors, Reaches Γ t) : Code i r [] Γ k (perform op) Any (fun _ => []) []
  | call {callee : String} {args : List Operand} (shape : Shape) (uses : ∀ v ∈ args, Usable Γ v) :
      Code i r [] Γ k (callInstr callee args shape none) Any (fun v => [.value v false]) [.call callee]
  | namedCall {callee : String} {args : List Operand} (tag : String) (shape : Shape)
      (uses : ∀ v ∈ args, Usable Γ v) :
      Code i r [] Γ k (do callInstr callee args shape (some (← Build.fresh tag))) Any (fun v => [.value v false])
        [.call callee]
  | rethrow {v : Operand} {x pad : BlockId} (uses : Usable Γ v) (next : Reaches Γ x) (unwinds : .unwind pad ∈ Γ) :
      Code i r [] Γ k (do perform (.invoke (← builder).options.rethrow [v] x pad)) Any (fun _ => []) []
  -- Blocks.
  | newBlock (tag : String) {fact : BlockId → Fact} {f : BlockId → EmitM α}
      (role : fact = .block ∨ fact = .unwind ∨ ∃ S, .all S ∈ Γ ∧ fact = .join S)
      (rest : ∀ x, Code i r (Λ ++ [x]) (fact x :: Γ) k (f x) P Δ n)
        (plain : ∀ a, ∀ f ∈ Δ a, f.isPlain = true) :
      Code i r Λ Γ k (liftM (Build.newBlock tag) >>= f) P Δ n
  | startBlock {x : BlockId} (waits : .block x ∈ Γ) : Code i r [x] Γ false (startBlock x) Any (fun _ => []) []
  | startJoin {x : BlockId} (waits : .join S x ∈ Γ) (still : .all S ∈ Γ) :
      Code i r [x] Γ false (Emit.startBlock x) Any (fun _ => [.all S]) []
  | branchTo {x : BlockId} (waits : Reaches Γ x) : Code i r [] Γ k (branchTo x) Any (fun _ => []) []
  -- Returns.
  | returning {count : Nat} (code : Code i r Λ (.returns :: Γ) k x P Δ (.answer count :: n)) :
      Code i r Λ Γ k x P Δ (.answer count :: n)
  | markReturns (returns : .returns ∈ Γ) :
      Code i r [] Γ k (modify fun c => { c with cleanups := Cleanup.mark c.cleanups }) Any (fun _ => []) []
  | leaveWith {operand : Option Operand} (span : Span) (outside : .outside ∈ Γ)
      (uses : ∀ v ∈ operand, Follows Γ (.value v r))
      (empty : operand = none → ∃ ty, .result ty ∈ Γ ∧ ty.isZeroSized? = some true) :
      Code i r [] Γ k (leaveWith operand span) Any (fun _ => []) []
  -- Labels and errors.
  | markError : Code i r [] Γ k (liftM Build.markError : EmitM Unit) Any (fun _ => []) [.mark]
  | addressOfLabel (l : LabelId) (span : Span) :
      Code i r [] Γ k (liftM (Build.addressOfLabel l span) : EmitM Operand) Any (fun v => [.value v true]) [.mention l]
  | goto (l : LabelId) (span : Span) :
      Code i r [] Γ false (do Emit.perform (.br (← Build.labelBlock l span))) Any (fun _ => []) [.mention l]
  | jump {addr : Operand} (uses : Usable Γ addr) :
      Code i r [] Γ k (do
        let i ← Emit.perform (.indirectBr addr [])
        (modify fun b => { b with labels := b.labels.recordBranch i } : BuildM Unit)) Any (fun _ => []) []
  | placeLabel (l : LabelId) (span : Span) : Code i r [] Γ false (placeLabel l span) Any (fun _ => []) [.place l]
  -- What encloses code.
  | part {x t : BlockId} {code : EmitM Unit} (kind : PadKind) (waits : .unwind x ∈ Γ) (next : .block t ∈ Γ)
      (inner : Code i r [] [] k' code Any (fun _ => []) n) :
      Code i r [x] Γ false (do withPad x code; branchTo t; Emit.startBlock x; landingPad kind) Any
        (fun v => [.value v false]) (padded kind n)
  -- The landing pad can also come first.
  | deferral {x : BlockId} {check : EmitM Unit} {code : EmitM α} (kind : PadKind) (waits : .unwind x ∈ Γ)
      (middle : Code i r Λ (after false Γ) false check Any (fun _ => []) m)
      (inner : Code i r [] [] k' code Any (fun _ => []) n) :
      Code i r (x :: Λ) Γ false
        (do Emit.startBlock x; let _ ← landingPad kind; check; withPad x code) Any (fun _ => [])
        (.land kind :: (m ++ enclosed n))
  | withExit {x : BlockId} {code : EmitM Unit} (waits : .block x ∈ Γ)
      (inner : Code true r Λ Γ k' code Any (fun _ => []) n) : Code i r Λ Γ false (withExit x code) Any (fun _ => []) n
  | withCleanup {flag : Operand} {x : BlockId} {code : EmitM Unit} (stored : .slot flag ∈ Γ) (waits : .block x ∈ Γ)
      (free : .outside ∉ Γ) (inner : Code i r' Λ Γ k' code Any (fun _ => []) n) :
      Code i r Λ Γ false (withCleanup x flag code) Any (fun returned => if returned then [.returns] else []) n

abbrev Does (i r : Bool) (Λ : List BlockId) (Γ : List Fact) (k : Bool) {α : Type} (x : EmitM α)
    (n : List Event) : Prop :=
  Code i r Λ Γ k x Any (fun _ => []) n

namespace Code

variable {i r k k' ok : Bool} {Λ : List BlockId} {Γ Γ' : List Fact} {α β : Type} {x : EmitM α} {f : α → EmitM β}
  {P : α → Prop} {R : β → Prop} {Δ : α → List Fact} {E : β → List Fact} {n m : List Event}

/-- Code does not mind what else is known. -/
theorem widen (h : Code i r Λ Γ' k x P Δ n) (sub : ∀ f ∈ Γ', f ∈ Γ) : Code i r Λ Γ k x P Δ n :=
  h.conseq (fun f known => .mem (sub f known)) (fun _ => id) (fun _ _ _ => .mem) id

/-- Code that starts from nothing known can stand anywhere. -/
theorem anywhere (h : Code i r Λ [] k x P Δ n) : Code i r Λ Γ k x P Δ n := h.widen (by rintro _ ⟨⟩)

/-- A value that is no address is also one that may be. -/
theorem loosen {x : EmitM Operand} {R : Operand → Prop} {a : Bool}
    (h : Code i r Λ Γ k x R (fun v => [.value v false]) n) : Code i r Λ Γ k x R (fun v => [.value v a]) n :=
  h.conseq (fun _ => .mem) (fun _ => id) (fun _ _ _ known => by
    rw [List.mem_singleton.mp known]
    exact (Follows.mem (List.mem_singleton.mpr rfl)).weaken fun _ holds => absurd holds Bool.false_ne_true) id

theorem forget (h : Code i r Λ Γ k' x P Δ n) : Does i r Λ Γ false x n :=
  h.conseq (fun _ => .mem) (fun _ _ => trivial) (fun _ _ _ known => absurd known List.not_mem_nil) nofun

/-- Code that does nothing. -/
theorem skip {a : α} : Does i r [] Γ k (Pure.pure a) [] := .pure trivial (by rintro _ ⟨⟩)

/-- Code that keeps what is known, and what follows it. -/
theorem before (first : Code i r [] Γ true x P Δ n) (second : ∀ a, P a → Code i r Λ (Δ a ++ Γ) k (f a) R E m) :
    Code i r Λ Γ k (x >>= f) R E (n ++ m) :=
  .bind first second fun _ => rfl

/-- The same without steps of its own. -/
theorem seq (first : Code i r [] Γ true x P Δ []) (second : ∀ a, P a → Code i r Λ (Δ a ++ Γ) k (f a) R E m) :
    Code i r Λ Γ k (x >>= f) R E m :=
  before first second

/-- Code that keeps what is known, and what follows it without steps. -/
theorem calls (first : Code i r [] Γ true x P Δ n) (second : ∀ a, P a → Code i r Λ (Δ a ++ Γ) k (f a) R E []) :
    Code i r Λ Γ k (x >>= f) R E n :=
  n.append_nil ▸ before first second

/-- What was known before can be told behind the code. -/
theorem frame {E : α → List Fact} (h : Code i r [] Γ true x P Δ n)
    (gives : ∀ a, P a → ∀ f ∈ E a, Follows (Δ a ++ Γ) f) : Code i r [] Γ k x P E n := by
  rw [← bind_pure x]
  exact calls h fun a holds => .pure holds (gives a holds)

/-- Code behind which the values are gone, and what follows it. -/
theorem act (first : Code i r [] Γ false x P Δ n)
    (second : ∀ a, P a → Code i r Λ (Δ a ++ after false Γ) false (f a) R E m) :
    Code i r Λ Γ false (x >>= f) R E (n ++ m) :=
  .bind first second nofun

/-- The same where what follows has no steps. -/
theorem last (first : Code i r [] Γ false x P Δ n)
    (second : ∀ a, P a → Code i r Λ (Δ a ++ after false Γ) false (f a) R E []) : Code i r Λ Γ false (x >>= f) R E n :=
  n.append_nil ▸ act first second

/-- A block is laid out, and code follows. -/
theorem use {u : BlockId} (first : Code i r [u] Γ false x P Δ n)
    (second : ∀ a, P a → Code i r Λ (Δ a ++ after false Γ) false (f a) R E m) :
    Code i r (u :: Λ) Γ false (x >>= f) R E (n ++ m) :=
  .bind first second nofun

/-- The same without steps of its own. -/
theorem start {u : BlockId} (first : Code i r [u] Γ false x P Δ [])
    (second : ∀ a, P a → Code i r Λ (Δ a ++ after false Γ) false (f a) R E m) :
    Code i r (u :: Λ) Γ false (x >>= f) R E m :=
  use first second

/-- What is so need not be looked at. -/
theorem passes (tells : Tells Γ m true) (h : Code i r Λ Γ k x P Δ n) : Code i r Λ Γ k x P Δ (m ++ n) :=
  before (x := liftM (.ok () : Checked Unit)) (.checked tells) fun _ _ => h

/-- A check, and what follows it. -/
theorem guard {c : Prop} [Decidable c] {span : Span} {cause : Cause} {f : Unit → EmitM β} (tells : Tells Γ m ok)
    (same : c ↔ ok = false) (other : (∀ n, cause ≠ .danglingLabelAddress n) ∧ ∀ v, cause ≠ .verify v)
    (rest : ok = true → Code i r Λ Γ k (f ()) R E n) :
    Code i r Λ Γ k (if c then Emit.fail span cause >>= f else f ()) R E (m ++ n) := by
  cases ok with
  | true =>
    rw [if_neg fun holds => absurd (same.mp holds) Bool.false_ne_true.symm]
    exact passes tells (rest rfl)
  | false =>
    rw [if_pos (same.mpr rfl)]
    exact .fail span other tells

end Code

abbrev Gives {γ : Type} (valued : Bool) : Option γ → Prop := fun v => v.isSome = valued

namespace Code

variable {i r k a valued valued' : Bool} {Λ : List BlockId} {Γ : List Fact} {β γ δ : Type} {x : EmitM (Option γ)}
  {Δ : Option γ → List Fact} {R : β → Prop} {E : β → List Fact} {n m : List Event}

section

variable (first : Code i r [] Γ true x (Gives valued) Δ n) {f : Option γ → EmitM (Option δ)}

include first

/-- What follows a part that may have no value. -/
theorem value {f : Option γ → EmitM β} (missing : valued = false → Code i r Λ (Δ none ++ Γ) k (f none) R E m)
    (rest : valued = true → ∀ v, Code i r Λ (Δ (some v) ++ Γ) k (f (some v)) R E m) :
    Code i r Λ Γ k (x >>= f) R E (n ++ m) := by
  refine before first fun v given => ?_
  cases v with
  | none => exact missing given.symm
  | some v => exact rest given.symm v

section

variable {E : Option δ → List Fact} (missing : f none = Pure.pure none) (nothing : E none = [])

include missing nothing

/-- A value is computed from another one. -/
theorem through (rest : ∀ v, Code i r [] (Δ (some v) ++ Γ) k (f (some v)) (Gives valued') E m) :
    Code i r [] Γ k (x >>= f) (Gives (valued && valued')) E (n ++ reached valued m) := by
  refine value first (fun none => ?_) fun there v => ?_
  · rw [none, missing]
    exact .pure rfl fun f known => absurd (nothing ▸ known) List.not_mem_nil
  · rw [there]
    exact rest v

/-- The same where there is a value in any case. -/
theorem further (rest : ∀ v, Code i r [] (Δ (some v) ++ Γ) k (f (some v)) (Gives true) E m) :
    Code i r [] Γ k (x >>= f) (Gives valued) E (n ++ reached valued m) := by
  have all := through first missing nothing rest
  rwa [Bool.and_true] at all

/-- The same without further steps. -/
theorem map (rest : ∀ v, Code i r [] (Δ (some v) ++ Γ) k (f (some v)) (Gives true) E []) :
    Code i r [] Γ k (x >>= f) (Gives valued) E n := by
  have all := further first missing nothing rest
  cases valued <;> exact n.append_nil ▸ all

end

/-- A statement is computed from a value. -/
theorem needs {f : Option γ → EmitM Unit}
    (missing : f none = Pure.pure ()) (rest : ∀ v, Does i r [] (Δ (some v) ++ Γ) k (f (some v)) m) :
    Does i r [] Γ k (x >>= f) (n ++ reached valued m) := by
  refine value first (fun none => ?_) fun there v => ?_
  · rw [none, missing]
    exact skip
  · rw [there]
    exact rest v

end

theorem some {x : EmitM Operand} {P : Operand → Prop} (h : Code i r [] Γ true x P (fun v => [.value v a]) n) :
    Code i r [] Γ k (do return Option.some (← x)) (Gives true) (values a) n :=
  calls h fun v _ => .pure rfl (by simpa using .mem (by simp))

end Code

end FlowIR

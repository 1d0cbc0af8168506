import FlowIR.Emit.Function
import FlowIR.Proofs.Build.Steps

/-!
Emitting code keeps a function sound.

`Cursor.Sound` adds to the invariant of the function that code can be emitted at the cursor: the
current block is laid out, and what encloses the code waits to be laid out. `Emits` is the judgment for
code. Code of expressions keeps the results that were there (`Cursor.Keeps`), also where it goes on in
other blocks, because those are supplied with them.

A construct that makes a block owes it until it lays it out. The rule for new blocks
(`Emits.newBlock`) lets the code that follows branch to the block, and asks that it be laid out in
the end. A block for exceptions stays idle until the code that it belongs to starts it.
-/

namespace FlowIR

open FlowIR.Graph Emit List

/-- The block is owed, and is supplied with `more`, and with exceptions if it is a pad. -/
def Awaits (owed : BlockId → Prop) (su : Supply) (pad : Bool) (x : BlockId) (more : InstrId → Prop) : Prop :=
  owed x ∧ (su.lands x ↔ pad = true) ∧ ∀ j, su x j ↔ more j

def Nothing : InstrId → Prop := fun _ => False

namespace Cursor

abbrev graph (c : Cursor) : Graph := c.builder.graph

structure Sound (owed : BlockId → Prop) (su : Supply) (c : Cursor) : Prop where
  builder : c.builder.Sound owed su
  placed : c.builder.prologPlaced = true
  current : c.current ∈ c.graph.layout
  pads : ∀ x ∈ c.pads, Awaits owed su true x Nothing
  exits : ∀ x ∈ c.exits, Awaits owed su false x Nothing
  cleanups : ∀ k ∈ c.cleanups, Awaits owed su false k.block Nothing ∧ c.graph.Stable k.flag

/-- What stays when code is emitted: the function grows, and what encloses the code and what blocks
are supplied with is as before. A cleanup may have been noted to pass returns on. -/
structure Grows (su : Supply) (c : Cursor) (su' : Supply) (after : Cursor) : Prop where
  builder : c.builder.Extends after.builder
  pads : after.pads = c.pads
  exits : after.exits = c.exits
  cleanups : after.cleanups.map (fun k => (k.block, k.flag)) =
    c.cleanups.map fun k => (k.block, k.flag)
  supply : ∀ x, x.index < c.graph.blocks.size → (su'.lands x ↔ su.lands x) ∧ ∀ j, su' x j ↔ su x j

def Here (su : Supply) (c : Cursor) (j : InstrId) : Prop := c.graph.Ready su c.current (c.graph.body c.current) j

def Has (su : Supply) (c : Cursor) (v : Operand) : Prop := ∀ j, v = .result j → c.Here su j

def Keeps (su : Supply) (c : Cursor) (su' : Supply) (after : Cursor) : Prop := ∀ j, c.Here su j → after.Here su' j

variable {owed : BlockId → Prop} {su su' su'' : Supply} {c mid after : Cursor} {v : Operand}

/-- The supply can stay the same. -/
theorem Grows.of_builder (builder : c.builder.Extends after.builder) (pads : after.pads = c.pads)
    (exits : after.exits = c.exits) (cleanups : after.cleanups.map (fun k => (k.block, k.flag)) =
      c.cleanups.map fun k => (k.block, k.flag)) : c.Grows su su after :=
  ⟨builder, pads, exits, cleanups, fun _ _ => ⟨Iff.rfl, fun _ => Iff.rfl⟩⟩

theorem Grows.refl (su : Supply) (c : Cursor) : c.Grows su su c := .of_builder (.refl _) rfl rfl rfl

theorem Grows.trans (h : c.Grows su su' mid) (k : mid.Grows su' su'' after) : c.Grows su su'' after where
  builder := h.builder.trans k.builder
  pads := k.pads.trans h.pads
  exits := k.exits.trans h.exits
  cleanups := k.cleanups.trans h.cleanups
  supply := fun x hx =>
    have later := k.supply x (Nat.lt_of_lt_of_le hx h.builder.graph.size)
    ⟨later.1.trans (h.supply x hx).1, fun j => (later.2 j).trans ((h.supply x hx).2 j)⟩

theorem Keeps.refl (su : Supply) (c : Cursor) : c.Keeps su su c := fun _ h => h

theorem Keeps.trans (h : c.Keeps su su' mid) (k : mid.Keeps su' su'' after) :
    c.Keeps su su'' after := fun j hj => k j (h j hj)

theorem Keeps.has (h : c.Keeps su su' after) (hv : c.Has su v) : after.Has su' v := fun j hj =>
  h j (hv j hj)

/-- Staying in the block keeps what was there. -/
theorem Grows.keeps (h : c.Grows su su' after) (sound : c.Sound owed su)
    (same : after.current = c.current) : c.Keeps su su' after := by
  intro j hj
  unfold Here
  rw [same]
  refine Graph.Ready.mono hj h.builder.graph (fun given => ?_) fun i hi =>
    (h.builder.graph.body _).subset hi
  exact ((h.supply _ (sound.builder.formed.placed _ sound.current)).2 j).mpr given

theorem has_of_stable (h : c.graph.Stable v) : c.Has su v := fun j hj => .inl (h j hj)

theorem has_of_plain (h : ∀ j, v ≠ .result j) : c.Has su v := fun j hj => absurd hj (h j)

end Cursor

section Awaits

variable {owed owing : BlockId → Prop} {su su' : Supply} {c after : Cursor} {pad : Bool} {x : BlockId}
  {more : InstrId → Prop}

variable (h : Awaits owed su pad x more)

include h

/-- What waits goes on to wait while code is emitted. -/
theorem Awaits.grow (sound : c.Sound owed su) (grows : c.Grows su su' after) : Awaits owed su' pad x more :=
  have same := grows.supply x (sound.builder.formed.owed_own x h.1).1
  ⟨h.1, same.1.trans h.2.1, fun j => (same.2 j).trans (h.2.2 j)⟩

theorem Awaits.imp (wider : ∀ x, owed x → owing x) : Awaits owing su pad x more :=
  ⟨wider x h.1, h.2⟩

/-- It also does when another block is made. -/
theorem Awaits.past {z : BlockId} (sound : c.Sound owed su)
    (grows : c.Grows su su' after) : Awaits (fun y => owed y ∨ y = z) su' pad x more :=
  (h.grow sound grows).imp fun _ => .inl

end Awaits

/-! ### The judgment -/

/-- The code extends the function and keeps the invariant, and it never reports that a finished graph
was refused. If `k` holds it keeps the results that were there. Of the idle blocks it starts only `xs`. -/
def Emits {α : Type} (owed : BlockId → Prop) (su : Supply) (c : Cursor) (k : Bool) (xs : List BlockId) (x : EmitM α)
    (Q : α → Supply → Cursor → Prop) : Prop :=
  Ensures x c (fun a after => ∃ su', c.Grows su su' after ∧ after.Sound owed su' ∧ (k = true → c.Keeps su su' after) ∧
    (∀ y, su.idle y → y ∈ xs ∨ su'.idle y) ∧ Q a su' after) (fun e _ => e.NotVerify)

namespace Emits

variable {α β : Type} {owed : BlockId → Prop} {su : Supply} {c : Cursor} {k k' : Bool} {xs ys : List BlockId}
  {Q R : α → Supply → Cursor → Prop} {S : β → Supply → Cursor → Prop} {x : EmitM α}

theorem pure {a : α} (h : c.Sound owed su) (q : Q a su c) : Emits owed su c k xs (pure a) Q :=
  ⟨su, .refl su c, h, fun _ => .refl su c, fun _ => .inr, q⟩

theorem conseq (h : Emits owed su c k' ys x Q) (sub : ∀ y ∈ ys, y ∈ xs)
    (hq : ∀ a su' after, c.Grows su su' after → after.Sound owed su' → (k' = true → c.Keeps su su' after) →
      Q a su' after → (k = true → c.Keeps su su' after) ∧ R a su' after) : Emits owed su c k xs x R := by
  refine Ensures.imp h ?_
  rintro a after ⟨su', grows, sound, kept, idle, q⟩
  obtain ⟨kept, r⟩ := hq a su' after grows sound kept q
  exact ⟨su', grows, sound, kept, fun y hy => (idle y hy).imp_left (sub y), r⟩

theorem mono (h : Emits owed su c k xs x Q)
    (hq : ∀ a su' after, c.Grows su su' after → after.Sound owed su' → (k = true → c.Keeps su su' after) →
      Q a su' after → R a su' after) : Emits owed su c k xs x R :=
  h.conseq (fun _ => id) fun a su' after grows sound kept q => ⟨kept, hq a su' after grows sound kept q⟩

/-- Code in sequence. -/
theorem chain {f : α → EmitM β} (first : Emits owed su c k' xs x Q)
    (second : ∀ a su' mid, c.Grows su su' mid → mid.Sound owed su' → (k' = true → c.Keeps su su' mid) →
      (∀ y, su.idle y → y ∈ xs ∨ su'.idle y) → Q a su' mid → Emits owed su' mid k ys (f a) S)
    (keeps : k = true → k' = true) : Emits owed su c k (xs ++ ys) (x >>= f) S := by
  refine Ensures.bind first ?_
  rintro a mid ⟨su', grows, sound, kept, idle, q⟩
  refine Ensures.imp (second a su' mid grows sound kept idle q) ?_
  rintro b after ⟨su'', grows', sound', kept', idle', s⟩
  refine ⟨su'', grows.trans grows', sound', fun on => (kept (keeps on)).trans (kept' on), fun y hy => ?_, s⟩
  rw [mem_append, or_assoc]
  exact (idle y hy).imp_right (idle' y)

/-- Code that keeps the results, and what follows. -/
theorem bind {f : α → EmitM β} (first : Emits owed su c true [] x Q)
    (second : ∀ a su' mid, c.Grows su su' mid → mid.Sound owed su' → c.Keeps su su' mid → Q a su' mid →
      Emits owed su' mid k xs (f a) S) : Emits owed su c k xs (x >>= f) S :=
  first.chain (fun a su' mid grows sound kept _ q => second a su' mid grows sound (kept rfl) q) fun _ => rfl

theorem get {f : Cursor → EmitM α} (h : Emits owed su c k xs (f c) Q) : Emits owed su c k xs (get >>= f) Q := h

theorem builder {f : Builder → EmitM α} (h : Emits owed su c k xs (f c.builder) Q) :
    Emits owed su c k xs (builder >>= f) Q := h

theorem fail {span : Span} {cause : Cause} (hc : ∀ v, cause ≠ .verify v) :
    Emits owed su c k xs (fail span cause : EmitM α) Q := hc

end Emits

/-! ### The function at the cursor -/

section Lift

variable {α : Type} {owed : BlockId → Prop} {su : Supply} {c : Cursor} {k : Bool} {xs : List BlockId}

variable (h : c.Sound owed su)

include h

/-- Replacing the function by one that extends it. -/
theorem Cursor.Sound.rebuild {b : Builder} (grows : c.builder.Extends b)
    (sound : b.Sound owed su) : ({ c with builder := b } : Cursor).Sound owed su where
  builder := sound
  placed := grows.placed.trans h.placed
  current := grows.graph.mem_layout h.current
  pads := h.pads
  exits := h.exits
  cleanups := fun k hk => ⟨(h.cleanups k hk).1, grows.graph.stable (h.cleanups k hk).2⟩

/-- An operation on the function does not move the cursor. -/
theorem Emits.lift {x : BuildM α} {P : α → Builder → Prop} (spec : Builds owed su x c.builder P) :
    Emits owed su c k xs (liftM x) fun a su' after =>
      su' = su ∧ after.current = c.current ∧ P a after.builder := by
  refine ensures_lift.mpr (Ensures.mono spec ?_ fun _ _ he => he.1)
  rintro a b ⟨grows, sound, p⟩
  have whole : c.Grows su su { c with builder := b } := .of_builder grows rfl rfl rfl
  exact ⟨su, whole, h.rebuild grows sound, fun _ => whole.keeps h rfl, fun _ => .inr, rfl, rfl, p⟩

/-- A checked operation has its result, or it faults. -/
theorem Emits.checked {x : Checked α} :
    Emits owed su c k xs (liftM x) fun a su' after => su' = su ∧ after = c ∧ x = .ok a :=
  ensures_checked.mpr ⟨fun _ ha => ⟨su, .refl su c, h, fun _ => .refl su c, fun _ => .inr, rfl, rfl, ha⟩,
    fun _ _ => trivial⟩

end Lift

/-! ### Blocks -/

section Blocks

variable {α : Type} {owed : BlockId → Prop} {su su' : Supply} {c after : Cursor} {k j : Bool} {xs : List BlockId}
  {Q : α → Supply → Cursor → Prop} {x : BlockId}

/-- A block that has been laid out is owed no more. -/
theorem Cursor.Sound.settle (h : after.Sound (fun y => owed y ∨ y = x) su') (start : c.Sound owed su)
    (grows : c.Grows su su' after) (laid : x ∈ after.graph.layout) : after.Sound owed su' where
  builder := h.builder.settle (fun _ => .inl) fun y hy => hy.imp id fun eq : y = x => eq ▸ laid
  placed := h.placed
  current := h.current
  pads := fun y hy => ⟨(start.pads y (grows.pads ▸ hy)).1, (h.pads y hy).2⟩
  exits := fun y hy => ⟨(start.exits y (grows.exits ▸ hy)).1, (h.exits y hy).2⟩
  cleanups := fun k hk => by
    obtain ⟨⟨-, supply⟩, flag⟩ := h.cleanups k hk
    have mem : (k.block, k.flag) ∈ c.cleanups.map fun k => (k.block, k.flag) :=
      grows.cleanups ▸ mem_map.mpr ⟨k, hk, rfl⟩
    obtain ⟨old, hold, eq⟩ := mem_map.mp mem
    have block : old.block = k.block := (Prod.mk.inj eq).1
    exact ⟨⟨block ▸ (start.cleanups old hold).1.1, supply⟩, flag⟩

structure Cursor.Made (c : Cursor) (x : BlockId) (after : Cursor) : Prop where
  index : x.index = c.graph.blocks.size
  current : after.current = c.current
  instrs : after.graph.instrs = c.graph.instrs
  labels : after.builder.labels = c.builder.labels
  empty : after.graph.body x = []

variable (h : c.Sound owed su)

include h

/-- A new block is owed, and can be supplied with anything. -/
theorem newBlock_made (tag : String) (more : InstrId → Prop) (pad : Bool) :
    Ensures (liftM (Build.newBlock tag) : EmitM BlockId) c (fun x mid => ∃ su', c.Grows su su' mid ∧
      mid.Sound (fun y => owed y ∨ y = x) su' ∧ c.Made x mid ∧ Awaits (fun y => owed y ∨ y = x) su' pad x more ∧
      ∀ y, su.idle y ∨ (y = x ∧ pad = true) → su'.idle y) fun _ _ => False := by
  have made : Ensures (liftM (Build.newBlock tag) : EmitM BlockId) c (fun x mid =>
      x = ⟨c.graph.blocks.size⟩ ∧ ∃ names name, mid = { c with
        builder := { c.builder with names, graph := (c.graph.newBlock name).2 } })
      fun _ _ => False := ensures_lift.mpr ⟨rfl, _, _, rfl⟩
  refine made.imp ?_
  rintro _ _ ⟨rfl, names, name, rfl⟩
  have new := h.builder.supplied.new ⟨c.graph.blocks.size⟩ (Nat.le_refl _)
  have builder : c.builder.Extends { c.builder with names, graph := (c.graph.newBlock name).2 } :=
    .of_graph (.newBlock _ name) rfl
  have grows : c.Grows su (su.give ⟨c.graph.blocks.size⟩ more pad)
      { c with builder := { c.builder with names, graph := (c.graph.newBlock name).2 } } := by
    refine ⟨builder, rfl, rfl, rfl, fun y hy => ?_⟩
    have old : y ≠ ⟨c.graph.blocks.size⟩ := fun eq => Nat.lt_irrefl _ (eq ▸ hy)
    exact ⟨or_iff_left fun given => old given.1, fun j => or_iff_left fun given => old given.1⟩
  have sound : ({ c with builder := { c.builder with names, graph := (c.graph.newBlock name).2 } } :
      Cursor).Sound (fun y => owed y ∨ y = ⟨c.graph.blocks.size⟩)
      (su.give ⟨c.graph.blocks.size⟩ more pad) :=
    { builder := (h.builder.newBlock name more pad).congr rfl rfl rfl rfl rfl rfl fun _ hv => hv
      placed := h.placed
      current := h.current
      pads := fun y hy => (h.pads y hy).past h grows
      exits := fun y hy => (h.exits y hy).past h grows
      cleanups := fun k hk => ⟨(h.cleanups k hk).1.past h grows,
        builder.graph.stable (h.cleanups k hk).2⟩ }
  have made : c.Made ⟨c.graph.blocks.size⟩
      { c with builder := { c.builder with names, graph := (c.graph.newBlock name).2 } } :=
    ⟨rfl, rfl, rfl, rfl, (body_newBlock name).trans (by simp [body])⟩
  have awaits : Awaits (fun y => owed y ∨ y = ⟨c.graph.blocks.size⟩) (su.give ⟨c.graph.blocks.size⟩ more pad) pad
      ⟨c.graph.blocks.size⟩ more :=
    ⟨.inr rfl, (or_iff_right new.2).trans (and_iff_right rfl), fun j =>
      (or_iff_right (new.1 j)).trans (and_iff_right rfl)⟩
  exact ⟨_, grows, sound, made, awaits, fun _ => id⟩

/-- A new block has to be laid out in the end. -/
theorem Emits.newBlock {tag : String} {f : BlockId → EmitM α} (more : InstrId → Prop) (pad : Bool)
    {d : BlockId → List BlockId} (fits : ∀ x, ∀ y ∈ d x, y ∈ xs ∨ y = x)
    (rest : ∀ x su' mid, c.Grows su su' mid → mid.Sound (fun y => owed y ∨ y = x) su' → c.Made x mid →
      Awaits (fun y => owed y ∨ y = x) su' pad x more → (∀ y, su.idle y ∨ (y = x ∧ pad = true) → su'.idle y) →
      Emits (fun y => owed y ∨ y = x) su' mid j (d x) (f x) fun a su'' after =>
        x ∈ after.graph.layout ∧ (k = true → c.Keeps su su'' after) ∧ Q a su'' after) :
    Emits owed su c k xs (liftM (Build.newBlock tag) >>= f) Q := by
  refine Ensures.bind ((newBlock_made h tag more pad).mono (fun _ _ q => q) fun _ _ he => he.elim) ?_
  rintro x mid ⟨su', grows, sound, made, awaits, idle⟩
  refine Ensures.imp (rest x su' mid grows sound made awaits idle) ?_
  rintro a after ⟨su'', grows', sound', -, idle', laid, kept, q⟩
  have whole := grows.trans grows'
  refine ⟨su'', whole, sound'.settle h whole laid, kept, fun y hy => ?_, q⟩
  -- The new block was not idle before, since it was not there.
  refine (idle' y (idle y (.inl hy))).imp_left fun started => (fits x y started).resolve_right fun eq => ?_
  have new := h.builder.supplied.new y (Nat.le_of_eq (by rw [eq, made.index]))
  exact new.2 (h.builder.supplied.idle y hy).1

/-- Going on in an owed block, which is laid out then. -/
theorem startBlock_emits {more : InstrId → Prop} (hx : Awaits owed su false x more) :
    Emits owed su c false xs (startBlock x) fun _ su' after => su' = su ∧ after.current = x ∧
      x ∈ after.graph.layout ∧ (∀ j, more j → after.Here su' j) ∧
      after.graph.body x = c.graph.body x ∧ after.graph.instrs = c.graph.instrs ∧
      after.builder.labels = c.builder.labels := by
  have laid : x ∈ (c.graph.attach x).layout := mem_layout_attach.mpr (.inr rfl)
  have grows : c.builder.Extends { c.builder with graph := c.graph.attach x } :=
    .of_graph (.attach _ x) rfl
  have awake : ¬ su.idle x := fun idle => Bool.false_ne_true (hx.2.1.mp (h.builder.supplied.idle x idle).1)
  have sound := h.rebuild grows (h.builder.attach hx.1 awake)
  refine .of_run rfl ⟨su, .of_builder grows rfl rfl rfl, ?_, (by rintro ⟨⟩), fun _ => .inr, rfl, rfl, laid,
    fun j m => .inr (.inl ((hx.2.2 j).mpr m)), body_attach, instrs_attach, rfl⟩
  exact ⟨sound.builder, sound.placed, laid, sound.pads, sound.exits, sound.cleanups⟩

/-- Going on in a block of the layout. -/
theorem moveTo_emits (laid : x ∈ c.graph.layout) :
    Emits owed su c false xs (moveTo x) fun _ _ after => after.current = x :=
  ⟨su, .of_builder (.refl _) rfl rfl rfl, ⟨h.builder, h.placed, laid, h.pads, h.exits, h.cleanups⟩,
    (by rintro ⟨⟩), fun _ => .inr, rfl⟩

theorem isTerminated_emits :
    Emits owed su c k xs isTerminated fun t su' after =>
      su' = su ∧ after = c ∧ (t = true ↔ c.graph.Ends c.current) :=
  (Emits.get (Emits.checked h)).mono fun _ _ _ _ _ _ ⟨supply, same, run⟩ =>
    ⟨supply, same, isTerminated_eq_ok run⟩

/-- Code can be added where the block is open. -/
theorem ensureOpen_emits :
    Emits owed su c k xs ensureOpen fun _ _ after => ¬ after.graph.Ends after.current ∧
      after.graph.instrs = c.graph.instrs ∧ after.builder.labels = c.builder.labels := by
  unfold ensureOpen
  refine (isTerminated_emits h).bind ?_
  rintro t su c - - - ⟨rfl, rfl, ends⟩
  split
  · refine Emits.newBlock (j := false) h (c.Here su) false (fun _ _ =>
      .inl) fun x su' mid grows sound made awaits _ => ?_
    refine (startBlock_emits sound awaits).mono ?_
    rintro - _ after - - - ⟨rfl, current, laid, here, body, instrs, labels⟩
    refine ⟨laid, fun _ => here, fun ⟨i, op, last, _⟩ => ?_, instrs.trans made.instrs, labels.trans made.labels⟩
    rw [current, body, made.empty] at last
    cases last
  · next unended => exact .pure h ⟨fun e => unended (ends.mpr e), rfl, rfl⟩

end Blocks

/-! ### Instructions -/

section Instructions

variable {owed : BlockId → Prop} {su : Supply} {c : Cursor} {k : Bool} {xs : List BlockId} {x : BlockId} {t : BlockId}
  {op : Op}

/-- A branch can go to a block that is owed or that a label starts, if what the block is supplied with
is there, or is the result of the branching call. It can unwind to blocks for exceptions only. -/
def Cursor.Reaches (owed : BlockId → Prop) (su : Supply) (c : Cursor) (op : Op) (t : BlockId) : Prop :=
  (owed t ∨ ∃ l, c.builder.labels.home l = some t) ∧ (op.unwind? = some t ↔ su.lands t) ∧
    ∀ j, su t j → c.Here su j ∨ (j = ⟨c.graph.instrs.size⟩ ∧ op.normal? = some t)

theorem Cursor.Reaches.index_lt (h : c.Reaches owed su op t)
    (sound : c.Sound owed su) : t.index < c.graph.blocks.size :=
  h.1.elim (fun o => (sound.builder.formed.owed_own t o).1)
    fun ⟨l, hl⟩ => (sound.builder.formed.home_own l t hl).1

/-- A block that waits for results that are there can be gone to. -/
theorem Awaits.reaches {pad : Bool} {more : InstrId → Prop} (h : Awaits owed su pad t more)
    (unwinds : op.unwind? = some t ↔ pad = true) (there : ∀ j, more j → c.Here su j) : c.Reaches owed su op t :=
  ⟨.inl h.1, unwinds.trans h.2.1.symm, fun j hj => .inl (there j ((h.2.2 j).mp hj))⟩

/-- A block that waits for nothing can be gone to from anywhere. -/
theorem Awaits.reachable {pad : Bool} (h : Awaits owed su pad t Nothing)
    (unwinds : op.unwind? = some t ↔ pad = true) : c.Reaches owed su op t :=
  h.reaches unwinds fun _ none => none.elim

variable (h : c.Sound owed su)

include h

/-- So can the block of a label. -/
theorem Cursor.Sound.reaches_home {l : LabelId}
    (hl : c.builder.labels.home l = some t) (stays : op.unwind? ≠ some t) : c.Reaches owed su op t :=
  have bare := h.builder.supplied.home l t hl
  ⟨.inr ⟨l, hl⟩, iff_of_false stays bare.2, fun j hj => absurd hj (bare.1 j)⟩

/-- Adding an instruction. Its result is there afterwards. -/
theorem push_emits {instr : Instr} (plain : instr.op.isAlloca = false)
    (inner : instr.op.isInner = true) (uses : ∀ v ∈ instr.op.operands, c.Has su v)
    (targets : ∀ t ∈ instr.op.successors, c.Reaches owed su instr.op t) :
    Emits owed su c k xs (push instr) fun i su' after =>
      i = ⟨c.graph.instrs.size⟩ ∧ (instr.op.yields = true → after.Here su' i) := by
  unfold Emit.push
  refine (ensureOpen_emits h).bind fun _ su₁ c₁ grows₁ sound₁ keeps₁ ⟨open₁, instrs₁, labels₁⟩ => ?_
  refine (Emits.lift sound₁ (Build.newTracked_builds sound₁.builder plain)).bind ?_
  rintro i _ c₂ grows₂ sound₂ keeps₂ ⟨rfl, current₂, rfl, graph₂, home₂⟩
  have open₂ : ¬ c₂.graph.Ends c₂.current := by
    rw [current₂, Cursor.graph, graph₂]
    exact fun ends => open₁ (sound₁.builder.formed.ends_of_newInstr ends)
  have hop : c₂.graph.op? ⟨c₁.graph.instrs.size⟩ = some instr.op := by
    rw [Cursor.graph, graph₂]
    simp
  have keeps := keeps₁.trans keeps₂
  refine Emits.get ((Emits.lift sound₂ (Build.append_builds sound₂.builder hop sound₂.current
    sound₂.placed open₂ inner ⟨?_, ?_⟩)).bind ?_)
  · intro j hj
    exact keeps j (uses _ hj j rfl)
  · intro t ht
    obtain ⟨there, unwinds, supply⟩ := targets t ht
    have same := grows₁.supply t ((targets t ht).index_lt h)
    refine ⟨there.imp id fun ⟨l, hl⟩ => ⟨l, by rw [home₂, labels₁, hl]⟩, unwinds.trans same.1.symm, fun j hj => ?_⟩
    rw [instrs₁]
    exact (supply j ((same.2 j).mp hj)).imp (keeps j) id
  · rintro - _ c₃ - sound₃ - ⟨rfl, current₃, -, ready⟩
    refine .pure sound₃ ⟨by rw [instrs₁], fun yields => ?_⟩
    rw [Cursor.Here, current₃]
    exact ready yields

/-- Adding an instruction whose result gets a name. -/
theorem named_emits {tag : String} {shape : Shape} (yields : op.yields = true)
    (plain : op.isAlloca = false) (inner : op.isInner = true) (uses : ∀ v ∈ op.operands, c.Has su v) :
    Emits owed su c k xs (named tag op shape) fun v su' after => after.Has su' v := by
  refine (Emits.lift h (Build.fresh_builds h.builder tag)).bind ?_
  rintro name _ c₁ - sound₁ keeps₁ ⟨rfl, -, -⟩
  refine (push_emits sound₁ plain inner (fun v hv => keeps₁.has (uses v hv))
    (fun t ht => ?_)).bind fun i su₂ c₂ _ sound₂ _ ⟨_, there⟩ => ?_
  · rw [Op.successors_eq_nil_of_yields yields] at ht
    cases ht
  exact .pure sound₂ fun j hj => Operand.result.inj hj ▸ there yields

/-- Adding an instruction that neither has a result nor goes anywhere. -/
theorem effect_emits (plain : op.isAlloca = false) (inner : op.isInner = true)
    (stays : op.successors = []) (uses : ∀ v ∈ op.operands, c.Has su v) :
    Emits owed su c k xs (perform op) fun _ _ _ => True :=
  (push_emits h plain inner uses fun _ ht => absurd (stays ▸ ht) not_mem_nil).mono
    fun _ _ _ _ _ _ _ => trivial

/-- Going on to a block that waits for no more than is there. -/
theorem branchTo_emits (reaches : c.Reaches owed su (.br t) t) :
    Emits owed su c k xs (branchTo t) fun _ _ _ => True := by
  unfold branchTo
  refine (isTerminated_emits h).bind ?_
  rintro b _ _ - - - ⟨rfl, rfl, -⟩
  split
  · exact .pure h trivial
  · refine Emits.bind (push_emits h rfl rfl (by rintro _ ⟨⟩) fun t' ht' => ?_)
      fun _ _ _ _ sound _ _ => .pure sound trivial
    exact mem_singleton.mp ht' ▸ reaches

/-- An idle block starts with a landing pad. -/
theorem startPad_emits (hx : owed x) (idle : su.idle x) (tag : String) (kind : PadKind) (shape : Shape) :
    Emits owed su c false [x] (do startBlock x; named tag (.landingPad kind) shape)
      fun v su' after => x ∈ after.graph.layout ∧ after.Has su' v := by
  obtain ⟨lands, -⟩ := h.builder.supplied.idle x idle
  have still : ∀ g : Graph, g.body x = c.graph.body x → ¬ g.Ends x := fun g same ⟨i, op, last, _⟩ => by
    rw [same, (h.builder.supplied.empty x lands).mp idle] at last
    cases last
  -- The block is laid out first, but only with the landing pad in it the function is sound again.
  have push : ∀ (names : NameSupply) (instr : Instr), instr.op = .landingPad kind → Ensures (push instr)
      { c with builder := { c.builder with names, graph := c.graph.attach x }, current := x }
      (fun i after => c.Grows su (su.start x) after ∧ after.Sound owed (su.start x) ∧
        x ∈ after.graph.layout ∧ after.Here (su.start x) i) fun e _ => e.NotVerify := by
    intro names instr isPad
    refine Ensures.bind (R := fun _ after =>
      after = { c with builder := { c.builder with names, graph := c.graph.attach x }, current := x }) ?_ ?_
    · refine ensures_bind.mpr (.get (ensures_checked.mpr ⟨fun t run => ?_, fun _ _ => trivial⟩))
      have ended : t = false := Bool.eq_false_iff.mpr fun on =>
        still _ body_attach ((isTerminated_eq_ok run).mp on)
      subst ended
      rfl
    rintro _ _ rfl
    refine ensures_bind.mpr (ensures_lift.mpr (.of_run rfl ?_))
    rw [isPad]
    refine .get (ensures_bind.mpr (ensures_lift.mpr (ensures_onGraph.mpr
      ⟨fun g run => ?_, fun _ _ => trivial⟩)))
    have run : ((c.graph.newInstr instr).2.attach x).append x ⟨c.graph.instrs.size⟩ = .ok g := by
      rw [← newInstr_attach, ← instrs_attach]
      exact run
    have hop : (c.graph.newInstr instr).2.op? ⟨c.graph.instrs.size⟩ = some (.landingPad kind) := by simp [isPad]
    have whole : c.builder.Extends { c.builder with names, graph := g } := .of_graph
      ((Graph.Extends.newInstr _ instr).trans ((Graph.Extends.attach _ x).trans
        (.append (still _ body_attach) run))) rfl
    have sound := (h.builder.newInstr (by rw [isPad]; rfl)).land hx idle hop h.placed run
    have laid : x ∈ g.layout := by
      rw [layout_of_updateBlock run]
      exact mem_layout_attach.mpr (.inr rfl)
    have here : g.Ready (su.start x) x (g.body x) ⟨(c.graph.attach x).instrs.size⟩ := by
      rw [body_of_append run, if_pos rfl, instrs_attach]
      refine .inr (.inr ⟨mem_append_right _ (mem_singleton.mpr rfl), .landingPad kind, ?_, rfl⟩)
      rw [op?_of_updateBlock run, op?_attach, hop]
    have grows : c.Grows su su { c with builder := { c.builder with names, graph := g }, current := x } :=
      .of_builder whole rfl rfl rfl
    exact ⟨⟨grows.builder, rfl, rfl, rfl, grows.supply⟩, ⟨sound.congr rfl rfl rfl rfl rfl rfl fun _ hv =>
      hv, h.placed, laid, h.pads,
      h.exits, fun k hk => ⟨(h.cleanups k hk).1, whole.graph.stable (h.cleanups k hk).2⟩⟩, laid, here⟩
  refine .after rfl (.after rfl (Ensures.bind (push _ _ rfl) ?_))
  rintro i after ⟨grows, sound, laid, here⟩
  refine ⟨_, grows, sound, by rintro ⟨⟩, fun y hy => ?_, laid, fun j hj => Operand.result.inj hj ▸ here⟩
  exact (Decidable.em (y = x)).imp mem_singleton.mpr fun other => ⟨hy, other⟩

end Instructions

/-! ### What encloses code -/

section Enclosed

variable {α : Type} {owed : BlockId → Prop} {su : Supply} {c : Cursor} {k : Bool} {xs : List BlockId}
    {x : BlockId} {P : Graph → Prop}
  (h : c.Sound owed su)

include h

/-- Returns can pass through a block that waits for nothing. -/
theorem withCleanup_emits (hx : Awaits owed su false x Nothing) {code : EmitM Unit} {flag : Operand}
    (stable : c.graph.Stable flag) (inner : ∀ c₁ : Cursor, c₁.graph = c.graph → c₁.current = c.current →
      c₁.Sound owed su → Emits owed su c₁ k xs code fun _ _ after => P after.graph) :
    Emits owed su c false xs (withCleanup x flag code) fun _ _ after => P after.graph := by
  have sound : ({ c with cleanups := { block := x, flag } :: c.cleanups } : Cursor).Sound owed su :=
    { h with cleanups := forall_mem_cons.mpr ⟨⟨hx, stable⟩, h.cleanups⟩ }
  refine .modify ?_
  refine Ensures.bind (inner _ rfl rfl sound) ?_
  rintro a c₂ ⟨su', grows, sound₂, -, idle, p⟩
  have cleanups : c₂.cleanups.tail.map (fun k => (k.block, k.flag)) =
      c.cleanups.map fun k => (k.block, k.flag) := by
    rw [map_tail, grows.cleanups]
    rfl
  refine ⟨su', ⟨grows.builder, grows.pads, grows.exits, cleanups, grows.supply⟩, ?_, (by rintro ⟨⟩), idle, p⟩
  exact { sound₂ with cleanups := fun k hk => sound₂.cleanups k (mem_of_mem_tail hk) }

variable {code : EmitM α} (inner : ∀ c₁ : Cursor, c₁.graph = c.graph → c₁.current = c.current → c₁.Sound owed su →
  Emits owed su c₁ k xs code fun _ _ after => P after.graph)

include inner

/-- Code can unwind to a block for exceptions. -/
theorem withPad_emits (hx : Awaits owed su true x Nothing) :
    Emits owed su c false xs (withPad x code) fun _ _ after => P after.graph := by
  have sound : ({ c with pads := x :: c.pads } : Cursor).Sound owed su :=
    { h with pads := forall_mem_cons.mpr ⟨hx, h.pads⟩ }
  refine .modify ?_
  refine Ensures.bind (inner _ rfl rfl sound) ?_
  rintro a c₂ ⟨su', grows, sound₂, -, idle, p⟩
  have pads : c₂.pads.tail = c.pads := by rw [grows.pads]; rfl
  refine ⟨su', ⟨grows.builder, pads, grows.exits, grows.cleanups, grows.supply⟩, ?_, (by rintro ⟨⟩), idle, p⟩
  exact { sound₂ with pads := fun y hy => sound₂.pads y (mem_of_mem_tail hy) }

/-- Code can leave for a block that waits for nothing. -/
theorem withExit_emits (hx : Awaits owed su false x Nothing) :
    Emits owed su c false xs (withExit x code) fun _ _ after => P after.graph := by
  have sound : ({ c with exits := x :: c.exits } : Cursor).Sound owed su :=
    { h with exits := forall_mem_cons.mpr ⟨hx, h.exits⟩ }
  refine .modify ?_
  refine Ensures.bind (inner _ rfl rfl sound) ?_
  rintro a c₂ ⟨su', grows, sound₂, -, idle, p⟩
  have exits : c₂.exits.tail = c.exits := by rw [grows.exits]; rfl
  refine ⟨su', ⟨grows.builder, grows.pads, exits, grows.cleanups, grows.supply⟩, ?_, (by rintro ⟨⟩), idle, p⟩
  exact { sound₂ with exits := fun y hy => sound₂.exits y (mem_of_mem_tail hy) }

end Enclosed

end FlowIR

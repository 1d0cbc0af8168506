import FlowIR.Proofs.Build.Path

/-!
Where the slots and the set-up instructions of a function are.

Slots wait in two lists until they are put at the front of the entry block, and so do the instructions that fill
them. `Builder.Stowed` says that each of them is in one place only, that none of them has been lost, and that what
stands in front uses nothing that stands behind it. It holds however the calls that set a function up are ordered,
and emitting code keeps it.
-/

namespace FlowIR

open FlowIR.Graph Builder List

/-- The first instruction uses the result of the second. -/
def Graph.Uses (g : Graph) (j i : InstrId) : Prop := ∃ op, g.op? j = some op ∧ .result i ∈ op.operands

/-- The instructions are in an order in which none uses the result of a later one. -/
def Graph.InOrder (g : Graph) (is : List InstrId) : Prop := is.Pairwise fun j i => ¬ g.Uses j i

/-- The instructions of the function that are listed or wait for their place. -/
def Builder.stock (b : Builder) : List InstrId := b.graph.listed ++ (b.pendingSlots ++ b.lateSlots)

/-- The instructions in front of the entry block, which set the function up, and those that wait to join them. -/
def Builder.setUp (b : Builder) (front : List InstrId) : List InstrId := front ++ (b.pendingSlots ++ b.lateSlots)

/-- All slots, and all other instructions that set the function up, stand in front of the code in the entry block or
wait to be put there, each of them once. -/
structure Builder.Assigned (setsUp : InstrId → Prop) (front code : List InstrId) (b : Builder) : Prop where
  body : b.graph.body b.entry = front ++ code
  once : b.stock.Nodup
  known : ∀ i ∈ b.stock, i.index < b.graph.instrs.size
  kept : ∀ i, (i.index < b.graph.instrs.size ∧ setsUp i) ∨ b.graph.Slot i → i ∈ b.setUp front
  own : ∀ i ∈ b.setUp front, setsUp i ∨ b.graph.Slot i
  later : ∀ i ∈ code, ¬ setsUp i ∧ ¬ b.graph.Slot i
  silent : ∀ i ∈ b.setUp front, ∀ op, b.graph.op? i = some op → op.mark? = none

structure Builder.Stowed (setsUp : InstrId → Prop) (front code : List InstrId) (b : Builder) : Prop
    extends b.Assigned setsUp front code where
  order : b.graph.InOrder front
  late_order : b.graph.InOrder b.lateSlots
  late_own : ∀ j ∈ b.lateSlots, ∀ i, b.graph.Uses j i → i ∈ b.lateSlots
  pending_slot : ∀ i ∈ b.pendingSlots, b.graph.Slot i
  unplaced : b.prologPlaced = false → front = [] ∧ code = [] ∧ b.lateSlots = []
  placed : b.prologPlaced = true → b.pendingSlots = []

def Builder.SetUpDone (setsUp : InstrId → Prop) (b : Builder) : Prop :=
  b.prologPlaced = true ∧ ∀ i : InstrId, b.graph.instrs.size ≤ i.index → ¬ setsUp i

namespace Graph

variable {g after : Graph} {i j : InstrId}

/-- A slot uses nothing. -/
theorem Slot.not_uses (h : g.Slot j) : ¬ g.Uses j i := by
  rintro ⟨op, hop, uses⟩
  obtain ⟨op', hop', isSlot⟩ := h
  cases hop.symm.trans hop'
  rw [Op.operands_eq_nil_of_isAlloca isSlot] at uses
  cases uses

/-- Slots can be in any order. -/
theorem inOrder_of_slots : ∀ {is : List InstrId}, (∀ i ∈ is, g.Slot i) → g.InOrder is
  | [], _ => .nil
  | i :: _, h => .cons (fun _ _ => (h i mem_cons_self).not_uses)
      (inOrder_of_slots fun j hj => h j (mem_cons_of_mem _ hj))

namespace Retains

variable (h : g.Retains after)

include h

theorem slot (old : i.index < g.instrs.size) : after.Slot i ↔ g.Slot i := by
  constructor
  · rintro ⟨op', found, isSlot⟩
    obtain ⟨op, found', alike⟩ := h.op?_of_after old found
    exact ⟨op, found', alike.isAlloca ▸ isSlot⟩
  · rintro ⟨op, found, isSlot⟩
    obtain ⟨op', found', alike⟩ := h.ops i op found
    exact ⟨op', found', alike.isAlloca.trans isSlot⟩

theorem uses (old : j.index < g.instrs.size) (uses : after.Uses j i) : g.Uses j i := by
  obtain ⟨op', found, mem⟩ := uses
  obtain ⟨op, found', alike⟩ := h.op?_of_after old found
  exact ⟨op, found', alike.results i mem⟩

theorem inOrder {is : List InstrId} (known : ∀ i ∈ is, i.index < g.instrs.size)
    (order : g.InOrder is) : after.InOrder is :=
  List.Pairwise.imp_of_mem (fun hj _ apart uses => apart (h.uses (known _ hj) uses)) order

end Retains

theorem Slot.index_lt (h : g.Slot i) : i.index < g.instrs.size := by
  obtain ⟨_, found, -⟩ := h
  exact index_lt_of_op? found

end Graph

/-! ### New instructions -/

/-- Instructions have been made and are listed or wait, and those that were there are what they were. -/
structure Builder.Gains (b after : Builder) (new : List InstrId) : Prop where
  retains : b.graph.Retains after.graph
  stock : after.stock.Perm (new ++ b.stock)
  mem : ∀ i, i ∈ new ↔ b.graph.instrs.size ≤ i.index ∧ i.index < after.graph.instrs.size
  once : new.Nodup

namespace Builder

variable {setsUp : InstrId → Prop} {front code new : List InstrId} {b after : Builder} {ops : List Entry}

theorem Gains.none (retains : b.graph.Retains after.graph) (size : after.graph.instrs.size = b.graph.instrs.size)
    (stock : after.stock.Perm b.stock) : b.Gains after [] where
  retains := retains
  stock := stock
  mem := fun i => by simp [size]
  once := .nil

theorem Gains.one (retains : b.graph.Retains after.graph) (size : after.graph.instrs.size = b.graph.instrs.size + 1)
    (stock : after.stock.Perm (⟨b.graph.instrs.size⟩ :: b.stock)) : b.Gains after [⟨b.graph.instrs.size⟩] where
  retains := retains
  stock := stock
  mem := fun i => by
    cases i
    simp only [mem_singleton, InstrId.mk.injEq, size]
    omega
  once := pairwise_singleton _ _

theorem SetUpDone.step (h : b.SetUpDone setsUp) (change : b.Step ops after) : after.SetUpDone setsUp :=
  ⟨change.terms.2.1.trans h.1, fun i hi => h.2 i (Nat.le_trans change.retains.size_le hi)⟩

namespace Assigned

variable (h : b.Assigned setsUp front code) {i : InstrId}

include h

theorem mem_stock_of_setUp (hi : i ∈ b.setUp front) : i ∈ b.stock := by
  rcases mem_append.mp hi with early | waits
  · refine mem_append_left _ (mem_listed.mpr ⟨b.entry, ?_⟩)
    rw [h.body]
    exact mem_append_left _ early
  · exact mem_append_right _ waits

theorem setUp_known (hi : i ∈ b.setUp front) : i.index < b.graph.instrs.size := h.known i (h.mem_stock_of_setUp hi)

theorem late_known (hi : i ∈ b.lateSlots) : i.index < b.graph.instrs.size :=
  h.setUp_known (mem_append_right _ (mem_append_right _ hi))

/-- What is new has its place if it joins what sets the function up, or goes behind it if it does not. -/
theorem gain (gains : b.Gains after new) {front' code' : List InstrId}
    (body : after.graph.body after.entry = front' ++ code')
    (setUp : ∀ i, i ∈ after.setUp front' ↔ i ∈ b.setUp front ∨ i ∈ new ∧ (setsUp i ∨ after.graph.Slot i))
    (behind : ∀ i ∈ code', i ∈ code ∨ i ∈ new ∧ ¬ (setsUp i ∨ after.graph.Slot i))
    (quiet : ∀ i ∈ new, setsUp i ∨ after.graph.Slot i → ∀ op, after.graph.op? i = some op → op.mark? = none) :
    after.Assigned setsUp front' code' where
  body := body
  once := gains.stock.nodup_iff.mpr (nodup_append.mpr ⟨gains.once, h.once, fun i hi j hj eq =>
    Nat.not_lt.mpr ((gains.mem i).mp hi).1 (h.known i (eq ▸ hj))⟩)
  known := fun i hi => by
    rcases mem_append.mp (gains.stock.mem_iff.mp hi) with new | old
    · exact ((gains.mem i).mp new).2
    · exact Nat.lt_of_lt_of_le (h.known i old) gains.retains.size_le
  kept := fun i hi => by
    have made : i.index < after.graph.instrs.size := hi.elim And.left Graph.Slot.index_lt
    by_cases old : i.index < b.graph.instrs.size
    · exact (setUp i).mpr (.inl (h.kept i (hi.imp (fun made => ⟨old, made.2⟩) (gains.retains.slot old).mp)))
    · exact (setUp i).mpr (.inr ⟨(gains.mem i).mpr ⟨Nat.le_of_not_lt old, made⟩, hi.imp And.right id⟩)
  own := fun i hi => ((setUp i).mp hi).elim
    (fun old => (h.own i old).imp id (gains.retains.slot (h.setUp_known old)).mpr) And.right
  later := fun i hi => by
    rcases behind i hi with old | ⟨-, neither⟩
    · have listed : i ∈ b.graph.listed := mem_listed.mpr ⟨b.entry, h.body ▸ mem_append_right _ old⟩
      have slot := gains.retains.slot (h.known i (mem_append_left _ listed))
      exact (h.later i old).imp id fun none isSlot => none (slot.mp isSlot)
    · exact not_or.mp neither
  silent := fun i hi op found => by
    rcases (setUp i).mp hi with old | ⟨new, sets⟩
    · obtain ⟨op', found', alike⟩ := gains.retains.op?_of_after (h.setUp_known old) found
      exact alike.mark.trans (h.silent i old op' found')
    · exact quiet i new sets op found

end Assigned

end Builder

/-! ### Changes -/

namespace Builder.Stowed

variable {setsUp : InstrId → Prop} {front code new : List InstrId} {b after : Builder} {ops : List Entry}

variable (h : b.Stowed setsUp front code)

include h

/-- What joins those that wait uses none but them. -/
theorem gain (gains : b.Gains after new) {more code' : List InstrId}
    (assigned : after.Assigned setsUp front code') (late : after.lateSlots = b.lateSlots ++ more)
    (sub : ∀ i ∈ more, i ∈ new) (order : after.graph.InOrder more)
    (own : ∀ j ∈ more, ∀ i, after.graph.Uses j i → i ∈ b.lateSlots ++ more)
    (pending : ∀ i ∈ after.pendingSlots, i ∈ b.pendingSlots ∨ after.graph.Slot i)
    (unplaced : after.prologPlaced = false → front = [] ∧ code' = [] ∧ after.lateSlots = [])
    (placed : after.prologPlaced = true → after.pendingSlots = []) : after.Stowed setsUp front code' := by
  have old : ∀ j ∈ b.lateSlots, ∀ i, after.graph.Uses j i → i ∈ b.lateSlots := fun j hj i uses =>
    h.late_own j hj i (gains.retains.uses (h.late_known hj) uses)
  refine { assigned with
    order := ?_, late_order := ?_, late_own := ?_, pending_slot := fun i hi => ?_, unplaced, placed }
  · exact gains.retains.inOrder (fun i hi => h.setUp_known (mem_append_left _ hi)) h.order
  · rw [late]
    refine pairwise_append.mpr ⟨gains.retains.inOrder (fun _ => h.late_known) h.late_order, order,
      fun j hj i hi uses => ?_⟩
    exact Nat.not_lt.mpr ((gains.mem i).mp (sub i hi)).1 (h.late_known (old j hj i uses))
  · rw [late]
    exact fun j hj i uses => (mem_append.mp hj).elim
      (fun there => mem_append_left _ (old j there i uses)) fun there => own j there i uses
  · refine (pending i hi).elim (fun there => (gains.retains.slot (h.setUp_known ?_)).mpr (h.pending_slot i there)) id
    exact mem_append_right _ (mem_append_left _ there)

/-- What is listed and what waits stays, and instructions change in nothing but addresses. -/
theorem congr (body : after.graph.body after.entry = b.graph.body b.entry)
    (listed : after.graph.listed = b.graph.listed) (retains : b.graph.Retains after.graph)
    (rest : (after.graph.instrs.size, after.pendingSlots, after.lateSlots, after.prologPlaced) =
      (b.graph.instrs.size, b.pendingSlots, b.lateSlots, b.prologPlaced)) : after.Stowed setsUp front code := by
  simp only [Prod.mk.injEq] at rest
  obtain ⟨size, pending, late, placed⟩ := rest
  have gains : b.Gains after [] := .none retains size (by rw [stock, stock, listed, pending, late])
  have assigned : after.Assigned setsUp front code := h.toAssigned.gain gains (body.trans h.body)
    (fun i => by simp [setUp, pending, late]) (fun _ => .inl) (by rintro _ ⟨⟩)
  refine h.gain gains assigned (by rw [late, append_nil]) (fun _ => id) .nil (by rintro _ ⟨⟩) ?_ ?_ ?_
  · exact fun i hi => .inl (pending ▸ hi)
  · rw [placed, late]
    exact h.unplaced
  · rw [placed, pending]
    exact h.placed

/-- The lists of a function with one more slot. -/
theorem lists_withSlot (instr : Instr) :
    (b.withSlot instr).stock.Perm (⟨b.graph.instrs.size⟩ :: b.stock) ∧
      (∀ i, i ∈ (b.withSlot instr).setUp front ↔ i ∈ b.setUp front ∨ i = ⟨b.graph.instrs.size⟩) ∧
      (∃ more, (b.withSlot instr).lateSlots = b.lateSlots ++ more ∧ ∀ i ∈ more, i ∈ [⟨b.graph.instrs.size⟩]) ∧
      (∀ i ∈ (b.withSlot instr).pendingSlots, i ∈ b.pendingSlots ∨ i = ⟨b.graph.instrs.size⟩) ∧
      ((b.withSlot instr).prologPlaced = true → (b.withSlot instr).pendingSlots = []) ∧
      ((b.withSlot instr).prologPlaced = false → (b.withSlot instr).lateSlots = []) ∧
      (b.withSlot instr).prologPlaced = b.prologPlaced ∧ (b.withSlot instr).entry = b.entry := by
  unfold withSlot
  by_cases placed : b.prologPlaced = true
  · rw [if_pos placed]
    refine ⟨?_, fun i => ?_, ⟨_, rfl, fun _ => id⟩, fun _ => .inl, h.placed, fun never => ?_, rfl, rfl⟩
    · simp only [stock, listed_newInstr, ← append_assoc]
      exact perm_append_comm
    · simp only [setUp, mem_append, mem_singleton, or_assoc]
    · exact absurd placed (by rw [show b.prologPlaced = false from never]; exact Bool.false_ne_true)
  · rw [if_neg placed]
    have none := (h.unplaced (Bool.eq_false_iff.mpr placed)).2.2
    refine ⟨?_, fun i => ?_, ⟨[], (append_nil _).symm, by rintro _ ⟨⟩⟩, fun i hi => ?_, fun never =>
      absurd never placed, fun _ => none, rfl, rfl⟩
    · simp only [stock, listed_newInstr, none, append_nil, ← append_assoc]
      exact perm_append_comm
    · simp only [setUp, none, append_nil, mem_append, mem_singleton, or_assoc]
    · exact (mem_append.mp hi).imp id mem_singleton.mp

/-- A slot is made and waits for its place. -/
theorem withSlot {instr : Instr} (slot : instr.op.isAlloca = true) : (b.withSlot instr).Stowed setsUp front code := by
  obtain ⟨stock, setUp, ⟨more, late, sub⟩, pending, placed, unplaced, same, entry⟩ := h.lists_withSlot instr
  have graph := b.graph_withSlot instr
  have gains : b.Gains (b.withSlot instr) [⟨b.graph.instrs.size⟩] :=
    .one (graph ▸ .newInstr _ _) (graph ▸ size_newInstr) stock
  have isNew : ∀ i ∈ [⟨b.graph.instrs.size⟩], (b.withSlot instr).graph.Slot i := fun i hi => by
    cases mem_singleton.mp hi
    exact ⟨instr.op, by simp [graph], slot⟩
  refine h.gain gains (h.toAssigned.gain gains ?_ (fun i => (setUp i).trans (or_congr_right ?_)) (fun _ => .inl) ?_)
    late sub (inOrder_of_slots fun i hi => isNew i (sub i hi))
    (fun j hj i uses => absurd uses (isNew j (sub j hj)).not_uses)
    (fun i hi => (pending i hi).imp id fun eq => isNew i (mem_singleton.mpr eq))
    (fun off => ⟨(h.unplaced (same ▸ off)).1, (h.unplaced (same ▸ off)).2.1, unplaced off⟩) placed
  · rw [graph, entry]
    exact h.body
  · rw [← mem_singleton]
    exact ⟨fun hi => ⟨hi, .inr (isNew i hi)⟩, And.left⟩
  · intro i hi _ op found
    obtain ⟨op', found', isSlot⟩ := isNew i hi
    cases found.symm.trans found'
    cases op <;> first | rfl | cases isSlot

/-- An instruction is made and listed at the end of a block, behind what stands in front. -/
theorem emit (done : b.SetUpDone setsUp) {x : BlockId} {instr : Instr} {g : Graph} (plain : instr.op.isAlloca = false)
    (run : (b.graph.newInstr instr).2.append x ⟨b.graph.instrs.size⟩ = .ok g) :
    ∃ more, ({ b with graph := g } : Builder).Stowed setsUp front (code ++ more) := by
  have size : g.instrs.size = b.graph.instrs.size + 1 := by rw [instrs_of_updateBlock run, size_newInstr]
  have gains : b.Gains { b with graph := g } [⟨b.graph.instrs.size⟩] :=
    .one (.emit run) size ((listed_of_append run).append_right _)
  have isCode : ∀ i ∈ [⟨b.graph.instrs.size⟩], ¬ (setsUp i ∨ g.Slot i) := by
    rintro i hi (sets | ⟨op, found, isSlot⟩)
    · exact done.2 i ((gains.mem i).mp hi).1 sets
    · cases mem_singleton.mp hi
      simp only [op?_of_updateBlock run, op?_newInstr, if_true] at found
      cases found
      exact Bool.false_ne_true (plain.symm.trans isSlot)
  obtain ⟨more, ends, fresh⟩ : ∃ more, g.body b.entry = front ++ (code ++ more) ∧
      ∀ i ∈ more, i ∈ [⟨b.graph.instrs.size⟩] := by
    rw [body_of_append run]
    split
    · next here => exact ⟨_, by rw [← here, body_newInstr, h.body, append_assoc], fun _ => id⟩
    · exact ⟨[], by rw [append_nil, body_newInstr, h.body], by rintro _ ⟨⟩⟩
  refine ⟨more, h.gain gains (h.toAssigned.gain gains ends (fun i => ?_) (fun i hi => ?_) ?_)
    (append_nil _).symm (by rintro _ ⟨⟩) .nil (by rintro _ ⟨⟩) (fun _ => .inl) (fun off => ?_) h.placed⟩
  · exact (or_iff_left fun ⟨hi, sets⟩ => isCode i hi sets).symm
  · exact (mem_append.mp hi).imp id fun there => ⟨fresh i there, isCode i (fresh i there)⟩
  · exact fun i hi sets => absurd sets (isCode i hi)
  · exact absurd done.1 (by rw [show b.prologPlaced = false from off]; exact Bool.false_ne_true)

/-- A change keeps everything in its place. Code can be listed once the prolog has been placed, and goes behind. -/
theorem step (change : b.Step ops after) (ready : ops = [] ∨ b.SetUpDone setsUp) :
    ∃ more, after.Stowed setsUp front (code ++ more) ∧ (ops = [] → more = []) := by
  have retains := change.retains
  cases change with
  | note same =>
    simp only [Builder.code, Prod.mk.injEq] at same
    obtain ⟨graph, entry, pending, late, placed, -⟩ := same
    refine ⟨[], ?_, fun _ => rfl⟩
    rw [append_nil]
    exact h.congr (by rw [graph, entry]) (by rw [graph]) retains (by rw [graph, pending, late, placed])
  | revise revises =>
    refine ⟨[], ?_, fun _ => rfl⟩
    rw [append_nil]
    exact h.congr (revises.body _) revises.listed retains (by rw [revises.size])
  | block _ =>
    refine ⟨[], ?_, fun _ => rfl⟩
    rw [append_nil]
    exact h.congr (body_newBlock _) (listed_newBlock _) retains rfl
  | attach x =>
    refine ⟨[], ?_, fun _ => rfl⟩
    rw [append_nil]
    exact h.congr body_attach listed_attach retains (by rw [instrs_attach])
  | emit _ plain run =>
    obtain ⟨more, stowed⟩ := h.emit (ready.resolve_left (cons_ne_nil _ _)) plain run
    exact ⟨more, stowed, fun none => absurd none (cons_ne_nil _ _)⟩
  | slot isSlot =>
    refine ⟨[], ?_, fun _ => rfl⟩
    rw [append_nil]
    exact h.withSlot isSlot

theorem path (changes : b.Path ops after) (ready : ops = [] ∨ b.SetUpDone setsUp) :
    ∃ more, after.Stowed setsUp front (code ++ more) ∧ (ops = [] → more = []) := by
  induction changes generalizing code with
  | refl => exact ⟨[], by rwa [append_nil], fun _ => rfl⟩
  | cons change rest ih =>
    obtain ⟨first, stowed, none⟩ := h.step change (ready.imp (fun eq => (append_eq_nil_iff.mp eq).1) id)
    have ready' := ready.imp (fun eq => (append_eq_nil_iff.mp eq).2) (SetUpDone.step · change)
    obtain ⟨second, stowed', none'⟩ := ih stowed ready'
    refine ⟨first ++ second, by rwa [← append_assoc], fun eq => ?_⟩
    rw [none (append_eq_nil_iff.mp eq).1, none' (append_eq_nil_iff.mp eq).2]
    rfl

/-- What has waited behind the prolog goes in front of it. -/
theorem placeLate {g : Graph} (run : b.graph.insertFront b.entry b.lateSlots = .ok g) :
    ({ b with graph := g, lateSlots := [] } : Builder).Stowed setsUp (b.lateSlots ++ front) code := by
  have instrs := instrs_of_updateBlock run
  have stock : ({ b with graph := g, lateSlots := [] } : Builder).stock.Perm b.stock := by
    refine ((listed_of_insertFront run).append_right _).trans ?_
    show ((b.lateSlots ++ b.graph.listed) ++ (b.pendingSlots ++ [])).Perm
      (b.graph.listed ++ (b.pendingSlots ++ b.lateSlots))
    rw [append_nil, append_assoc, ← append_assoc b.graph.listed]
    exact perm_append_comm
  have gains : b.Gains { b with graph := g, lateSlots := [] } [] := .none (.of_instrs instrs) (by rw [instrs]) stock
  have assigned : ({ b with graph := g, lateSlots := [] } : Builder).Assigned setsUp (b.lateSlots ++ front) code := by
    refine h.toAssigned.gain gains ?_ (fun i => ?_) (fun _ => .inl) (by rintro _ ⟨⟩)
    · show g.body b.entry = _
      rw [body_of_insertFront run, if_pos rfl, h.body, append_assoc]
    · simp only [setUp, mem_append, not_mem_nil, false_and, or_false]
      rw [or_assoc, or_comm, or_assoc]
  refine { assigned with
    order := ?_
    late_order := .nil
    late_own := by rintro _ ⟨⟩
    pending_slot := fun i hi => (gains.retains.slot (h.setUp_known ?_)).mpr (h.pending_slot i hi)
    unplaced := fun off => ?_
    placed := h.placed }
  · refine pairwise_append.mpr ⟨gains.retains.inOrder (fun _ => h.late_known) h.late_order,
      gains.retains.inOrder (fun i hi => h.setUp_known (mem_append_left _ hi)) h.order, fun j hj i hi uses => ?_⟩
    -- What waits uses nothing that has its place already: otherwise it would be listed and wait as well.
    have waits := h.late_own j hj i (gains.retains.uses (h.late_known hj) uses)
    have listed : i ∈ b.graph.listed := mem_listed.mpr ⟨b.entry, h.body ▸ mem_append_left _ hi⟩
    exact (nodup_append.mp h.once).2.2 i listed i (mem_append_right _ waits) rfl
  · exact mem_append_right _ (mem_append_left _ hi)
  · obtain ⟨rfl, rfl, late⟩ := h.unplaced off
    exact ⟨by rw [late]; rfl, rfl, rfl⟩

end Builder.Stowed

end FlowIR

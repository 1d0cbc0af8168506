import FlowIR.Build.Finish
import FlowIR.Build.Return
import FlowIR.Proofs.Ensures
import FlowIR.Proofs.Graph.Supply

/-!
The invariant of a function under construction, and what keeps it.

`Builder.Sound` puts together that the graph is well formed, that results are there when they are
used, that every stack slot has a place or waits for one, and that the storage of variables is
always available. It holds after every operation, also after one that reports an error. `Builds` is
the judgment for operations that in addition only extend the function; it composes along sequences.
-/

namespace FlowIR

open List

/-! ### Labels -/

namespace LabelTable

def home (t : LabelTable) (l : LabelId) : Option BlockId := (t.get? l).bind (·.block)

def settled (t : LabelTable) (l : LabelId) : Prop := (t.get? l).any (·.defined) = true

theorem get?_update (t : LabelTable) (l k : LabelId) (f : Label → Label) :
    (t.update l f).get? k = if k = l then (t.get? k).map f else t.get? k := by
  simp only [get?, update, Array.getElem?_modify]
  by_cases same : k = l
  · simp [same]
  · have apart : l.index ≠ k.index := fun eq => same (by cases k; cases l; exact congrArg _ eq.symm)
    simp [same, apart]

/-- Changing anything but the block of a label keeps all blocks of labels. -/
theorem home_update {t : LabelTable} {l : LabelId} {f : Label → Label}
    (hf : ∀ x, (f x).block = x.block) : (t.update l f).home = t.home := by
  funext k
  simp only [home, get?_update]
  split
  · cases t.get? k <;> simp [hf]
  · rfl

/-- A label that is there gets a block. -/
theorem home_setHome {t : LabelTable} {l : LabelId} {label : Label} (found : t.get? l = some label) (x : BlockId)
    (k : LabelId) : (t.update l ({ · with block := some x })).home k = if k = l then some x else t.home k := by
  by_cases same : k = l <;> simp [home, get?_update, same, found]

theorem settled_update {t : LabelTable} {l : LabelId} {f : Label → Label}
    (hf : ∀ x, (f x).defined = x.defined) : (t.update l f).settled = t.settled := by
  funext k
  simp only [settled, get?_update]
  split
  · cases t.get? k <;> simp [hf]
  · rfl

theorem home_add (t : LabelTable) (span : Span) : (t.add span).2.home = t.home := by
  funext k
  simp only [home, get?, add, Array.getElem?_push]
  split
  · next new => simp [new]
  · rfl

theorem settled_add (t : LabelTable) (span : Span) : (t.add span).2.settled = t.settled := by
  funext k
  simp only [settled, get?, add, Array.getElem?_push]
  split
  · next new => simp [new]
  · rfl

theorem home_placeholderFor (t : LabelTable) (l : LabelId) : (t.placeholderFor l).2.home = t.home := by
  unfold placeholderFor
  split
  · rfl
  · exact home_update (t := t) fun _ => rfl

theorem settled_placeholderFor (t : LabelTable) (l : LabelId) : (t.placeholderFor l).2.settled = t.settled := by
  unfold placeholderFor
  split
  · rfl
  · exact settled_update (t := t) fun _ => rfl

theorem home_retire (t : LabelTable) (l : LabelId) : (t.retire l).2.home = t.home := by
  unfold retire
  split
  · rfl
  · dsimp only
    split
    · exact home_update (t := t) fun _ => rfl
    · exact home_update (t := t) fun _ => rfl

theorem settled_retire (t : LabelTable) (l : LabelId) : (t.retire l).2.settled = t.settled := by
  unfold retire
  split
  · rfl
  · dsimp only
    split
    · exact settled_update (t := t) fun _ => rfl
    · exact settled_update (t := t) fun _ => rfl

/-- Recording uses does not touch the labels. -/
theorem labels_recordUses (ps : List PlaceholderId) (i : InstrId) (t : LabelTable) :
    (ps.foldl (fun t p => t.recordUse p i) t).labels = t.labels := by
  induction ps generalizing t with
  | nil => rfl
  | cons p ps ih => exact ih (t.recordUse p i)

end LabelTable

/-! ### The invariant -/

namespace Graph

/-- The operand is there wherever the function is. -/
def Stable (g : Graph) (v : Operand) : Prop := ∀ j, v = .result j → g.Slot j

theorem Extends.stable {g after : Graph} (h : g.Extends after) {v : Operand} (hv : g.Stable v) :
    after.Stable v := fun j hj => h.slot (hv j hj)

/-- A label has its place if and only if its block is laid out. -/
structure Housed (home : LabelId → Option BlockId) (settled : LabelId → Prop) (g : Graph) : Prop where
  laid : ∀ l, settled l → ∃ x, home l = some x ∧ x ∈ g.layout
  unlaid : ∀ l x, home l = some x → ¬ settled l → x ∉ g.layout

theorem Housed.grow {g after : Graph} {home : LabelId → Option BlockId} {settled : LabelId → Prop}
    (h : g.Housed home settled) (grows : ∀ x ∈ g.layout, x ∈ after.layout)
    (same : ∀ l x, home l = some x → x ∈ after.layout → x ∈ g.layout) : after.Housed home settled where
  laid := fun l hl => (h.laid l hl).imp fun x ⟨hx, mem⟩ => ⟨hx, grows x mem⟩
  unlaid := fun l x hl unsettled mem => h.unlaid l x hl unsettled (same l x hl mem)

theorem Housed.congr {g after : Graph} {home : LabelId → Option BlockId} {settled : LabelId → Prop}
    (h : g.Housed home settled) (layout : after.layout = g.layout) : after.Housed home settled :=
  h.grow (fun _ mem => layout ▸ mem) fun _ _ _ mem => layout ▸ mem

/-- The instruction is listed, and nothing in front of it uses it. -/
def Ahead (g : Graph) (x : BlockId) (j : InstrId) : Prop :=
  ∃ front, front ++ [j] <+: g.body x ∧ ∀ i ∈ front, ∃ op, g.op? i = some op ∧ .result j ∉ op.operands

theorem Extends.ahead {g after : Graph} (h : g.Extends after) {x : BlockId} {j : InstrId} (ahead : g.Ahead x j) :
    after.Ahead x j := by
  obtain ⟨front, pre, unused⟩ := ahead
  refine ⟨front, pre.trans (h.body x), fun i hi => ?_⟩
  obtain ⟨op, hop, none⟩ := unused i hi
  obtain ⟨op', hop', resolves⟩ := h.op? hop
  exact ⟨op', hop', fun uses => none (resolves.result_mem uses)⟩

/-- Every slot waits for its place, or comes before what uses it in the entry block. What waits to be put in front of
all others is in an order in which it can be executed. -/
structure Stocked (g : Graph) (entry : BlockId) (placed : Bool) (pending late : List InstrId) :
    Prop where
  pending_slot : ∀ i ∈ pending, g.Slot i
  late_plain : ∀ i ∈ late, g.Plain i
  late_order : ∀ k i, late[k]? = some i → ∀ op, g.op? i = some op → ∀ j, .result j ∈ op.operands →
    j ∈ late.take k ∧ g.Kept j
  all : ∀ j, g.Slot j → j ∈ pending ∨ j ∈ late ∨ g.Ahead entry j
  pending_nil : placed = true → pending = []
  late_nil : placed = false → late = []
  body_nil : placed = false → g.body entry = []

/-- New slots have to join those that wait. -/
theorem Stocked.add {g after : Graph} {entry : BlockId} {placed : Bool} {pending late : List InstrId}
    (h : g.Stocked entry placed pending late) (grows : g.Extends after) (soon last : List InstrId)
    (slots : ∀ j, after.Slot j → g.Slot j ∨ j ∈ soon ∨ j ∈ last) (start : placed = false → after.body entry = [])
    (soon_slot : ∀ i ∈ soon, after.Slot i) (soon_nil : placed = true → soon = [])
    (last_nil : placed = false → last = [])
    (last_plain : ∀ i ∈ last, after.Plain i) (last_order : ∀ k i, last[k]? = some i → ∀ op, after.op? i = some op →
      ∀ j, .result j ∈ op.operands → j ∈ late ++ last.take k ∧ after.Kept j) :
    after.Stocked entry placed (pending ++ soon) (late ++ last) where
  pending_slot := fun i hi => (mem_append.mp hi).elim
    (fun old => grows.slot (h.pending_slot i old)) (soon_slot i)
  late_plain := fun i hi => by
    rcases mem_append.mp hi with old | new
    · obtain ⟨op, hop, hterm, inner⟩ := h.late_plain i old
      obtain ⟨op', hop', resolves⟩ := grows.op? hop
      exact ⟨op', hop', resolves.isTerminator ▸ hterm, resolves.isLandingPad ▸ inner⟩
    · exact last_plain i new
  late_order := fun k i hi op' hop' j hj => by
    by_cases old : k < late.length
    · rw [getElem?_append_left old] at hi
      obtain ⟨op, hop, -⟩ := h.late_plain i (mem_of_getElem? hi)
      obtain ⟨op'', hop'', resolves⟩ := grows.op? hop
      cases hop''.symm.trans hop'
      obtain ⟨mem, kept⟩ := h.late_order k i hi op hop j (resolves.result_mem hj)
      exact ⟨by rwa [take_append_of_le_length (Nat.le_of_lt old)], grows.kept kept⟩
    · have behind : late.length ≤ k := Nat.le_of_not_lt old
      rw [getElem?_append_right behind] at hi
      rw [take_append, take_of_length_le behind]
      exact last_order (k - late.length) i hi op' hop' j hj
  all := fun j hj => by
    rw [mem_append, mem_append]
    rcases slots j hj with old | soon | last
    · rcases h.all j old with waits | waits | ahead
      · exact .inl (.inl waits)
      · exact .inr (.inl (.inl waits))
      · exact .inr (.inr (grows.ahead ahead))
    · exact .inl (.inr soon)
    · exact .inr (.inl (.inr last))
  pending_nil := fun hp => by rw [h.pending_nil hp, soon_nil hp, append_nil]
  late_nil := fun hp => by rw [h.late_nil hp, last_nil hp, append_nil]
  body_nil := start

/-- Growing keeps slots where they are, as long as no slot is made. -/
theorem Stocked.grow {g after : Graph} {entry : BlockId} {placed : Bool} {pending late : List InstrId}
    (h : g.Stocked entry placed pending late) (grows : g.Extends after) (same : ∀ j, after.Slot j → g.Slot j)
    (start : placed = false → after.body entry = []) : after.Stocked entry placed pending late := by
  have grown := h.add grows [] [] (fun j hj => .inl (same j hj)) start
    (by rintro _ ⟨⟩) (fun _ => rfl) (fun _ => rfl)
    (by rintro _ ⟨⟩) (fun k i hi => by simp at hi)
  rwa [append_nil, append_nil] at grown

/-- The slots that wait for the prolog get their place at the front of it. -/
theorem Stocked.place {g after : Graph} {entry : BlockId} {pending late is : List InstrId}
    (h : g.Stocked entry false pending late)
    (run : g.insertFront entry (pending ++ is) = .ok after) : after.Stocked entry true [] late := by
  have ops := op?_of_updateBlock run
  have slots : ∀ j, after.Slot j ↔ g.Slot j := fun j => by simp only [Slot, ops]
  have body : after.body entry = pending ++ is := by
    rw [body_of_insertFront run, if_pos rfl, h.body_nil rfl, append_nil]
  exact
    { pending_slot := by rintro _ ⟨⟩
      late_plain := fun i hi => by unfold Plain; rw [ops]; exact h.late_plain i hi
      late_order := fun k i hi op hop j hj => by
        obtain ⟨mem, op', hop', yields⟩ := h.late_order k i hi op (ops i ▸ hop) j hj
        exact ⟨mem, op', ops j ▸ hop', yields⟩
      all := fun j hj => by
        rcases h.all j ((slots j).mp hj) with waits | waits | ⟨front, pre, -⟩
        · obtain ⟨front, rest, rfl⟩ := append_of_mem waits
          refine .inr (.inr ⟨front, body ▸ ⟨rest ++ is, by simp⟩, fun i hi => ?_⟩)
          obtain ⟨op, hop, isSlot⟩ := (slots i).mpr (h.pending_slot i (mem_append_left _ hi))
          exact ⟨op, hop, by simp [Op.operands_eq_nil_of_isAlloca isSlot]⟩
        · exact .inr (.inl waits)
        · rw [h.body_nil rfl] at pre
          simp at pre
      pending_nil := fun _ => rfl
      late_nil := fun eq => absurd eq.symm Bool.false_ne_true
      body_nil := fun eq => absurd eq.symm Bool.false_ne_true }

/-- What has waited behind the prolog gets its place in front of it. -/
theorem Stocked.placeLate {g after : Graph} {entry : BlockId} {placed : Bool} {pending late : List InstrId}
    (h : g.Stocked entry placed pending late) (run : g.insertFront entry late = .ok after) :
    after.Stocked entry placed pending [] := by
  have ops := op?_of_updateBlock run
  have body : after.body entry = late ++ g.body entry := by rw [body_of_insertFront run, if_pos rfl]
  have waits : ∀ k i, late[k]? = some i → ∀ j, j ∉ late.take k → ∃ op, after.op? i = some op ∧
      .result j ∉ op.operands := fun k i hi j hj => by
    obtain ⟨op, hop, -⟩ := h.late_plain i (List.mem_of_getElem? hi)
    exact ⟨op, ops i ▸ hop, fun uses => hj (h.late_order k i hi op hop j uses).1⟩
  refine ⟨fun i hi => ?_, by rintro _ ⟨⟩, fun k i hi => by simp at hi, fun j hj => ?_, h.pending_nil, fun _ => rfl,
    fun unplaced => ?_⟩
  · unfold Slot
    rw [ops]
    exact h.pending_slot i hi
  · unfold Slot at hj
    rw [ops] at hj
    by_cases mem : j ∈ late
    · obtain ⟨front, rest, rfl, first⟩ := List.eq_append_cons_of_mem mem
      refine .inr (.inr ⟨front, ⟨rest ++ g.body entry, by rw [body]; simp⟩, fun i hi => ?_⟩)
      obtain ⟨k, hk⟩ := List.mem_iff_getElem?.mp hi
      obtain ⟨below, -⟩ := List.getElem?_eq_some_iff.mp hk
      refine waits k i ((List.getElem?_append_left below).trans hk) j fun early => first ?_
      rw [List.take_append_of_le_length (Nat.le_of_lt below)] at early
      exact List.mem_of_mem_take early
    · refine (h.all j hj).imp_right fun placed => .inr ?_
      obtain ⟨front, ⟨rest, eq⟩, unused⟩ := placed.resolve_left mem
      refine ⟨late ++ front, ⟨rest, by rw [body, ← eq]; simp⟩, fun i hi => ?_⟩
      rcases List.mem_append.mp hi with early | old
      · obtain ⟨k, hk⟩ := List.mem_iff_getElem?.mp early
        exact waits k i hk j fun before => mem (List.mem_of_mem_take before)
      · exact ops i ▸ unused i old
  · rw [body, h.late_nil unplaced, h.body_nil unplaced]
    rfl

end Graph

/-- The storage that code may refer to wherever it stands. -/
def Builder.roots (b : Builder) : List Operand := b.vars.toList.map (·.slot) ++ b.paramSlots ++ b.returnSlot.toList

/-- The invariant of the graph of a function under construction. -/
structure Builder.Wired (owed : BlockId → Prop) (su : Supply) (b : Builder) : Prop where
  formed : b.graph.Formed owed b.labels.home b.entry
  supplied : b.graph.Supplied su b.labels.home b.entry
  stocked : b.graph.Stocked b.entry b.prologPlaced b.pendingSlots b.lateSlots
  rooted : ∀ v ∈ b.roots, b.graph.Stable v

structure Builder.Sound (owed : BlockId → Prop) (su : Supply) (b : Builder) : Prop
    extends Builder.Wired owed su b where
  housed : b.graph.Housed b.labels.home b.labels.settled

/-- The second function has come from the first by emitting code. -/
structure Builder.Extends (b after : Builder) : Prop where
  graph : b.graph.Extends after.graph
  entry : after.entry = b.entry
  late : b.lateSlots <+: after.lateSlots
  returnSlot : ∀ v, b.returnSlot = some v → after.returnSlot = some v
  placed : after.prologPlaced = b.prologPlaced
  signature : after.signature = b.signature
  convention : after.convention = b.convention
  options : after.options = b.options
  vars : ∀ v x, b.var? v = some x → ∃ x', after.var? v = some x' ∧ x'.slot = x.slot ∧ x'.ty = x.ty

namespace Builder.Extends

variable {b mid after : Builder}

theorem refl (b : Builder) : b.Extends b :=
  ⟨.refl _, rfl, prefix_rfl, fun _ h => h, rfl, rfl, rfl, rfl, fun _ x h => ⟨x, h, rfl, rfl⟩⟩

theorem trans (h : b.Extends mid) (k : mid.Extends after) : b.Extends after where
  graph := h.graph.trans k.graph
  entry := k.entry.trans h.entry
  late := h.late.trans k.late
  returnSlot := fun v hv => k.returnSlot v (h.returnSlot v hv)
  placed := k.placed.trans h.placed
  signature := k.signature.trans h.signature
  convention := k.convention.trans h.convention
  options := k.options.trans h.options
  vars := fun v x hx => by
    obtain ⟨x', hx', slot, ty⟩ := h.vars v x hx
    obtain ⟨x'', hx'', slot', ty'⟩ := k.vars v x' hx'
    exact ⟨x'', hx'', slot'.trans slot, ty'.trans ty⟩

/-- Where only the graph and what is not mentioned changes, only the graph has to grow. -/
theorem of_graph (graph : b.graph.Extends after.graph)
    (rest : (after.entry, after.lateSlots, after.returnSlot, after.prologPlaced, after.signature,
        after.convention, after.options, after.vars) =
      (b.entry, b.lateSlots, b.returnSlot, b.prologPlaced, b.signature, b.convention, b.options, b.vars)) :
    b.Extends after := by
  simp only [Prod.mk.injEq] at rest
  obtain ⟨entry, late, returnSlot, placed, signature, convention, options, vars⟩ := rest
  exact ⟨graph, entry, late ▸ prefix_rfl, fun v hv => returnSlot ▸ hv, placed,
    signature, convention, options, fun v x hx => ⟨x, by rw [Builder.var?, vars]; exact hx, rfl, rfl⟩⟩

theorem updateVar (b : Builder) (v : VarId) {f : Variable → Variable} (slot : ∀ x, (f x).slot = x.slot)
    (ty : ∀ x, (f x).ty = x.ty) : b.Extends { b with vars := b.vars.modify v.index f } :=
  { refl b with
    vars := fun u x found => by
      have there : b.vars[u.index]? = some x := found
      show ∃ x', (b.vars.modify v.index f)[u.index]? = some x' ∧ x'.slot = x.slot ∧ x'.ty = x.ty
      rw [Array.getElem?_modify, there]
      by_cases same : v.index = u.index
      · exact ⟨f x, by simp [same], slot x, ty x⟩
      · exact ⟨x, by simp [same], rfl, rfl⟩ }

end Builder.Extends

/-! ### The judgment -/

/-- The computation did not stop because a finished graph was refused. -/
def Halt.NotVerify : Halt BuildError → Prop
  | .error e => ∀ v, e.cause ≠ .verify v
  | .fault _ => True

/-- The operation extends the function and keeps an invariant; the invariant holds after an error as
well. -/
def Preserves {α : Type} (I : Builder → Prop) (x : BuildM α) (b : Builder) (Q : α → Builder → Prop) :
    Prop :=
  Ensures x b (fun a after => b.Extends after ∧ I after ∧ Q a after)
    (fun e after => e.NotVerify ∧ I after)

/-- The operation extends the function and keeps it sound. -/
abbrev Builds {α : Type} (owed : BlockId → Prop) (su : Supply) (x : BuildM α) (b : Builder)
    (Q : α → Builder → Prop) : Prop :=
  Preserves (Builder.Sound owed su) x b Q

section Preserves

variable {α β : Type} {I : Builder → Prop} {b : Builder} {Q : α → Builder → Prop} {x : BuildM α}
  {f : Graph → Checked Graph}

theorem Preserves.pure {a : α} (h : I b) (q : Q a b) : Preserves I (pure a) b Q :=
  ⟨.refl b, h, q⟩

theorem Preserves.mono {R : α → Builder → Prop} (h : Preserves I x b Q)
    (hq : ∀ a after, b.Extends after → I after → Q a after → R a after) : Preserves I x b R :=
  Ensures.imp h fun a after ⟨grows, sound, q⟩ => ⟨grows, sound, hq a after grows sound q⟩

/-- What is kept may say more than an invariant that follows from it. -/
theorem Preserves.keep {J : Builder → Prop} (h : Preserves J x b Q) (weaker : ∀ after, J after → I after) :
    Preserves I x b fun a after => J after ∧ Q a after :=
  Ensures.mono h (fun _ after ⟨grows, j, q⟩ => ⟨grows, weaker after j, j, q⟩)
    fun _ after ⟨he, j⟩ => ⟨he, weaker after j⟩

theorem Preserves.bind {R : β → Builder → Prop} {f : α → BuildM β} (first : Preserves I x b Q)
    (second : ∀ a mid, b.Extends mid → I mid → Q a mid → Preserves I (f a) mid R) : Preserves I (x >>= f) b R :=
  Ensures.bind first fun a mid ⟨grows, sound, q⟩ =>
    Ensures.imp (second a mid grows sound q)
      fun _ _ ⟨grows', sound', r⟩ => ⟨grows.trans grows', sound', r⟩

theorem Preserves.fail {span : Span} {cause : Cause} (h : I b) (hc : ∀ v, cause ≠ .verify v) :
    Preserves I (Build.fail span cause) b Q :=
  ⟨hc, h⟩

theorem Preserves.get {f : Builder → BuildM α} (h : Preserves I (f b) b Q) :
    Preserves I (get >>= f) b Q := h

theorem Preserves.change {f : Builder → Builder} {Q : PUnit → Builder → Prop}
    (grows : b.Extends (f b)) (sound : I (f b)) (q : Q ⟨⟩ (f b)) : Preserves I (modify f) b Q :=
  ⟨grows, sound, q⟩

/-- Between two changes the invariant need not hold. -/
theorem Preserves.through {f g : Builder → Builder} {k : BuildM α}
    (grows : b.Extends (g (f b))) (rest : Preserves I k (g (f b)) Q) : Preserves I (do modify f; modify g; k) b Q :=
  Ensures.imp rest fun _ _ ⟨grows', sound, q⟩ => ⟨grows.trans grows', sound, q⟩

/-- A checked operation has its result, or faults where it stands. -/
theorem Preserves.checked {x : Checked α} (h : I b) (q : ∀ a, x = .ok a → Q a b) :
    Preserves I (liftM x : BuildM α) b Q :=
  ensures_checked.mpr ⟨fun a ha => ⟨.refl b, h, q a ha⟩, fun _ _ => ⟨trivial, h⟩⟩

/-- An operation that happens or not, and what follows it. -/
theorem Preserves.when {c : Prop} [Decidable c] {P : Builder → Prop} {x : BuildM Unit}
    {f : Unit → BuildM α} (h : I b) (none : P b) (first : c → Preserves I x b fun _ after => P after)
    (second : ∀ mid, b.Extends mid → I mid → P mid → Preserves I (f ()) mid Q) :
    Preserves I (if c then x >>= f else f ()) b Q := by
  split
  · next yes => exact (first yes).bind fun _ mid grows sound p => second mid grows sound p
  · exact second b (.refl b) h none

/-- An operation on every element of a list keeps what each of them keeps. -/
theorem Preserves.forM {γ : Type} {P : Builder → Prop} {f : γ → BuildM PUnit}
    (step : ∀ a mid, I mid → P mid → Preserves I (f a) mid fun _ after => P after) :
    ∀ (l : List γ) (b : Builder), I b → P b →
      Preserves I (l.forM f) b fun _ after => P after
  | [], _, h, p => .pure h p
  | a :: rest, b, h, p =>
    (step a b h p).bind fun _ mid _ sound p => Preserves.forM step rest mid sound p

/-- A change of the graph happens, or it faults and nothing happens. -/
theorem ensures_onGraph {Q : Unit → Builder → Prop} {E : Halt BuildError → Builder → Prop} :
    Ensures (Build.onGraph f) b Q E ↔
      (∀ g, f b.graph = .ok g → Q () { b with graph := g }) ∧
        ∀ e, f b.graph = .error e → E (.fault e) b := by
  unfold Build.onGraph
  rw [ensures_bind, ensures_get, ensures_bind, ensures_checked]
  rfl

theorem Preserves.onGraph {Q : Unit → Builder → Prop} (h : I b)
    (q : ∀ g, f b.graph = .ok g → b.graph.Extends g ∧ I { b with graph := g } ∧
      Q () { b with graph := g }) : Preserves I (Build.onGraph f) b Q :=
  ensures_onGraph.mpr ⟨fun g hg => ⟨.of_graph (q g hg).1 rfl, (q g hg).2⟩, fun _ _ => ⟨trivial, h⟩⟩

end Preserves

/-- A change of the graph that can be made. -/
theorem Build.onGraph_eq {b : Builder} {f : Graph → Checked Graph} {g : Graph} (run : f b.graph = .ok g) :
    onGraph f b = .ok () { b with graph := g } := by
  unfold onGraph
  rw [get_bind_apply]
  simp only [bind, EStateM.bind, liftM, monadLift, MonadLift.monadLift, run]
  rfl

theorem Ensures.of_onGraph {b : Builder} {f : Graph → Checked Graph} {g : Graph}
    {Q : Unit → Builder → Prop} {E : Halt BuildError → Builder → Prop} (run : f b.graph = .ok g)
    (q : Q () { b with graph := g }) : Ensures (Build.onGraph f) b Q E :=
  .of_run (Build.onGraph_eq run) q

end FlowIR

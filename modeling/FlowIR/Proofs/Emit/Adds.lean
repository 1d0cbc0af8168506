import FlowIR.Machine.Arith
import FlowIR.Proofs.Build.Settle
import FlowIR.Proofs.Emit.Sound

/-!
Emitting code never fails for want of a place, and changes nothing but its own place.

`Cursor.Able` says that the cursor stands in a block that exists, so that code can be added. `Cursor.Adds`
says what code without labels changes: it adds to the current block and makes new ones, and every other
block, every instruction and every label is as before. A block that a construct has made stays empty
until the construct starts it (`Cursor.Waits`). The spec of each operation says that it succeeds.
-/

namespace FlowIR

open FlowIR.Graph Emit List

/-- The second list has come from the first by noting that returns pass through the innermost
cleanup. -/
def Cleanup.Noted : List Cleanup → List Cleanup → Prop
  | [], after => after = []
  | k :: ks, after => ∃ returns, (k.returns = true → returns = true) ∧ after = { k with returns } :: ks

theorem Cleanup.Noted.refl : ∀ ks : List Cleanup, Noted ks ks
  | [] => rfl
  | k :: _ => ⟨k.returns, id, rfl⟩

theorem Cleanup.Noted.trans {ks mid after : List Cleanup} (h : Noted ks mid) (l : Noted mid after) :
    Noted ks after := by
  cases ks with
  | nil =>
    cases (show mid = [] from h)
    exact l
  | cons k ks =>
    obtain ⟨returns, kept, rfl⟩ := h
    obtain ⟨returns', kept', rfl⟩ := l
    exact ⟨returns', fun r => kept' (kept r), rfl⟩

/-- The instruction exists and ends no block or ends it. -/
theorem Graph.ends_iff_of_last {g : Graph} {x : BlockId} {i : InstrId} {op : Op}
    (last : (g.body x).getLast? = some i) (hop : g.op? i = some op) : g.Ends x ↔ op.isTerminator = true := by
  constructor
  · rintro ⟨j, op', last', hop', hterm⟩
    cases last.symm.trans last'
    cases hop.symm.trans hop'
    exact hterm
  · exact fun hterm => ⟨i, op, last, hop, hterm⟩

theorem Graph.not_ends_of_empty {g : Graph} {x : BlockId} (empty : g.body x = []) : ¬ g.Ends x := by
  rintro ⟨i, op, last, -⟩
  rw [empty] at last
  cases last

/-- The instruction makes a slot that is not too large. -/
def Graph.FitSlot (g : Graph) (i : InstrId) : Prop :=
  ∃ shape n, g.op? i = some (.alloca shape) ∧ Machine.sizeOf shape = .ok n

theorem Graph.Extends.alloca {g after : Graph} (h : g.Extends after) {i : InstrId} {shape : Shape}
    (hop : g.op? i = some (.alloca shape)) : after.op? i = some (.alloca shape) := by
  obtain ⟨op, hop', resolves⟩ := h.op? hop
  rw [hop', resolves.eq_of_no_placeholder (by rintro _ ⟨⟩)]

/-- The slots that have been made wait to be put in front of everything else, and none is too large. -/
def Builder.Stocks (b after : Builder) : Prop :=
  b.Stores after ∧ ∀ i, after.graph.Slot i → b.graph.Slot i ∨ after.graph.FitSlot i

namespace Builder.Stocks

variable {b mid after : Builder}

theorem stores (h : b.Stocks after) : b.Stores after := h.1

theorem fits (h : b.Stocks after) {i : InstrId} (slot : after.graph.Slot i) :
    b.graph.Slot i ∨ after.graph.FitSlot i :=
  h.2 i slot

/-- No slot has been made. -/
theorem of_same (late : after.lateSlots = b.lateSlots) (slots : ∀ i, after.graph.Slot i → b.graph.Slot i) :
    b.Stocks after :=
  ⟨.of_same late slots, fun i hi => .inl (slots i hi)⟩

theorem refl (b : Builder) : b.Stocks b := of_same rfl fun _ h => h

theorem trans (h : b.Stocks mid) (k : mid.Stocks after) (grows : mid.graph.Extends after.graph)
    (le : b.graph.instrs.size ≤ mid.graph.instrs.size) : b.Stocks after := by
  refine ⟨h.stores.trans k.stores (fun _ slot => grows.slot slot) le, fun i hi => ?_⟩
  rcases k.fits hi with old | new
  · rcases h.fits old with first | ⟨shape, n, hop, sized⟩
    · exact .inl first
    · exact .inr ⟨shape, n, grows.alloca hop, sized⟩
  · exact .inr new

end Builder.Stocks

namespace Cursor

def Open (c : Cursor) : Prop := ¬ c.graph.Ends c.current

structure Able (c : Cursor) : Prop where
  placed : c.builder.prologPlaced = true
  entry : c.builder.entry.index < c.graph.blocks.size
  current : c.current.index < c.graph.blocks.size
  listed : ∀ {x i}, i ∈ c.graph.body x → i.index < c.graph.instrs.size
  late : ∀ i ∈ c.builder.lateSlots, c.graph.Slot i
  pads : ∀ x ∈ c.pads, x.index < c.graph.blocks.size
  cleanups : ∀ k ∈ c.cleanups, k.block.index < c.graph.blocks.size ∧
    ∃ i, k.flag = .result i ∧ c.graph.op? i = some (.alloca .i8)

/-- The result slot, if there is one, is a slot for a result. -/
def Kept (c : Cursor) : Prop :=
  ∀ v, c.builder.returnSlot = some v →
    ∃ i, v = .result i ∧ c.graph.op? i = some (.alloca c.builder.signature.result.shape)

/-- The second cursor has come from the first by adding code that defines no label and uses no
placeholder. -/
structure Adds (c after : Cursor) : Prop where
  builder : c.builder.Extends after.builder
  instr : ∀ (i : Nat) (instr : Instr), c.graph.instrs[i]? = some instr →
    after.graph.instrs[i]? = some instr
  whole : ∀ (i : Nat) (instr : Instr), c.graph.instrs.size ≤ i → after.graph.instrs[i]? = some instr →
    instr.op.Whole
  labels : after.builder.labels = c.builder.labels
  errorSeen : after.builder.errorSeen = c.builder.errorSeen
  pads : after.pads = c.pads
  exits : after.exits = c.exits
  cleanups : Cleanup.Noted c.cleanups after.cleanups
  elsewhere : ∀ x : BlockId, x.index < c.graph.blocks.size → x ≠ c.current →
    after.graph.body x = c.graph.body x
  here : after.current = c.current ∨ c.graph.blocks.size ≤ after.current.index
  stocks : c.builder.Stocks after.builder
  kept : c.Kept → after.Kept
  returnSlot : ∀ v, after.builder.returnSlot = some v → c.builder.returnSlot = some v ∨
    ∃ i, v = .result i ∧ c.graph.instrs.size ≤ i.index

namespace Adds

variable {c mid after : Cursor} {x : BlockId} {i : InstrId}

theorem refl (c : Cursor) : c.Adds c where
  builder := .refl _
  instr := fun _ _ h => h
  whole := fun _ _ new h => absurd (Array.getElem?_eq_some_iff.mp h).1 (Nat.not_lt.mpr new)
  labels := rfl
  errorSeen := rfl
  pads := rfl
  exits := rfl
  cleanups := .refl _
  elsewhere := fun _ _ _ => rfl
  here := .inl rfl
  stocks := .refl _
  kept := id
  returnSlot := fun _ => .inl

section

variable (h : c.Adds after)

include h

theorem instrs_le : c.graph.instrs.size ≤ after.graph.instrs.size := by
  refine Nat.le_of_not_lt fun fewer => ?_
  have last := h.instr after.graph.instrs.size c.graph.instrs[after.graph.instrs.size] (by simp [fewer])
  exact Nat.lt_irrefl _ (Array.getElem?_eq_some_iff.mp last).1

theorem blocks_le : c.graph.blocks.size ≤ after.graph.blocks.size := h.builder.graph.size

theorem ne_current (old : x.index < c.graph.blocks.size) (ne : x ≠ c.current) : x ≠ after.current := by
  rintro rfl
  rcases h.here with same | new
  · exact ne same
  · omega

theorem op? {op : Op} (hop : c.graph.op? i = some op) : after.graph.op? i = some op := by
  obtain ⟨instr, found, rfl⟩ := Option.map_eq_some_iff.mp hop
  rw [Graph.op?, h.instr i.index instr found]
  rfl

end

theorem trans (h : c.Adds mid) (k : mid.Adds after) : c.Adds after where
  builder := h.builder.trans k.builder
  instr := fun i instr found => k.instr i instr (h.instr i instr found)
  whole := fun i instr new found => by
    by_cases old : i < mid.graph.instrs.size
    · have there : mid.graph.instrs[i]? = some mid.graph.instrs[i] := by simp [old]
      cases found.symm.trans (k.instr i _ there)
      exact h.whole i _ new there
    · exact k.whole i instr (Nat.le_of_not_lt old) found
  labels := k.labels.trans h.labels
  errorSeen := k.errorSeen.trans h.errorSeen
  pads := k.pads.trans h.pads
  exits := k.exits.trans h.exits
  cleanups := h.cleanups.trans k.cleanups
  elsewhere := fun x old ne =>
    (k.elsewhere x (Nat.lt_of_lt_of_le old h.blocks_le) (h.ne_current old ne)).trans
      (h.elsewhere x old ne)
  here := by
    rcases k.here with same | new
    · rw [same]
      exact h.here
    · exact .inr (Nat.le_trans h.blocks_le new)
  stocks := h.stocks.trans k.stocks k.builder.graph h.instrs_le
  kept := fun kept => k.kept (h.kept kept)
  returnSlot := fun v hv => by
    rcases k.returnSlot v hv with old | ⟨i, eq, new⟩
    · exact h.returnSlot v old
    · exact .inr ⟨i, eq, Nat.le_trans h.instrs_le new⟩

end Adds

/-- The block has been made, and nothing has been added to it. -/
structure Waits (c : Cursor) (x : BlockId) : Prop where
  made : x.index < c.graph.blocks.size
  empty : c.graph.body x = []
  apart : x ≠ c.current
  inner : x ≠ c.builder.entry

theorem Waits.adds {c after : Cursor} {x : BlockId} (h : c.Waits x) (k : c.Adds after) : after.Waits x where
  made := Nat.lt_of_lt_of_le h.made k.blocks_le
  empty := (k.elsewhere x h.made h.apart).trans h.empty
  apart := k.ne_current h.made h.apart
  inner := k.builder.entry ▸ h.inner

structure Starts (c : Cursor) (x : BlockId) : Prop where
  current : c.current = x
  empty : c.graph.body x = []
  inner : x ≠ c.builder.entry

theorem Starts.open {c : Cursor} {x : BlockId} (h : c.Starts x) : c.Open := by
  unfold Open
  rw [h.current]
  exact not_ends_of_empty h.empty

end Cursor

/-! ### Names and blocks -/

section Blocks

variable {c : Cursor} {x : BlockId} {after : Cursor}

structure Cursor.Renamed (c after : Cursor) : Prop where
  same : ∃ names, after = { c with builder := { c.builder with names } }

theorem Cursor.Renamed.adds (h : c.Renamed after) : c.Adds after := by
  obtain ⟨names, rfl⟩ := h.same
  exact { Cursor.Adds.refl c with builder := .of_graph (.refl _) rfl }

theorem Cursor.Renamed.able (h : c.Renamed after) (able : c.Able) : after.Able := by
  obtain ⟨names, rfl⟩ := h.same
  exact ⟨able.placed, able.entry, able.current, able.listed, able.late, able.pads, able.cleanups⟩

theorem fresh_succeeds (c : Cursor) (tag : String) :
    Succeeds (liftM (Build.fresh tag) : EmitM String) c fun _ after => c.Renamed after :=
  ensures_lift.mpr ⟨_, rfl⟩

structure Cursor.Makes (c : Cursor) (x : BlockId) (after : Cursor) : Prop where
  able : after.Able
  adds : c.Adds after
  index : x.index = c.graph.blocks.size
  current : after.current = c.current
  body : ∀ y, after.graph.body y = c.graph.body y
  instrs : after.graph.instrs = c.graph.instrs
  cleanups : after.cleanups = c.cleanups
  waits : after.Waits x

theorem Cursor.Makes.open_iff (h : c.Makes x after) : after.Open ↔ c.Open := by
  unfold Cursor.Open Graph.Ends op?
  rw [h.current, h.body, h.instrs]

/-- A new block waits until it is started. -/
theorem newBlock_succeeds (able : c.Able) (tag : String) :
    Succeeds (liftM (Build.newBlock tag) : EmitM BlockId) c fun x after => c.Makes x after := by
  refine ensures_lift.mpr ?_
  show Ensures (Build.fresh tag >>= fun name => modifyGet fun b =>
    ((b.graph.newBlock name).1, { b with graph := (b.graph.newBlock name).2 })) c.builder _ _
  refine ensures_bind.mpr ?_
  have empty : c.graph.body ⟨c.graph.blocks.size⟩ = [] := by simp [body]
  have apart : (⟨c.graph.blocks.size⟩ : BlockId) ≠ c.current := fun eq =>
    Nat.lt_irrefl _ (eq ▸ able.current)
  have inner : (⟨c.graph.blocks.size⟩ : BlockId) ≠ c.builder.entry := fun eq =>
    Nat.lt_irrefl _ (eq ▸ able.entry)
  refine
    { able := ?_
      adds := ?_
      index := rfl
      current := rfl
      body := fun _ => body_newBlock _
      instrs := rfl
      cleanups := rfl
      waits := ⟨?_, (body_newBlock _).trans empty, apart, inner⟩ }
  · refine ⟨able.placed, ?_, ?_, fun {x i} hi => ?_, able.late, fun x hx => ?_, fun k hk => ?_⟩
    · exact (size_newBlock (g := c.graph) _).symm ▸ Nat.lt_succ_of_lt able.entry
    · exact (size_newBlock (g := c.graph) _).symm ▸ Nat.lt_succ_of_lt able.current
    · exact able.listed (x := x) ((body_newBlock (g := c.graph) _) ▸ hi)
    · exact (size_newBlock (g := c.graph) _).symm ▸ Nat.lt_succ_of_lt (able.pads x hx)
    · obtain ⟨there, flag⟩ := able.cleanups k hk
      exact ⟨(size_newBlock (g := c.graph) _).symm ▸ Nat.lt_succ_of_lt there, flag⟩
  · exact
      { Cursor.Adds.refl c with
        builder := .of_graph (.newBlock _ _) rfl
        elsewhere := fun _ _ _ => body_newBlock _ }
  · exact (size_newBlock (g := c.graph) _).symm ▸ Nat.lt_succ_self _

structure Cursor.Enters (c : Cursor) (x : BlockId) (after : Cursor) : Prop where
  able : after.Able
  starts : after.Starts x
  size : after.graph.blocks.size = c.graph.blocks.size
  instrs : after.graph.instrs = c.graph.instrs
  cleanups : after.cleanups = c.cleanups
  builder : c.builder.Extends after.builder
  waits : ∀ y, c.Waits y → y ≠ x → after.Waits y
  /-- Code that has been added to what it started from has been added still. -/
  adds : ∀ base : Cursor, base.Adds c → base.graph.blocks.size ≤ x.index → base.Adds after
  same : after = { c with builder := { c.builder with graph := c.graph.attach x }, current := x }

/-- A block that waits can be started. -/
theorem startBlock_succeeds (able : c.Able) (waits : c.Waits x) :
    Succeeds (startBlock x) c fun _ after => c.Enters x after := by
  have grows : c.builder.Extends { c.builder with graph := c.graph.attach x } :=
    .of_graph (.attach _ x) rfl
  have run : startBlock x c =
      .ok ⟨⟩ { c with builder := { c.builder with graph := c.graph.attach x }, current := x } := rfl
  refine .of_run run ?_
  have blocks : (c.graph.attach x).blocks = c.graph.blocks := blocks_attach
  have instrs : (c.graph.attach x).instrs = c.graph.instrs := instrs_attach
  refine
    { able := ⟨able.placed, ?_, ?_, fun {y i} hi => ?_, fun i hi => ?_, fun y hy => ?_, fun k hk => ?_⟩
      starts := ⟨rfl, body_attach.trans waits.empty, waits.inner⟩
      size := congrArg Array.size blocks
      instrs := instrs
      cleanups := rfl
      builder := grows
      waits := fun y hy ne => ⟨?_, body_attach.trans hy.empty, ne, hy.inner⟩
      adds := fun base h new => ?_
      same := rfl }
  · exact (congrArg Array.size blocks).symm ▸ able.entry
  · exact (congrArg Array.size blocks).symm ▸ waits.made
  · exact (congrArg Array.size instrs).symm ▸ able.listed (x := y) (body_attach (g := c.graph) ▸ hi)
  · exact grows.graph.slot (able.late i hi)
  · exact (congrArg Array.size blocks).symm ▸ able.pads y hy
  · obtain ⟨there, i, flag, hop⟩ := able.cleanups k hk
    exact ⟨(congrArg Array.size blocks).symm ▸ there, i, flag, op?_attach.trans hop⟩
  · exact (congrArg Array.size blocks).symm ▸ hy.made
  · exact
      { h with
        builder := h.builder.trans grows
        instr := fun i instr found => by
          show (c.graph.attach x).instrs[i]? = _
          rw [instrs]
          exact h.instr i instr found
        whole := fun i instr fresh found => by
          refine h.whole i instr fresh ?_
          show c.graph.instrs[i]? = _
          rw [← instrs]
          exact found
        kept := fun kept v hv => by
          obtain ⟨i, eq, hop⟩ := h.kept kept v hv
          exact ⟨i, eq, op?_attach.trans hop⟩
        elsewhere := fun y old ne => body_attach.trans (h.elsewhere y old ne)
        here := .inr new
        stocks := h.stocks.trans (.of_same rfl fun i ⟨op, hop, slot⟩ =>
          ⟨op, (op?_attach (g := c.graph)).symm.trans hop, slot⟩) grows.graph h.instrs_le }

theorem isTerminated_succeeds (able : c.Able) :
    Succeeds isTerminated c fun t after => after = c ∧ (t = true ↔ ¬ c.Open) := by
  obtain ⟨t, ht⟩ := exists_isTerminated able.current (g := c.graph) fun i hi => by
    have inside := able.listed hi
    simp [op?, inside]
  refine .get (ensures_checked.mpr ⟨fun t' run => ?_, fun f run => ?_⟩)
  · exact ⟨rfl, (isTerminated_eq_ok run).trans Classical.not_not.symm⟩
  · cases ht.symm.trans run

structure Cursor.Opens (c after : Cursor) : Prop where
  able : after.Able
  adds : c.Adds after
  isOpen : after.Open
  instrs : after.graph.instrs = c.graph.instrs
  cleanups : after.cleanups = c.cleanups
  same : c.Open → after = c

theorem ensureOpen_succeeds (able : c.Able) : Succeeds ensureOpen c fun _ after => c.Opens after := by
  unfold ensureOpen
  refine (isTerminated_succeeds able).bind ?_
  rintro t _ ⟨rfl, ended⟩
  split
  · next yes =>
    refine (newBlock_succeeds able "dead").bind fun x mid made => ?_
    refine (startBlock_succeeds made.able made.waits).imp fun _ after enters => ?_
    exact ⟨enters.able, enters.adds _ made.adds (Nat.le_of_eq made.index.symm), enters.starts.open,
      enters.instrs.trans made.instrs, enters.cleanups.trans made.cleanups,
      fun open' => absurd open' (ended.mp yes)⟩
  · next no =>
    exact ⟨able, .refl _, Classical.not_not.mp fun e => no (ended.mpr e), rfl, rfl, fun _ => rfl⟩

end Blocks

/-! ### Instructions -/

section Instructions

variable {c : Cursor} {instr : Instr}

structure Cursor.Pushed (c : Cursor) (instr : Instr) (i : InstrId) (after : Cursor) : Prop where
  able : after.Able
  adds : c.Adds after
  index : i.index = c.graph.instrs.size
  size : after.graph.instrs.size = c.graph.instrs.size + 1
  found : after.graph.instrs[i.index]? = some instr
  open_iff : after.Open ↔ instr.op.isTerminator = false
  cleanups : after.cleanups = c.cleanups
  listed : c.Open → after.current = c.current ∧
    after.graph.body c.current = c.graph.body c.current ++ [i]

/-- An instruction can be added to an open block. -/
theorem Cursor.Able.append (able : c.Able) (isOpen : c.Open) (whole : instr.op.Whole)
    (plain : instr.op.isAlloca = false) {g : Graph} (run : (c.graph.newInstr instr).2.append c.current
    ⟨c.graph.instrs.size⟩ = .ok g) :
    c.Pushed instr ⟨c.graph.instrs.size⟩ { c with builder := { c.builder with graph := g } } := by
  have instrs : g.instrs = c.graph.instrs.push instr := instrs_of_updateBlock run
  have size : g.blocks.size = c.graph.blocks.size :=
    size_of_updateBlock (g := (c.graph.newInstr instr).2) run
  have body : ∀ y, g.body y =
      if y = c.current then c.graph.body c.current ++ [⟨c.graph.instrs.size⟩] else c.graph.body y :=
    fun y => body_of_append run y
  have found : g.instrs[c.graph.instrs.size]? = some instr := by rw [instrs]; simp
  have hop : g.op? ⟨c.graph.instrs.size⟩ = some instr.op := by rw [op?, found]; rfl
  have still : ¬ (c.graph.newInstr instr).2.Ends c.current := by
    rintro ⟨i, op, last, hop', hterm⟩
    have old := able.listed (mem_of_getLast? last)
    rw [op?_newInstr, if_neg (Nat.ne_of_lt old)] at hop'
    exact isOpen ⟨i, op, last, hop', hterm⟩
  have grows : c.graph.Extends g := (Graph.Extends.newInstr _ instr).trans (.append still run)
  have old : ∀ (i : Nat) (instr' : Instr), c.graph.instrs[i]? = some instr' → g.instrs[i]? = some instr' :=
    fun i instr' h => by
      have lt := (Array.getElem?_eq_some_iff.mp h).1
      rw [instrs, Array.getElem?_push, if_neg (Nat.ne_of_lt lt), h]
  have keep : ∀ {i op}, c.graph.op? i = some op → g.op? i = some op := fun {i op} h => by
    obtain ⟨instr', found', rfl⟩ := Option.map_eq_some_iff.mp h
    rw [op?, old i.index instr' found']
    rfl
  refine
    { able := ⟨able.placed, size ▸ able.entry, size ▸ able.current, fun {y i} hi => ?_,
        fun i hi => grows.slot (able.late i hi), fun x hx => size ▸ able.pads x hx, fun k hk => ?_⟩
      adds :=
        { Cursor.Adds.refl c with
          builder := .of_graph grows rfl
          instr := old
          whole := fun i instr' new h => ?_
          elsewhere := fun y _ ne => (body y).trans (if_neg ne)
          stocks := .of_same rfl fun i slot => ?_
          kept := fun kept v hv => ?_ }
      index := rfl
      size := (congrArg Array.size instrs).trans (Array.size_push _)
      found := found
      open_iff := ?_
      cleanups := rfl
      listed := fun _ => ⟨rfl, (body c.current).trans (if_pos rfl)⟩ }
  · have there : i ∈ if y = c.current then c.graph.body c.current ++ [⟨c.graph.instrs.size⟩]
        else c.graph.body y := body y ▸ hi
    show i.index < g.instrs.size
    rw [instrs, Array.size_push]
    split at there
    · rcases mem_append.mp there with before | new
      · exact Nat.lt_succ_of_lt (able.listed before)
      · exact mem_singleton.mp new ▸ Nat.lt_succ_self _
    · exact Nat.lt_succ_of_lt (able.listed there)
  · obtain ⟨there, i, flag, hop'⟩ := able.cleanups k hk
    exact ⟨size ▸ there, i, flag, keep hop'⟩
  · have lt : i < g.instrs.size := (Array.getElem?_eq_some_iff.mp h).1
    rw [instrs, Array.size_push] at lt
    cases (show i = c.graph.instrs.size by omega)
    cases found.symm.trans h
    exact whole
  · obtain ⟨op, hop, slot⟩ := slot
    have hop : g.op? i = some op := hop
    rw [op?, instrs, Array.getElem?_push] at hop
    split at hop
    · cases hop
      rw [plain] at slot
      cases slot
    · exact ⟨op, hop, slot⟩
  · obtain ⟨i, eq, hop'⟩ := kept v hv
    exact ⟨i, eq, keep hop'⟩
  · have last : (g.body c.current).getLast? = some ⟨c.graph.instrs.size⟩ := by
      rw [body, if_pos rfl, getLast?_concat]
    show ¬ g.Ends c.current ↔ _
    rw [ends_iff_of_last last hop, Bool.not_eq_true]

theorem Cursor.Opens.pushed {mid after : Cursor} {i : InstrId} (h : c.Opens mid)
    (k : mid.Pushed instr i after) : c.Pushed instr i after where
  able := k.able
  adds := h.adds.trans k.adds
  index := k.index.trans (congrArg Array.size h.instrs)
  size := k.size.trans (congrArg (Array.size · + 1) h.instrs)
  found := k.found
  open_iff := k.open_iff
  cleanups := k.cleanups.trans h.cleanups
  listed := fun isOpen => by
    cases h.same isOpen
    exact k.listed isOpen

/-- An instruction without placeholders need not be tracked. -/
theorem newTracked_of_whole (whole : instr.op.Whole) (b : Builder) :
    Build.newTracked instr b = .ok ⟨b.graph.instrs.size⟩ { b with graph := (b.graph.newInstr instr).2 } := by
  have none : instr.op.operands.filterMap (·.placeholder?) = [] := by
    refine filterMap_eq_nil_iff.mpr fun v hv => ?_
    simpa [Operand.isPlaceholder] using whole v hv
  show EStateM.Result.ok _ _ = _
  simp only [none]
  rfl

/-- A new instruction can be listed in an open block. -/
theorem Cursor.Able.exists_append (able : c.Able) (isOpen : c.Open) (whole : instr.op.Whole)
    (plain : instr.op.isAlloca = false) :
    ∃ b, Build.append c.current ⟨c.graph.instrs.size⟩ { c.builder with graph := (c.graph.newInstr instr).2 } =
      .ok () b ∧
      c.Pushed instr ⟨c.graph.instrs.size⟩ { c with builder := b } := by
  have there : c.current.index < (c.graph.newInstr instr).2.blocks.size := able.current
  obtain ⟨g, run⟩ : ∃ g, (c.graph.newInstr instr).2.append c.current ⟨c.graph.instrs.size⟩ = .ok g :=
    ⟨_, if_pos there⟩
  have done := Ensures.exists_ok (x := Build.append c.current ⟨c.graph.instrs.size⟩)
    (s := { c.builder with graph := (c.graph.newInstr instr).2 })
    (Q := fun _ b => b = { c.builder with graph := g }) (ensures_onGraph.mpr ⟨fun g' run' => by
      cases run.symm.trans run'
      rfl, fun f failed => by cases run.symm.trans failed⟩)
  obtain ⟨⟨⟩, b, listed, rfl⟩ := done
  exact ⟨_, listed, able.append isOpen whole plain run⟩

theorem push_succeeds (able : c.Able) (whole : instr.op.Whole) (plain : instr.op.isAlloca = false) :
    Succeeds (push instr) c fun i after => c.Pushed instr i after := by
  unfold Emit.push
  refine (ensureOpen_succeeds able).bind fun _ mid opens => ?_
  obtain ⟨b, run, pushed⟩ := opens.able.exists_append opens.isOpen whole plain
  refine ensures_bind.mpr (ensures_lift.mpr (.of_run (newTracked_of_whole whole mid.builder) ?_))
  exact .get (ensures_bind.mpr (ensures_lift.mpr (.of_run run (opens.pushed pushed))))

theorem Cursor.Renamed.pushed {mid after : Cursor} {i : InstrId} (h : c.Renamed mid)
    (k : mid.Pushed instr i after) : c.Pushed instr i after := by
  have adds := h.adds.trans k.adds
  obtain ⟨names, rfl⟩ := h.same
  exact { k with adds }

/-- Adding an instruction whose result gets a name. -/
theorem named_succeeds (able : c.Able) {op : Op} (whole : op.Whole) (plain : op.isAlloca = false)
    (tag : String) (shape : Shape) :
    Succeeds (named tag op shape) c fun v after =>
      ∃ i name, v = .result i ∧ c.Pushed ⟨op, shape, name⟩ i after := by
  unfold named
  refine (fresh_succeeds c tag).bind fun name mid renamed => ?_
  have pushes := @push_succeeds mid ⟨op, shape, some name⟩ (renamed.able able) whole plain
  refine pushes.bind fun i after pushed => ?_
  exact ⟨i, some name, rfl, renamed.pushed pushed⟩

/-- Adding an instruction without a result. -/
theorem perform_succeeds (able : c.Able) {op : Op} (whole : op.Whole) (plain : op.isAlloca = false) :
    Succeeds (perform op) c fun i after => c.Pushed ⟨op, .void, none⟩ i after :=
  push_succeeds able whole plain

/-- What going on to a block does: unless the current block has ended, a branch is added. -/
structure Cursor.Branches (c : Cursor) (t : BlockId) (after : Cursor) : Prop where
  able : after.Able
  adds : c.Adds after
  cleanups : after.cleanups = c.cleanups
  pushed : c.Open → ∃ i, c.Pushed ⟨.br t, .void, none⟩ i after

theorem branchTo_succeeds (able : c.Able) (t : BlockId) :
    Succeeds (branchTo t) c fun _ after => c.Branches t after := by
  unfold branchTo
  refine (isTerminated_succeeds able).bind ?_
  rintro b _ ⟨rfl, ended⟩
  split
  · next yes => exact ⟨able, .refl _, rfl, fun open' => absurd open' (ended.mp yes)⟩
  · have whole : (Op.br t).Whole := by rintro _ ⟨⟩
    refine (perform_succeeds able whole rfl).bind fun i after pushed => ?_
    exact ⟨pushed.able, pushed.adds, pushed.cleanups, fun _ => ⟨i, pushed⟩⟩

end Instructions

/-! ### Slots -/

section Slots

variable {c : Cursor}

structure Cursor.Reserves (c : Cursor) (shape : Shape) (i : InstrId) (after : Cursor) : Prop where
  able : after.Able
  adds : c.Adds after
  index : i.index = c.graph.instrs.size
  slot : after.graph.op? i = some (.alloca shape)
  found : ∃ name, after.graph.instrs[i.index]? = some ⟨.alloca shape, .ptr shape, name⟩
  current : after.current = c.current
  blocks : after.graph.blocks = c.graph.blocks
  cleanups : after.cleanups = c.cleanups
  returnSlot : after.builder.returnSlot = c.builder.returnSlot

theorem Cursor.Reserves.open_iff {shape : Shape} {i : InstrId} {after : Cursor} (able : c.Able)
    (h : c.Reserves shape i after) : after.Open ↔ c.Open := by
  have body : after.graph.body c.current = c.graph.body c.current := by rw [body, body, h.blocks]
  unfold Cursor.Open
  rw [h.current]
  refine not_congr (Iff.intro ?_ ?_)
  · rintro ⟨j, op, last, hop, hterm⟩
    rw [body] at last
    have inside := able.listed (mem_of_getLast? last)
    have there : c.graph.instrs[j.index]? = some c.graph.instrs[j.index] := by simp [inside]
    refine ⟨j, op, last, ?_, hterm⟩
    have later : c.graph.op? j = some c.graph.instrs[j.index].op := by rw [op?, there]; rfl
    cases hop.symm.trans (h.adds.op? later)
    exact later
  · rintro ⟨j, op, last, hop, hterm⟩
    exact ⟨j, op, body ▸ last, h.adds.op? hop, hterm⟩

/-- A temporary is a new slot of the function. -/
theorem newTemporary_succeeds (able : c.Able) {ty : Ty} {n : Nat} (sized : Machine.sizeOf ty.shape = .ok n)
    (tag : String) :
    Succeeds (liftM (Build.newTemporary ty tag) : EmitM Operand) c fun v after =>
      ∃ i, v = .result i ∧ c.Reserves ty.shape i after := by
  refine ensures_lift.mpr ?_
  obtain ⟨names, name, made⟩ : ∃ names name, Build.newTemporary ty tag c.builder =
      .ok (.result ⟨c.graph.instrs.size⟩) (Builder.withSlot { c.builder with names }
        { op := .alloca ty.shape, shape := .ptr ty.shape, name := some name }) :=
    ⟨_, _, rfl⟩
  refine .of_run made ⟨⟨c.graph.instrs.size⟩, rfl, ?_⟩
  generalize hinstr : ({ op := .alloca ty.shape, shape := .ptr ty.shape, name := some name } : Instr) = instr
  have hop : instr.op = .alloca ty.shape := by rw [← hinstr]
  have late : ({ c.builder with names } : Builder).withSlot instr =
      { c.builder with names, graph := (c.graph.newInstr instr).2,
                       lateSlots := c.builder.lateSlots ++ [⟨c.graph.instrs.size⟩] } := by
    unfold Builder.withSlot
    exact if_pos able.placed
  rw [late]
  have found : (c.graph.newInstr instr).2.op? ⟨c.graph.instrs.size⟩ = some (.alloca ty.shape) := by
    rw [op?_newInstr, if_pos rfl, hop]
  have grows : c.graph.Extends (c.graph.newInstr instr).2 := .newInstr _ instr
  have old : ∀ {i op}, c.graph.op? i = some op → (c.graph.newInstr instr).2.op? i = some op :=
    fun {i op} h => by
      rw [op?_newInstr, if_neg (Nat.ne_of_lt (index_lt_of_op? h)), h]
  refine
    { able := ⟨able.placed, able.entry, able.current, fun {x i} hi => ?_, fun i hi => ?_, able.pads,
        fun k hk => ?_⟩
      adds :=
        { Cursor.Adds.refl c with
          builder := { Builder.Extends.refl c.builder with graph := grows, late := prefix_append _ _ }
          instr := fun i instr' h => ?_
          whole := fun i instr' new h => ?_
          elsewhere := fun x _ _ => rfl
          stocks := ?_
          kept := fun kept v hv => ?_ }
      index := rfl
      slot := found
      found := ⟨some name, by rw [hinstr]; exact Array.getElem?_push_size⟩
      current := rfl
      blocks := rfl
      cleanups := rfl
      returnSlot := rfl }
  · have size : (c.graph.newInstr instr).2.instrs.size = c.graph.instrs.size + 1 := Array.size_push _
    exact size.symm ▸ Nat.lt_succ_of_lt (able.listed (x := x) hi)
  · rcases mem_append.mp hi with before | new
    · exact grows.slot (able.late i before)
    · cases mem_singleton.mp new
      exact ⟨_, found, rfl⟩
  · obtain ⟨there, i, flag, hop'⟩ := able.cleanups k hk
    exact ⟨there, i, flag, old hop'⟩
  · have lt := (Array.getElem?_eq_some_iff.mp h).1
    show (c.graph.instrs.push instr)[i]? = _
    rw [Array.getElem?_push, if_neg (Nat.ne_of_lt lt), h]
  · have lt : i < (c.graph.instrs.push instr).size := (Array.getElem?_eq_some_iff.mp h).1
    rw [Array.size_push] at lt
    cases (show i = c.graph.instrs.size by omega)
    have same : (c.graph.instrs.push instr)[c.graph.instrs.size]? = some instr := by simp
    cases same.symm.trans h
    rw [Op.Whole, hop]
    rintro _ ⟨⟩
  · have all : ∀ i, (c.graph.newInstr instr).2.Slot i → c.graph.Slot i ∨ i = ⟨c.graph.instrs.size⟩ := by
      rintro i ⟨op, hop', slot⟩
      rw [op?_newInstr] at hop'
      split at hop'
      · next same => exact .inr (by cases i; cases same; rfl)
      · exact .inl ⟨op, hop', slot⟩
    refine ⟨⟨[⟨c.graph.instrs.size⟩], rfl, by simp, fun i hi => ?_, fun i hi => ?_⟩, fun i hi => ?_⟩
    · cases mem_singleton.mp hi
      exact ⟨Nat.le_refl _, _, found, rfl⟩
    · exact (all i hi).imp id mem_singleton.mpr
    · rcases all i hi with old | rfl
      · exact .inl old
      · exact .inr ⟨_, n, found, sized⟩
  · obtain ⟨i, eq, hop'⟩ := kept v hv
    exact ⟨i, eq, old hop'⟩

end Slots

end FlowIR

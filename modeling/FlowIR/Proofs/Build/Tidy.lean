import FlowIR.Proofs.Build.Stowed

/-!
Setting a function up, whatever the order of the calls.

All that is made while a function is set up are slots and the instructions that fill them. `Builder.Tidy` says that
every one of them stands in the entry block or waits for its place there. Changes of storage, operations on labels and
placing late slots keep it in any order, also where a call reports an error, and so do all sequences of calls
(`Build.prepare_tidy`).
-/

namespace FlowIR

open FlowIR.Graph List

/-- No block is laid out twice, and blocks outside the layout are empty. -/
structure Graph.Neat (g : Graph) : Prop where
  nodup : g.layout.Nodup
  outside : ∀ x, x ∉ g.layout → g.body x = []

namespace Graph.Neat

variable {g after : Graph} {y : BlockId}

theorem congr (h : g.Neat) (blocks : after.blocks = g.blocks) (layout : after.layout = g.layout) : after.Neat :=
  ⟨layout.symm ▸ h.nodup, fun x hx => by rw [body, blocks]; exact h.outside x (layout ▸ hx)⟩

/-- What a block that is laid out lists may change. -/
theorem updateBlock {f : Block → Block} {t : List InstrId → List InstrId} (h : g.Neat) (laid : y ∈ g.layout)
    (run : g.updateBlock y f = .ok after) (hf : ∀ b, (f b).body = t b.body) : after.Neat := by
  have layout : after.layout = g.layout := layout_of_updateBlock run
  refine ⟨layout.symm ▸ h.nodup, fun x hx => ?_⟩
  have outside : x ∉ g.layout := fun mem => hx (layout.symm ▸ mem)
  have apart : x ≠ y := fun same => outside (same ▸ laid)
  rw [body_of_updateBlock run hf, if_neg apart]
  exact h.outside x outside

theorem insertFront {is : List InstrId} (h : g.Neat) (laid : y ∈ g.layout) (run : g.insertFront y is = .ok after) :
    after.Neat :=
  h.updateBlock (t := (is ++ ·)) laid run fun _ => rfl

end Graph.Neat

/-- A function that is being set up: everything that has been made is in front of the entry block or waits. -/
structure Builder.Tidy (options : Options) (b : Builder) : Prop where
  options : b.options = options
  neat : b.graph.Neat
  named : b.Named
  first : b.graph.layout.head? = some b.entry
  stowed : ∃ front, b.Stowed (fun _ => True) front []

namespace Builder

variable {b after : Builder} {ops : List Entry} {options : Options}

theorem Step.neat (h : b.Step ops after) (start : b.graph.Neat) : after.graph.Neat := by
  cases h with
  | note code =>
    have graph : after.graph = b.graph := congrArg Prod.fst code
    rwa [graph]
  | revise revises =>
    refine ⟨revises.layout.symm ▸ start.nodup, fun x hx => ?_⟩
    rw [revises.body]
    exact start.outside x (revises.layout ▸ hx)
  | block _ => exact ⟨start.nodup, fun x hx => (body_newBlock _).trans (start.outside x hx)⟩
  | attach _ =>
    refine ⟨nodup_layout_attach start.nodup, fun x hx => body_attach.trans (start.outside x ?_)⟩
    exact fun mem => hx (mem_layout_attach.mpr (.inl mem))
  | @emit _ instr _ laid _ run =>
    have made : (b.graph.newInstr instr).2.Neat := start.congr rfl rfl
    exact made.updateBlock (t := (· ++ [_])) laid run fun _ => rfl
  | slot _ =>
    rw [b.graph_withSlot]
    exact ⟨start.nodup, start.outside⟩

theorem Path.neat (h : b.Path ops after) (start : b.graph.Neat) : after.graph.Neat :=
  h.keeps (I := fun b => b.graph.Neat) (fun _ _ _ => Step.neat) start

theorem Step.first (h : b.Step ops after) (start : b.graph.layout.head? = some b.entry) :
    after.graph.layout.head? = some after.entry := by
  obtain ⟨more, layout⟩ := h.layout
  rw [h.terms.1, layout, head?_append, start]
  rfl

theorem Path.first (h : b.Path ops after) (start : b.graph.layout.head? = some b.entry) :
    after.graph.layout.head? = some after.entry :=
  h.keeps (I := fun b => b.graph.layout.head? = some b.entry) (fun _ _ _ => Step.first) start

namespace Tidy

theorem laid (h : b.Tidy options) : b.entry ∈ b.graph.layout := mem_of_mem_head? h.first

/-- Changes that list nothing keep a function tidy. -/
theorem path (h : b.Tidy options) (changes : b.Path [] after) : after.Tidy options := by
  refine changes.keeps_of_nil (fun b after change tidy => ?_) rfl h
  obtain ⟨front, stowed⟩ := tidy.stowed
  obtain ⟨more, stowed', none⟩ := stowed.step change (.inl rfl)
  rw [none rfl] at stowed'
  exact ⟨change.terms.2.2.trans tidy.options, change.neat tidy.neat, change.named tidy.named,
    change.first tidy.first, front,
    stowed'⟩

end Tidy

end Builder

/-! ### Instructions that fill slots -/

theorem Op.Fills.mark? {base : Operand → Prop} {op : Op} (h : op.Fills base) : op.mark? = none := by
  cases h <;> rfl

namespace Builder.Spilled

variable {base : Operand → Prop} {b mid after : Builder} {is : List InstrId} {g : Graph}

theorem frame (h : b.Spilled base after is) : after.entry = b.entry ∧ after.pendingSlots = b.pendingSlots ∧
    after.lateSlots = b.lateSlots ∧ after.prologPlaced = b.prologPlaced ∧ after.options = b.options ∧
    after.graph.blocks = b.graph.blocks ∧ after.graph.layout = b.graph.layout := by
  obtain ⟨_, _, _, rfl⟩ := h.same
  exact ⟨rfl, rfl, rfl, rfl, rfl, rfl, rfl⟩

variable (h : b.Spilled base mid is)

include h

/-- The instructions are listed or wait. -/
theorem gains (instrs : after.graph.instrs = mid.graph.instrs)
    (stock : after.stock.Perm (is ++ b.stock)) : b.Gains after is where
  retains := .of_op? (instrs ▸ h.grows) fun i old => by rw [op?, instrs, ← op?, h.op?_old old]
  stock := stock
  mem := instrs ▸ h.mem
  once := h.sorted.imp fun before eq => Nat.ne_of_lt before (congrArg _ eq)

theorem quiet (alike : mid.graph.Retains g) {P : InstrId → Prop} :
    ∀ i ∈ is, P i → ∀ op, g.op? i = some op → op.mark? = none := by
  intro i hi _ op found
  obtain ⟨op', found', fills⟩ := h.new i hi
  obtain ⟨op'', found'', same⟩ := alike.op?_of_after ((h.mem i).mp hi).2 found
  cases found'.symm.trans found''
  exact same.mark.trans fills.mark?

/-- What fills slots and has been made in order is in an order in which it can be executed. -/
theorem inOrder (alike : mid.graph.Retains g)
    (known : ∀ j, base (.result j) → j.index < b.graph.instrs.size) : g.InOrder is := by
  refine alike.inOrder (fun i hi => ((h.mem i).mp hi).2) ?_
  refine List.Pairwise.imp_of_mem (fun {j i} hj hi before uses => ?_) h.sorted
  obtain ⟨op, found, mem⟩ := uses
  obtain ⟨op', found', fills⟩ := h.new j hj
  cases found.symm.trans found'
  rcases fills.result_mem mem with old | ⟨k, -, eq, earlier, -⟩
  · exact Nat.lt_irrefl _ (Nat.lt_of_lt_of_le (known i old) ((h.mem i).mp hi).1)
  · cases eq
    exact Nat.lt_asymm before earlier

end Builder.Spilled

/-! ### The prolog -/

namespace Builder.Tidy

variable {b mid after : Builder} {is : List InstrId} {options : Options}

variable (h : b.Tidy options)

include h

/-- Before the prolog everything waits for it. -/
theorem waiting (unplaced : b.prologPlaced = false) :
    b.Stowed (fun _ => True) [] [] ∧ b.lateSlots = [] ∧
      ∀ i : InstrId, i.index < b.graph.instrs.size → i ∈ b.pendingSlots := by
  obtain ⟨front, stowed⟩ := h.stowed
  obtain ⟨rfl, -, late⟩ := stowed.unplaced unplaced
  refine ⟨stowed, late, fun i hi => ?_⟩
  have mem := stowed.kept i (.inl ⟨hi, trivial⟩)
  rwa [Builder.setUp, late, append_nil, nil_append] at mem

/-- The prolog takes its place: the slots made so far, and behind them the instructions that fill them. -/
theorem prolog (unplaced : b.prologPlaced = false) (spilled : b.Spilled b.graph.Storage mid is) {g : Graph}
    (run : mid.graph.insertFront b.entry (b.pendingSlots ++ is) = .ok g) :
    ({ mid with graph := g, pendingSlots := [], prologPlaced := true } : Builder).Tidy options := by
  obtain ⟨stowed, late, all⟩ := h.waiting unplaced
  obtain ⟨entry, -, midLate, -, kept, blocks, layout⟩ := spilled.frame
  have neat : g.Neat := (h.neat.congr blocks layout).insertFront (layout.symm ▸ h.laid) run
  have alike : mid.graph.Retains g := .of_instrs (instrs_of_updateBlock run)
  have gains : b.Gains { mid with graph := g, pendingSlots := [], prologPlaced := true } is := by
    refine spilled.gains (instrs_of_updateBlock run) ?_
    show (g.listed ++ ([] ++ mid.lateSlots)).Perm _
    rw [midLate, late, Builder.stock, late, append_nil, append_nil, append_nil]
    have listed : g.listed.Perm ((b.pendingSlots ++ is) ++ b.graph.listed) := by
      have perm := listed_of_insertFront run
      rwa [show mid.graph.listed = b.graph.listed by rw [listed, listed, blocks]] at perm
    have swap : (b.pendingSlots ++ is).Perm (is ++ b.pendingSlots) := perm_append_comm
    refine listed.trans ((swap.append_right _).trans ?_)
    rw [append_assoc]
    exact perm_append_comm.append_left _
  have slots : ∀ i ∈ b.pendingSlots, g.Slot i := fun i hi =>
    (gains.retains.slot (stowed.setUp_known (mem_append_right _ (mem_append_left _ hi)))).mpr
      (stowed.pending_slot i hi)
  have blockNames : g.blockNames = b.graph.blockNames :=
    (map_of_updateBlock run fun _ => rfl).trans (by rw [blocks]; rfl)
  refine ⟨kept.trans h.options, neat, h.named.congr blockNames spilled.names, ?_, b.pendingSlots ++ is, ?_⟩
  · show g.layout.head? = some mid.entry
    rw [entry, layout_of_updateBlock run, layout]
    exact h.first
  · refine { stowed.toAssigned.gain gains ?_ (fun i => ?_) (by rintro _ ⟨⟩) (spilled.quiet alike) with
      order := ?_
      late_order := ?_
      late_own := ?_
      pending_slot := by rintro _ ⟨⟩
      unplaced := by rintro ⟨⟩
      placed := fun _ => rfl }
    · show g.body mid.entry = _
      rw [entry, body_of_insertFront run, if_pos rfl, append_nil, body, blocks, ← body,
        stowed.body,
        append_nil, append_nil]
    · simp [Builder.setUp, midLate, late]
    · exact pairwise_append.mpr ⟨inOrder_of_slots slots, spilled.inOrder alike fun _ => Graph.Slot.index_lt,
        fun j hj i _ => (slots j hj).not_uses⟩
    · show g.InOrder mid.lateSlots
      rw [midLate, late]
      exact .nil
    · show ∀ j ∈ mid.lateSlots, _
      rw [midLate, late]
      rintro _ ⟨⟩

/-- Slots that have waited go in front of the prolog. -/
theorem placeLate {g : Graph} (run : b.graph.insertFront b.entry b.lateSlots = .ok g) :
    ({ b with graph := g, lateSlots := [] } : Builder).Tidy options := by
  obtain ⟨front, stowed⟩ := h.stowed
  have layout : g.layout = b.graph.layout := layout_of_updateBlock run
  have named : ({ b with graph := g, lateSlots := [] } : Builder).Named :=
    h.named.congr (map_of_updateBlock run fun _ => rfl) (.refl _)
  exact ⟨h.options, h.neat.insertFront h.laid run, named, layout.symm ▸ h.first, b.lateSlots ++ front,
    stowed.placeLate run⟩

/-- Instructions that fill a late slot wait behind it. -/
theorem addLate (placed : b.prologPlaced = true) {slot : InstrId} (waits : slot ∈ b.lateSlots)
    (spilled : b.Spilled (· = .result slot) mid is) :
    ({ mid with lateSlots := mid.lateSlots ++ is } : Builder).Tidy options := by
  obtain ⟨front, stowed⟩ := h.stowed
  obtain ⟨entry, pending, late, midPlaced, kept, blocks, layout⟩ := spilled.frame
  have listed : mid.graph.listed = b.graph.listed := by rw [listed, listed, blocks]
  have gains : b.Gains { mid with lateSlots := mid.lateSlots ++ is } is := by
    refine spilled.gains rfl ?_
    have last : ({ mid with lateSlots := mid.lateSlots ++ is } : Builder).stock = b.stock ++ is := by
      simp only [Builder.stock, listed, pending, late, append_assoc]
    exact last ▸ perm_append_comm
  have alike : mid.graph.Retains mid.graph := .of_instrs rfl
  have blockNames : mid.graph.blockNames = b.graph.blockNames := by rw [blockNames, blocks, blockNames]
  refine ⟨kept.trans h.options, h.neat.congr blocks layout, h.named.congr blockNames spilled.names, ?_, front, ?_⟩
  · show mid.graph.layout.head? = some mid.entry
    rw [entry, layout]
    exact h.first
  · refine stowed.gain gains (stowed.toAssigned.gain gains ?_ (fun i => ?_) (fun _ => .inl) (spilled.quiet alike))
      (by rw [late]) (fun _ => id) (spilled.inOrder alike ?_) ?_ (fun i hi => .inl (pending ▸ hi)) (fun off =>
        ?_) fun _ => ?_
    · show mid.graph.body mid.entry = _
      rw [entry, body, blocks, ← body, stowed.body]
    · simp [Builder.setUp, pending, late, or_assoc]
    · rintro _ ⟨⟩
      exact stowed.late_known waits
    · rintro j hj i ⟨op, found, mem⟩
      obtain ⟨op', found', fills⟩ := spilled.new j hj
      cases found.symm.trans found'
      rcases fills.result_mem mem with eq | ⟨k, mem, eq, -⟩
      · cases eq
        exact mem_append_left _ waits
      · cases eq
        exact mem_append_right _ mem
    · rw [show _ = b.prologPlaced from midPlaced, placed] at off
      cases off
    · show mid.pendingSlots = []
      rw [pending, stowed.placed placed]

end Builder.Tidy

theorem Graph.Alike.revises {g after : Graph} {l : List (Nat × ArgAttr)} (h : g.Alike l after) : g.Revises after where
  size := by rw [← length_kinds, h.kinds, length_kinds]
  ops := fun i op found => ⟨op, (h.op? i).trans found, .refl op⟩
  layout := h.layout
  bodies := by rw [h.blocks]
  names := by rw [blockNames, h.blocks, blockNames]

/-- Every change of storage keeps a function tidy. -/
theorem Builder.Move.tidy {b after : Builder} {options : Options} (k : b.Move after) (h : b.Tidy options) :
    after.Tidy options := by
  cases k with
  | adorn k =>
    obtain ⟨graph, names, rfl, later, alike⟩ := k
    have named : ({ b with graph } : Builder).Step [] { b with graph, names } := .note rfl later
    exact h.path ((Step.revise alike.revises).path.then named.path)
  | @note vars tables paramSlots argsReady errorSeen _ =>
    have noted : b.Step [] { b with vars, tables, paramSlots, argsReady, errorSeen } := .note rfl (.refl _)
    exact h.path noted.path
  | slot shape name => exact h.path (Step.slot rfl).path
  | fill placed waits _ spilled => exact h.addLate placed waits spilled
  | prolog unplaced spilled run => exact h.prolog unplaced spilled run
  | late run => exact h.placeLate run

namespace Build

variable {b : Builder} {options : Options} {target : Target} {sig : Signature} {given : Issued} {after : Builder}

theorem placeProlog_tidy (h : b.Tidy options) (k : b.Apportioned target sig given)
    (run : placeProlog b = .ok () after) : after.Tidy options ∧ after.prologPlaced = true :=
  ((placeProlog_stores k).of_ok run).imp (fun stored => stored.1.keeps Builder.Move.tidy h) id

/-! ### Sequences of calls -/

/-- Every call about labels keeps a function tidy, whether it succeeds or reports an error. -/
theorem Call.apply_tidy {call : Call} (other : call.isStorage = false)
    (run : call.apply b = .ok after) (h : b.Tidy options) : after.Tidy options :=
  h.path (call.apply_relabels other run).path

/-- Whatever is called, in whatever order, the function stays tidy. -/
theorem prepare_tidy {calls : List Call} (h : b.Tidy options) (k : b.Apportioned target sig given)
    (run : prepare calls b = .ok after) : after.Tidy options ∧ ∃ issued, after.Apportioned target sig issued :=
  prepare_keeps Builder.Move.tidy Call.apply_tidy k h run

end Build

/-- A function starts with nothing made. -/
theorem Session.begin_tidy {s : Session} {name : String} {signature : Signature} {b : Builder}
    (run : s.begin name signature = .ok b) : b.Tidy s.options := by
  unfold Session.begin at run
  rw [Checked.bind_eq_ok_iff] at run
  obtain ⟨convention, -, run⟩ := run
  cases run
  have empty : ∀ x : BlockId, (((new name convention.argShapes convention.returnShape).addBlock
    "entry").2).body x =
      [] := by
    intro x
    show (#[({ name := "entry" } : Block)][x.index]?).elim [] Block.body = []
    cases x.index <;> rfl
  have noOp : ∀ i op, (((new name convention.argShapes convention.returnShape).addBlock "entry").2).op? i ≠
      some op := by
    rintro i op ⟨⟩
  refine ⟨rfl, ⟨by simp [new], fun x _ => empty x⟩, ⟨pairwise_singleton _ _, fun name mem free =>
    ?_⟩, rfl, [], ?_⟩
  · obtain rfl := mem_singleton.mp mem
    obtain ⟨tag, n, -, eq⟩ := free
    have dotted : '.' ∈ (NameSupply.render tag n).toList := by simp [NameSupply.render]
    exact absurd (eq ▸ dotted) (by decide)
  refine ⟨⟨empty _, nodup_nil, by rintro _ ⟨⟩, ?_, by rintro _ ⟨⟩, by rintro _ ⟨⟩, by rintro _ ⟨⟩⟩, .nil, .nil,
    by rintro _ ⟨⟩, by rintro _ ⟨⟩, fun _ => ⟨rfl, rfl, rfl⟩, fun _ => rfl⟩
  rintro i (never | ⟨op, found, -⟩)
  · cases never.1
  · exact absurd found (noOp i op)

end FlowIR

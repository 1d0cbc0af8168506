import FlowIR.Proofs.Build.Sound

/-!
What the operations on a function under construction do to its invariant: making instructions, slots
and blocks, and handling labels.
-/

namespace FlowIR

open LabelTable FlowIR.Graph List

variable {owed : BlockId → Prop} {su : Supply} {b : Builder}

/-- The function with one more slot, which waits for its place. -/
def Builder.withSlot (b : Builder) (slot : Instr) : Builder :=
  if b.prologPlaced then
    { b with
      graph := (b.graph.newInstr slot).2
      lateSlots := b.lateSlots ++ [⟨b.graph.instrs.size⟩] }
  else
    { b with
      graph := (b.graph.newInstr slot).2
      pendingSlots := b.pendingSlots ++ [⟨b.graph.instrs.size⟩] }

theorem Builder.graph_withSlot (b : Builder) (slot : Instr) :
    (b.withSlot slot).graph = (b.graph.newInstr slot).2 := by
  unfold withSlot
  split <;> rfl

theorem Builder.extends_withSlot (b : Builder) (slot : Instr) : b.Extends (b.withSlot slot) := by
  unfold withSlot
  split
  · exact { Builder.Extends.refl b with graph := .newInstr _ slot, late := prefix_append _ _ }
  · exact .of_graph (.newInstr _ slot) rfl

/-- After the prolog, a new slot is the last of those that wait for the end. -/
theorem Builder.mem_lateSlots_withSlot (b : Builder) (slot : Instr) (placed : b.prologPlaced = true) :
    ⟨b.graph.instrs.size⟩ ∈ (b.withSlot slot).lateSlots := by
  simp [withSlot, placed]

theorem Builder.returnSlot_withSlot (b : Builder) (slot : Instr) : (b.withSlot slot).returnSlot = b.returnSlot := by
  unfold withSlot
  split <;> rfl

/-- Changing anything of a variable but its storage makes no new storage. -/
theorem Builder.mem_roots_of_modify {v : VarId} {f : Variable → Variable} (keeps : ∀ x, (f x).slot = x.slot)
    {u : Operand} (hu : u ∈ ({ b with vars := b.vars.modify v.index f } : Builder).roots) : u ∈ b.roots := by
  simp only [roots, mem_append, mem_map, Array.mem_toList_iff] at hu ⊢
  refine hu.imp (Or.imp ?_ id) id
  rintro ⟨x, hx, rfl⟩
  obtain ⟨i, hi⟩ := Array.mem_iff_getElem?.mp hx
  rw [Array.getElem?_modify] at hi
  split at hi
  · obtain ⟨y, hy, rfl⟩ := Option.map_eq_some_iff.mp hi
    exact ⟨y, Array.mem_of_getElem? hy, (keeps y).symm⟩
  · exact ⟨x, Array.mem_of_getElem? hi, rfl⟩

/-- A new variable brings its storage. -/
theorem Builder.mem_roots_of_push {x : Variable} {u : Operand}
    (hu : u ∈ ({ b with vars := b.vars.push x } : Builder).roots) : u ∈ b.roots ∨ u = x.slot := by
  simp only [roots, mem_append, mem_map, Array.mem_toList_iff, Array.mem_push] at hu ⊢
  rcases hu with (⟨y, old | rfl, rfl⟩ | param) | result
  · exact .inl (.inl (.inl ⟨y, old, rfl⟩))
  · exact .inr rfl
  · exact .inl (.inl (.inr param))
  · exact .inl (.inr result)

/-- The operands of an instruction are there in a block, and what the blocks that it goes to are supplied with. -/
structure Builder.Admits (b : Builder) (owed : BlockId → Prop) (su : Supply) (x : BlockId) (i : InstrId) (op : Op) :
    Prop where
  uses : ∀ j, .result j ∈ op.operands → b.graph.Ready su x (b.graph.body x) j
  targets : ∀ t ∈ op.successors, (owed t ∨ ∃ l, b.labels.home l = some t) ∧ (op.unwind? = some t ↔ su.lands t) ∧
    ∀ j, su t j → b.graph.Ready su x (b.graph.body x) j ∨ (j = i ∧ op.normal? = some t)

/-! ### Changes that keep the invariant -/

namespace Builder.Wired

variable (h : b.Wired owed su) {g : Graph} {x : BlockId}

include h

/-- Only the graph, the labels, the storage and where slots wait matter. -/
theorem congr {after : Builder} (graph : after.graph = b.graph)
    (entry : after.entry = b.entry) (home : after.labels.home = b.labels.home)
    (pending : after.pendingSlots = b.pendingSlots) (late : after.lateSlots = b.lateSlots)
    (placed : after.prologPlaced = b.prologPlaced) (roots : ∀ v ∈ after.roots, v ∈ b.roots) :
    after.Wired owed su where
  formed := by rw [graph, entry, home]; exact h.formed
  supplied := by rw [graph, entry, home]; exact h.supplied
  stocked := by rw [graph, entry, pending, late, placed]; exact h.stocked
  rooted := fun v hv => by rw [graph]; exact h.rooted v (roots v hv)

/-- Labels can change in anything but their blocks. -/
theorem relabel {t : LabelTable} (home : t.home = b.labels.home) : ({ b with labels := t } : Builder).Wired owed su :=
  h.congr rfl rfl home rfl rfl rfl fun _ hv => hv

/-- The graph can change as long as no block, no slot and no branch does. -/
theorem regraph (grows : b.graph.Extends g)
    (layout : g.layout = b.graph.layout) (size : g.blocks.size = b.graph.blocks.size)
    (body : ∀ x, g.body x = b.graph.body x)
    (taken : ∀ x, g.taken x = true → b.graph.taken x = true ∨ (x ≠ b.entry ∧ su.Bare x))
    (slots : ∀ j, g.Slot j → b.graph.Slot j) : ({ b with graph := g } : Builder).Wired owed su where
  formed := h.formed.congr layout size body (fun x hx => (taken x hx).imp id And.left)
    fun _ _ _ _ hop =>
      let ⟨op', hop', resolves⟩ := grows.op? hop
      ⟨op', hop', resolves.isTerminator, fun _ ht => .inl (resolves.successors ▸ ht)⟩
  supplied := h.supplied.congr h.formed grows size body (fun _ laid => .inl (layout ▸ laid))
    fun x hx => (taken x hx).imp id And.right
  stocked := h.stocked.grow grows slots fun unplaced => (body _).trans (h.stocked.body_nil unplaced)
  rooted := fun v hv => grows.stable (h.rooted v hv)

/-- An instruction that is no slot can be made at any time. -/
theorem newInstr {instr : Instr} (plain : instr.op.isAlloca = false) :
    ({ b with graph := (b.graph.newInstr instr).2 } : Builder).Wired owed su := by
  refine h.regraph (.newInstr _ instr) rfl rfl (fun _ => rfl) (fun _ hx => .inl hx) fun j hj => ?_
  obtain ⟨op, hop, slot⟩ := hj
  rw [op?_newInstr] at hop
  split at hop
  · cases hop
    rw [plain] at slot
    cases slot
  · exact ⟨op, hop, slot⟩

/-- A block that is owed, or that a label starts, can be laid out. -/
theorem attach (hx : (owed x ∧ ¬ su.idle x) ∨ ∃ l, b.labels.home l = some x) :
    ({ b with graph := b.graph.attach x } : Builder).Wired owed su where
  formed := h.formed.attach (hx.imp_left And.left)
  supplied := h.supplied.attach h.formed (hx.elim And.right fun ⟨l, hl⟩ idle =>
    (h.supplied.home l x hl).2 (h.supplied.idle x idle).1)
  stocked := h.stocked.grow (.attach _ x) (fun j ⟨op, hop, slot⟩ => ⟨op, by simpa using hop, slot⟩)
    fun unplaced => by
      rw [body_attach]
      exact h.stocked.body_nil unplaced
  rooted := fun v hv => (Graph.Extends.attach _ x).stable (h.rooted v hv)

/-- An instruction can be added to an open block that admits it. -/
theorem list {i : InstrId} {op : Op} (hop : b.graph.op? i = some op)
    (own : ∀ l, b.labels.home l = some x → x ∈ b.graph.layout) (placed : b.prologPlaced = true)
    (hx : ¬ b.graph.Ends x) (starts : op.isLandingPad = true ↔ (b.graph.body x).length = 0 ∧ su.lands x)
    (apart : op.unwind? ≠ none → op.normal? ≠ none) (admits : b.Admits owed su x i op)
    (run : b.graph.append x i = .ok g) : ({ b with graph := g } : Builder).Wired owed (su.start x) := by
  have grows := Graph.Extends.append hx run
  refine ⟨h.formed.append hop hx own (fun t ht => ?_) run,
    h.supplied.append hop admits.uses ⟨starts, apart, fun t ht => (admits.targets t ht).2.1⟩
      (fun t ht => (admits.targets t ht).2.2) run,
    h.stocked.grow grows (fun j ⟨op, hop, slot⟩ => ⟨op, op?_of_updateBlock run j ▸ hop, slot⟩)
      (fun unplaced => absurd placed (by simp [unplaced])), fun v hv => grows.stable (h.rooted v hv)⟩
  rcases (admits.targets t ht).1 with o | ⟨l, hl⟩
  · exact ⟨(h.formed.owed_own t o).2.1, .inr (.inr o)⟩
  · exact ⟨(h.formed.home_own l t hl).2, .inr (.inl ⟨l, hl⟩)⟩

/-- Blocks of the layout have been started. -/
theorem append {i : InstrId} {op : Op}
    (hop : b.graph.op? i = some op) (laid : x ∈ b.graph.layout) (placed : b.prologPlaced = true)
    (hx : ¬ b.graph.Ends x) (inner : op.isInner = true) (admits : b.Admits owed su x i op)
    (run : b.graph.append x i = .ok g) : ({ b with graph := g } : Builder).Wired owed su := by
  have awake : ¬ su.idle x := fun idle => (h.supplied.idle x idle).2 laid
  rw [← Supply.start_of_awake awake]
  obtain ⟨inner, apart⟩ := Op.isInner_iff.mp inner
  refine h.list hop (fun _ _ => laid) placed hx (iff_of_false (by simp [inner]) ?_) apart admits run
  exact fun ⟨first, lands⟩ => awake ((h.supplied.empty x lands).mpr (length_eq_zero_iff.mp first))

/-- A slot is made without a place, and waits for one. -/
theorem withSlot {instr : Instr} (slot : instr.op.isAlloca = true) : (b.withSlot instr).Wired owed su := by
  have grows := Graph.Extends.newInstr b.graph instr
  have here : (b.graph.newInstr instr).2.op? ⟨b.graph.instrs.size⟩ = some instr.op := by simp
  have slots : ∀ j, (b.graph.newInstr instr).2.Slot j → b.graph.Slot j ∨ j = ⟨b.graph.instrs.size⟩ := by
    rintro j ⟨op, hop, isSlot⟩
    rw [op?_newInstr] at hop
    split at hop
    · next same => exact .inr (congrArg InstrId.mk same)
    · exact .inl ⟨op, hop, isSlot⟩
  have rooted : ∀ v ∈ b.roots, (b.graph.newInstr instr).2.Stable v := fun v hv =>
    grows.stable (h.rooted v hv)
  have stocked := h.stocked.add grows
  unfold Builder.withSlot
  split
  · next placed =>
    refine ⟨h.formed.newInstr instr, h.supplied.newInstr h.formed instr, ?_, rooted⟩
    have late := stocked [] [⟨b.graph.instrs.size⟩] (fun j hj => (slots j hj).imp id (by simp [·]))
      (fun unplaced => absurd placed (by simp [unplaced])) (by simp) (by simp)
      (fun unplaced => absurd placed (by simp [unplaced]))
      (fun i hi => ⟨instr.op, (mem_singleton.mp hi) ▸ here, by
        cases hop : instr.op <;> simp [hop, Op.isAlloca] at slot
        exact ⟨rfl, rfl⟩⟩)
      (fun k i hi op hop j hj => by
        cases mem_singleton.mp (mem_of_getElem? hi)
        cases here.symm.trans hop
        rw [Op.operands_eq_nil_of_isAlloca slot] at hj
        cases hj)
    rwa [append_nil] at late
  · next unplaced =>
    refine ⟨h.formed.newInstr instr, h.supplied.newInstr h.formed instr, ?_, rooted⟩
    have soon := stocked [⟨b.graph.instrs.size⟩] [] (fun j hj => (slots j hj).imp id (by simp [·]))
      (fun unplaced => h.stocked.body_nil unplaced)
      (fun i hi => ⟨instr.op, (mem_singleton.mp hi) ▸ here, slot⟩)
      (fun placed => absurd placed unplaced) (fun _ => rfl) (by simp) (by simp)
    rwa [append_nil] at soon

/-- A new block is owed, and can be supplied with anything. -/
theorem newBlock (name : String) (more : InstrId → Prop) (pad : Bool) :
    ({ b with graph := (b.graph.newBlock name).2 } : Builder).Wired
      (fun x => owed x ∨ x = ⟨b.graph.blocks.size⟩) (su.give ⟨b.graph.blocks.size⟩ more pad) where
  formed := h.formed.newBlock name
  supplied := h.supplied.newBlock h.formed name more pad
  stocked := h.stocked.grow (.newBlock _ name) (fun _ hj => hj) fun unplaced => by
    rw [body_newBlock]
    exact h.stocked.body_nil unplaced
  rooted := fun v hv => (Graph.Extends.newBlock _ name).stable (h.rooted v hv)

/-- The block of a label that had none is not owed by anyone else. -/
theorem newHome {l : LabelId} {label : Label} (found : b.labels.get? l = some label)
    (none : label.block = none) (name : String) (names : NameSupply) :
    ({ b with
      names
      graph := (b.graph.newBlock name).2
      labels := b.labels.update l ({ · with block := some ⟨b.graph.blocks.size⟩ }) } :
      Builder).Wired owed su := by
  have homeless : b.labels.home l = Option.none := by simp [home, found, none]
  have home := home_setHome found ⟨b.graph.blocks.size⟩
  have wider := h.newBlock name (fun _ => False) false
  rw [Supply.give_nothing] at wider
  refine ⟨h.formed.newHome name homeless (by rw [home, if_pos rfl]) (fun k other => by rw [home, if_neg other]),
    wider.supplied.newHome fun k x hk => ?_, wider.stocked, wider.rooted⟩
  rw [home] at hk
  split at hk
  · cases hk
    exact .inr (h.supplied.new _ (Nat.le_refl _))
  · exact .inl hk

end Builder.Wired

/-- The labels have the same blocks, and the same blocks are laid out. -/
structure Builder.Steady (owed : BlockId → Prop) (su : Supply) (b after : Builder) : Prop where
  wired : after.Wired owed su
  layout : after.graph.layout = b.graph.layout
  home : after.labels.home = b.labels.home
  settled : after.labels.settled = b.labels.settled

namespace Builder.Sound

variable (h : b.Sound owed su) {x : BlockId}

include h

/-- Whether labels have their places depends on nothing but the layout and the labels. -/
theorem steady {after : Builder} (same : b.Steady owed su after) : after.Sound owed su where
  toWired := same.wired
  housed := by rw [same.home, same.settled]; exact h.housed.congr same.layout

theorem congr {after : Builder} (graph : after.graph = b.graph)
    (entry : after.entry = b.entry) (labels : after.labels = b.labels)
    (pending : after.pendingSlots = b.pendingSlots) (late : after.lateSlots = b.lateSlots)
    (placed : after.prologPlaced = b.prologPlaced) (roots : ∀ v ∈ after.roots, v ∈ b.roots) : after.Sound owed su :=
  h.steady ⟨h.toWired.congr graph entry (by rw [labels]) pending late placed roots, by rw [graph],
    by rw [labels], by rw [labels]⟩

/-- Labels can change in anything but their blocks and whether they have a place. -/
theorem relabel {t : LabelTable} (home : t.home = b.labels.home)
    (settled : t.settled = b.labels.settled) : ({ b with labels := t } : Builder).Sound owed su :=
  h.steady ⟨h.toWired.relabel home, rfl, home, settled⟩

theorem newInstr {instr : Instr} (plain : instr.op.isAlloca = false) :
    ({ b with graph := (b.graph.newInstr instr).2 } : Builder).Sound owed su :=
  h.steady ⟨h.toWired.newInstr plain, rfl, rfl, rfl⟩

/-- Names of instructions and of arguments do not matter. -/
theorem rename {g : Graph} (layout : g.layout = b.graph.layout)
    (blocks : g.blocks = b.graph.blocks) (ops : ∀ i, g.op? i = b.graph.op? i)
    (grows : b.graph.Extends g) : ({ b with graph := g } : Builder).Sound owed su := by
  refine h.steady ⟨h.regraph grows layout (by rw [blocks]) (fun x => by rw [body, blocks, body])
    (fun x hx => .inl (by rw [taken, ← blocks]; exact hx)) fun j hj => ?_, layout, rfl, rfl⟩
  obtain ⟨op, hop, slot⟩ := hj
  exact ⟨op, ops j ▸ hop, slot⟩

theorem newBlock (name : String) (more : InstrId → Prop) (pad : Bool) :
    ({ b with graph := (b.graph.newBlock name).2 } : Builder).Sound
      (fun x => owed x ∨ x = ⟨b.graph.blocks.size⟩) (su.give ⟨b.graph.blocks.size⟩ more pad) where
  toWired := h.toWired.newBlock name more pad
  housed := h.housed.congr rfl

/-- An owed block can be laid out. -/
theorem attach (hx : owed x) (awake : ¬ su.idle x) :
    ({ b with graph := b.graph.attach x } : Builder).Sound owed su where
  toWired := h.toWired.attach (.inl ⟨hx, awake⟩)
  housed := h.housed.grow (fun _ mem => mem_layout_attach.mpr (.inl mem)) fun l _ hl mem =>
    (mem_layout_attach.mp mem).elim id fun eq => absurd (eq ▸ hl) ((h.formed.owed_own x hx).2.2 l)

/-- A block for exceptions is laid out together with the landing pad that it starts with. -/
theorem land (hx : owed x) (idle : su.idle x) {i : InstrId} {kind : PadKind}
    (hop : b.graph.op? i = some (.landingPad kind)) (placed : b.prologPlaced = true) {g : Graph}
    (both : (b.graph.attach x).append x i = .ok g) : ({ b with graph := g } : Builder).Sound owed (su.start x) := by
  obtain ⟨lands, -⟩ := h.supplied.idle x idle
  have empty := (h.supplied.empty x lands).mp idle
  obtain ⟨mid, run, rfl⟩ := append_attach both
  have wired := h.toWired.list hop (fun l hl => absurd hl ((h.formed.owed_own x hx).2.2 l)) placed
    (fun ⟨_, _, last, _⟩ => by simp [empty] at last) (iff_of_true rfl ⟨by simp [empty], lands⟩)
    (absurd rfl) ⟨by rintro _ ⟨⟩, by rintro _ ⟨⟩⟩ run
  have sound : ({ b with graph := mid } : Builder).Sound owed (su.start x) :=
    ⟨wired, h.housed.congr (layout_of_updateBlock run)⟩
  exact sound.attach hx fun idle => idle.2 rfl

/-- What has been laid out is owed no more. -/
theorem settle {owing : BlockId → Prop} (fewer : ∀ x, owing x → owed x)
    (done : ∀ x, owed x → owing x ∨ x ∈ b.graph.layout) : b.Sound owing su :=
  { h with formed := h.formed.settle fewer done }

theorem withSlot {instr : Instr} (slot : instr.op.isAlloca = true) : (b.withSlot instr).Sound owed su := by
  refine h.steady ⟨h.toWired.withSlot slot, ?_, ?_, ?_⟩ <;> unfold Builder.withSlot <;> split <;> rfl

theorem newHome {l : LabelId} {label : Label} (found : b.labels.get? l = some label)
    (none : label.block = none) (name : String) (names : NameSupply) :
    ({ b with
      names
      graph := (b.graph.newBlock name).2
      labels := b.labels.update l ({ · with block := some ⟨b.graph.blocks.size⟩ }) } :
      Builder).Sound owed su := by
  have homeless : b.labels.home l = Option.none := by simp [home, found, none]
  have unsettled : ¬ b.labels.settled l := fun s => by
    obtain ⟨x, hx, -⟩ := h.housed.laid l s
    cases homeless.symm.trans hx
  have settled : (b.labels.update l ({ · with block := some ⟨b.graph.blocks.size⟩ })).settled =
      b.labels.settled := settled_update fun _ => rfl
  have home := home_setHome found ⟨b.graph.blocks.size⟩
  refine ⟨h.toWired.newHome found none name names, ⟨fun k hk => ?_, fun k x hk open' mem => ?_⟩⟩
  · rw [settled] at hk
    have ne : k ≠ l := fun eq => unsettled (eq ▸ hk)
    obtain ⟨x, hx, mem⟩ := h.housed.laid k hk
    exact ⟨x, by rw [home, if_neg ne, hx], mem⟩
  · rw [settled] at open'
    rw [home] at hk
    split at hk
    · cases hk
      exact absurd (h.formed.placed _ mem) (Nat.lt_irrefl _)
    · exact h.housed.unlaid k x hk open' mem

/-- A label gets its place when its block is laid out. -/
theorem attachHome {l : LabelId} (hl : b.labels.home l = some x) :
    ({ b with
      labels := b.labels.update l ({ · with defined := true })
      graph := b.graph.attach x } : Builder).Sound owed su := by
  have home : (b.labels.update l ({ · with defined := true })).home = b.labels.home :=
    home_update fun _ => rfl
  have others : ∀ k, k ≠ l → ((b.labels.update l ({ · with defined := true })).settled k ↔
      b.labels.settled k) := fun k hk => by
    simp [settled, get?_update, hk]
  have here : (b.labels.update l ({ · with defined := true })).settled l := by
    obtain ⟨label, found, -⟩ := Option.bind_eq_some_iff.mp hl
    simp [settled, get?_update, found]
  refine ⟨(h.toWired.attach (.inr ⟨l, hl⟩)).relabel home,
    ⟨fun k hk => ?_, fun k y hk unsettled mem => ?_⟩⟩
  · show ∃ y, (b.labels.update l _).home k = some y ∧ y ∈ (b.graph.attach x).layout
    rw [home]
    by_cases same : k = l
    · exact ⟨x, same ▸ hl, mem_layout_attach.mpr (.inr rfl)⟩
    · obtain ⟨y, hy, mem⟩ := h.housed.laid k ((others k same).mp hk)
      exact ⟨y, hy, mem_layout_attach.mpr (.inl mem)⟩
  · have hk : b.labels.home k = some y := home ▸ hk
    have ne : k ≠ l := fun eq => unsettled (eq ▸ here)
    rcases mem_layout_attach.mp mem with laid | eq
    · exact h.housed.unlaid k y hk (fun s => unsettled ((others k ne).mpr s)) laid
    · exact absurd (h.formed.home_inj k l x (eq ▸ hk) hl) ne

end Builder.Sound

namespace Build

/-! ### Basic operations -/

section

variable (h : b.Sound owed su)

include h

theorem fresh_builds (tag : String) : Builds owed su (fresh tag) b fun _ after => ∃ names, after = { b with names } :=
  ⟨.of_graph (.refl _) rfl, h.congr rfl rfl rfl rfl rfl rfl fun _ hv => hv, _, rfl⟩

theorem markError_builds : Builds owed su markError b fun _ _ => True :=
  ⟨.of_graph (.refl _) rfl, h.congr rfl rfl rfl rfl rfl rfl fun _ hv => hv, trivial⟩

/-- A variable can be changed as long as its storage stays. -/
theorem updateVar_builds (v : VarId) {f : Variable → Variable}
    (slot : ∀ x, (f x).slot = x.slot) (ty : ∀ x, (f x).ty = x.ty) : Builds owed su (updateVar v f) b fun _ _ => True :=
  ⟨.updateVar b v slot ty, h.congr rfl rfl rfl rfl rfl rfl fun _ => Builder.mem_roots_of_modify slot, trivial⟩

theorem newInstr_builds {instr : Instr} (plain : instr.op.isAlloca = false) :
    Builds owed su (newInstr instr) b fun i after =>
      i = ⟨b.graph.instrs.size⟩ ∧ after = { b with graph := (b.graph.newInstr instr).2 } :=
  ⟨.of_graph (.newInstr _ instr) rfl, h.newInstr plain, rfl, rfl⟩

theorem newTracked_builds {instr : Instr} (plain : instr.op.isAlloca = false) :
    Builds owed su (newTracked instr) b fun i after =>
      i = ⟨b.graph.instrs.size⟩ ∧ after.graph = (b.graph.newInstr instr).2 ∧
        after.labels.home = b.labels.home := by
  have same := labels_recordUses (instr.op.operands.filterMap (·.placeholder?))
    ⟨b.graph.instrs.size⟩ b.labels
  have home : (instr.op.operands.filterMap (·.placeholder?) |>.foldl
      (fun t p => t.recordUse p ⟨b.graph.instrs.size⟩) b.labels).home = b.labels.home := by
    funext l
    simp only [home, get?, same]
  refine ⟨.of_graph (.newInstr _ instr) rfl, (h.newInstr plain).relabel home ?_, rfl, rfl, home⟩
  funext l
  simp only [settled, get?, same]

/-- A conversion ends no block. -/
theorem newCast_builds (value : Operand) (dst : Shape) :
    Builds owed su (newCast value dst) b fun i after =>
      after.graph.op? i = some (.cast .bitcast value dst) ∧
        ∀ x, after.graph.Ends x → b.graph.Ends x := by
  refine (fresh_builds h _).bind ?_
  rintro name mid - sound ⟨names, rfl⟩
  refine (newInstr_builds sound rfl).mono ?_
  rintro i after - - ⟨rfl, rfl⟩
  exact ⟨by simp, fun x ends => h.formed.ends_of_newInstr ends⟩

/-- Adding an instruction leaves an open block open, unless the instruction ends it. -/
theorem append_builds {x : BlockId} {i : InstrId} {op : Op}
    (hop : b.graph.op? i = some op) (laid : x ∈ b.graph.layout) (placed : b.prologPlaced = true)
    (hx : ¬ b.graph.Ends x) (inner : op.isInner = true) (admits : b.Admits owed su x i op) :
    Builds owed su (append x i) b fun _ after =>
      (op.isTerminator = false → ¬ after.graph.Ends x) ∧
      (op.yields = true → after.graph.Ready su x (after.graph.body x) i) := by
  refine .onGraph h fun g run => ⟨.append hx run, h.steady ⟨h.toWired.append hop laid placed hx inner admits run,
    layout_of_updateBlock run, rfl, rfl⟩, ?_, ?_⟩
  · rintro plain ⟨k, op', last, hop', hterm⟩
    rw [body_of_append run, if_pos rfl, getLast?_concat] at last
    cases last
    rw [op?_of_updateBlock run, hop] at hop'
    cases hop'
    rw [plain] at hterm
    cases hterm
  · intro yields
    refine .inr (.inr ⟨?_, op, (op?_of_updateBlock run i).trans hop, yields⟩)
    rw [body_of_append run, if_pos rfl]
    exact mem_append_right _ (mem_singleton.mpr rfl)

end

/-! ### Storage -/

theorem newSlot_eq (b : Builder) (shape : Shape) (name : Option String) :
    newSlot shape name b = .ok (.result ⟨b.graph.instrs.size⟩)
      (b.withSlot { op := .alloca shape, shape := .ptr shape, name }) := rfl

section

variable (h : b.Sound owed su)

include h

/-- A new slot is always available, wherever it will stand. -/
theorem newSlot_builds (shape : Shape) (name : Option String) :
    Builds owed su (newSlot shape name) b fun v after =>
      (∃ i, v = .result i ∧ after.graph.Slot i) ∧ after.returnSlot = b.returnSlot := by
  refine .of_run (newSlot_eq b shape name) ⟨b.extends_withSlot _, h.withSlot rfl, ⟨_, rfl, ?_⟩,
    b.returnSlot_withSlot _⟩
  exact ⟨.alloca shape, by simp [Builder.graph_withSlot], rfl⟩

theorem newTemporary_builds (ty : Ty) (tag : String) :
    Builds owed su (newTemporary ty tag) b fun v after =>
      (∃ i, v = .result i ∧ after.graph.Slot i) ∧ after.returnSlot = b.returnSlot :=
  (fresh_builds h tag).bind fun name mid _ sound ⟨_, same⟩ =>
    (newSlot_builds sound ty.shape (some name)).mono fun _ _ _ _ ⟨slot, result⟩ =>
      ⟨slot, result.trans (by rw [same])⟩

/-- The storage for results is made once and is always available. -/
theorem returnSlot_builds : Builds owed su returnSlot b fun v after => after.graph.Stable v := by
  unfold returnSlot
  refine .get ?_
  split
  · next slot found => exact .pure h (h.rooted slot (by simp [Builder.roots, found]))
  · next none =>
    refine .get ((newTemporary_builds h _ _).bind
      fun slot mid grows sound ⟨⟨i, hi, isSlot⟩, same⟩ => ?_)
    have stable : mid.graph.Stable slot := fun j hj => by cases hi.symm.trans hj; exact isSlot
    have nothing : mid.returnSlot = Option.none := same.trans none
    refine (Preserves.change (Q := fun _ after => after.graph = mid.graph) ?_ ?_ rfl).bind
      fun _ after _ sound graph => .pure sound (graph ▸ stable)
    · exact { Builder.Extends.refl mid with returnSlot := fun v hv => by simp [nothing] at hv }
    · refine ⟨⟨sound.formed, sound.supplied, sound.stocked, fun v hv => ?_⟩, sound.housed⟩
      simp only [Builder.roots, mem_append] at hv
      rcases hv with old | new
      · exact sound.rooted v (by simp only [Builder.roots, mem_append]; exact .inl old)
      · cases Option.mem_toList.mp new
        exact stable

/-! ### Returns -/

/-- A conversion of a pointer that is there, and a load through it. -/
theorem loadThrough_builds {x : BlockId} (laid : x ∈ b.graph.layout)
    (placed : b.prologPlaced = true) (hx : ¬ b.graph.Ends x) {ptr : Operand}
    (there : ∀ j, ptr = .result j → b.graph.Ready su x (b.graph.body x) j) (shape : Shape) :
    Builds owed su (loadThrough x ptr shape) b fun v after =>
      ∀ j, v = .result j → after.graph.Ready su x (after.graph.body x) j := by
  unfold loadThrough
  refine (newCast_builds h ptr _).bind fun cast b₁ grows₁ sound₁ ⟨hcast, ends₁⟩ => ?_
  refine Preserves.bind (append_builds sound₁ hcast (grows₁.graph.mem_layout laid)
    (grows₁.placed.trans placed) (fun ends => hx (ends₁ x ends)) rfl ⟨fun j hj => ?_, fun t ht => ?_⟩) ?_
  · exact (there j (mem_singleton.mp hj).symm).grow grows₁.graph
  · cases ht
  · rintro - b₂ grows₂ sound₂ ⟨open₂, ready₂⟩
    refine (fresh_builds sound₂ _).bind ?_
    rintro name _ - sound₃ ⟨names, rfl⟩
    refine (newTracked_builds sound₃ rfl).bind ?_
    rintro load b₄ grows₄ sound₄ ⟨rfl, graph₄, -⟩
    have hload : b₄.graph.op? ⟨b₂.graph.instrs.size⟩ = some (.load (.result cast)) := by
      rw [graph₄]
      simp
    refine Preserves.bind (append_builds sound₄ hload ?_ ?_ ?_ rfl ⟨fun j hj => ?_, fun t ht => ?_⟩) ?_
    · exact grows₄.graph.mem_layout ((grows₁.trans grows₂).graph.mem_layout laid)
    · exact grows₄.placed.trans ((grows₁.trans grows₂).placed.trans placed)
    · rw [graph₄]
      exact fun ends => open₂ rfl (sound₂.formed.ends_of_newInstr ends)
    · cases Operand.result.inj (mem_singleton.mp hj)
      exact (ready₂ rfl).grow grows₄.graph
    · cases ht
    · rintro - b₅ - sound₅ ⟨-, ready₅⟩
      exact .pure sound₅ fun j hj => Operand.result.inj hj ▸ ready₅ rfl

/-- What a return gives back is there. -/
theorem prepareReturn_builds {x : BlockId} (laid : x ∈ b.graph.layout)
    (placed : b.prologPlaced = true) (hx : ¬ b.graph.Ends x) {value : Option Operand}
    (there : ∀ v j, value = some v → v = .result j → b.graph.Ready su x (b.graph.body x) j) (span : Span) :
    Builds owed su (prepareReturn x value span) b fun r after =>
      ∀ v j, r = some v → v = .result j → after.graph.Ready su x (after.graph.body x) j := by
  unfold prepareReturn
  refine .get ?_
  dsimp only
  split
  · exact .pure h (by rintro _ _ ⟨⟩)
  · next src _ =>
    refine (Preserves.checked (Q := fun _ after => after = b) h fun _ _ => rfl).bind ?_
    rintro size b - - rfl
    refine (Preserves.checked (Q := fun _ after => after = b) h fun _ _ => rfl).bind ?_
    rintro align b - - rfl
    refine (newTracked_builds h rfl).bind ?_
    rintro copy b₁ grows₁ sound₁ ⟨rfl, graph₁, -⟩
    have hcopy : b₁.graph.op? ⟨b.graph.instrs.size⟩ = some (.memcpy (.arg 0) src size align) := by
      rw [graph₁]
      simp
    refine Preserves.bind (append_builds sound₁ hcopy (grows₁.graph.mem_layout laid)
      (grows₁.placed.trans placed) ?_ rfl ⟨fun j hj => ?_, fun t ht => ?_⟩) ?_
    · rw [graph₁]
      exact fun ends => hx (h.formed.ends_of_newInstr ends)
    · simp only [Op.operands, mem_cons, not_mem_nil, or_false, reduceCtorEq, false_or] at hj
      exact (there src j rfl hj.symm).grow grows₁.graph
    · cases ht
    · exact fun _ _ _ sound₂ _ => .pure sound₂ (by rintro _ _ ⟨⟩)
  · next v _ =>
    split
    · refine (loadThrough_builds h laid placed hx (fun j hj => there v j rfl hj) _).bind
        fun r _ _ sound₁ ready => .pure sound₁ fun _ j eq hj => ?_
      exact ready j (Option.some.inj eq ▸ hj)
    · exact .pure h fun w j eq hj => there w j eq hj
  · exact Preserves.fail h (by rintro _ ⟨⟩)

/-! ### Labels -/

theorem newLabel_builds (span : Span) : Builds owed su (newLabel span) b fun _ _ => True :=
  ⟨.of_graph (.refl _) rfl,
    h.relabel (home_add b.labels span) (settled_add b.labels span), trivial⟩

/-- The block of a label is made when it is first asked for. -/
theorem labelBlock_builds (l : LabelId) (span : Span) :
    Builds owed su (labelBlock l span) b fun x after => after.labels.home l = some x := by
  unfold labelBlock
  refine .get ?_
  split
  · next label found =>
    split
    · next x block => exact .pure h (by simp [home, found, block])
    · next none =>
      refine .of_run rfl ⟨.of_graph (.newBlock _ _) rfl, h.newHome found none _ _, ?_⟩
      simp [home, get?_update, found]
  · exact .fail h (by rintro _ ⟨⟩)

end

/-- The address of a label's block can be used. -/
theorem takeAddress_steady {start : Builder} (h : start.Steady owed su b) {l : LabelId} {x : BlockId}
    (hl : start.labels.home l = some x) : Preserves (start.Steady owed su) (takeAddress x) b fun _ _ => True := by
  refine .onGraph h fun g run => ?_
  have grows := Graph.Extends.updateBlock run fun _ => rfl
  have body : ∀ y, g.body y = b.graph.body y := by
    intro y
    rw [body_of_updateBlock (t := id) run fun _ => rfl]
    split
    · next same => rw [same]; rfl
    · rfl
  have layout := layout_of_updateBlock run
  have hl : b.labels.home l = some x := h.home ▸ hl
  refine ⟨grows, ⟨h.wired.regraph grows layout (size_of_updateBlock run) body (fun y hy => ?_)
    (fun j ⟨op, hop, slot⟩ => ⟨op, op?_of_updateBlock run j ▸ hop, slot⟩),
    layout.trans h.layout, h.home, h.settled⟩, trivial⟩
  rw [taken_of_updateBlock (t := fun _ => true) run fun _ => rfl] at hy
  split at hy
  · next same =>
    exact .inr ⟨same ▸ (h.wired.formed.home_own l x hl).2, same ▸ h.wired.supplied.home l x hl⟩
  · exact .inl hy

/-- A placeholder can be replaced by the address of a block. -/
theorem resolveIn_steady {start : Builder} (h : start.Steady owed su b) (p : PlaceholderId)
    (x : BlockId) (i : InstrId) : Preserves (start.Steady owed su) (resolveIn p x i) b fun _ _ => True := by
  refine .onGraph h fun g run => ?_
  have grows := Graph.Extends.updateInstr run fun instr =>
    ⟨⟨fun v => if v = .placeholder p then .blockAddr x else v, fun v => ?_, rfl⟩, rfl⟩
  · have layout := layout_of_updateInstr run
    refine ⟨grows, ⟨h.wired.regraph grows layout (by rw [blocks_of_updateInstr run])
      (body_of_updateInstr run) (fun y hy => .inl (taken_of_updateInstr run y ▸ hy))
      (fun j ⟨op', hop', slot⟩ => ?_), layout.trans h.layout, h.home, h.settled⟩, trivial⟩
    rw [op?_of_updateInstr (t := Op.mapOperands _) run fun _ => rfl] at hop'
    split at hop'
    · next same =>
      obtain ⟨op, hop, rfl⟩ := Option.map_eq_some_iff.mp hop'
      exact ⟨op, same ▸ hop, by simpa using slot⟩
    · exact ⟨op', hop', slot⟩
  · by_cases hole : v = .placeholder p
    · exact .inr ⟨by rw [hole]; rfl, x, if_pos hole⟩
    · exact .inl (if_neg hole)

/-- Placeholders for a label can be replaced as soon as the label has a block. -/
theorem resolve_steady (h : b.Wired owed su) {l : LabelId} {x : BlockId} (hl : b.labels.home l = some x) :
    Preserves (b.Steady owed su) (resolve l x) b fun _ _ => True := by
  have start : b.Steady owed su b := ⟨h, rfl, rfl, rfl⟩
  unfold resolve
  refine .get (.when (P := fun _ => True) start trivial (fun _ => takeAddress_steady start hl) ?_)
  intro mid _ steady _
  have home := (home_retire mid.labels l).trans steady.home
  have settled := (settled_retire mid.labels l).trans steady.settled
  refine Preserves.bind (Q := fun _ _ => True) ?_ ?_
  · exact ⟨.of_graph (.refl _) rfl, ⟨steady.wired.relabel (home_retire mid.labels l),
      steady.layout, home, settled⟩, trivial⟩
  · rintro retired mid - steady -
    split
    · next p uses =>
      exact Preserves.forM (P := fun _ => True) (fun i mid steady _ => resolveIn_steady steady p x i)
        uses mid steady trivial
    · exact .pure steady trivial

/-- A label gets its place: its block is laid out. -/
theorem defineLabel_builds (h : b.Sound owed su) (l : LabelId) (span : Span) :
    Builds owed su (defineLabel l span) b fun x after =>
      after.labels.home l = some x ∧ x ∈ after.graph.layout := by
  unfold defineLabel
  refine (labelBlock_builds h l span).bind fun x mid _ sound hl => .get ?_
  dsimp only
  split
  · exact .fail sound nofun
  · unfold updateLabel
    refine .through ?_ ?_
    · exact .of_graph (.attach _ x) rfl
    have home : (mid.labels.update l ({ · with defined := true })).home = mid.labels.home :=
      home_update fun _ => rfl
    have attached := sound.attachHome hl
    refine ((resolve_steady attached.toWired (home ▸ hl)).keep fun _ => attached.steady).bind
      fun _ after grows sound ⟨same, _⟩ => .pure sound ⟨?_, ?_⟩
    · rw [same.home]
      exact home ▸ hl
    · exact grows.graph.mem_layout (mem_layout_attach.mpr (.inr rfl))

/-- The address of a label is a block address or a placeholder. -/
theorem addressOfLabel_builds (h : b.Sound owed su) (l : LabelId) (span : Span) :
    Builds owed su (addressOfLabel l span) b fun v _ => ∀ j, v ≠ .result j := by
  unfold addressOfLabel
  refine .get ?_
  split
  · next label found =>
    have marked : ({ b with labels := b.labels.update l ({ · with addressTaken := true }) } :
        Builder).Sound owed su :=
      h.relabel (home_update fun _ => rfl) (settled_update fun _ => rfl)
    refine Preserves.bind (Q := fun _ after => after.labels.home = b.labels.home)
      ⟨.of_graph (.refl _) rfl, marked, home_update fun _ => rfl⟩ ?_
    rintro - mid - sound home
    split
    · next x _ block =>
      have hl : mid.labels.home l = some x := by
        rw [home, LabelTable.home, found]
        exact block
      have start : mid.Steady owed su mid := ⟨sound.toWired, rfl, rfl, rfl⟩
      exact ((takeAddress_steady start hl).keep fun _ => sound.steady).bind fun _ _ _ sound _ =>
        .pure sound (by rintro _ ⟨⟩)
    · refine Preserves.bind (Q := fun _ _ => True) ?_ fun _ _ _ sound _ => .pure sound (by rintro _ ⟨⟩)
      exact ⟨.of_graph (.refl _) rfl, sound.relabel (home_placeholderFor mid.labels l)
        (settled_placeholderFor mid.labels l), trivial⟩
  · exact .fail h (by rintro _ ⟨⟩)

end Build

end FlowIR

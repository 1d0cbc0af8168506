import FlowIR.Proofs.Graph.View

/-!
Graphs under construction that are put together soundly.

`Formed` says it of a graph that may still have loose ends: blocks that a branch goes to and that
are not laid out yet. Such a block is owed by the construct that made it, or it is the block of a
label that has no place. The lemmas say what each way of building keeps. When nothing is owed and the
blocks of all labels are laid out, all branches stay inside the layout (`Formed.target_mem_layout`).
-/

namespace FlowIR

/-- The instruction neither ends a block nor starts one that exceptions arrive at. -/
def Graph.Plain (g : Graph) (i : InstrId) : Prop :=
  ∃ op, g.op? i = some op ∧ op.isTerminator = false ∧ op.isLandingPad = false

/-- What is known about a graph while it is built: `owed` blocks will be laid out by the construct
that made them, and `home` gives the blocks of labels, which stay empty until they are laid out. -/
structure Graph.Formed (owed : BlockId → Prop) (home : LabelId → Option BlockId) (entry : BlockId)
    (g : Graph) : Prop where
  entry_first : g.layout.head? = some entry
  nodup : g.layout.Nodup
  placed : ∀ x ∈ g.layout, x.index < g.blocks.size
  listed : ∀ x, ∀ i ∈ g.body x, (g.op? i).isSome
  endsOnce : ∀ x, ∀ i ∈ (g.body x).dropLast, ∀ op, g.op? i = some op → op.isTerminator = false
  targets : ∀ x, ∀ i ∈ g.body x, ∀ op, g.op? i = some op → ∀ t ∈ op.successors,
    t ≠ entry ∧ (t ∈ g.layout ∨ (∃ l, home l = some t) ∨ owed t)
  owed_own : ∀ x, owed x → x.index < g.blocks.size ∧ x ≠ entry ∧ ∀ l, home l ≠ some x
  home_own : ∀ l x, home l = some x → x.index < g.blocks.size ∧ x ≠ entry
  home_inj : ∀ l k x, home l = some x → home k = some x → l = k
  home_empty : ∀ l x, home l = some x → x ∉ g.layout → g.body x = []
  taken_ne : ∀ x, g.taken x = true → x ≠ entry

namespace Graph.Formed

variable {owed owing : BlockId → Prop} {home : LabelId → Option BlockId} {entry : BlockId}
  {g after : Graph} {x y : BlockId} {i : InstrId}

section

variable (h : g.Formed owed home entry)

include h

theorem entry_mem : entry ∈ g.layout := List.mem_of_head? h.entry_first

theorem entry_lt : entry.index < g.blocks.size := h.placed entry h.entry_mem

/-- A block that does not exist yet has no instructions and is no block of a label. -/
theorem home_ne_new (l : LabelId) :
    home l ≠ some ⟨g.blocks.size⟩ := fun eq =>
  Nat.lt_irrefl _ (h.home_own l _ eq).1

theorem op?_of_mem {i : InstrId} (hi : i ∈ g.body x) : ∃ op, g.op? i = some op :=
  Option.isSome_iff_exists.mp (h.listed x i hi)

/-- An instruction that a block lists is not the one that is made next. -/
theorem index_ne_of_mem {i : InstrId} (hi : i ∈ g.body x) : i.index ≠ g.instrs.size := by
  obtain ⟨op, hop⟩ := h.op?_of_mem hi
  exact Nat.ne_of_lt (index_lt_of_op? hop)

/-- In a block without an end nothing ends a block. -/
theorem isTerminator_of_open (hx : ¬ g.Ends x) {i : InstrId}
    (hi : i ∈ g.body x) {op : Op} (hop : g.op? i = some op) : op.isTerminator = false := by
  exact Bool.eq_false_iff.mpr fun hterm => hx ⟨i, op, getLast?_of_terminator (h.endsOnce x) hi hop hterm, hop, hterm⟩

/-- A new instruction ends no block. -/
theorem ends_of_newInstr {instr : Instr} (hx : (g.newInstr instr).2.Ends x) : g.Ends x := by
  obtain ⟨i, op, last, hop, hterm⟩ := hx
  rw [op?_newInstr, if_neg (h.index_ne_of_mem (List.mem_of_getLast? last))] at hop
  exact ⟨i, op, last, hop, hterm⟩

end

/-- What was owed may be owed by fewer, if the others have been laid out. -/
theorem settle (h : g.Formed owing home entry) (fewer : ∀ x, owed x → owing x)
    (done : ∀ x, owing x → owed x ∨ x ∈ g.layout) : g.Formed owed home entry :=
  { h with
    targets := fun x i hi op hop t ht => by
      obtain ⟨ne, there⟩ := h.targets x i hi op hop t ht
      refine ⟨ne, ?_⟩
      rcases there with laid | label | owing
      · exact .inl laid
      · exact .inr (.inl label)
      · exact (done t owing).elim (fun o => .inr (.inr o)) .inl
    owed_own := fun x hx => h.owed_own x (fewer x hx) }

/-- Where nothing is owed and the blocks of labels are laid out, branches go to blocks of the
layout. -/
theorem target_mem_layout (h : g.Formed (fun _ => False) home entry)
    (homes : ∀ l x, home l = some x → x ∈ g.layout) (hi : i ∈ g.body x) {op : Op}
    (hop : g.op? i = some op) {t : BlockId} (ht : t ∈ op.successors) : t ∈ g.layout := by
  rcases (h.targets x i hi op hop t ht).2 with laid | ⟨l, hl⟩ | none
  · exact laid
  · exact homes l t hl
  · exact none.elim

/-! ### Ways of building -/

variable (h : g.Formed owed home entry)

include h

/-- A new block is owed by whoever made it. -/
theorem newBlock (name : String) : (g.newBlock name).2.Formed (fun x => owed x ∨ x = ⟨g.blocks.size⟩) home entry where
  entry_first := h.entry_first
  nodup := h.nodup
  placed := fun x hx => by
    rw [size_newBlock]
    exact Nat.lt_succ_of_lt (h.placed x hx)
  listed := fun x i hi => h.listed x i (by simpa using hi)
  endsOnce := fun x i hi op hop => h.endsOnce x i (by simpa using hi) op hop
  targets := fun x i hi op hop t ht => by
    obtain ⟨ne, there⟩ := h.targets x i (by simpa using hi) op hop t ht
    exact ⟨ne, there.imp id (Or.imp id .inl)⟩
  owed_own := fun x hx => by
    rw [size_newBlock]
    rcases hx with old | rfl
    · obtain ⟨lt, ne, own⟩ := h.owed_own x old
      exact ⟨Nat.lt_succ_of_lt lt, ne, own⟩
    · exact ⟨Nat.lt_succ_self _, fun eq => Nat.lt_irrefl _ (eq ▸ h.entry_lt), h.home_ne_new⟩
  home_own := fun l x hl => by
    rw [size_newBlock]
    exact ⟨Nat.lt_succ_of_lt (h.home_own l x hl).1, (h.home_own l x hl).2⟩
  home_inj := h.home_inj
  home_empty := fun l x hl out => by simpa using h.home_empty l x hl out
  taken_ne := fun x hx => h.taken_ne x (by simpa using hx)

/-- A new block can be given to a label that has none. -/
theorem newHome (name : String) {l : LabelId} (none : home l = none) {home' : LabelId → Option BlockId}
    (here : home' l = some ⟨g.blocks.size⟩) (others : ∀ k, k ≠ l → home' k = home k) :
    (g.newBlock name).2.Formed owed home' entry := by
  have old : ∀ {k x}, home k = some x → home' k = some x := by
    intro k x hk
    rw [others k (fun eq => by rw [eq, none] at hk; cases hk), hk]
  have split : ∀ {k x}, home' k = some x → home k = some x ∨ (k = l ∧ x = ⟨g.blocks.size⟩) := by
    intro k x hk
    by_cases eq : k = l
    · subst eq
      rw [here] at hk
      exact .inr ⟨rfl, (Option.some.inj hk).symm⟩
    · exact .inl (others k eq ▸ hk)
  have empty : g.body ⟨g.blocks.size⟩ = [] := by simp [body]
  exact
    { entry_first := h.entry_first
      nodup := h.nodup
      placed := (h.newBlock name).placed
      listed := (h.newBlock name).listed
      endsOnce := (h.newBlock name).endsOnce
      targets := fun x i hi op hop t ht => by
        obtain ⟨ne, there⟩ := h.targets x i (by simpa using hi) op hop t ht
        refine ⟨ne, there.imp id (Or.imp ?_ id)⟩
        rintro ⟨k, hk⟩
        exact ⟨k, old hk⟩
      owed_own := fun x hx => by
        obtain ⟨lt, ne, own⟩ := h.owed_own x hx
        refine ⟨by rw [size_newBlock]; exact Nat.lt_succ_of_lt lt, ne, fun k hk => ?_⟩
        rcases split hk with hk | ⟨-, rfl⟩
        · exact own k hk
        · exact Nat.lt_irrefl _ lt
      home_own := fun k x hk => by
        rw [size_newBlock]
        rcases split hk with hk | ⟨-, rfl⟩
        · exact ⟨Nat.lt_succ_of_lt (h.home_own k x hk).1, (h.home_own k x hk).2⟩
        · exact ⟨Nat.lt_succ_self _, fun eq => Nat.lt_irrefl _ (eq ▸ h.entry_lt)⟩
      home_inj := fun k m x hk hm => by
        rcases split hk with hk | ⟨rfl, rfl⟩ <;> rcases split hm with hm | ⟨rfl, hx⟩
        · exact h.home_inj k m x hk hm
        · exact absurd (hx ▸ hk) (h.home_ne_new k)
        · exact absurd hm (h.home_ne_new m)
        · rfl
      home_empty := fun k x hk out => by
        rw [body_newBlock]
        rcases split hk with hk | ⟨-, rfl⟩
        · exact h.home_empty k x hk out
        · exact empty
      taken_ne := fun x hx => h.taken_ne x (by simpa using hx) }

/-- A block that is owed, or that a label starts, can be laid out. -/
theorem attach (hy : owed y ∨ ∃ l, home l = some y) : (g.attach y).Formed owed home entry where
  entry_first := by
    obtain ⟨rest, eq⟩ := layout_prefix_attach (g := g) (y := y)
    rw [← eq, List.head?_append, h.entry_first]
    rfl
  nodup := nodup_layout_attach h.nodup
  placed := fun x hx => by
    rw [blocks_attach]
    rcases mem_layout_attach.mp hx with laid | rfl
    · exact h.placed x laid
    · exact hy.elim (fun o => (h.owed_own x o).1) fun ⟨l, hl⟩ => (h.home_own l x hl).1
  listed := fun x i hi => by simpa using h.listed x i (by simpa using hi)
  endsOnce := fun x i hi op hop => h.endsOnce x i (by simpa using hi) op (by simpa using hop)
  targets := fun x i hi op hop t ht => by
    obtain ⟨ne, there⟩ := h.targets x i (by simpa using hi) op (by simpa using hop) t ht
    exact ⟨ne, there.imp (fun laid => mem_layout_attach.mpr (.inl laid)) id⟩
  owed_own := fun x hx => by simpa using h.owed_own x hx
  home_own := fun l x hl => by simpa using h.home_own l x hl
  home_inj := h.home_inj
  home_empty := fun l x hl out => by
    rw [body_attach]
    exact h.home_empty l x hl fun laid => out (mem_layout_attach.mpr (.inl laid))
  taken_ne := fun x hx => h.taken_ne x (by simpa using hx)

/-- What is known of an instruction that a block lists. -/
theorem item (hi : i ∈ g.body x) : ∃ op, g.op? i = some op ∧ (i ∈ (g.body x).dropLast → op.isTerminator = false) ∧
    ∀ t ∈ op.successors, t ≠ entry ∧ (t ∈ g.layout ∨ (∃ l, home l = some t) ∨ owed t) := by
  obtain ⟨op, hop⟩ := h.op?_of_mem hi
  exact ⟨op, hop, fun early => h.endsOnce x i early op hop, h.targets x i hi op hop⟩

/-- Nothing else matters than the layout and what is known of the instructions that blocks list. -/
theorem revise (layout : after.layout = g.layout)
    (size : after.blocks.size = g.blocks.size) (taken : ∀ x, after.taken x = true → g.taken x = true ∨ x ≠ entry)
    (empty : ∀ l x, home l = some x → x ∉ g.layout → after.body x = [])
    (items : ∀ x, ∀ i ∈ after.body x, ∃ op, after.op? i = some op ∧
      (i ∈ (after.body x).dropLast → op.isTerminator = false) ∧
      ∀ t ∈ op.successors, t ≠ entry ∧ (t ∈ g.layout ∨ (∃ l, home l = some t) ∨ owed t)) :
    after.Formed owed home entry where
  entry_first := layout ▸ h.entry_first
  nodup := layout ▸ h.nodup
  placed := fun x hx => size ▸ h.placed x (layout ▸ hx)
  listed := fun x i hi => by
    obtain ⟨op, hop, -⟩ := items x i hi
    simp [hop]
  endsOnce := fun x i hi op hop => by
    obtain ⟨op', hop', plain, -⟩ := items x i (List.dropLast_subset _ hi)
    cases hop.symm.trans hop'
    exact plain hi
  targets := fun x i hi op hop => by
    obtain ⟨op', hop', -, targets⟩ := items x i hi
    cases hop.symm.trans hop'
    exact layout ▸ targets
  owed_own := fun x hx => size ▸ h.owed_own x hx
  home_own := fun l x hl => size ▸ h.home_own l x hl
  home_inj := h.home_inj
  home_empty := fun l x hl out => empty l x hl (layout ▸ out)
  taken_ne := fun x hx => (taken x hx).elim (h.taken_ne x) id

/-- Instructions may change in anything but how they branch. A branch may also get targets in the layout. -/
theorem congr (layout : after.layout = g.layout)
    (size : after.blocks.size = g.blocks.size) (body : ∀ x, after.body x = g.body x)
    (taken : ∀ x, after.taken x = true → g.taken x = true ∨ x ≠ entry)
    (ops : ∀ x, ∀ i ∈ g.body x, ∀ op, g.op? i = some op → ∃ op', after.op? i = some op' ∧
      op'.isTerminator = op.isTerminator ∧
      ∀ t ∈ op'.successors, t ∈ op.successors ∨ (t ≠ entry ∧ t ∈ g.layout)) : after.Formed owed home entry := by
  refine h.revise layout size taken (fun l x hl out => (body x).trans (h.home_empty l x hl out)) fun x i hi => ?_
  rw [body] at hi ⊢
  obtain ⟨op, hop, early, targets⟩ := h.item hi
  obtain ⟨op', hop', same, successors⟩ := ops x i hi op hop
  refine ⟨op', hop', fun before => same.trans (early before), fun t ht => ?_⟩
  exact (successors t ht).elim (targets t) fun ⟨ne, laid⟩ => ⟨ne, .inl laid⟩

/-- An instruction that no block lists can be made at any time. -/
theorem newInstr (instr : Instr) : (g.newInstr instr).2.Formed owed home entry :=
  h.congr rfl rfl (fun _ => rfl) (fun _ hx => .inl hx) fun x i hi op hop =>
    ⟨op, by rw [op?_newInstr, if_neg (h.index_ne_of_mem hi), hop], rfl, fun _ ht => .inl ht⟩

/-- An instruction can be added to a block that has no end and is not the block of a label without
a place. -/
theorem append {op : Op} (hop : g.op? i = some op) (hx : ¬ g.Ends x) (own : ∀ l, home l = some x → x ∈ g.layout)
    (targets : ∀ t ∈ op.successors, t ≠ entry ∧ (t ∈ g.layout ∨ (∃ l, home l = some t) ∨ owed t))
    (run : g.append x i = .ok after) : after.Formed owed home entry := by
  have body := body_of_append run
  refine h.revise (layout_of_updateBlock run) (size_of_updateBlock run) (fun y hy => .inl (taken_of_append run y ▸ hy))
    (fun l y hl out => ?_) fun y k hk => ?_
  · rw [body, if_neg fun eq : y = x => out (eq ▸ own l (eq ▸ hl))]
    exact h.home_empty l y hl out
  rw [op?_of_updateBlock run]
  rw [body] at hk ⊢
  split at hk
  · next same =>
    rw [if_pos same, List.dropLast_concat]
    rcases List.mem_append.mp hk with old | new
    · obtain ⟨op', hop', -, targets'⟩ := h.item old
      exact ⟨op', hop', fun _ => h.isTerminator_of_open hx old hop', targets'⟩
    · cases List.mem_singleton.mp new
      exact ⟨op, hop, fun early => h.isTerminator_of_open hx early hop, targets⟩
  · next other =>
    rw [if_neg other]
    exact h.item hk

/-- Instructions that end nothing can be put in front of the entry block. -/
theorem insertFront {is : List InstrId} (plain : ∀ i ∈ is, g.Plain i)
    (run : g.insertFront entry is = .ok after) : after.Formed owed home entry := by
  have body := body_of_insertFront run
  refine h.revise (layout_of_updateBlock run) (size_of_updateBlock run)
    (fun y hy => .inl (taken_of_insertFront run y ▸ hy)) (fun l y hl out => ?_) fun y k hk => ?_
  · rw [body, if_neg (h.home_own l y hl).2]
    exact h.home_empty l y hl out
  rw [op?_of_updateBlock run]
  rw [body] at hk ⊢
  split at hk
  · next same =>
    rw [if_pos same]
    rcases List.mem_append.mp hk with new | old
    · obtain ⟨op, hop, hterm, -⟩ := plain k new
      exact ⟨op, hop, fun _ => hterm, fun t ht => absurd (Op.isTerminator_of_successor ht) (by simp [hterm])⟩
    · obtain ⟨op, hop, early, targets⟩ := h.item old
      refine ⟨op, hop, fun before => ?_, targets⟩
      rw [List.dropLast_append_of_ne_nil (List.ne_nil_of_mem old), List.mem_append] at before
      rcases before with front | before
      · obtain ⟨op', hop', hterm, -⟩ := plain k front
        cases hop.symm.trans hop'
        exact hterm
      · exact early before
  · next other =>
    rw [if_neg other]
    exact h.item hk

end Graph.Formed

end FlowIR

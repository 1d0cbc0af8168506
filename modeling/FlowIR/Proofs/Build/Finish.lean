import FlowIR.Proofs.Build.Seal

/-!
Finishing a sound function gives a closed and ordered graph, or an error that has nothing to do with
the shape of the graph.

Closing the blocks gives every block of the layout an end. Closing the labels lays out the blocks of labels that
were used and have no place. Then the function can be sealed.
-/

namespace FlowIR

open LabelTable List

variable {owed : BlockId → Prop} {su : Supply} {b : Builder}

namespace Build

/-! ### Blocks -/

/-- An open block can be ended by an instruction that uses nothing and goes nowhere. -/
theorem endBlock_steady {op : Op} {x : BlockId} (h : b.Wired owed su) (laid : x ∈ b.graph.layout)
    (placed : b.prologPlaced = true) (open' : ¬ b.graph.Ends x) (hterm : op.isTerminator = true)
    (plain : op.isAlloca = false) (uses : op.operands = []) (stays : op.successors = []) :
    Preserves (b.Steady owed su) (do append x (← newInstr { op })) b fun _ after =>
      after.graph.Ends x := by
  refine Preserves.bind (Q := fun i mid => i = ⟨b.graph.instrs.size⟩ ∧
      mid = { b with graph := (b.graph.newInstr { op }).2 })
    ⟨.of_graph (.newInstr _ _) rfl, ⟨h.newInstr plain, rfl, rfl, rfl⟩, rfl, rfl⟩ ?_
  rintro _ _ - steady ⟨rfl, rfl⟩
  refine .onGraph steady fun g run => ?_
  have run : (b.graph.newInstr { op }).2.append x ⟨b.graph.instrs.size⟩ = .ok g := run
  have still : ¬ (b.graph.newInstr { op }).2.Ends x := fun e => open' (h.formed.ends_of_newInstr e)
  have hop : (b.graph.newInstr { op }).2.op? ⟨b.graph.instrs.size⟩ = some op := by simp
  have layout : g.layout = b.graph.layout := (Graph.layout_of_updateBlock run).trans rfl
  refine ⟨.append still run, ⟨?_, layout, rfl, rfl⟩, ⟨b.graph.instrs.size⟩, op, ?_, ?_, hterm⟩
  · have inner : op.isInner = true := by cases op <;> first | rfl | (cases hterm; done) | cases stays
    exact steady.wired.append hop laid placed still inner ⟨by simp [uses], by simp [stays]⟩ run
  · show (g.body x).getLast? = _
    rw [Graph.body_of_append run, if_pos rfl, getLast?_concat]
  · show g.op? _ = _
    rw [Graph.op?_of_updateBlock run, hop]

/-- A block that is closed has an end. -/
theorem closeBlock_builds {op : Op} {x : BlockId} (h : b.Sound owed su) (laid : x ∈ b.graph.layout)
    (placed : b.prologPlaced = true) (hterm : op.isTerminator = true) (plain : op.isAlloca = false)
    (uses : op.operands = []) (stays : op.successors = []) :
    Builds owed su (closeBlock op x) b fun _ after =>
      after.graph.layout = b.graph.layout ∧ after.graph.Ends x := by
  unfold closeBlock
  refine .get (Preserves.bind (Q := fun t after => after = b ∧ (t = true ↔ b.graph.Ends x))
    (.checked h fun t run => ⟨rfl, Graph.isTerminated_eq_ok run⟩) ?_)
  rintro t b - - ⟨rfl, ends⟩
  split
  · next ended => exact .pure h ⟨rfl, ends.mp ended⟩
  · next unended =>
    exact ((endBlock_steady h.toWired laid placed (fun e => unended (ends.mpr e)) hterm plain uses
      stays).keep fun _ => h.steady).mono fun _ _ _ _ ⟨same, ended⟩ => ⟨same.layout, ended⟩

/-- All blocks of the layout get an end. -/
theorem closeBlocks_ensures (h : b.Sound owed su) (placed : b.prologPlaced = true) :
    Ensures closeBlocks b (fun _ after => after.Sound owed su ∧ after.prologPlaced = true ∧
      after.entry = b.entry ∧ ∀ x ∈ after.graph.layout, after.graph.Ends x) fun e _ => e.NotVerify := by
  unfold closeBlocks
  refine .get ?_
  -- The invariant: the layout stays, and what is not in the rest of the list has an end.
  refine (Ensures.forM (I := fun rest mid => mid.Sound owed su ∧ mid.prologPlaced = true ∧
    mid.entry = b.entry ∧ mid.graph.layout = b.graph.layout ∧ (∀ x ∈ rest, x ∈ b.graph.layout) ∧
    ∀ x ∈ b.graph.layout, x ∈ rest ∨ mid.graph.Ends x) ?_ b.graph.layout b
    ⟨h, placed, rfl, rfl, fun _ hx => hx, fun _ hx => .inl hx⟩).imp ?_
  · rintro x rest mid ⟨sound, placed, entry, layout, inside, done⟩
    refine Ensures.mono (closeBlock_builds sound (x := x) ?_ placed ?_ ?_ ?_ ?_) ?_ fun _ _ he => he.1
    · exact layout ▸ inside x (mem_cons_self ..)
    iterate 4 split <;> rfl
    · rintro - after ⟨grows, sound', layout', ends⟩
      refine ⟨sound', grows.placed.trans placed, grows.entry.trans entry, layout'.trans layout,
        fun y hy => inside y (mem_cons_of_mem x hy), fun y hy => ?_⟩
      rcases done y hy with waits | ended
      · rcases mem_cons.mp waits with rfl | later
        · exact .inr ends
        · exact .inl later
      · exact .inr (grows.graph.ends ended)
  · rintro - after ⟨sound, placed, entry, layout, -, done⟩
    refine ⟨sound, placed, entry, fun x hx => ?_⟩
    exact (done x (layout ▸ hx)).elim (fun none => absurd none not_mem_nil) id

/-! ### Labels -/

/-- The block of a label is not laid out by asking for it. -/
theorem labelBlock_wires (h : b.Wired owed su) (l : LabelId) (span : Span) :
    Preserves (Builder.Wired owed su) (labelBlock l span) b fun x after =>
      after.graph.layout = b.graph.layout ∧ after.labels.home l = some x ∧
      (∀ k, k ≠ l → after.labels.home k = b.labels.home k) ∧
      (b.labels.home l = some x ∨ x ∉ b.graph.layout) := by
  unfold labelBlock
  refine .get ?_
  split
  · next label found =>
    split
    · next x block =>
      have here : b.labels.home l = some x := by simp [home, found, block]
      exact .pure h ⟨rfl, here, fun _ _ => rfl, .inl here⟩
    · next none =>
      refine .of_run rfl ⟨.of_graph (.newBlock _ _) rfl, h.newHome found none _ _, rfl, ?_, ?_, .inr ?_⟩
      · simp [home, get?_update, found]
      · intro k hk
        simp [home, get?_update, hk]
      · exact fun laid => Nat.lt_irrefl _ (h.formed.placed _ laid)
  · exact .fail h (by rintro _ ⟨⟩)

/-- A label that is closed gets a block that traps. -/
theorem closeLabel_wires {l : LabelId} (h : b.Wired owed su) (placed : b.prologPlaced = true)
    (out : ∀ x, b.labels.home l = some x → x ∉ b.graph.layout) :
    Preserves (Builder.Wired owed su) (closeLabel l) b fun _ after => ∃ x,
      (∀ y, y ∈ after.graph.layout ↔ y ∈ b.graph.layout ∨ y = x) ∧ after.labels.home l = some x ∧
      after.graph.Ends x ∧ ∀ k, k ≠ l → after.labels.home k = b.labels.home k := by
  unfold closeLabel
  refine .get (.get ?_)
  dsimp only
  split
  · refine (labelBlock_wires h l _).bind fun x b₁ grows₁ wired₁ ⟨layout₁, here₁, others₁, old⟩ => ?_
    have unlaid : x ∉ b₁.graph.layout := layout₁ ▸ old.elim (out x) id
    have empty := wired₁.formed.home_empty l x here₁ unlaid
    refine Preserves.bind (Q := fun _ b₂ => b₂ = { b₁ with graph := b₁.graph.attach x })
      (.change (.of_graph (.attach _ x) rfl) (wired₁.attach (.inr ⟨l, here₁⟩)) rfl) ?_
    rintro - _ - wired₂ rfl
    rw [← bind_assoc]
    refine Preserves.bind ((endBlock_steady wired₂ (Graph.mem_layout_attach.mpr (.inr rfl))
      (grows₁.placed.trans placed) ?_ rfl rfl rfl rfl).keep fun _ same => same.wired) ?_
    · rintro ⟨i, op, last, -⟩
      rw [Graph.body_attach, empty] at last
      cases last
    rintro - b₃ - wired₃ ⟨same₃, ends₃⟩
    have here₃ : b₃.labels.home l = some x := (congrFun same₃.home l).trans here₁
    refine ((resolve_steady wired₃ here₃).keep fun _ same => same.wired).mono ?_
    rintro - b₄ grows₄ wired₄ ⟨same₄, -⟩
    refine ⟨x, fun y => ?_, (congrFun same₄.home l).trans here₃, grows₄.graph.ends ends₃, fun k hk => ?_⟩
    · rw [same₄.layout, same₃.layout, Graph.mem_layout_attach, layout₁]
    · rw [same₄.home, same₃.home]
      exact others₁ k hk
  · exact .fail h nofun

end Build

/-- The state while labels are closed: the labels in `rest` are those whose blocks are not laid out. -/
structure Builder.Closing (su : Supply) (rest : List LabelId) (b : Builder) : Prop where
  wired : b.Wired (fun _ => False) su
  placed : b.prologPlaced = true
  ends : ∀ x ∈ b.graph.layout, b.graph.Ends x
  nodup : rest.Nodup
  waits : ∀ l ∈ rest, ∀ x, b.labels.home l = some x → x ∉ b.graph.layout
  homes : ∀ l, l ∉ rest → ∀ x, b.labels.home l = some x → x ∈ b.graph.layout

/-- The labels that are used and have no place are those whose blocks are not laid out. -/
theorem Builder.Sound.closing (h : b.Sound (fun _ => False) su) (placed : b.prologPlaced = true)
    (ends : ∀ x ∈ b.graph.layout, b.graph.Ends x) : b.Closing su b.labels.dangling where
  wired := h.toWired
  placed := placed
  ends := ends
  nodup := by
    refine List.Pairwise.filter _ (pairwise_map.mpr ?_)
    exact nodup_range.imp fun ne eq => ne (LabelId.mk.inj eq)
  waits := fun l hl x hx => by
    refine h.housed.unlaid l x hx fun settled => ?_
    obtain ⟨-, dangles⟩ := mem_filter.mp hl
    unfold LabelTable.settled at settled
    cases found : b.labels.get? l with
    | none => simp [found] at settled
    | some label => simp_all [Label.isDangling]
  homes := fun l hl x hx => by
    obtain ⟨label, found, block⟩ := Option.bind_eq_some_iff.mp hx
    have settled : b.labels.settled l := by
      unfold settled
      rw [found]
      refine Decidable.byContradiction fun undefined => hl (mem_filter.mpr ⟨?_, ?_⟩)
      · have inside : l.index < b.labels.labels.size := (Array.getElem?_eq_some_iff.mp found).1
        exact mem_map.mpr ⟨l.index, mem_range.mpr inside, rfl⟩
      · simp_all [Label.isDangling]
    obtain ⟨y, hy, laid⟩ := h.housed.laid l settled
    cases hx.symm.trans hy
    exact laid

namespace Build

/-- After all labels have been closed the blocks of all labels are laid out. -/
theorem closeLabels_ensures (ls : List LabelId) (b : Builder) (h : b.Closing su ls) :
    Ensures (ls.forM closeLabel) b (fun _ after => after.Closing su [] ∧ b.Extends after)
      fun e _ => e.NotVerify := by
  refine Ensures.forM (I := fun rest mid => mid.Closing su rest ∧ b.Extends mid) ?_ ls b ⟨h, .refl b⟩
  rintro l rest mid ⟨closing, grown⟩
  refine Ensures.mono (closeLabel_wires closing.wired closing.placed
    (closing.waits l (mem_cons_self ..))) ?_ fun _ _ he => he.1
  rintro - after ⟨grows, wired, x, layout, here, ends, others⟩
  obtain ⟨fresh, nodup⟩ := nodup_cons.mp closing.nodup
  refine ⟨⟨wired, grows.placed.trans closing.placed, fun y hy => ?_, nodup, fun k hk y hy laid => ?_,
    fun k hk y hy => ?_⟩, grown.trans grows⟩
  · rcases (layout y).mp hy with old | rfl
    · exact grows.graph.ends (closing.ends y old)
    · exact ends
  · have ne : k ≠ l := fun eq => fresh (eq ▸ hk)
    rcases (layout y).mp laid with old | rfl
    · exact closing.waits k (mem_cons_of_mem l hk) y (others k ne ▸ hy) old
    · exact ne (wired.formed.home_inj k l y hy here)
  · refine (layout y).mpr ?_
    by_cases same : k = l
    · cases same
      exact .inr (Option.some.inj (hy.symm.trans here))
    · refine .inl (closing.homes k (fun mem => ?_) y (others k same ▸ hy))
      exact (mem_cons.mp mem).elim same hk

end Build

/-! ### The finished graph -/

namespace Graph

variable {g after : Graph} {home : LabelId → Option BlockId} {entry : BlockId}

/-- When nothing is owed, the blocks of labels are laid out and every block has an end, the graph is
closed. -/
theorem Formed.closed (h : g.Formed (fun _ => False) home entry)
    (homes : ∀ l x, home l = some x → x ∈ g.layout) (ends : ∀ x ∈ g.layout, g.Ends x) :
    g.Closed entry where
  entry_first := h.entry_first
  nodup := h.nodup
  placed := h.placed
  ends := ends
  endsOnce := h.endsOnce
  targets := fun x _ i hi op hop t ht =>
    ⟨h.target_mem_layout homes hi hop ht, (h.targets x i hi op hop t ht).1⟩

/-- What is put in front of a block does not change its end. -/
theorem Ends.insertFront {x y : BlockId} {is : List InstrId} (h : g.Ends x)
    (run : g.insertFront y is = .ok after) : after.Ends x := by
  obtain ⟨i, op, last, hop, hterm⟩ := h
  refine ⟨i, op, ?_, op?_of_updateBlock run i ▸ hop, hterm⟩
  rw [body_of_insertFront run]
  split
  · next same =>
    rw [getLast?_append, ← same, last]
    rfl
  · exact last

/-- With the late slots in front, every slot is made before it is used. -/
theorem Supplied.ordered (h : g.Supplied su home entry) {late : List InstrId} (stocked : g.Stocked entry true [] late)
    (run : g.insertFront entry late = .ok after) : after.Ordered su entry := by
  have after_supplied := h.insertFront stocked.late_plain
    (fun k i hi op hop j hj => .inr (stocked.late_order k i hi op hop j hj)) run
  have body : after.body entry = late ++ g.body entry := by
    rw [body_of_insertFront run, if_pos rfl]
  have ops := op?_of_updateBlock run
  have kept : ∀ {j}, g.Kept j → after.Kept j := fun ⟨op, hop, yields⟩ => ⟨op, ops _ ▸ hop, yields⟩
  have place : ∀ j, g.Slot j → j ∈ late ∨ g.Ahead entry j := fun j hj =>
    (stocked.all j hj).resolve_left not_mem_nil
  refine ⟨h.entry, ?_, ?_, after_supplied.uses, after_supplied.edges⟩
  · intro k i hi op hop j hj
    rw [body] at hi ⊢
    rw [ops] at hop
    by_cases early : k < late.length
    · rw [getElem?_append_left early] at hi
      rw [take_append_of_le_length (Nat.le_of_lt early)]
      exact (stocked.late_order k i hi op hop j hj).imp id kept
    · have behind : late.length ≤ k := Nat.le_of_not_lt early
      rw [getElem?_append_right behind] at hi
      rw [take_append, take_of_length_le behind, mem_append]
      rcases (h.uses entry _ i hi op hop).1 j hj with slot | given | ⟨mem, keeps⟩
      · refine ⟨(place j slot).imp id ?_, kept slot.kept⟩
        rintro ⟨front, ⟨rest, eq⟩, unused⟩
        have past : (front ++ [j]).length ≤ k - late.length := by
          refine Nat.le_of_not_lt fun inside => ?_
          rw [← eq, getElem?_append_left inside] at hi
          rcases mem_append.mp (mem_of_getElem? hi) with early | self
          · obtain ⟨op', hop', none⟩ := unused i early
            cases hop.symm.trans hop'
            exact none hj
          · obtain ⟨op', hop', alloca⟩ := slot
            cases mem_singleton.mp self
            cases hop.symm.trans hop'
            rw [Op.operands_eq_nil_of_isAlloca alloca] at hj
            cases hj
        rw [← eq, take_append, take_of_length_le past]
        simp
      · exact absurd given (h.entry.1 j)
      · exact ⟨.inr mem, kept keeps⟩
  · rintro j ⟨op, hop, slot⟩
    rw [body, mem_append]
    refine (place j ⟨op, ops j ▸ hop, slot⟩).imp id ?_
    rintro ⟨front, pre, -⟩
    exact pre.subset (by simp)

end Graph

/-- The computation did not stop because the blocks or the branches of a graph were refused. -/
def Halt.OnlyPlaceholders : Halt BuildError → Prop
  | .error e => ∀ v, e.cause = .verify v → ∃ function block, v = .unresolvedPlaceholder function block
  | .fault _ => True

theorem Halt.NotVerify.onlyPlaceholders {e : Halt BuildError} (h : e.NotVerify) : e.OnlyPlaceholders := by
  cases e with
  | error e => exact fun v hv => absurd hv (h v)
  | fault _ => trivial

/-- With targets for the indirect branches and the late slots in front the graph is closed and ordered. -/
theorem Builder.Arms.complete {dests : List BlockId} {mid last : Graph} (arms : b.Arms dests mid last)
    (h : b.Closing su []) : last.Closed b.entry ∧ last.Ordered su b.entry := by
  have redirects := arms.retargets.redirects
  have inside : ∀ t ∈ dests, t ∈ b.graph.layout ∧ b.graph.taken t = true := fun _ => arms.mem_dests.mp
  have formed := redirects.formed h.wired.formed inside
  have supplied := redirects.supplied h.wired.supplied fun t ht => (inside t ht).2
  have stocked := redirects.stocked h.wired.stocked
  rw [h.placed, h.wired.stocked.pending_nil h.placed] at stocked
  have layout := Graph.layout_of_updateBlock arms.placed
  refine ⟨?_, supplied.ordered stocked arms.placed⟩
  refine (formed.insertFront stocked.late_plain arms.placed).closed (fun l x hl => ?_) fun x hx => ?_
  · rw [layout, redirects.layout]
    exact h.homes l not_mem_nil x hl
  · rw [layout, redirects.layout] at hx
    exact (redirects.ends (h.ends x hx)).insertFront arms.placed

namespace Build

/-- A sound function can be finished, and the graph is closed and ordered; or there is an error, which is
not about the blocks or branches of the graph. -/
theorem finish_ensures (h : b.Sound (fun _ => False) su) (placed : b.prologPlaced = true) :
    Ensures finish b (fun g _ => g.Closed b.entry ∧ g.Ordered su b.entry)
      fun e _ => e.OnlyPlaceholders := by
  have error : ∀ (e : Halt BuildError) (_ : Builder), e.NotVerify → e.OnlyPlaceholders :=
    fun _ _ => Halt.NotVerify.onlyPlaceholders
  refine ensures_finish (R := fun mid => mid.Closing su [] ∧ mid.entry = b.entry) placed
    ((closeBlocks_ensures h placed).mono (fun _ _ q => q) error) ?_ ?_ ?_
  · rintro mid ⟨sound, placed, entry, ends⟩
    exact (closeLabels_ensures _ mid (sound.closing placed ends)).mono
      (fun _ _ ⟨closing, grows⟩ => ⟨closing, grows.entry.trans entry⟩) error
  · intro mid _ _ e cause v hv
    cases cause.symm.trans hv
  · rintro mid ⟨closing, entry⟩
    rw [← entry]
    refine (conclude_ensures mid).mono ?_ ?_
    · rintro g - ⟨dests, armed, last, seals, -⟩
      obtain ⟨closed, ordered⟩ := seals.complete closing
      exact ⟨seals.closed closed, ordered.congr seals.blocks seals.instrs⟩
    · rintro _ - ⟨-, ⟨f, rfl⟩ | ⟨dests, armed, last, g, v, seals, refused, e, rfl, cause⟩⟩
      · trivial
      · obtain ⟨function, block, rfl⟩ := (seals.closed (seals.complete closing).1).verify_error refused
        exact fun v hv => ⟨function, block, by cases cause.symm.trans hv; rfl⟩

end Build

end FlowIR

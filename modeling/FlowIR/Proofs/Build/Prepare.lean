import FlowIR.Proofs.Build.Owned

/-!
Setting up keeps a function sound.

Every change of storage keeps the invariant (`Builder.Move.sound`), and so do the operations on labels. Whatever
the sequence of calls, the function it leaves is sound (`prepare_sound`).
-/

namespace FlowIR

variable {owed : BlockId → Prop} {su : Supply} {b : Builder}

theorem Graph.Slot.kept {g : Graph} {j : InstrId} (h : g.Slot j) : g.Kept j := by
  obtain ⟨op, hop, slot⟩ := h
  refine ⟨op, hop, ?_⟩
  cases op <;> first | rfl | simp [Op.isAlloca] at slot

/-! ### Changes of storage -/

namespace Builder.Sound

variable {base : Operand → Prop} {mid : Builder} {is : List InstrId}

variable (h : b.Sound owed su)

include h

/-- Instructions that no block lists do not matter. -/
theorem spilled (k : b.Spilled base mid is) : mid.Sound owed su := by
  have grows := k.graph_extends
  have slots := fun j (hj : mid.graph.Slot j) => k.slot_of_slot hj
  have holdings := k.holdings
  obtain ⟨instrs, names, vars, rfl⟩ := k.same
  have wired := h.regraph grows rfl rfl (fun _ => rfl) (fun _ hx => .inl hx) slots
  refine (h.steady ⟨wired, rfl, rfl, rfl⟩).congr rfl rfl rfl rfl rfl rfl fun v hv => ?_
  rw [roots_eq] at hv ⊢
  rwa [holdings] at hv

/-- The prolog takes its place in the empty entry block. -/
theorem placeProlog (unplaced : b.prologPlaced = false) (k : b.Spilled b.graph.Storage mid is) {g : Graph}
    (run : mid.graph.insertFront b.entry (b.pendingSlots ++ is) = .ok g) :
    ({ mid with graph := g, pendingSlots := [], prologPlaced := true } : Builder).Sound owed su := by
  have sound := h.spilled k
  have slot : ∀ i ∈ b.pendingSlots, mid.graph.Slot i := fun i hi => k.graph_extends.slot (h.stocked.pending_slot i hi)
  have plain : ∀ i ∈ b.pendingSlots ++ is, mid.graph.Plain i := by
    intro i hi
    rcases List.mem_append.mp hi with pending | new
    · obtain ⟨op, hop, isSlot⟩ := slot i pending
      exact ⟨op, hop, by cases op <;> first | exact ⟨rfl, rfl⟩ | simp [Op.isAlloca] at isSlot⟩
    · obtain ⟨op, hop, fills⟩ := k.new i new
      exact ⟨op, hop, fills.inner⟩
  obtain ⟨instrs, names, vars, rfl⟩ := k.same
  have grows := Graph.Extends.insertFront (sound.stocked.body_nil unplaced) run
  refine ⟨⟨sound.formed.insertFront plain run, sound.supplied.insertFront plain ?_ run,
    (unplaced ▸ sound.stocked).place run, fun v hv => grows.stable (sound.rooted v hv)⟩,
    sound.housed.congr (Graph.layout_of_updateBlock run)⟩
  intro n i hi op hop j hj
  by_cases early : n < b.pendingSlots.length
  · rw [List.getElem?_append_left early] at hi
    obtain ⟨op', hop', isSlot⟩ := slot i (List.mem_of_getElem? hi)
    cases hop.symm.trans hop'
    rw [Op.operands_eq_nil_of_isAlloca isSlot] at hj
    cases hj
  · have behind := Nat.le_of_not_lt early
    rw [List.getElem?_append_right behind] at hi
    rw [List.take_append, List.take_of_length_le behind, List.mem_append]
    rcases k.uses hi hop hj with isSlot | ⟨mem, kept⟩
    · exact .inl (k.graph_extends.slot isSlot)
    · exact .inr ⟨.inr mem, kept⟩

/-- Instructions that fill a late slot wait behind it. -/
theorem fill {slot : InstrId} (waits : slot ∈ b.lateSlots) (isSlot : b.graph.Slot slot)
    (k : b.Spilled (· = .result slot) mid is) :
    ({ mid with lateSlots := mid.lateSlots ++ is } : Builder).Sound owed su := by
  have sound := h.spilled k
  have late : slot ∈ mid.lateSlots := by
    obtain ⟨_, _, _, rfl⟩ := k.same
    exact waits
  refine ⟨⟨sound.formed, sound.supplied, ?_, sound.rooted⟩, sound.housed⟩
  have added := sound.stocked.add (.refl _) [] is (fun _ hj => .inl hj) sound.stocked.body_nil
    (by rintro _ ⟨⟩) (fun _ => rfl) (fun off => ?_) ?_ ?_
  · rwa [List.append_nil] at added
  · rw [sound.stocked.late_nil off] at late
    cases late
  · intro i hi
    obtain ⟨op, hop, fills⟩ := k.new i hi
    exact ⟨op, hop, fills.inner⟩
  · intro n i hi op hop j hj
    rcases k.uses hi hop hj with eq | ⟨mem, kept⟩
    · cases eq
      exact ⟨List.mem_append_left _ late, (k.graph_extends.slot isSlot).kept⟩
    · exact ⟨List.mem_append_right _ mem, kept⟩

/-- What has waited behind the prolog takes its place. -/
theorem placeLate {g : Graph} (run : b.graph.insertFront b.entry b.lateSlots = .ok g) :
    ({ b with graph := g, lateSlots := [] } : Builder).Sound owed su := by
  refine ⟨⟨h.formed.insertFront h.stocked.late_plain run, h.supplied.insertFront h.stocked.late_plain
    (fun k i hi op hop j hj => .inr (h.stocked.late_order k i hi op hop j hj)) run, h.stocked.placeLate run,
    fun v hv j hj => ?_⟩, h.housed.congr (Graph.layout_of_updateBlock run)⟩
  obtain ⟨op, hop, slot⟩ := h.rooted v hv j hj
  exact ⟨op, (Graph.op?_of_updateBlock run j).trans hop, slot⟩

end Builder.Sound

/-- Every change of storage keeps a function sound. -/
theorem Builder.Move.sound {after : Builder} (k : b.Move after) (h : b.Sound owed su) :
    after.Sound owed su ∧ after.entry = b.entry := by
  cases k with
  | adorn k =>
    obtain ⟨graph, names, rfl, -, alike⟩ := k
    exact ⟨(h.rename alike.layout alike.blocks alike.op? alike.graph_extends).congr rfl rfl rfl rfl rfl rfl
      fun _ hv => hv, rfl⟩
  | note storage =>
    exact ⟨⟨⟨h.formed, h.supplied, h.stocked, fun v hv => (storage v hv).elim (h.rooted v) (·.stable)⟩, h.housed⟩, rfl⟩
  | slot shape name => exact ⟨h.withSlot rfl, (b.extends_withSlot _).entry⟩
  | fill placed waits isSlot k =>
    refine ⟨h.fill waits isSlot k, ?_⟩
    obtain ⟨_, _, _, rfl⟩ := k.same
    rfl
  | prolog unplaced k run =>
    refine ⟨h.placeProlog unplaced k run, ?_⟩
    obtain ⟨_, _, _, rfl⟩ := k.same
    rfl
  | late run => exact ⟨h.placeLate run, rfl⟩

theorem Builder.Moves.sound {after : Builder} (k : b.Moves after) (h : b.Sound owed su) :
    after.Sound owed su ∧ after.entry = b.entry :=
  k.keeps (I := fun after => after.Sound owed su ∧ after.entry = b.entry)
    (fun k h => ⟨(k.sound h.1).1, (k.sound h.1).2.trans h.2⟩) ⟨h, rfl⟩

/-! ### Sequences of calls -/

namespace Build

variable {target : Target} {sig : Signature} {given : Issued}

/-- The prolog is placed once. -/
theorem placeProlog_skips (placed : b.prologPlaced = true) : placeProlog b = .ok () b := by
  unfold placeProlog
  rw [get_bind_apply, if_pos placed]
  rfl

/-- Placing the prolog is the one operation that puts code where code may stand, so it does not count as one that
extends the function. -/
theorem placeProlog_sound (h : b.Sound owed su) (k : b.Apportioned target sig given) : Ensures placeProlog b
    (fun _ after => after.Sound owed su ∧ after.prologPlaced = true ∧ after.entry = b.entry)
    fun e _ => e.NotVerify := by
  refine (placeProlog_stores k).mono (fun _ after stored => ?_) ?_
  · obtain ⟨sound, entry⟩ := stored.1.1.sound h
    exact ⟨sound, stored.2, entry⟩
  · rintro (f | e) after failed
    · trivial
    · intro v eq
      have storage := failed.1
      rw [eq] at storage
      cases storage

/-- Every call about labels keeps the invariant, whether it succeeds or reports an error. -/
theorem Call.apply_sound {call : Call} {after : Builder} (other : call.isStorage = false)
    (run : call.apply b = .ok after) (h : b.Sound owed su) : after.Sound owed su := by
  have kept : ∀ {α : Type} {x : BuildM α} {Q : α → Builder → Prop}, (call.perform = do let _ ← x) →
      Builds owed su x b Q → after.Sound owed su := fun performs builds =>
    (exists_of_apply performs builds run).elim (fun ⟨_, _, _, sound, _⟩ => sound) fun ⟨_, _, _, sound⟩ => sound
  cases call with
  | newLabel span => exact kept rfl (newLabel_builds h span)
  | labelBlock l span => exact kept rfl (labelBlock_builds h l span)
  | defineLabel l span => exact kept rfl (defineLabel_builds h l span)
  | addressOfLabel l span => exact kept rfl (addressOfLabel_builds h l span)
  | registerParam | registerEnv | registerLocal | newTemporary | markError | fresh | placeProlog | placeLateSlots =>
    cases other

/-- Whatever is called, in whatever order, the function stays sound. -/
theorem prepare_sound {calls : List Call} {after : Builder} (h : b.Sound owed su) (k : b.Apportioned target sig given)
    (run : prepare calls b = .ok after) : after.Sound owed su :=
  (prepare_keeps (fun move h => (move.sound h).1) Call.apply_sound k h run).1

end Build

/-- A graph that has one empty block is sound. -/
theorem Graph.Formed.single {g : Graph} {name : String} (blocks : g.blocks = #[{ name }])
    (layout : g.layout = [⟨0⟩]) : g.Formed (fun _ => False) (fun _ => none) ⟨0⟩ := by
  have body : ∀ x, g.body x = [] := by
    intro x
    rw [Graph.body, blocks]
    rcases x with ⟨_ | n⟩ <;> rfl
  exact
    { entry_first := by rw [layout]; rfl
      nodup := by rw [layout]; simp
      placed := fun x hx => by
        rw [layout, List.mem_singleton] at hx
        rw [hx, blocks]
        exact Nat.one_pos
      listed := fun x i hi => by rw [body] at hi; cases hi
      endsOnce := fun x i hi => by rw [body] at hi; cases hi
      targets := fun x i hi => by rw [body] at hi; cases hi
      owed_own := fun _ h => h.elim
      home_own := by rintro _ _ ⟨⟩
      home_inj := by rintro _ _ _ ⟨⟩
      home_empty := by rintro _ _ ⟨⟩
      taken_ne := fun x hx => by
        rw [Graph.taken, blocks] at hx
        rcases x with ⟨_ | n⟩ <;> simp at hx }

/-- A function starts with an empty entry block. -/
theorem Session.begin_sound {s : Session} {name : String} {signature : Signature}
    (run : s.begin name signature = .ok b) : b.Sound (fun _ => False) .none := by
  unfold Session.begin at run
  rw [Checked.bind_eq_ok_iff] at run
  obtain ⟨convention, -, run⟩ := run
  cases run
  have body : ∀ x : BlockId, ((Graph.new name convention.argShapes convention.returnShape).addBlock
      "entry").2.body x = [] := by
    rintro ⟨_ | n⟩ <;> rfl
  have slots : ∀ j, ¬ ((Graph.new name convention.argShapes convention.returnShape).addBlock
      "entry").2.Slot j := by
    rintro j ⟨op, hop, -⟩
    cases hop
  refine ⟨⟨.single rfl rfl, .of_empty body, ?_, fun v hv => ?_⟩,
    ⟨fun l hl => ?_, fun l x hl => ?_⟩⟩
  · exact ⟨by rintro _ ⟨⟩, by rintro _ ⟨⟩,
      fun k i hi => by simp at hi, fun j hj => absurd hj (slots j), fun _ => rfl, fun _ => rfl, fun _ => body _⟩
  · cases hv
  · cases hl
  · cases hl

end FlowIR

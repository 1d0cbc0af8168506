import FlowIR.Proofs.Graph.Closed

/-!
What the verifier accepts.

`Graph.SoundAt` says of one block that the block and its instructions exist, that its last instruction is
the one that ends it, that no operand is a placeholder, and that control goes on inside the layout. A graph
is accepted exactly if it has a layout and all blocks of the layout are sound (`Graph.verify_eq_ok_iff`).
In such a graph the search for reachable blocks finds its way, and taking out what it does not find
leaves a graph that is accepted again.
-/

namespace FlowIR

open List

/-! ### Loops that succeed -/

section Loops

variable {α : Type}

theorem exists_anyM {p : α → Checked Bool} :
    ∀ {l : List α}, (∀ a ∈ l, ∃ t, p a = .ok t) → ∃ t, l.anyM p = .ok t
  | [], _ => ⟨false, rfl⟩
  | a :: l, h => by
    obtain ⟨t, ht⟩ := h a mem_cons_self
    obtain ⟨u, hu⟩ := exists_anyM fun b hb => h b (mem_cons_of_mem a hb)
    rw [anyM_cons, ht]
    cases t with
    | true => exact ⟨true, rfl⟩
    | false => exact ⟨u, hu⟩

/-- Nothing is found exactly if every element can be asked and is not what is looked for. -/
theorem anyM_eq_false_iff {p : α → Checked Bool} :
    ∀ {l : List α}, l.anyM p = .ok false ↔ ∀ a ∈ l, p a = .ok false
  | [] => by simp [pure, Except.pure]
  | a :: l => by
    rw [anyM_cons, Checked.bind_eq_ok_iff, forall_mem_cons, ← anyM_eq_false_iff]
    constructor
    · rintro ⟨t, ht, run⟩
      cases t with
      | true => cases run
      | false => exact ⟨ht, run⟩
    · rintro ⟨ht, run⟩
      exact ⟨false, ht, run⟩

theorem forM_eq_ok_iff {ε : Type} {f : α → Except ε PUnit} :
    ∀ {l : List α}, l.forM f = .ok ⟨⟩ ↔ ∀ a ∈ l, f a = .ok ⟨⟩
  | [] => by simp [List.forM, pure, Except.pure]
  | a :: l => by
    have unfolded : (a :: l).forM f = (f a >>= fun _ => l.forM f) := rfl
    rw [unfolded, forall_mem_cons, ← forM_eq_ok_iff]
    cases f a with
    | ok u => exact ⟨fun run => ⟨rfl, run⟩, fun run => run.2⟩
    | error e => simp [bind, Except.bind]

end Loops

namespace Graph

variable {g after : Graph} {x t : BlockId} {i : InstrId}

/-! ### Sound blocks -/

/-- The block can be executed, and control goes on inside the layout. -/
structure SoundAt (g : Graph) (x : BlockId) : Prop where
  placed : x.index < g.blocks.size
  listed : ∀ i ∈ g.body x, (g.op? i).isSome
  ends : g.Ends x
  endsOnce : ∀ i ∈ (g.body x).dropLast, ∀ op, g.op? i = some op → op.isTerminator = false
  whole : ∀ i ∈ g.body x, ∀ op, g.op? i = some op → ∀ v ∈ op.operands, v.isPlaceholder = false
  targets : ∀ i ∈ g.body x, ∀ op, g.op? i = some op → ∀ t ∈ op.successors, t ∈ g.layout

theorem endsBlock_eq_ok_iff {b : Bool} : g.endsBlock i = .ok b ↔ ∃ op, g.op? i = some op ∧ op.isTerminator = b := by
  refine ⟨endsBlock_eq_ok, ?_⟩
  rintro ⟨op, hop, rfl⟩
  obtain ⟨instr, found, rfl⟩ := exists_instr hop
  rw [endsBlock, found]
  rfl

theorem usesPlaceholder_eq_ok_iff {b : Bool} :
    g.usesPlaceholder i = .ok b ↔ ∃ op, g.op? i = some op ∧ op.operands.any (·.isPlaceholder) = b := by
  refine ⟨usesPlaceholder_eq_ok, ?_⟩
  rintro ⟨op, hop, rfl⟩
  obtain ⟨instr, found, rfl⟩ := exists_instr hop
  rw [usesPlaceholder, found]
  rfl

theorem SoundAt.exists_successors (h : g.SoundAt x) :
    ∃ succs, g.successors x = .ok succs ∧ ∀ t ∈ succs, t ∈ g.layout := by
  obtain ⟨succs, hs⟩ := h.ends.exists_successors h.placed
  refine ⟨succs, hs, fun t ht => ?_⟩
  obtain ⟨i, op, last, hop, ht⟩ := (mem_successors_iff hs).mp ht
  exact h.targets i (mem_of_getLast? last) op hop t ht

/-! ### The verifier -/

/-- A checked operation that comes first has a result if the whole has one. -/
theorem lift_bind_eq_ok_iff {ε α β : Type} {x : Checked α} {f : α → Except (Halt ε) β} {b : β} :
    (liftM x : Except (Halt ε) α) >>= f = .ok b ↔ ∃ a, x = .ok a ∧ f a = .ok b := by
  cases x with
  | ok a => exact ⟨fun run => ⟨a, rfl, run⟩, fun ⟨_, same, run⟩ => Except.ok.inj same ▸ run⟩
  | error f => exact ⟨fun run => (by cases run), fun ⟨_, failed, _⟩ => (by cases failed)⟩

/-- A block that the verifier accepts is sound. -/
theorem soundAt_of_verifyBlock (run : g.verifyBlock x = .ok ⟨⟩) : g.SoundAt x := by
  unfold verifyBlock at run
  obtain ⟨b, hb, run⟩ := lift_bind_eq_ok_iff.mp run
  have same := body_of_block hb
  rw [← same] at run
  split at run
  case h_2 => cases run
  next last hlast =>
  obtain ⟨ended, hended, run⟩ := lift_bind_eq_ok_iff.mp run
  split at run
  case isFalse => cases run
  next ends =>
  subst ends
  obtain ⟨op, hop, hterm⟩ := endsBlock_eq_ok hended
  obtain ⟨early, hearly, run⟩ := lift_bind_eq_ok_iff.mp run
  cases early with
  | true => cases run
  | false =>
  obtain ⟨hole, hhole, run⟩ := lift_bind_eq_ok_iff.mp run
  cases hole with
  | true => cases run
  | false =>
  obtain ⟨succs, hs, run⟩ := lift_bind_eq_ok_iff.mp run
  have once := anyM_eq_false_iff.mp hearly
  have whole := anyM_eq_false_iff.mp hhole
  have endsOnce : ∀ i ∈ (g.body x).dropLast, ∀ op, g.op? i = some op → op.isTerminator = false := by
    intro i hi op' hop'
    obtain ⟨op'', hop'', plain⟩ := endsBlock_eq_ok (once i hi)
    cases hop'.symm.trans hop''
    exact plain
  refine ⟨index_lt_of_block hb, ?_, ⟨last, op, hlast, hop, hterm⟩, endsOnce, ?_, ?_⟩
  · intro i hi
    obtain ⟨op', hop', -⟩ := usesPlaceholder_eq_ok_iff.mp (whole i hi)
    rw [hop']
    rfl
  · intro i hi op' hop' v hv
    obtain ⟨op'', hop'', none⟩ := usesPlaceholder_eq_ok_iff.mp (whole i hi)
    cases hop'.symm.trans hop''
    exact Bool.eq_false_iff.mpr (any_eq_false.mp none v hv)
  · intro i hi op' hop' t ht
    have isLast := getLast?_of_terminator endsOnce hi hop' (Op.isTerminator_of_successor ht)
    have there : t ∈ succs := (mem_successors_iff hs).mpr ⟨i, op', isLast, hop', ht⟩
    split at run
    · cases h : g.block _ with
      | ok b => rw [h] at run; cases run
      | error f => rw [h] at run; cases run
    · next inside => simpa using find?_eq_none.mp inside t there

/-- The verifier accepts a sound block. -/
theorem verifyBlock_of_soundAt (h : g.SoundAt x) : g.verifyBlock x = .ok ⟨⟩ := by
  obtain ⟨b, hb⟩ := exists_block h.placed
  have same := body_of_block hb
  obtain ⟨i, op, last, hop, hterm⟩ := h.ends
  obtain ⟨succs, hs, inside⟩ := h.exists_successors
  have once : g.endsEarly (g.body x) = .ok false := by
    refine anyM_eq_false_iff.mpr fun k hk => endsBlock_eq_ok_iff.mpr ?_
    obtain ⟨op', hop'⟩ := Option.isSome_iff_exists.mp (h.listed k (dropLast_subset _ hk))
    exact ⟨op', hop', h.endsOnce k hk op' hop'⟩
  have filled : g.anyPlaceholder (g.body x) = .ok false := by
    refine anyM_eq_false_iff.mpr fun k hk => usesPlaceholder_eq_ok_iff.mpr ?_
    obtain ⟨op', hop'⟩ := Option.isSome_iff_exists.mp (h.listed k hk)
    refine ⟨op', hop', any_eq_false.mpr fun v hv => ?_⟩
    rw [h.whole k hk op' hop' v hv]
    exact Bool.false_ne_true
  have stays : succs.find? (· ∉ g.layout) = none :=
    find?_eq_none.mpr fun t ht => by simpa using inside t ht
  rw [same] at last once filled
  simp only [verifyBlock, hb, last, endsBlock_eq_ok_iff.mpr ⟨op, hop, hterm⟩, once, filled, hs, stays, liftM,
    monadLift, MonadLift.monadLift, bind, Except.bind]
  rfl

theorem verifyBlock_eq_ok_iff : g.verifyBlock x = .ok ⟨⟩ ↔ g.SoundAt x :=
  ⟨soundAt_of_verifyBlock, verifyBlock_of_soundAt⟩

/-- The verifier accepts exactly the graphs that have a layout of sound blocks. -/
theorem verify_eq_ok_iff : g.verify = .ok ⟨⟩ ↔ g.layout ≠ [] ∧ ∀ x ∈ g.layout, g.SoundAt x := by
  unfold verify
  by_cases empty : g.layout = []
  · simp only [empty, isEmpty_nil, ↓reduceIte]
    exact ⟨fun run => (by cases run), fun h => absurd rfl h.1⟩
  · have filled : g.layout.isEmpty = false := isEmpty_eq_false_iff.mpr empty
    have checked : g.layout.forM g.verifyBlock = .ok ⟨⟩ ↔ ∀ x ∈ g.layout, g.SoundAt x := by
      rw [forM_eq_ok_iff]
      simp only [verifyBlock_eq_ok_iff]
    simp only [filled, Bool.false_eq_true, ↓reduceIte]
    exact ⟨fun run => ⟨empty, checked.mp run⟩, fun h => checked.mpr h.2⟩

/-! ### Taking out unreachable blocks -/

/-- What is left when unreachable blocks are taken out. -/
theorem prune_eq_of_reachable {found : List BlockId} (run : g.reachable = .ok found) :
    g.prune = .ok ((g.layout.filter (· ∉ found)).length, { g with layout := g.layout.filter (· ∈ found) }) :=
  prune_eq_ok_iff.mpr ⟨found, run, rfl, rfl⟩

section Verified

variable {found : List BlockId} (verified : g.verify = .ok ⟨⟩) (run : g.reachable = .ok found)

include verified

theorem exists_entry_of_verify : ∃ entry, g.entry? = some entry := by
  obtain ⟨entry, rest, layout⟩ := exists_cons_of_ne_nil (verify_eq_ok_iff.mp verified).1
  exact ⟨entry, head?_eq_some_iff.mpr ⟨rest, layout⟩⟩

theorem connected_of_verify : g.Connected g.layout := fun x hx =>
  ((verify_eq_ok_iff.mp verified).2 x hx).exists_successors

include run

/-- What a reachable block of the layout leads to is another one. -/
theorem successor_mem_of_verify (laid : x ∈ g.layout) (reached : x ∈ found) (hi : i ∈ g.body x) {op : Op}
    (hop : g.op? i = some op) (ht : t ∈ op.successors) : t ∈ g.layout ∧ t ∈ found := by
  have sound := (verify_eq_ok_iff.mp verified).2 x laid
  have last := getLast?_of_terminator sound.endsOnce hi hop (Op.isTerminator_of_successor ht)
  exact ⟨sound.targets i hi op hop t ht, successor_mem_of_reachable run reached last hop ht⟩

/-- A graph that is accepted is accepted without its unreachable blocks. -/
theorem verify_filter_of_verify : ({ g with layout := g.layout.filter (· ∈ found) } : Graph).verify = .ok ⟨⟩ := by
  have sound := (verify_eq_ok_iff.mp verified).2
  refine verify_eq_ok_iff.mpr ⟨?_, fun x hx => ?_⟩
  · intro empty
    have same := entry?_filter run
    rw [ entry?, empty] at same
    exact (verify_eq_ok_iff.mp verified).1 (head?_eq_none_iff.mp same.symm)
  · obtain ⟨laid, reached⟩ : x ∈ g.layout ∧ x ∈ found := by simpa using hx
    have here := sound x laid
    refine ⟨here.placed, here.listed, here.ends, here.endsOnce, here.whole, fun i hi op hop t ht => ?_⟩
    simpa using successor_mem_of_verify verified run laid reached hi hop ht

end Verified

end Graph

end FlowIR

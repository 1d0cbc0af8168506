import FlowIR.Graph.Verify
import FlowIR.Proofs.Graph.Reach
import FlowIR.Proofs.Graph.Supply

/-!
Finished graphs.

`Closed` says of a graph that control cannot leave its layout: every block of the layout has one end,
and the end leads to blocks of the layout, never back to the entry. Taking out unreachable blocks keeps
a graph closed, and the verifier finds nothing wrong with a closed graph except placeholders. `Ordered`
says that every result is there when it is used, also in the entry block, where the slots have to come
first.
-/

namespace FlowIR

open List

/-- Control stays in the layout and does not come back to the entry block. -/
structure Graph.Closed (entry : BlockId) (g : Graph) : Prop where
  entry_first : g.layout.head? = some entry
  nodup : g.layout.Nodup
  placed : ∀ x ∈ g.layout, x.index < g.blocks.size
  ends : ∀ x ∈ g.layout, g.Ends x
  endsOnce : ∀ x, ∀ i ∈ (g.body x).dropLast, ∀ op, g.op? i = some op → op.isTerminator = false
  targets : ∀ x ∈ g.layout, ∀ i ∈ g.body x, ∀ op, g.op? i = some op → ∀ t ∈ op.successors,
    t ∈ g.layout ∧ t ≠ entry

/-- Every result is there when it is used, the slots are made in the entry block, and exceptions arrive at
landing pads. -/
structure Graph.Ordered (su : Supply) (entry : BlockId) (g : Graph) : Prop where
  unsupplied : su.Bare entry
  first : ∀ k i, (g.body entry)[k]? = some i → ∀ op, g.op? i = some op → ∀ j, .result j ∈ op.operands →
    j ∈ (g.body entry).take k ∧ g.Kept j
  slots : ∀ j, g.Slot j → j ∈ g.body entry
  uses : ∀ x k i, (g.body x)[k]? = some i → ∀ op, g.op? i = some op →
    (∀ j, .result j ∈ op.operands → g.Ready su x ((g.body x).take k) j) ∧ op.Lands su x k
  edges : ∀ x, ∀ i ∈ g.body x, ∀ op, g.op? i = some op → ∀ t ∈ op.successors, ∀ j, su t j →
    g.Ready su x (g.body x) j ∨ (j = i ∧ op.normal? = some t)

namespace Graph

variable {g after : Graph} {entry x t : BlockId} {su : Supply} {i : InstrId} {e : VerifyError}

theorem Ordered.congr (h : g.Ordered su entry) (blocks : after.blocks = g.blocks)
    (instrs : after.instrs = g.instrs) : after.Ordered su entry := by
  have body : after.body = g.body := by funext x; rw [Graph.body, Graph.body, blocks]
  have ops : after.op? = g.op? := by funext i; rw [op?, op?, instrs]
  constructor
  · exact h.unsupplied
  · rw [body, ops]; unfold Kept; rw [ops]; exact h.first
  · unfold Slot; rw [body, ops]; exact h.slots
  · rw [body, ops]; unfold Ready Slot Kept; rw [ops]; exact h.uses
  · rw [body, ops]; unfold Ready Slot Kept; rw [ops]; exact h.edges

namespace Closed

variable (h : g.Closed entry)

include h

theorem entry_mem : entry ∈ g.layout := mem_of_head? h.entry_first

theorem exists_successors (hx : x ∈ g.layout) : ∃ succs, g.successors x = .ok succs :=
  (h.ends x hx).exists_successors (h.placed x hx)

theorem successor_mem (hx : x ∈ g.layout) {succs : List BlockId}
    (run : g.successors x = .ok succs) (ht : t ∈ succs) : t ∈ g.layout ∧ t ≠ entry := by
  obtain ⟨i, op, last, hop, ht⟩ := (mem_successors_iff run).mp ht
  exact h.targets x hx i (mem_of_getLast? last) op hop t ht

theorem congr (layout : after.layout = g.layout) (blocks : after.blocks = g.blocks)
    (instrs : after.instrs = g.instrs) : after.Closed entry := by
  have body : after.body = g.body := by funext x; rw [Graph.body, Graph.body, blocks]
  have ops : after.op? = g.op? := by funext i; rw [op?, op?, instrs]
  constructor
  · rw [layout]; exact h.entry_first
  · rw [layout]; exact h.nodup
  · rw [layout, blocks]; exact h.placed
  · rw [layout]; unfold Ends; rw [body, ops]; exact h.ends
  · rw [body, ops]; exact h.endsOnce
  · rw [layout, body, ops]; exact h.targets

/-- Taking out the blocks that are not reachable leaves no branch without its target. -/
theorem filter {found : List BlockId} (reached : g.reachable = .ok found) :
    ({ g with layout := g.layout.filter (· ∈ found) } : Graph).Closed entry := by
  have kept : ∀ {y}, y ∈ g.layout.filter (· ∈ found) → y ∈ g.layout ∧ y ∈ found := fun hy => by
    simpa using hy
  constructor
  · exact (entry?_filter reached).trans h.entry_first
  · exact h.nodup.filter _
  · exact fun y hy => h.placed y (kept hy).1
  · exact fun y hy => h.ends y (kept hy).1
  · exact h.endsOnce
  · intro y hy i hi op hop t ht
    obtain ⟨inside, ne⟩ := h.targets y (kept hy).1 i hi op hop t ht
    have last := getLast?_of_terminator (h.endsOnce y) hi hop (Op.isTerminator_of_successor ht)
    have there := successor_mem_of_reachable reached (kept hy).2 last hop ht
    exact ⟨mem_filter.mpr ⟨inside, by simpa using there⟩, ne⟩

end Closed

/-! ### The verifier -/

/-- A loop that fails fails at one of the elements. -/
theorem exists_of_forM_eq_error {ε α : Type} {f : α → Except ε PUnit} {e : ε} :
    ∀ {l : List α}, l.forM f = .error e → ∃ a ∈ l, f a = .error e
  | [], run => (nomatch run)
  | a :: rest, run => by
    have run : (f a >>= fun _ => rest.forM f) = .error e := run
    cases ha : f a with
    | error e' =>
      rw [ha] at run
      cases run
      exact ⟨a, mem_cons_self .., ha⟩
    | ok _ =>
      rw [ha] at run
      obtain ⟨b, hb, fb⟩ := exists_of_forM_eq_error run
      exact ⟨b, mem_cons_of_mem a hb, fb⟩

/-- An error behind a checked operation comes from what follows it. -/
theorem error_of_lift_bind {ε α β : Type} {x : Checked α} {f : α → Except (Halt ε) β} {e : ε}
    (run : (liftM x : Except (Halt ε) α) >>= f = .error (.error e)) : ∃ a, x = .ok a ∧ f a = .error (.error e) := by
  cases x with
  | ok a => exact ⟨a, rfl, run⟩
  | error _ => cases run

theorem endsBlock_eq_ok {b : Bool} (run : g.endsBlock i = .ok b) : ∃ op, g.op? i = some op ∧ op.isTerminator = b := by
  unfold endsBlock at run
  rw [Checked.bind_eq_ok_iff] at run
  obtain ⟨instr, hinstr, run⟩ := run
  cases run
  exact ⟨instr.op, op?_of_instr hinstr, rfl⟩

theorem exists_of_anyM_eq_true {α : Type} {p : α → Checked Bool} :
    ∀ {l : List α}, l.anyM p = .ok true → ∃ a ∈ l, p a = .ok true
  | [], run => by cases run
  | a :: rest, run => by
    rw [anyM_cons, Checked.bind_eq_ok_iff] at run
    obtain ⟨b, hb, run⟩ := run
    cases b with
    | true => exact ⟨a, mem_cons_self .., hb⟩
    | false =>
      obtain ⟨c, hc, pc⟩ := exists_of_anyM_eq_true run
      exact ⟨c, mem_cons_of_mem a hc, pc⟩

theorem usesPlaceholder_eq_ok {b : Bool} (run : g.usesPlaceholder i = .ok b) :
    ∃ op, g.op? i = some op ∧ op.operands.any (·.isPlaceholder) = b := by
  obtain ⟨instr, hinstr, run⟩ := Checked.bind_eq_ok_iff.mp run
  cases run
  exact ⟨instr.op, op?_of_instr hinstr, rfl⟩

def Flawed (g : Graph) (x : BlockId) : VerifyError → Prop
  | .noBlocks _ => False
  | .missingTerminator _ _ => ¬ g.Ends x
  | .terminatorNotLast _ _ => ∃ i ∈ (g.body x).dropLast, ∃ op, g.op? i = some op ∧ op.isTerminator = true
  | .unresolvedPlaceholder _ _ => ∃ i op, g.op? i = some op ∧ ∃ v ∈ op.operands, v.isPlaceholder = true
  | .danglingSuccessor _ _ _ => ∃ succs, g.successors x = .ok succs ∧ ∃ t ∈ succs, t ∉ g.layout

/-- A block is refused for what is wrong with it. -/
theorem flawed_of_verifyBlock (run : g.verifyBlock x = .error (.error e)) : g.Flawed x e := by
  unfold verifyBlock at run
  obtain ⟨b, hb, run⟩ := error_of_lift_bind run
  rw [← body_of_block hb] at run
  split at run
  case h_2 _ none =>
    cases run
    rintro ⟨i, op, last, -⟩
    exact none i last
  next last hlast =>
  obtain ⟨ended, hended, run⟩ := error_of_lift_bind run
  obtain ⟨op, hop, rfl⟩ := endsBlock_eq_ok hended
  split at run
  case isFalse plain =>
    cases run
    rintro ⟨i, op', last', hop', hterm⟩
    cases hlast.symm.trans last'
    cases hop.symm.trans hop'
    exact plain hterm
  obtain ⟨early, hearly, run⟩ := error_of_lift_bind run
  split at run
  case isTrue found =>
    cases run
    obtain ⟨k, hk, ends⟩ := exists_of_anyM_eq_true (found ▸ hearly)
    exact ⟨k, hk, endsBlock_eq_ok ends⟩
  obtain ⟨hole, hhole, run⟩ := error_of_lift_bind run
  split at run
  case isTrue found =>
    cases run
    obtain ⟨k, -, uses⟩ := exists_of_anyM_eq_true (found ▸ hhole)
    obtain ⟨op', hop', some⟩ := usesPlaceholder_eq_ok uses
    exact ⟨k, op', hop', any_eq_true.mp some⟩
  obtain ⟨succs, hs, run⟩ := error_of_lift_bind run
  split at run
  case h_2 => cases run
  next t found =>
  obtain ⟨_, -, run⟩ := error_of_lift_bind run
  cases run
  exact ⟨succs, hs, t, mem_of_find?_eq_some found, by simpa using find?_some found⟩

/-- A graph is refused if it has no layout, or for what is wrong with a block. -/
theorem flawed_of_verify (run : g.verify = .error (.error e)) :
    g.layout = [] ∧ (∃ f, e = .noBlocks f) ∨ ∃ x ∈ g.layout, g.Flawed x e := by
  unfold verify at run
  split at run
  · next empty =>
    cases run
    exact .inl ⟨isEmpty_iff.mp empty, _, rfl⟩
  · obtain ⟨x, hx, failed⟩ := exists_of_forM_eq_error run
    exact .inr ⟨x, hx, flawed_of_verifyBlock failed⟩

/-- A closed graph can only be refused for a placeholder. -/
theorem Closed.verify_error (h : g.Closed entry) (run : g.verify = .error (.error e)) :
    ∃ function block, e = .unresolvedPlaceholder function block := by
  rcases flawed_of_verify run with ⟨empty, -⟩ | ⟨x, hx, flawed⟩
  · exact absurd empty (ne_nil_of_mem h.entry_mem)
  cases e with
  | noBlocks => exact flawed.elim
  | missingTerminator => exact absurd (h.ends x hx) flawed
  | terminatorNotLast =>
    obtain ⟨i, hi, op, hop, hterm⟩ := flawed
    exact absurd (h.endsOnce x i hi op hop) (by simp [hterm])
  | danglingSuccessor =>
    obtain ⟨succs, hs, t, ht, out⟩ := flawed
    exact absurd (h.successor_mem hx hs ht).1 out
  | unresolvedPlaceholder function block => exact ⟨function, block, rfl⟩

end Graph

end FlowIR

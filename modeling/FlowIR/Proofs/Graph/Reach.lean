import FlowIR.Graph.Reach
import FlowIR.Proofs.Graph.View

/-!
The search for reachable blocks.

What is found is the least set that has the blocks the search starts from and with a block all its successors
(`Graph.reachable_exact`). The bound on the visits never cuts the search off, since every visit marks a block that
was not marked before. Taking out of the layout what is not found changes nothing about the search.
-/

namespace FlowIR.Graph

variable {g : Graph} {x t : BlockId} {succs found : List BlockId}

/-! ### Successors -/

/-- A successor comes from the instruction that ends the block. -/
theorem mem_successors_iff (run : g.successors x = .ok succs) :
    t ∈ succs ↔ ∃ i op, (g.body x).getLast? = some i ∧ g.op? i = some op ∧ t ∈ op.successors := by
  unfold successors at run
  rw [Checked.bind_eq_ok_iff] at run
  obtain ⟨o, ho, run⟩ := run
  rcases terminator_eq_ok ho with ⟨i, rfl, last, op, hop, hterm⟩ | ⟨rfl, open'⟩
  · simp only [] at run
    rw [Checked.bind_eq_ok_iff] at run
    obtain ⟨instr, hinstr, run⟩ := run
    cases run
    have known := op?_of_instr hinstr
    constructor
    · exact fun ht => ⟨i, instr.op, last, known, ht⟩
    · rintro ⟨k, op', last', hop', ht⟩
      cases last.symm.trans last'
      cases known.symm.trans hop'
      exact ht
  · cases run
    constructor
    · exact fun ht => absurd ht List.not_mem_nil
    · rintro ⟨i, op, last, hop, ht⟩
      exact absurd ⟨i, op, last, hop, Op.isTerminator_of_successor ht⟩ open'

/-- The successors of a block can be told if its end can be looked for. -/
theorem exists_successors_iff : (∃ succs, g.successors x = .ok succs) ↔
    x.index < g.blocks.size ∧ ∀ i, (g.body x).getLast? = some i → i.index < g.instrs.size := by
  rw [← exists_terminator_iff]
  constructor
  · rintro ⟨succs, run⟩
    obtain ⟨o, found, -⟩ := Checked.bind_eq_ok_iff.mp run
    exact ⟨o, found⟩
  · rintro ⟨o, found⟩
    simp only [successors, found, Bind.bind, Except.bind]
    rcases terminator_eq_ok found with ⟨i, rfl, -, op, hop, -⟩ | ⟨rfl, -⟩
    · obtain ⟨instr, known, -⟩ := exists_instr hop
      simp only [known]
      exact ⟨_, rfl⟩
    · exact ⟨_, rfl⟩

theorem Ends.exists_successors (h : g.Ends x) (placed : x.index < g.blocks.size) :
    ∃ succs, g.successors x = .ok succs := by
  obtain ⟨i, op, last, hop, -⟩ := h
  refine exists_successors_iff.mpr ⟨placed, fun k hk => ?_⟩
  cases last.symm.trans hk
  exact index_lt_of_op? hop

/-- Only blocks of the graph have successors that can be asked for. -/
theorem index_lt_of_successors (run : g.successors x = .ok succs) : x.index < g.blocks.size :=
  (exists_successors_iff.mp ⟨succs, run⟩).1

/-! ### The start of the search -/

/-- A checked filter succeeds if all tests do, and then gives what passes. -/
theorem filterM_eq_ok_iff {α : Type} {p : α → Checked Bool} {q : α → Bool} (agree : ∀ a t, p a = .ok t → t = q a)
    {l kept : List α} : l.filterM p = .ok kept ↔ (∀ a ∈ l, ∃ t, p a = .ok t) ∧ kept = l.filter q := by
  have aux : ∀ (l acc kept : List α), l.filterAuxM p acc = .ok kept ↔
      (∀ a ∈ l, ∃ t, p a = .ok t) ∧ kept = (l.filter q).reverse ++ acc := by
    intro l
    induction l with
    | nil => exact fun acc kept => ⟨fun run => by cases run; simp, fun h => congrArg _ h.2.symm⟩
    | cons a l ih =>
      intro acc kept
      rw [List.filterAuxM, List.forall_mem_cons]
      cases here : p a with
      | error f => exact ⟨fun run => (by cases run), fun h => (by obtain ⟨⟨⟨_, ⟨⟩⟩, _⟩, _⟩ := h)⟩
      | ok t =>
        show l.filterAuxM p (bif t then a :: acc else acc) = .ok kept ↔ _
        rw [ih, agree a t here]
        cases passes : q a <;> simp [passes]
  rw [List.filterM, Checked.bind_eq_ok_iff]
  constructor
  · rintro ⟨found, run, done⟩
    cases done
    obtain ⟨all, rfl⟩ := (aux l [] found).mp run
    exact ⟨all, by simp⟩
  · rintro ⟨all, rfl⟩
    exact ⟨_, (aux l [] _).mpr ⟨all, rfl⟩, by simp; rfl⟩

theorem addressTaken_eq_ok_iff {dests : List BlockId} : g.addressTaken = .ok dests ↔
    (∀ x ∈ g.layout, x.index < g.blocks.size) ∧ dests = g.layout.filter g.taken := by
  unfold addressTaken
  rw [filterM_eq_ok_iff (q := g.taken) fun x t run => ?_]
  · refine and_congr_left' (forall₂_congr fun x _ => ⟨fun ⟨t, run⟩ => ?_, fun placed => ?_⟩)
    · obtain ⟨b, hb, -⟩ := Checked.bind_eq_ok_iff.mp run
      exact index_lt_of_block hb
    · obtain ⟨b, hb⟩ := exists_block placed
      exact ⟨b.addressTaken, by rw [hb]; rfl⟩
  · obtain ⟨b, hb, run⟩ := Checked.bind_eq_ok_iff.mp run
    cases run
    simp only [block, require_eq_ok_iff] at hb
    simp [taken, hb]

/-- The entry block, and the blocks of the layout whose address is used. -/
def starts (g : Graph) : List BlockId := g.entry?.toList ++ g.layout.filter g.taken

theorem mem_layout_of_mem_starts (hx : x ∈ g.starts) : x ∈ g.layout :=
  (List.mem_append.mp hx).elim (fun first => List.mem_of_head? (Option.mem_toList.mp first))
    fun used => (List.mem_filter.mp used).1

theorem reachable_eq_ok_iff : g.reachable = .ok found ↔ (∀ x ∈ g.layout, x.index < g.blocks.size) ∧
    ∃ seen, g.visit (g.blocks.size + 1) [] g.starts = .ok seen ∧ found = g.blockIds.filter (· ∈ seen) := by
  unfold reachable roots
  simp only [Checked.bind_eq_ok_iff, addressTaken_eq_ok_iff]
  constructor
  · rintro ⟨start, ⟨taken, ⟨placed, rfl⟩, ⟨⟩⟩, seen, visited, ⟨⟩⟩
    exact ⟨placed, seen, visited, rfl⟩
  · rintro ⟨placed, seen, visited, rfl⟩
    exact ⟨_, ⟨_, ⟨placed, rfl⟩, rfl⟩, seen, visited, rfl⟩

/-! ### The search -/

/-- The set has with every block the successors of the block. -/
def Connected (g : Graph) (set : List BlockId) : Prop :=
  ∀ x ∈ set, ∃ succs, g.successors x = .ok succs ∧ ∀ t ∈ succs, t ∈ set

/-- Different blocks of the graph are not more than the graph has. -/
theorem length_le_of_nodup {seen : List BlockId} (nodup : seen.Nodup)
    (inside : ∀ x ∈ seen, x.index < g.blocks.size) : seen.length ≤ g.blocks.size := by
  have sub : seen ⊆ g.blockIds := fun x hx =>
    List.mem_map.mpr ⟨x.index, List.mem_range.mpr (inside x hx), rfl⟩
  simpa [blockIds] using nodup.length_le_of_subset sub

/-- The search so far: different blocks are marked, and the successors of each are marked or on the stack. -/
structure Searches (g : Graph) (seen stack : List BlockId) : Prop where
  nodup : seen.Nodup
  next : ∀ x ∈ seen, ∃ succs, g.successors x = .ok succs ∧ ∀ t ∈ succs, t ∈ seen ∨ t ∈ stack

namespace Searches

variable {seen stack rest : List BlockId} {b : BlockId}

theorem length_le (h : g.Searches seen stack) : seen.length ≤ g.blocks.size :=
  length_le_of_nodup h.nodup fun x hx => by
    obtain ⟨succs, run, -⟩ := h.next x hx
    exact index_lt_of_successors run

/-- What is not skipped is still on the stack. -/
theorem skipped (hx : x ∈ stack) : x ∈ seen ∨ x ∈ stack.dropWhile (· ∈ seen) := by
  rw [← List.takeWhile_append_dropWhile (p := (· ∈ seen)) (l := stack), List.mem_append] at hx
  exact hx.imp (fun early => by simpa using List.all_eq_true.mp List.all_takeWhile x early) id

/-- A visit marks what is on top of the stack, and loses nothing else. -/
theorem marked_or_left (top : stack.dropWhile (· ∈ seen) = b :: rest) (hx : x ∈ seen ∨ x ∈ stack) :
    x ∈ b :: seen ∨ x ∈ succs ++ rest := by
  rcases hx.elim .inl skipped with old | left
  · exact .inl (List.mem_cons_of_mem b old)
  · rw [top] at left
    exact (List.mem_cons.mp left).imp (by rintro rfl; exact List.mem_cons_self) (List.mem_append_right _)

variable (h : g.Searches seen stack)

include h

/-- One visit. -/
theorem visit (top : stack.dropWhile (· ∈ seen) = b :: rest)
    (run : g.successors b = .ok succs) : g.Searches (b :: seen) (succs ++ rest) := by
  have fresh : b ∉ seen := by
    have head := List.head?_dropWhile_not (· ∈ seen) stack
    rw [top] at head
    simpa using head
  refine ⟨List.nodup_cons.mpr ⟨fresh, h.nodup⟩, List.forall_mem_cons.mpr
    ⟨⟨succs, run, fun t ht => .inr (List.mem_append_left _ ht)⟩, fun x hx => ?_⟩⟩
  obtain ⟨after, ha, there⟩ := h.next x hx
  exact ⟨after, ha, fun t ht => marked_or_left top (there t ht)⟩

/-- The search ends with all that was marked or on the stack, and with the successors of all that it has. -/
theorem connected {visits : Nat} (run : g.visit visits seen stack = .ok found)
    (enough : g.blocks.size < seen.length + visits) :
    (∀ x, x ∈ seen ∨ x ∈ stack → x ∈ found) ∧ g.Searches found [] := by
  induction visits generalizing seen stack with
  | zero => exact absurd h.length_le (Nat.not_le.mpr enough)
  | succ visits ih =>
    unfold Graph.visit at run
    split at run
    · next all =>
      cases run
      have marked : ∀ x, x ∈ found ∨ x ∈ stack → x ∈ found := fun x hx => hx.elim id fun there =>
        (skipped there).elim id fun left => absurd (all ▸ left) List.not_mem_nil
      refine ⟨marked, h.nodup, fun x hx => ?_⟩
      obtain ⟨succs, hs, there⟩ := h.next x hx
      exact ⟨succs, hs, fun t ht => .inl (marked t (there t ht))⟩
    · next b rest top =>
      obtain ⟨succs, hs, run⟩ := Checked.bind_eq_ok_iff.mp run
      obtain ⟨keeps, done⟩ := ih (h.visit top hs) run (by rw [List.length_cons]; omega)
      exact ⟨fun x hx => keeps x (marked_or_left top hx), done⟩

/-- Once there are visits for all blocks, more of them change nothing. -/
theorem visit_add {visits : Nat} (enough : g.blocks.size < seen.length + visits)
    (more : Nat) : g.visit (visits + more) seen stack = g.visit visits seen stack := by
  induction visits generalizing seen stack with
  | zero => exact absurd h.length_le (Nat.not_le.mpr enough)
  | succ visits ih =>
    rw [Nat.succ_add, Graph.visit, Graph.visit]
    split
    · rfl
    · next b rest top =>
      cases hs : g.successors b with
      | error f => rfl
      | ok succs => exact ih (h.visit top hs) (by rw [List.length_cons]; omega)

end Searches

/-- The search succeeds where the successors of all blocks that it may come to can be told, and comes to no others. -/
theorem exists_visit {P : BlockId → Prop}
    (connected : ∀ x, P x → ∃ succs, g.successors x = .ok succs ∧ ∀ t ∈ succs, P t) :
    ∀ (visits : Nat) (seen stack : List BlockId), (∀ x ∈ seen, P x) → (∀ x ∈ stack, P x) →
      ∃ found, g.visit visits seen stack = .ok found ∧ ∀ x ∈ found, P x := by
  intro visits
  induction visits with
  | zero => exact fun seen _ marked _ => ⟨seen, rfl, marked⟩
  | succ visits ih =>
    intro seen stack marked inside
    unfold visit
    split
    · exact ⟨seen, rfl, marked⟩
    · next b rest left =>
      have sub : ∀ y ∈ b :: rest, P y := fun y hy => inside y ((List.dropWhile_suffix _).subset (left ▸ hy))
      obtain ⟨succs, hs, stays⟩ := connected b (sub b List.mem_cons_self)
      rw [hs]
      refine ih _ _ (List.forall_mem_cons.mpr ⟨sub b List.mem_cons_self, marked⟩) fun y hy => ?_
      exact (List.mem_append.mp hy).elim (stays y) fun old => sub y (List.mem_cons_of_mem b old)

/-! ### What is reachable -/

/-- A chain of successors leads to the block from where the search starts. -/
inductive Reached (g : Graph) : BlockId → Prop where
  | start {x : BlockId} (mem : x ∈ g.starts) : g.Reached x
  | next {x t : BlockId} {succs : List BlockId} (before : g.Reached x) (run : g.successors x = .ok succs)
      (mem : t ∈ succs) : g.Reached t

/-- What the search looks at is there: the blocks of the layout, those it comes to, and their last instructions. -/
structure Searchable (g : Graph) : Prop where
  placed : ∀ x ∈ g.layout, x.index < g.blocks.size
  reached : ∀ x, g.Reached x → x.index < g.blocks.size ∧
    ∀ i, (g.body x).getLast? = some i → i.index < g.instrs.size

/-- What is found is what is reachable, and control stays in it. -/
theorem mem_of_reachable (run : g.reachable = .ok found) : (∀ x, x ∈ found ↔ g.Reached x) ∧ g.Connected found := by
  obtain ⟨-, seen, visited, rfl⟩ := reachable_eq_ok_iff.mp run
  obtain ⟨keeps, done⟩ := Searches.connected ⟨List.nodup_nil, by simp⟩ visited (by simp)
  have next : g.Connected seen := fun x hx => by simpa using done.next x hx
  have same : ∀ x, x ∈ g.blockIds.filter (· ∈ seen) ↔ x ∈ seen := fun x => by
    simp only [List.mem_filter, decide_eq_true_eq, and_iff_right_iff_imp]
    intro hx
    obtain ⟨succs, hs, -⟩ := next x hx
    exact List.mem_map.mpr ⟨x.index, List.mem_range.mpr (index_lt_of_successors hs), rfl⟩
  have reaches : ∀ x, g.Reached x → x ∈ seen := fun x reached => by
    induction reached with
    | start mem => exact keeps _ (.inr mem)
    | next _ run mem ih =>
      obtain ⟨succs, hs, there⟩ := next _ ih
      cases run.symm.trans hs
      exact there _ mem
  refine ⟨fun x => (same x).trans ⟨fun hx => ?_, reaches x⟩, fun x hx => ?_⟩
  · obtain ⟨_, again, within⟩ := exists_visit (P := fun x => x ∈ seen ∧ g.Reached x) (fun x ⟨hx, reached⟩ => by
      obtain ⟨succs, hs, there⟩ := next x hx
      exact ⟨succs, hs, fun t ht => ⟨there t ht, reached.next hs ht⟩⟩) (g.blocks.size + 1) [] g.starts (by simp)
      fun x hx => ⟨keeps x (.inr hx), .start hx⟩
    cases again.symm.trans visited
    exact (within x hx).2
  · obtain ⟨succs, hs, there⟩ := next x ((same x).mp hx)
    exact ⟨succs, hs, fun t ht => (same t).mpr (there t ht)⟩

theorem exists_reachable_iff : (∃ found, g.reachable = .ok found) ↔ g.Searchable := by
  constructor
  · rintro ⟨found, run⟩
    obtain ⟨exact', next⟩ := mem_of_reachable run
    refine ⟨(reachable_eq_ok_iff.mp run).1, fun x reached => exists_successors_iff.mp ?_⟩
    obtain ⟨succs, hs, -⟩ := next x ((exact' x).mpr reached)
    exact ⟨succs, hs⟩
  · intro h
    obtain ⟨seen, visited, -⟩ := exists_visit (P := g.Reached) (fun x reached => by
      obtain ⟨succs, hs⟩ := exists_successors_iff.mpr (h.reached x reached)
      exact ⟨succs, hs, fun t ht => reached.next hs ht⟩) (g.blocks.size + 1) [] g.starts (by simp) fun _ => .start
    exact ⟨_, reachable_eq_ok_iff.mpr ⟨h.placed, seen, visited, rfl⟩⟩

/-- The search succeeds in a layout that control stays in. -/
theorem exists_reachable (connected : g.Connected g.layout) : ∃ found, g.reachable = .ok found := by
  obtain ⟨seen, visited, -⟩ := exists_visit connected (g.blocks.size + 1) [] g.starts (by simp)
    fun _ => mem_layout_of_mem_starts
  refine ⟨_, reachable_eq_ok_iff.mpr ⟨fun x hx => ?_, seen, visited, rfl⟩⟩
  obtain ⟨succs, hs, -⟩ := connected x hx
  exact index_lt_of_successors hs

/-- What a reachable block leads to is reachable. -/
theorem successor_mem_of_reachable (run : g.reachable = .ok found) (hx : x ∈ found) {i : InstrId} {op : Op}
    (last : (g.body x).getLast? = some i) (hop : g.op? i = some op) (ht : t ∈ op.successors) : t ∈ found := by
  obtain ⟨succs, hs, there⟩ := (mem_of_reachable run).2 x hx
  exact there t ((mem_successors_iff hs).mpr ⟨i, op, last, hop, ht⟩)

/-! ### Taking out what is not reachable -/

theorem prune_eq_ok_iff {n : Nat} {after : Graph} : g.prune = .ok (n, after) ↔ ∃ found, g.reachable = .ok found ∧
    n = (g.layout.filter (· ∉ found)).length ∧ after = { g with layout := g.layout.filter (· ∈ found) } := by
  have parts : ∀ found : List BlockId, g.layout.length - (g.layout.filter (· ∈ found)).length =
      (g.layout.filter (· ∉ found)).length := fun found => by
    have whole := List.length_eq_countP_add_countP (l := g.layout) (· ∈ found)
    simp only [List.countP_eq_length_filter, decide_eq_true_eq] at whole
    omega
  unfold prune
  simp only [Checked.bind_eq_ok_iff, parts]
  constructor
  · rintro ⟨found, run, ⟨⟩⟩
    exact ⟨found, run, rfl, rfl⟩
  · rintro ⟨found, run, rfl, rfl⟩
    exact ⟨found, run, rfl⟩

section

variable (run : g.reachable = .ok found)

include run

theorem mem_of_mem_starts (hx : x ∈ g.starts) : x ∈ found := ((mem_of_reachable run).1 x).mpr (.start hx)

theorem mem_of_taken (hx : x ∈ g.layout) (used : g.taken x = true) : x ∈ found :=
  mem_of_mem_starts run (List.mem_append_right _ (List.mem_filter.mpr ⟨hx, used⟩))

/-- The entry block stays where it is. -/
theorem entry?_filter : Graph.entry? { g with layout := g.layout.filter (· ∈ found) } = g.entry? := by
  show (g.layout.filter (· ∈ found)).head? = g.layout.head?
  cases layout : g.layout with
  | nil => rfl
  | cons x rest =>
    have mem : x ∈ found := mem_of_mem_starts run (List.mem_append_left _ (by simp [ entry?, layout]))
    rw [List.filter_cons_of_pos (by simpa using mem)]
    rfl

theorem starts_filter : starts { g with layout := g.layout.filter (· ∈ found) } = g.starts := by
  show Option.toList ( Graph.entry? _) ++ (g.layout.filter (· ∈ found)).filter g.taken = _
  rw [entry?_filter run, List.filter_filter]
  refine congrArg _ (List.filter_congr fun x hx => ?_)
  cases used : g.taken x with
  | false => simp
  | true => simpa using mem_of_taken run hx used

theorem reachable_filter : Graph.reachable { g with layout := g.layout.filter (· ∈ found) } = .ok found := by
  obtain ⟨placed, seen, visited, eq⟩ := reachable_eq_ok_iff.mp run
  refine reachable_eq_ok_iff.mpr ⟨fun x hx => placed x (List.mem_filter.mp hx).1, seen, ?_, eq⟩
  have same : ∀ visits seen stack, Graph.visit { g with layout := g.layout.filter (· ∈ found) } visits seen stack =
      g.visit visits seen stack := fun visits => by
    induction visits with
    | zero => exact fun _ _ => rfl
    | succ visits ih =>
      intro seen stack
      unfold visit
      split
      · rfl
      · exact congrArg _ (funext fun _ => ih _ _)
  rw [same, starts_filter run]
  exact visited

end

/-- A graph with no end that leads out of it can be searched. -/
theorem searchable_of_inside (placed : ∀ x ∈ g.layout, x.index < g.blocks.size)
    (listed : ∀ x i, (g.body x).getLast? = some i → i.index < g.instrs.size)
    (inside : ∀ x succs, g.successors x = .ok succs → ∀ t ∈ succs, t.index < g.blocks.size) : g.Searchable := by
  refine ⟨placed, fun x reached => ⟨?_, listed x⟩⟩
  cases reached with
  | start mem => exact placed x (mem_layout_of_mem_starts mem)
  | next _ run mem => exact inside _ _ run x mem

/-- A graph with no end that leads out of it can be searched, and the search succeeds exactly if what it looks at is
there. It finds the blocks to which a chain of successors leads, and would find no others however many visits it had.
Taking out what it does not find keeps the order of the rest, gives the number of blocks that were taken out, and
leaves a graph in which the search finds the same and nothing is left to take out. -/
theorem reachable_exact (g : Graph) :
    ((∀ x ∈ g.layout, x.index < g.blocks.size) ∧
      (∀ x i, (g.body x).getLast? = some i → i.index < g.instrs.size) ∧
      (∀ x succs, g.successors x = .ok succs → ∀ t ∈ succs, t.index < g.blocks.size) → g.Searchable) ∧
    (g.Searchable ↔ ∃ found, g.reachable = .ok found ∧
      (∀ x, x ∈ found ↔ g.Reached x) ∧
      (∀ more, g.visit (g.blocks.size + 1 + more) [] g.starts = g.visit (g.blocks.size + 1) [] g.starts) ∧
      ∃ after, g.prune = .ok ((g.layout.filter (· ∉ found)).length, after) ∧
        after = { g with layout := g.layout.filter (· ∈ found) } ∧ after.reachable = .ok found ∧
        after.prune = .ok (0, after)) := by
  refine ⟨fun ⟨placed, listed, inside⟩ => searchable_of_inside placed listed inside, ?_⟩
  rw [← exists_reachable_iff]
  refine exists_congr fun found => ⟨fun run => ?_, And.left⟩
  refine ⟨run, (mem_of_reachable run).1, fun more => Searches.visit_add ⟨List.nodup_nil, by simp⟩ (by simp) more, _,
    prune_eq_ok_iff.mpr ⟨found, run, rfl, rfl⟩, rfl, reachable_filter run, ?_⟩
  refine prune_eq_ok_iff.mpr ⟨found, reachable_filter run, ?_, ?_⟩
  · refine (List.length_eq_zero_iff.mpr (List.filter_eq_nil_iff.mpr fun x hx => ?_)).symm
    simpa using (List.mem_filter.mp hx).2
  · simp [List.filter_filter]

end FlowIR.Graph

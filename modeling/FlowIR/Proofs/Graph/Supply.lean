import FlowIR.Proofs.Graph.Extends
import FlowIR.Proofs.Graph.Formed

/-!
Results that are there when they are used.

A supply tells for every block which results are there whenever the block is entered, and whether an
exception is. Slots count as there everywhere, because they all end up in front of the entry block.
`Supplied` says that every instruction uses results that its block is supplied with or that come from
earlier in the block, and that a branch leads only to blocks whose supply is there at the branch. A block
is supplied with exceptions if it starts with a landing pad, and then only unwinding leads to it.
-/

namespace FlowIR

open List

structure Supply where
  /-- The result is there. -/
  gives : BlockId → InstrId → Prop
  /-- An exception is there. -/
  lands : BlockId → Prop
  /-- The block is for exceptions, and nothing stands in it yet. -/
  idle : BlockId → Prop

instance : CoeFun Supply fun _ => BlockId → InstrId → Prop := ⟨Supply.gives⟩

namespace Supply

def Bare (su : Supply) (x : BlockId) : Prop := (∀ j, ¬ su x j) ∧ ¬ su.lands x

def none : Supply := ⟨fun _ _ => False, fun _ => False, fun _ => False⟩

/-- Supplies one block with more results, or with exceptions. -/
def give (su : Supply) (x : BlockId) (more : InstrId → Prop) (pad : Bool) : Supply where
  gives y j := su y j ∨ (y = x ∧ more j)
  lands y := su.lands y ∨ (y = x ∧ pad = true)
  idle y := su.idle y ∨ (y = x ∧ pad = true)

theorem give_nothing (su : Supply) (x : BlockId) : su.give x (fun _ => False) false = su := by
  simp [give]

def start (su : Supply) (x : BlockId) : Supply := { su with idle := fun y => su.idle y ∧ y ≠ x }

theorem start_of_awake {su : Supply} {x : BlockId} (awake : ¬ su.idle x) : su.start x = su := by
  have same : (fun y => su.idle y ∧ y ≠ x) = su.idle := by
    funext y
    exact propext (and_iff_left_of_imp fun idle eq => awake (eq ▸ idle))
  rw [start, same]

end Supply

/-- The instruction starts a landing pad exactly if it is where exceptions arrive, and it sends exceptions, and
nothing else, where they are expected. -/
def Op.Lands (su : Supply) (x : BlockId) (k : Nat) (op : Op) : Prop :=
  (op.isLandingPad = true ↔ k = 0 ∧ su.lands x) ∧ (op.unwind? ≠ none → op.normal? ≠ none) ∧
    ∀ t ∈ op.successors, op.unwind? = some t ↔ su.lands t

theorem Op.Lands.of_resolves {su : Supply} {x : BlockId} {k : Nat} {op after : Op} (h : op.Lands su x k)
    (resolves : op.Resolves after) : after.Lands su x k := by
  unfold Lands
  rw [resolves.isLandingPad, resolves.successors, resolves.unwind?, resolves.normal?]
  exact h

namespace Graph

variable {g after : Graph} {su su' : Supply} {x y : BlockId} {i j : InstrId} {done more : List InstrId}

def Slot (g : Graph) (j : InstrId) : Prop := ∃ op, g.op? j = some op ∧ op.isAlloca = true

def Kept (g : Graph) (j : InstrId) : Prop := ∃ op, g.op? j = some op ∧ op.yields = true

/-- The result is there after `done` in a block: it is a slot, the block is supplied with it, or it
comes from `done`. -/
def Ready (g : Graph) (su : Supply) (x : BlockId) (done : List InstrId) (j : InstrId) : Prop :=
  g.Slot j ∨ su x j ∨ (j ∈ done ∧ g.Kept j)

theorem Extends.slot (h : g.Extends after) (hj : g.Slot j) : after.Slot j := by
  obtain ⟨op, hop, slot⟩ := hj
  obtain ⟨op', hop', resolves⟩ := h.op? hop
  exact ⟨op', hop', resolves.isAlloca ▸ slot⟩

theorem Extends.kept (h : g.Extends after) (hj : g.Kept j) : after.Kept j := by
  obtain ⟨op, hop, yields⟩ := hj
  obtain ⟨op', hop', resolves⟩ := h.op? hop
  exact ⟨op', hop', resolves.yields ▸ yields⟩

/-- What is there stays there when the graph grows, the supply grows and more has been done. -/
theorem Ready.mono (h : g.Ready su x done j) (grows : g.Extends after)
    (supply : su x j → su' x j) (sub : ∀ i ∈ done, i ∈ more) : after.Ready su' x more j := by
  rcases h with slot | given | ⟨mem, kept⟩
  · exact .inl (grows.slot slot)
  · exact .inr (.inl (supply given))
  · exact .inr (.inr ⟨sub j mem, grows.kept kept⟩)

/-- What is there stays there while the graph grows. -/
theorem Ready.grow (h : g.Ready su x (g.body x) j) (grows : g.Extends after) : after.Ready su x (after.body x) j :=
  h.mono grows id fun _ hi => (grows.body x).subset hi

/-- Every result is there when it is used, and what a block is supplied with is there at every
branch to it. Control can come to the entry block, to blocks of labels and to blocks whose address is
used from anywhere, so these are supplied with nothing. -/
structure Supplied (su : Supply) (home : LabelId → Option BlockId) (entry : BlockId) (g : Graph) :
    Prop where
  entry : su.Bare entry
  new : ∀ x, g.blocks.size ≤ x.index → su.Bare x
  home : ∀ l x, home l = some x → su.Bare x
  taken : ∀ x, g.taken x = true → su.Bare x
  idle : ∀ x, su.idle x → su.lands x ∧ x ∉ g.layout
  empty : ∀ x, su.lands x → (su.idle x ↔ g.body x = [])
  uses : ∀ x k i, (g.body x)[k]? = some i → ∀ op, g.op? i = some op →
    (∀ j, .result j ∈ op.operands → g.Ready su x ((g.body x).take k) j) ∧ op.Lands su x k
  edges : ∀ x, ∀ i ∈ g.body x, ∀ op, g.op? i = some op → ∀ t ∈ op.successors, ∀ j, su t j →
    g.Ready su x (g.body x) j ∨ (j = i ∧ op.normal? = some t)

namespace Supplied

variable {home : LabelId → Option BlockId} {entry : BlockId} {owed : BlockId → Prop}

/-- Nothing is supplied to a graph whose blocks are empty. -/
theorem of_empty (empty : ∀ x, g.body x = []) : g.Supplied .none home entry where
  entry := ⟨fun _ h => h, id⟩
  new := fun _ _ => ⟨fun _ h => h, id⟩
  home := fun _ _ _ => ⟨fun _ h => h, id⟩
  taken := fun _ _ => ⟨fun _ h => h, id⟩
  idle := fun _ never => never.elim
  empty := fun _ never => never.elim
  uses := fun x k i hi => by simp [empty] at hi
  edges := fun x i hi => by simp [empty] at hi

variable (h : g.Supplied su home entry)

include h

section

variable (formed : g.Formed owed home entry)

include formed

/-- Nothing else matters than lists, uses and branches. -/
theorem congr (grows : g.Extends after) (size : after.blocks.size = g.blocks.size)
    (body : ∀ x, after.body x = g.body x) (layout : ∀ x ∈ after.layout, x ∈ g.layout ∨ ¬ su.idle x)
    (taken : ∀ x, after.taken x = true → g.taken x = true ∨ su.Bare x) : after.Supplied su home entry where
  entry := h.entry
  new := fun x hx => h.new x (size ▸ hx)
  home := h.home
  taken := fun x hx => (taken x hx).elim (h.taken x) id
  idle := fun x hx => ⟨(h.idle x hx).1, fun laid => (layout x laid).elim (h.idle x hx).2 fun awake => awake hx⟩
  empty := fun x hx => body x ▸ h.empty x hx
  uses := fun x k i hi op' hop' => by
    rw [body] at hi ⊢
    obtain ⟨op, hop⟩ := formed.op?_of_mem (mem_of_getElem? hi)
    obtain ⟨op'', hop'', resolves⟩ := grows.op? hop
    cases hop''.symm.trans hop'
    obtain ⟨ready, lands⟩ := h.uses x k i hi op hop
    exact ⟨fun j hj => (ready j (resolves.result_mem hj)).mono grows id fun _ hi => hi, lands.of_resolves resolves⟩
  edges := fun x i hi op' hop' t ht j hj => by
    rw [body] at hi ⊢
    obtain ⟨op, hop⟩ := formed.op?_of_mem hi
    obtain ⟨op'', hop'', resolves⟩ := grows.op? hop
    cases hop''.symm.trans hop'
    rcases h.edges x i hi op hop t (resolves.successors ▸ ht) j hj with ready | ⟨rfl, normal⟩
    · exact .inl (ready.mono grows id fun _ hi => hi)
    · exact .inr ⟨rfl, resolves.normal? ▸ normal⟩

/-- A new block can be supplied with anything, because nothing branches to it yet. -/
theorem newBlock (name : String) (more : InstrId → Prop) (pad : Bool) :
    (g.newBlock name).2.Supplied (su.give ⟨g.blocks.size⟩ more pad) home entry := by
  have bare : ∀ x, su.Bare x → x ≠ ⟨g.blocks.size⟩ → (su.give ⟨g.blocks.size⟩ more pad).Bare x := fun x bare ne =>
    ⟨fun j given => given.elim (bare.1 j) fun new => ne new.1, fun lands => lands.elim bare.2 fun new => ne new.1⟩
  have made : (g.body ⟨g.blocks.size⟩) = [] := by simp [body]
  -- A branch to the new block would be one to a block that did not exist.
  have apart : ∀ x, ∀ i ∈ g.body x, ∀ op, g.op? i = some op → ⟨g.blocks.size⟩ ∉ op.successors := by
    intro x i hi op hop ht
    rcases (formed.targets x i hi op hop _ ht).2 with laid | ⟨l, hl⟩ | owed
    · exact Nat.lt_irrefl _ (formed.placed _ laid)
    · exact formed.home_ne_new l hl
    · exact Nat.lt_irrefl _ (formed.owed_own _ owed).1
  have lands : ∀ x, x ≠ ⟨g.blocks.size⟩ → ((su.give ⟨g.blocks.size⟩ more pad).lands x ↔ su.lands x) := fun x ne =>
    or_iff_left fun new => ne new.1
  constructor
  · exact bare entry h.entry fun eq => Nat.lt_irrefl _ (eq ▸ formed.entry_lt)
  · intro x hx
    rw [size_newBlock] at hx
    exact bare x (h.new x (Nat.le_of_succ_le hx)) fun eq => Nat.not_succ_le_self _ (eq ▸ hx)
  · exact fun l x hl => bare x (h.home l x hl) fun eq => formed.home_ne_new l (eq ▸ hl)
  · intro x hx
    rw [taken_newBlock] at hx
    refine bare x (h.taken x hx) fun eq => ?_
    subst eq
    simp [Graph.taken] at hx
  · rintro x (old | ⟨rfl, isPad⟩)
    · exact ⟨.inl (h.idle x old).1, (h.idle x old).2⟩
    · exact ⟨.inr ⟨rfl, isPad⟩, fun laid => Nat.lt_irrefl _ (formed.placed _ laid)⟩
  · rintro x (old | ⟨rfl, isPad⟩)
    · rw [body_newBlock, ← h.empty x old]
      exact or_iff_left fun new => (h.new x (Nat.le_of_eq (congrArg BlockId.index new.1).symm)).2 old
    · exact iff_of_true (.inr ⟨rfl, isPad⟩) ((body_newBlock name).trans made)
  · intro x k i hi op hop
    rw [body_newBlock] at hi ⊢
    obtain ⟨ready, starts, away, sends⟩ := h.uses x k i hi op hop
    have mem := mem_of_getElem? hi
    have old : x ≠ ⟨g.blocks.size⟩ := fun eq => by
      rw [eq, made] at mem
      cases mem
    exact ⟨fun j hj => (ready j hj).mono (Extends.newBlock g name) .inl fun _ hi => hi,
      starts.trans (and_congr_right fun _ => (lands x old).symm), away, fun t ht => (sends t ht).trans
        (lands t fun eq => apart x i mem op hop (eq ▸ ht)).symm⟩
  · intro x i hi op hop t ht j hj
    rw [body_newBlock] at hi ⊢
    rcases hj with old | ⟨rfl, -⟩
    · exact (h.edges x i hi op hop t ht j old).imp
        (·.mono (Extends.newBlock g name) .inl fun _ hi => hi) id
    · exact absurd ht (apart x i hi op hop)

theorem newInstr (instr : Instr) : (g.newInstr instr).2.Supplied su home entry :=
  h.congr formed (Extends.newInstr g instr) rfl (fun _ => rfl) (fun _ => .inl) fun _ hx => .inl hx

theorem attach (awake : ¬ su.idle x) : (g.attach x).Supplied su home entry :=
  h.congr formed (Extends.attach g x) (by rw [blocks_attach]) (fun _ => body_attach)
    (fun y laid => (mem_layout_attach.mp laid).imp_right fun eq : y = x => eq ▸ awake) fun _ hx =>
    .inl (by simpa using hx)

end

/-- A block of a label is supplied with nothing. -/
theorem newHome {home' : LabelId → Option BlockId} (homes : ∀ l x, home' l = some x → home l = some x ∨ su.Bare x) :
    g.Supplied su home' entry :=
  { h with home := fun l x hl => (homes l x hl).elim (h.home l x) id }

/-- What a block lists may change, if everything is there where it is used afterwards. The block is started. -/
theorem updateBlock {f : Block → Block} {t : List InstrId → List InstrId}
    (run : g.updateBlock x f = .ok after) (hf : ∀ b, (f b).body = t b.body) (taken : ∀ y, after.taken y = g.taken y)
    (filled : su.lands x → t (g.body x) ≠ []) (uses : ∀ k i, (t (g.body x))[k]? = some i → ∀ op, g.op? i = some op →
      (∀ j, .result j ∈ op.operands → g.Ready su x ((t (g.body x)).take k) j) ∧ op.Lands su x k)
    (edges : ∀ i ∈ t (g.body x), ∀ op, g.op? i = some op → ∀ u ∈ op.successors, ∀ j, su u j →
      g.Ready su x (t (g.body x)) j ∨ (j = i ∧ op.normal? = some u)) : after.Supplied (su.start x) home entry := by
  have body := body_of_updateBlock run hf
  have ops := op?_of_updateBlock run
  have ready : ∀ y done j, after.Ready su y done j = g.Ready su y done j := fun y done j => by
    simp only [Ready, Slot, Kept, ops]
  refine
    { entry := h.entry
      new := fun y hy => h.new y (size_of_updateBlock run ▸ hy)
      home := h.home
      taken := fun y hy => h.taken y (taken y ▸ hy)
      idle := fun y hy => layout_of_updateBlock run ▸ h.idle y hy.1
      empty := fun y hy => ?_
      uses := fun y k i hi op hop => ?_
      edges := fun y i hi op hop u hu j hj => ?_ }
  · rw [body]
    split
    · next same => exact iff_of_false (fun idle => idle.2 same) (filled (same ▸ hy))
    · next other => exact (and_iff_left other).trans (h.empty y hy)
  all_goals
    rw [ops] at hop
    rw [body] at hi
    simp only [Graph.Ready, Supply.start] at ready ⊢
    simp only [ready, body]
    by_cases same : y = x
  · subst same
    rw [if_pos rfl] at hi ⊢
    exact uses k i hi op hop
  · rw [if_neg same] at hi ⊢
    exact h.uses y k i hi op hop
  · subst same
    rw [if_pos rfl] at hi ⊢
    exact edges i hi op hop u hu j hj
  · rw [if_neg same] at hi ⊢
    exact h.edges y i hi op hop u hu j hj

/-- An instruction whose operands are there can be added to a block. -/
theorem append {op : Op} (hop : g.op? i = some op)
    (operands : ∀ j, .result j ∈ op.operands → g.Ready su x (g.body x) j) (lands : op.Lands su x (g.body x).length)
    (targets : ∀ t ∈ op.successors, ∀ j, su t j →
      g.Ready su x (g.body x) j ∨ (j = i ∧ op.normal? = some t))
    (run : g.append x i = .ok after) : after.Supplied (su.start x) home entry := by
  have sub : ∀ {j}, g.Ready su x (g.body x) j → g.Ready su x (g.body x ++ [i]) j := fun ready =>
    ready.mono (.refl g) id fun _ => mem_append_left _
  refine h.updateBlock (t := (· ++ [i])) run (fun _ => rfl) (taken_of_append run) (fun _ => concat_ne_nil _ _)
    (fun k m hm op' hop' => ?_) fun m hm op' hop' t ht j hj => ?_
  · by_cases old : k < (g.body x).length
    · rw [getElem?_append_left old] at hm
      rw [take_append_of_le_length (Nat.le_of_lt old)]
      exact h.uses x k m hm op' hop'
    · rw [getElem?_append_right (Nat.le_of_not_lt old), getElem?_singleton] at hm
      split at hm
      · next all =>
        cases hm
        cases hop.symm.trans hop'
        rw [show k = (g.body x).length by omega, take_left]
        exact ⟨operands, lands⟩
      · cases hm
  · rcases mem_append.mp hm with early | last
    · exact (h.edges x m early op' hop' t ht j hj).imp sub id
    · cases mem_singleton.mp last
      cases hop.symm.trans hop'
      exact (targets t ht j hj).imp sub id

/-- Instructions whose operands are there can be put in front of the entry block. -/
theorem insertFront {is : List InstrId} (plain : ∀ i ∈ is, g.Plain i)
    (operands : ∀ k i, is[k]? = some i → ∀ op, g.op? i = some op → ∀ j, .result j ∈ op.operands →
      g.Slot j ∨ (j ∈ is.take k ∧ g.Kept j))
    (run : g.insertFront entry is = .ok after) : after.Supplied su home entry := by
  have stays : ∀ m ∈ is, ∀ op, g.op? m = some op → op.isLandingPad = false ∧ ∀ t, t ∉ op.successors := by
    intro m hm op hop
    obtain ⟨op', hop', hterm, inner⟩ := plain m hm
    cases hop.symm.trans hop'
    exact ⟨inner, fun t ht => absurd (Op.isTerminator_of_successor ht) (by simp [hterm])⟩
  rw [← Supply.start_of_awake fun idle => h.entry.2 (h.idle entry idle).1]
  refine h.updateBlock (t := (is ++ ·)) run (fun _ => rfl) (taken_of_insertFront run) (fun lands =>
    absurd lands h.entry.2)
    (fun k m hm op hop => ?_) fun m hm op hop t ht j hj => ?_
  · by_cases front : k < is.length
    · rw [getElem?_append_left front] at hm
      rw [take_append_of_le_length (Nat.le_of_lt front)]
      obtain ⟨inner, none⟩ := stays m (mem_of_getElem? hm) op hop
      refine ⟨fun j hj => (operands k m hm op hop j hj).imp id .inr, iff_of_false (by simp [inner]) fun first =>
        h.entry.2 first.2, fun some => ?_, fun t ht => absurd ht (none t)⟩
      obtain ⟨t, unwinds⟩ := Option.ne_none_iff_exists'.mp some
      exact absurd (Op.successor_of_unwind? unwinds) (none t)
    · rw [getElem?_append_right (Nat.le_of_not_lt front)] at hm
      obtain ⟨ready, starts, sends⟩ := h.uses entry _ m hm op hop
      refine ⟨fun j hj => (ready j hj).mono (.refl g) id fun i hi => ?_, iff_of_false (fun isPad =>
        h.entry.2 (starts.mp isPad).2) fun first => h.entry.2 first.2, sends⟩
      rw [take_append, mem_append]
      exact .inr hi
  · rcases mem_append.mp hm with new | old
    · exact absurd ht ((stays m new op hop).2 t)
    · refine (h.edges entry m old op hop t ht j hj).imp (fun ready => ?_) id
      exact ready.mono (.refl g) id fun _ => mem_append_right _

end Supplied

end Graph

end FlowIR

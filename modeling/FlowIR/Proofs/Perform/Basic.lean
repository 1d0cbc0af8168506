import FlowIR.Proofs.Emit.Return
import FlowIR.Proofs.Source.Structured

/-!
The code of a statement does what the statement does.

`Cursor.Performs` says it of one statement at one cursor: wherever the finished function is run, it comes
to what executing the statement comes to. Where that is depends on how the statement is left
(`Cursor.Lands`): behind its code, behind the innermost switch, at the landing pad that encloses it, at
the cleanup that its returns have to pass through, or at the end of the function. On the way the run
changes the slots of variables and of the result and the flag of the innermost cleanup, and no other
slot that was there before (`Cursor.Proceeds`).
-/

namespace FlowIR

open Machine

/-- What the code of a function over integers is emitted for: the types and the slots of its variables, the
type of its result, and whether the notes of exceptions that are raised again are hidden. -/
structure Frame where
  types : VarId → Option Ty
  slots : VarId → InstrId
  result : Ty
  hides : Bool

variable {F : Frame} {S : Scene} {c mid after : Cursor} {m m' : Machine} {σ : State} {fuel : Nat}
  {watched : Option InstrId}

/-! ### Cursors -/

/-- The slot belongs to no variable and is not the one for the result. -/
def Cursor.Private (c : Cursor) (F : Frame) (j : InstrId) : Prop :=
  (∀ v t, F.types v = some t → F.slots v ≠ j) ∧ c.builder.returnSlot ≠ some (.result j)

/-- Code of structured statements can be emitted at the cursor. -/
structure Cursor.Hosts (c : Cursor) (F : Frame) : Prop where
  able : c.Able
  declares : c.Declares F.types F.slots
  typed : ∀ v t, F.types v = some t → ∃ x, c.builder.var? v = some x ∧ x.ty = t
  apart : ∀ u v, F.slots u = F.slots v → u = v
  kept : c.Kept
  own : ∀ i, c.builder.returnSlot = some (.result i) → ∀ v t, F.types v = some t → F.slots v ≠ i
  flags : ∀ k ∈ c.cleanups, ∀ j, k.flag = .result j → c.Private F j
  result : c.builder.signature.result = F.result
  returns : c.builder.convention.Returns F.result
  rethrow : F.hides = true → c.builder.options.rethrow = World.rethrow

/-- Frames of cleanups keep their blocks and flags. -/
theorem Cleanup.Noted.exists_of_mem {ks after : List Cleanup} (h : Noted ks after) {k : Cleanup}
    (hk : k ∈ after) : ∃ k' ∈ ks, k.block = k'.block ∧ k.flag = k'.flag := by
  cases ks with
  | nil =>
    cases (show after = [] from h)
    cases hk
  | cons head rest =>
    obtain ⟨returns, -, rfl⟩ := h
    rcases List.mem_cons.mp hk with rfl | later
    · exact ⟨head, List.mem_cons_self, rfl, rfl⟩
    · exact ⟨k, List.mem_cons_of_mem _ later, rfl, rfl⟩

namespace Cursor

/-- What was there is still there, wherever code has been added. -/
structure Retains (c after : Cursor) : Prop where
  builder : c.builder.Extends after.builder
  instr : ∀ (i : Nat) (instr : Instr), c.graph.instrs[i]? = some instr → after.graph.instrs[i]? = some instr
  returnSlot : ∀ v, after.builder.returnSlot = some v → c.builder.returnSlot = some v ∨
    ∃ i, v = .result i ∧ c.graph.instrs.size ≤ i.index

theorem Adds.retains (h : c.Adds after) : c.Retains after := ⟨h.builder, h.instr, h.returnSlot⟩

theorem Retains.op? {i : InstrId} {op : Op} (h : c.Retains after) (hop : c.graph.op? i = some op) :
    after.graph.op? i = some op := by
  obtain ⟨instr, found, rfl⟩ := Option.map_eq_some_iff.mp hop
  rw [Graph.op?, h.instr _ _ found]
  rfl

theorem Retains.trans (h : c.Retains mid) (k : mid.Retains after) : c.Retains after where
  builder := h.builder.trans k.builder
  instr := fun i instr found => k.instr i instr (h.instr i instr found)
  returnSlot := fun v hv => by
    rcases k.returnSlot v hv with old | ⟨i, rfl, new⟩
    · exact h.returnSlot v old
    · refine .inr ⟨i, rfl, Nat.le_trans (Nat.le_of_not_lt fun lt => ?_) new⟩
      have found := h.instr _ _ (Array.getElem?_eq_getElem lt)
      exact Nat.lt_irrefl _ (Array.getElem?_eq_some_iff.mp found).1

/-- A slot that was there is not the one for a result that was made later. -/
theorem Private.retains {j : InstrId} (h : c.Private F j) (retains : c.Retains after)
    (old : j.index < c.graph.instrs.size) : after.Private F j := by
  refine ⟨h.1, fun eq => ?_⟩
  rcases retains.returnSlot _ eq with same | ⟨i, eq', new⟩
  · exact h.2 same
  · cases eq'
    omega

theorem Declares.below (h : c.Declares F.types F.slots) {v : VarId} {t : Ty} (known : F.types v = some t) :
    (F.slots v).index < c.graph.instrs.size :=
  Graph.index_lt_of_op? (h v t known).1

/-- Code that is added leaves the cursor a host of the function. -/
theorem Hosts.adds (h : c.Hosts F) (adds : c.Adds after) (able : after.Able) : after.Hosts F where
  able := able
  declares := h.declares.adds adds
  typed := fun v t known => by
    obtain ⟨x, found, ty⟩ := h.typed v t known
    obtain ⟨x', found', -, ty'⟩ := adds.builder.vars v x found
    exact ⟨x', found', ty'.trans ty⟩
  apart := h.apart
  kept := adds.kept h.kept
  own := fun i eq v t known same => by
    rcases adds.returnSlot _ eq with old | ⟨i', eq', new⟩
    · exact h.own i old v t known same
    · cases eq'
      have below := h.declares.below known
      rw [same] at below
      omega
  flags := fun k hk j flag => by
    obtain ⟨k', hk', -, same⟩ := adds.cleanups.exists_of_mem hk
    obtain ⟨-, i, eq, hop⟩ := h.able.cleanups k' hk'
    have own := h.flags k' hk' j (same ▸ flag)
    cases eq.symm.trans (same ▸ flag)
    exact own.retains adds.retains (Graph.index_lt_of_op? hop)
  result := (congrArg Signature.result adds.builder.signature).trans h.result
  returns := adds.builder.convention ▸ h.returns
  rethrow := fun hidden => (congrArg Options.rethrow adds.builder.options).trans (h.rethrow hidden)

def Leavable (c : Cursor) : Prop := ∃ exit, c.exits.head? = some exit ∧ exit.index < c.graph.blocks.size

theorem Leavable.adds (h : c.Leavable) (adds : c.Adds after) : after.Leavable := by
  obtain ⟨exit, head, made⟩ := h
  exact ⟨exit, adds.exits ▸ head, Nat.lt_of_lt_of_le made adds.blocks_le⟩

/-- Whether some return has been noted to pass through the innermost cleanup. -/
def marked (c : Cursor) : Bool := c.cleanups.head?.any (·.returns)

theorem Adds.marked (h : c.Adds after) (marked : c.marked = true) : after.marked = true := by
  have noted := h.cleanups
  unfold Cursor.marked at *
  cases eq : c.cleanups with
  | nil =>
    rw [eq] at marked
    cases marked
  | cons k ks =>
    rw [eq] at noted marked
    obtain ⟨returns, keeps, eq'⟩ := noted
    rw [eq']
    exact keeps marked

/-- The innermost cleanup keeps its block and its flag. -/
theorem Adds.head_cleanups (h : c.Adds after) :
    (after.cleanups.head?.map fun k => (k.block, k.flag)) = c.cleanups.head?.map fun k => (k.block, k.flag) := by
  have noted := h.cleanups
  cases eq : c.cleanups with
  | nil =>
    rw [eq] at noted
    have none : after.cleanups = [] := noted
    rw [none]
  | cons k ks =>
    rw [eq] at noted
    obtain ⟨returns, -, eq'⟩ := noted
    rw [eq']
    rfl

/-! ### Runs -/

/-- The slots that the code of a statement may change, of those that are there. -/
def Touches (c : Cursor) (F : Frame) (j : InstrId) : Prop :=
  (∃ v t, F.types v = some t ∧ F.slots v = j) ∨ c.builder.returnSlot = some (.result j) ∨
    ∃ k, c.cleanups.head? = some k ∧ k.flag = .result j

/-- Code that is added may change no more of what was there. -/
theorem Touches.of_adds {j : InstrId} (adds : c.Adds after) (h : after.Touches F j)
    (old : j.index < c.graph.instrs.size) : c.Touches F j := by
  rcases h with var | slot | ⟨k, head, flag⟩
  · exact .inl var
  · rcases adds.returnSlot _ slot with same | ⟨i, eq, new⟩
    · exact .inr (.inl same)
    · cases eq
      omega
  · have same := adds.head_cleanups
    rw [head] at same
    cases head' : c.cleanups.head? with
    | none => rw [head'] at same; cases same
    | some k' =>
      rw [head'] at same
      simp only [Option.map_some, Option.some.injEq, Prod.mk.injEq] at same
      exact .inr (.inr ⟨k', head', same.2 ▸ flag⟩)

end Cursor

/-- The state of the machine is that of the program. If the slot of the result is watched, a return has been
executed, and the slot holds the value of the last one. -/
structure Scene.Tracks (S : Scene) (F : Frame) (watched : Option InstrId) (σ : State) (m : Machine) : Prop where
  ready : S.Ready m
  holds : S.Holds F.types F.slots σ.vars m
  world : m.world.seen F.hides = σ.world.seen F.hides
  latest : ∀ i, watched = some i → ∃ a, σ.latest = some a ∧ S.cell m i = F.result.encode a
  void : F.result = .void → σ.latest = none

namespace Cursor

/-- A run has come to the cursor with the given number of steps left. -/
structure Meets (c : Cursor) (F : Frame) (S : Scene) (watched : Option InstrId) (fuel : Nat) (σ : State)
    (m : Machine) : Prop extends S.Tracks F watched σ m where
  slot : ∀ i, watched = some i → c.builder.returnSlot = some (.result i)
  bound : F.hides = true → m.world.lastException + fuel < wordCount

/-- What holds of the state where a run goes on that was at the cursor before. -/
structure Proceeds (c : Cursor) (F : Frame) (S : Scene) (watched : Option InstrId) (m m' : Machine)
    (σ : State) : Prop extends S.Tracks F watched σ m' where
  keeps : S.Keeps (c.Touches F) c.graph.instrs.size m m'

/-- Where a run goes on that has returned: behind the function, or at the cleanup that the return has to pass
through. -/
def Leaves (c : Cursor) (F : Frame) (S : Scene) (watched : Option InstrId) (after : Cursor) (m : Machine)
    (σ : State) (t : Config) : Prop :=
  match c.cleanups.head? with
  | none => ∃ m', t = .over (.ok (.returned (σ.latest.map F.result.encode), m')) ∧
      m'.world.seen F.hides = σ.world.seen F.hides
  | some k => ∃ m' i, k.flag = .result i ∧ t = .before k.block (S.graph.body k.block) m' ∧
      c.Proceeds F S watched m m' σ ∧ S.cell m' i = Ty.i8.encode Emit.Reason.ret.code ∧ after.marked = true ∧
      (F.result.isInteger = true → ∃ j a, after.builder.returnSlot = some (.result j) ∧ σ.latest = some a ∧
        S.cell m' j = F.result.encode a)

/-- Where the run of a statement goes on, by how the statement was left. -/
def Lands (c : Cursor) (F : Frame) (S : Scene) (watched : Option InstrId) (after : Cursor)
    (goal : Machine → Config → Prop) (m : Machine) : Exit → State → Config → Prop
  | .normal, σ, t => ∃ m', goal m' t ∧ c.Proceeds F S watched m m' σ
  | .left, σ, t => ∃ exit m', c.exits.head? = some exit ∧ t = .before exit (S.graph.body exit) m' ∧
      c.Proceeds F S watched m m' σ
  | .stopped (.raised exception), σ, t => ∃ m', t = c.raising S exception m' ∧
      (F.hides = true → exception < wordCount) ∧ c.Proceeds F S watched m m' σ
  | .stopped (.fault f), _, t => t = .over (.error f)
  | .returned _, σ, t => c.Leaves F S watched after m σ t

/-- A run from `start` on does what the statement does, in the state `σ`; the machine was in the state `m` at
the cursor. -/
def Does (c : Cursor) (F : Frame) (S : Scene) (watched : Option InstrId) (after : Cursor)
    (goal : Machine → Config → Prop) (fuel : Nat) (start : Config) (m : Machine) (s : Stmt) (σ : State) : Prop :=
  S.Leads fuel start fun t => ∃ exit σ', Exec s σ exit σ' ∧ c.Lands F S watched after goal m exit σ' t

/-- The code has been emitted that does what the statement does. -/
structure Performs (c : Cursor) (F : Frame) (s : Stmt) (after : Cursor) : Prop where
  able : after.Able
  adds : c.Adds after
  runs : c.Open → ∀ S : Scene, after.In S → ∀ watched fuel σ m, c.Meets F S watched fuel σ m →
    c.Does F S watched after (fun m' t => after.Open ∧ t = after.spot S m') fuel (c.spot S m) m s σ

end Cursor

/-! ### Rules -/

/-- What the program sees is left by changes of slots that are no concern of it. -/
theorem Scene.Tracks.keeps {except : InstrId → Prop} (h : S.Tracks F watched σ m) (host : c.Hosts F)
    (inside : c.In S) (watches : ∀ i, watched = some i → c.builder.returnSlot = some (.result i))
    (ready : S.Ready m') (keeps : S.Keeps except c.graph.instrs.size m m') (own : ∀ j, except j → c.Private F j)
    {w : World} (world : m'.world.seen F.hides = w.seen F.hides) : S.Tracks F watched { σ with world := w } m' where
  ready := ready
  holds := fun v t known => by
    have hop := (host.declares v t known).1
    rw [keeps.cells _ (Graph.index_lt_of_op? hop) ⟨_, inside.slot hop, rfl⟩ fun e => (own _ e).1 v t known rfl]
    exact h.holds v t known
  world := world
  latest := fun i eq => by
    obtain ⟨_, eq', hop⟩ := host.kept _ (watches i eq)
    cases eq'
    rw [keeps.cells i (Graph.index_lt_of_op? hop) ⟨_, inside.slot hop, rfl⟩ fun e => (own i e).2 (watches i eq)]
    exact h.latest i eq
  void := h.void

namespace Cursor

variable {goal goal' : Machine → Config → Prop} {exit : Exit} {t : Config} {P : Config → Prop}

theorem Proceeds.refl (h : S.Tracks F watched σ m) : c.Proceeds F S watched m m σ := ⟨h, .refl _ _ _ _⟩

/-- A later part of a run, seen from its start. -/
theorem Proceeds.since {m'' : Machine} (h : mid.Proceeds F S watched m' m'' σ) (adds : c.Adds mid)
    (keeps : S.Keeps (c.Touches F) c.graph.instrs.size m m') : c.Proceeds F S watched m m'' σ :=
  ⟨h.toTracks, keeps.trans (h.keeps.mono adds.instrs_le fun _ old touched => .of_adds adds touched old)⟩

section

variable (h : c.Meets F S watched fuel σ m)

include h

theorem Meets.extends (grows : c.builder.Extends after.builder) : after.Meets F S watched fuel σ m :=
  ⟨h.toTracks, fun i eq => grows.returnSlot _ (h.slot i eq), h.bound⟩

theorem Meets.adds (adds : c.Adds after) : after.Meets F S watched fuel σ m := h.extends adds.builder

theorem Meets.fewer {left : Nat} (le : left ≤ fuel) : c.Meets F S watched left σ m :=
  ⟨h.toTracks, h.slot, fun hidden => Nat.lt_of_le_of_lt (Nat.add_le_add_left le _) (h.bound hidden)⟩

/-- A run goes on in another state. -/
theorem Meets.next {left : Nat} {σ' : State} (tracks : S.Tracks F watched σ' m')
    (bound : m'.world.lastException + left ≤ m.world.lastException + fuel) : c.Meets F S watched left σ' m' :=
  ⟨tracks, h.slot, fun hidden => Nat.lt_of_le_of_lt bound (h.bound hidden)⟩

end

/-- The same part of a run, seen from other surroundings. -/
theorem Proceeds.reframe {outer : Cursor} (h : c.Proceeds F S watched m m' σ) (builder : outer.builder = c.builder)
    (cleanups : outer.cleanups = c.cleanups) : outer.Proceeds F S watched m m' σ := by
  obtain ⟨b, x, p, k, e⟩ := outer
  obtain ⟨b', x', p', k', e'⟩ := c
  obtain rfl : b = b' := builder
  obtain rfl : k = k' := cleanups
  exact ⟨h.toTracks, h.keeps⟩

section Seen

variable {outer : Cursor} {m₀ : Machine} {watched' : Option InstrId}
  (follows : ∀ m', c.Proceeds F S watched m m' σ → outer.Proceeds F S watched' m₀ m' σ)
  (heads : c.cleanups.head?.map (fun k => (k.block, k.flag)) = outer.cleanups.head?.map fun k => (k.block, k.flag))
  (grows : mid.builder.Extends after.builder) (marks : mid.marked = true → after.marked = true)

include follows heads grows marks

/-- A run that returns, seen from another place that has the same cleanup. The code that follows leaves the
result slot and the mark of the innermost cleanup. -/
theorem Leaves.seen (h : c.Leaves F S watched mid m σ t) : outer.Leaves F S watched' after m₀ σ t := by
  unfold Leaves at *
  cases head : outer.cleanups.head? with
  | none =>
    rw [head] at heads
    rw [Option.map_eq_none_iff.mp heads] at h
    exact h
  | some k =>
    rw [head] at heads
    obtain ⟨k', head', eq⟩ := Option.map_eq_some_iff.mp heads
    simp only [Prod.mk.injEq] at eq
    rw [head'] at h
    obtain ⟨m', i, flag, eq', reached, cell, marked, latest⟩ := h
    refine ⟨m', i, eq.2 ▸ flag, eq.1 ▸ eq', follows m' reached, cell, marks marked, fun integer => ?_⟩
    obtain ⟨j, a, slot, held⟩ := latest integer
    exact ⟨j, a, grows.returnSlot _ slot, held⟩

/-- Where a run goes on, seen from another place. Its surroundings matter only for the exits that use them. -/
theorem Lands.seen (h : c.Lands F S watched mid goal m exit σ t)
    (pads : exit.isRaised = true → outer.pads = c.pads) (exits : exit = .left → outer.exits = c.exits)
    (further : ∀ m', exit = .normal → goal m' t → goal' m' t) : outer.Lands F S watched' after goal' m₀ exit σ t := by
  cases exit with
  | normal =>
    obtain ⟨m', reached, proceeds⟩ := h
    exact ⟨m', further m' rfl reached, follows m' proceeds⟩
  | left =>
    obtain ⟨x, m', head, eq, proceeds⟩ := h
    exact ⟨x, m', exits rfl ▸ head, eq, follows m' proceeds⟩
  | stopped stop =>
    cases stop with
    | raised exception =>
      obtain ⟨m', eq, old, proceeds⟩ := h
      refine ⟨m', ?_, old, follows m' proceeds⟩
      rw [eq]
      unfold raising
      rw [pads rfl]
    | fault f => exact h
  | returned v => exact Leaves.seen follows heads grows marks h

end Seen

/-- More code behind it. -/
theorem Lands.onward (h : c.Lands F S watched mid goal m exit σ t)
    (grows : mid.builder.Extends after.builder) (marks : mid.marked = true → after.marked = true)
    (further : ∀ m', exit = .normal → goal m' t → goal' m' t) : c.Lands F S watched after goal' m exit σ t :=
  Lands.seen (fun _ k => k) rfl grows marks h (fun _ => rfl) (fun _ => rfl) further

/-- A later part of a run, seen from its start. -/
theorem Lands.since (h : mid.Lands F S watched after goal m' exit σ t) (adds : c.Adds mid)
    (keeps : S.Keeps (c.Touches F) c.graph.instrs.size m m') : c.Lands F S watched after goal m exit σ t :=
  Lands.seen (fun _ k => k.since adds keeps) adds.head_cleanups (.refl _) id h (fun _ => adds.pads.symm)
    (fun _ => adds.exits.symm) fun _ _ k => k

/-- The same part of a run, seen from other surroundings. -/
theorem Lands.reframe {outer : Cursor} (h : c.Lands F S watched after goal m exit σ t)
    (builder : outer.builder = c.builder) (cleanups : outer.cleanups = c.cleanups)
    (pads : exit.isRaised = true → outer.pads = c.pads) (exits : exit = .left → outer.exits = c.exits) :
    outer.Lands F S watched after goal m exit σ t :=
  Lands.seen (fun _ k => k.reframe builder cleanups) (by rw [cleanups]) (.refl _) id h pads exits fun _ _ k => k

/-- Less is watched. -/
theorem Lands.rewatch {watched' : Option InstrId} (sub : ∀ i, watched' = some i → watched = some i)
    (h : c.Lands F S watched after goal m exit σ t) : c.Lands F S watched' after goal m exit σ t :=
  Lands.seen (fun _ k => ⟨⟨k.ready, k.holds, k.world, fun i eq => k.latest i (sub i eq), k.void⟩, k.keeps⟩) rfl
    (.refl _) id h (fun _ => rfl) (fun _ => rfl) fun _ _ k => k

/-- Outside any cleanup, a return is the end. -/
theorem Lands.ended {v : Option Int} {result : Option Bytes} (head : c.cleanups.head? = none)
    (value : result = σ.latest.map F.result.encode) (world : m'.world.seen F.hides = σ.world.seen F.hides) :
    c.Lands F S watched after goal m (.returned v) σ (.over (.ok (.returned result, m'))) := by
  show c.Leaves F S watched after m σ _
  unfold Leaves
  rw [head]
  exact ⟨m', by rw [value], world⟩

theorem lastException_raising (c : Cursor) (S : Scene) (exception : Nat) (m : Machine) :
    (c.raising S exception m).lastException = m.world.lastException := by
  unfold raising
  cases c.pads.head? <;> rfl

/-- What evaluating at the cursor comes to, told about the program's own world: something that goes on with
the value, or an early end of the statement. -/
theorem Meets.evaluate {α : Type} {x : EvalM α} {Q : α → Machine → Prop}
    (meets : c.Meets F S watched fuel σ m) (host : c.Hosts F) (inside : c.In S) (honest : x.Honest F.hides)
    (first : S.Leads fuel (c.spot S m) (Comes S c (mid.spot S) m Q (x m.world)))
    (value : ∀ left a m' w, left ≤ fuel → x σ.world = .ok a w →
      c.Meets F S watched left { σ with world := w } m' →
      S.Keeps (fun _ => False) c.graph.instrs.size m m' → Q a m' → S.Leads left (mid.spot S m') P)
    (stops : ∀ stop w t, x σ.world = .error stop w → (∀ after goal,
      c.Lands F S watched after goal m (.stopped stop) { σ with world := w } t) → P t) :
    S.Leads fuel (c.spot S m) P := by
  have same : Evaluated.seen F.hides (x m.world) = Evaluated.seen F.hides (x σ.world) := by
    rw [← honest.seen, ← honest.seen, meets.world]
  refine first.bind fun left t fewer bound come => ?_
  cases run : x m.world with
  | ok a w =>
    rw [run] at come same
    obtain ⟨m', rfl, ready, keeps, rfl, q⟩ := come
    cases run' : x σ.world with
    | ok a' w' =>
      rw [run'] at same
      simp only [Evaluated.seen, EStateM.Result.ok.injEq] at same
      obtain ⟨rfl, seen⟩ := same
      have tracks := meets.toTracks.keeps host inside meets.slot ready keeps (fun _ no => no.elim) seen
      exact value left a m' w' fewer run' (meets.next tracks bound) keeps q
    | error stop w' =>
      rw [run'] at same
      cases same
  | error stop w =>
    rw [run] at come same
    cases run' : x σ.world with
    | ok a' w' =>
      rw [run'] at same
      cases same
    | error stop' w' =>
      rw [run'] at same
      simp only [Evaluated.seen, EStateM.Result.error.injEq] at same
      obtain ⟨rfl, seen⟩ := same
      refine .here (stops stop w' t run' fun after goal => ?_)
      cases stop with
      | fault f => exact come
      | raised exception =>
        obtain ⟨m', rfl, ready, keeps, rfl⟩ := come
        have small : F.hides = true → exception < wordCount := fun hidden => by
          have old := honest.raised hidden _ _ _ run
          have before := meets.bound hidden
          rw [lastException_raising] at bound
          exact Nat.lt_of_le_of_lt (Nat.le_trans old (Nat.le_trans (Nat.le_add_right _ _) bound)) before
        refine ⟨m', rfl, small, ?_, ?_⟩
        · exact meets.toTracks.keeps host inside meets.slot ready keeps (fun _ no => no.elim) seen
        · exact keeps.widen fun _ no => no.elim

/-- What goes on after a statement. An early end is one of the whole. -/
theorem Does.bind {start : Config} {m₁ : Machine} {s : Stmt} {σ₁ : State}
    (first : mid.Does F S watched after goal fuel start m₁ s σ₁) (adds : c.Adds mid)
    (keeps : S.Keeps (c.Touches F) c.graph.instrs.size m m₁)
    (normal : ∀ left σ' m' t, left ≤ fuel → t.lastException + left ≤ start.lastException + fuel →
      Exec s σ₁ .normal σ' → goal m' t → c.Proceeds F S watched m m' σ' → S.Leads left t P)
    (early : ∀ exit σ' t, exit ≠ .normal → Exec s σ₁ exit σ' → c.Lands F S watched after goal m exit σ' t → P t) :
    S.Leads fuel start P := by
  refine Leads.bind first fun left t fewer bound => ?_
  rintro ⟨exit, σ', exec, lands⟩
  have lands := lands.since adds keeps
  by_cases comes : exit = .normal
  · subst comes
    obtain ⟨m', reached, follows⟩ := lands
    exact normal left σ' m' t fewer bound exec reached follows
  · exact .here (early exit σ' t comes exec lands)

/-- A branch to a block that has been made. -/
theorem Pushed.goes {target : BlockId} {i : InstrId}
    (h : c.Pushed ⟨.br target, .void, none⟩ i after) (isOpen : c.Open) (inside : after.In S)
    (made : target.index < c.graph.blocks.size)
    (later : ∀ left, left < fuel → m.world.lastException + left ≤ m.world.lastException + fuel →
      S.Leads left (.before target (S.graph.body target) m) P) : S.Leads fuel (c.spot S m) P := by
  obtain ⟨name, found⟩ := h.there inside rfl
  have exec : step S.graph S.args m i = .ok (.jump target, m) := by
    unfold step
    rw [found]
    rfl
  exact h.jump isOpen inside exec (Nat.lt_of_lt_of_le made (inside.adds h.adds).graph.size) later

end Cursor

/-! ### Emitting -/

def Halt.IsDuplicate (e : Halt BuildError) : Prop := ∃ name span value, e = .error ⟨name, span, .duplicateCase value⟩

/-- The emitter emits the code of the statement, and reports a value that a switch lists twice if there is one;
it may be left for the exit of a switch if `inside` says so. -/
def Enacts (F : Frame) (s : Stmt) (inside : Bool) (code : EmitM Unit) : Prop :=
  ∀ c : Cursor, c.Hosts F → (inside = true → c.Leavable) →
    Ensures code c (fun _ after => c.Performs F s after ∧ s.isDistinct = true)
      fun e _ => e.IsDuplicate ∧ s.isDistinct = false

/-- A part of a statement, and what follows it. -/
theorem Enacts.bind {β : Type} {s : Stmt} {within : Bool} {code : EmitM Unit} {f : Unit → EmitM β}
    {Q : β → Cursor → Prop} {distinct : Bool} (h : Enacts F s within code) (host : c.Hosts F)
    (exits : within = true → c.Leavable) (part : s.isDistinct = false → distinct = false)
    (next : ∀ after, c.Performs F s after → s.isDistinct = true →
      Ensures (f ()) after Q fun e _ => e.IsDuplicate ∧ distinct = false) :
    Ensures (code >>= f) c Q fun e _ => e.IsDuplicate ∧ distinct = false := by
  refine ((h c host exits).mono (fun _ _ done => done) ?_).bind fun _ after done => next after done.1 done.2
  exact fun _ _ failed => ⟨failed.1, part failed.2⟩

namespace Cursor

/-- Code that has been added in other surroundings has been added. -/
theorem Adds.within {inner innerAfter : Cursor} (h : inner.Adds innerAfter)
    (start : inner.builder = c.builder ∧ inner.current = c.current)
    (finish : after.builder = innerAfter.builder ∧ after.current = innerAfter.current)
    (pads : after.pads = c.pads) (exits : after.exits = c.exits)
    (cleanups : Cleanup.Noted c.cleanups after.cleanups) : c.Adds after := by
  obtain ⟨b, x, p, k, e⟩ := c
  obtain ⟨b', x', p', k', e'⟩ := inner
  obtain ⟨rfl, rfl⟩ : b' = b ∧ x' = x := start
  obtain ⟨d, y, q, l, f⟩ := after
  obtain ⟨d', y', q', l', f'⟩ := innerAfter
  obtain ⟨rfl, rfl⟩ : d = d' ∧ y = y' := finish
  exact { h with pads, exits, cleanups }

/-- Code has been emitted in a block of its own. What it belongs to started at `base`. -/
structure Places (base c : Cursor) (block : BlockId) (after : Cursor) : Prop extends c.Retains after where
  able : after.Able
  adds : base.Adds after
  waits : ∀ {y}, c.Waits y → y ≠ block → after.Waits y
  marked : c.marked = true → after.marked = true
  hosts : ∀ {F}, c.Hosts F → after.Hosts F

variable {x : BlockId} {base : Cursor}

theorem Enters.marked (h : c.Enters x after) (marked : c.marked = true) : after.marked = true := by
  unfold Cursor.marked at *
  rwa [h.cleanups]

/-- Starting a block leaves the variables and the slots. -/
theorem Hosts.enters (h : c.Hosts F) (enters : c.Enters x after) : after.Hosts F := by
  have able := enters.able
  have op? : ∀ i, after.graph.op? i = c.graph.op? i := fun i => by rw [Graph.op?, Graph.op?, enters.instrs]
  obtain rfl := enters.same
  exact
    { able
      declares := fun v t known => ⟨(op? _).trans (h.declares v t known).1, (h.declares v t known).2⟩
      typed := h.typed
      apart := h.apart
      kept := fun v hv => by
        obtain ⟨i, eq, hop⟩ := h.kept v hv
        exact ⟨i, eq, (op? i).trans hop⟩
      own := h.own
      flags := h.flags
      result := h.result
      returns := h.returns
      rethrow := h.rethrow }

theorem Enters.retains (h : c.Enters x after) : c.Retains after := by
  refine ⟨h.builder, fun i instr found => by rwa [h.instrs], fun v hv => .inl ?_⟩
  rw [h.same] at hv
  exact hv

theorem Enters.places (h : c.Enters x after) (adds : base.Adds c)
    (new : base.graph.blocks.size ≤ x.index) : base.Places c x after where
  toRetains := h.retains
  able := h.able
  adds := h.adds base adds new
  waits := fun hy ne => h.waits _ hy ne
  marked := h.marked
  hosts := fun host => host.enters h

theorem Places.refl (adds : base.Adds c) (able : c.Able) : base.Places c x c :=
  ⟨(Adds.refl c).retains, able, adds, fun hy _ => hy, id, id⟩

/-- More code behind it. -/
theorem Places.then (h : base.Places c x mid) (k : mid.Adds after) (able : after.Able) : base.Places c x after where
  toRetains := h.toRetains.trans k.retains
  able := able
  adds := h.adds.trans k
  waits := fun hy ne => (h.waits hy ne).adds k
  marked := fun marked => k.marked (h.marked marked)
  hosts := fun host => (h.hosts host).adds k able

/-- What a statement in a block of its own is like: where it comes to its end it goes on to `join`. -/
structure Part (base c : Cursor) (F : Frame) (block join : BlockId) (s : Stmt) (after : Cursor) : Prop
    extends base.Places c block after where
  runs : ∀ S : Scene, after.In S → ∀ watched fuel σ m, base.Meets F S watched fuel σ m →
    base.Does F S watched after (fun m' t => t = .before join (S.graph.body join) m') fuel
      (.before block (S.graph.body block) m) m s σ

end Cursor

/-- An operation that succeeds, in a statement that may be rejected. -/
theorem Succeeds.or {α β : Type} {x : EmitM α} {f : α → EmitM β} {P : α → Cursor → Prop} {Q : β → Cursor → Prop}
    {E : Halt BuildError → Cursor → Prop} (first : Succeeds x c P)
    (second : ∀ a mid, P a mid → Ensures (f a) mid Q E) : Ensures (x >>= f) c Q E :=
  (first.mono (fun _ _ h => h) fun _ _ h => h.elim).bind second

/-- A statement in a block of its own, with a branch to `join` behind it. -/
theorem part_succeeds {base : Cursor} {block join : BlockId} {s : Stmt} {within : Bool} {code : EmitM Unit}
    {β : Type} {f : Unit → EmitM β} {Q : β → Cursor → Prop} {distinct : Bool} (enacts : Enacts F s within code)
    (host : c.Hosts F) (exits : within = true → c.Leavable) (adds : base.Adds c)
    (waits : c.Waits block) (new : base.graph.blocks.size ≤ block.index)
    (made : join.index < c.graph.blocks.size) (part : s.isDistinct = false → distinct = false)
    (next : ∀ after, base.Part c F block join s after → s.isDistinct = true →
      Ensures (f ()) after Q fun e _ => e.IsDuplicate ∧ distinct = false) :
    Ensures (Emit.startBlock block >>= fun _ => code >>= fun _ => Emit.branchTo join >>= f) c Q
      fun e _ => e.IsDuplicate ∧ distinct = false := by
  refine (startBlock_succeeds host.able waits).or fun _ c₁ enters => ?_
  have adds₁ := enters.adds base adds new
  have exits₁ : within = true → c₁.Leavable := fun h => by
    obtain ⟨exit, head, made⟩ := exits h
    exact ⟨exit, by rwa [adds₁.exits, ← adds.exits], enters.size ▸ made⟩
  refine enacts.bind (host.enters enters) exits₁ part fun c₂ performs distinct' => ?_
  refine (branchTo_succeeds performs.able join).or fun _ after branches => next after ?_ distinct'
  refine ⟨(enters.places adds new).then (performs.adds.trans branches.adds) branches.able,
    fun S inside watched fuel σ m meets => ?_⟩
  have inside₂ := inside.adds branches.adds
  rw [← Cursor.spot_of_starts (inside₂.adds performs.adds) enters.starts]
  have run := performs.runs enters.starts.open S inside₂ watched fuel σ m (meets.adds adds₁)
  refine Cursor.Does.bind run adds₁ (.refl _ _ _ _) ?_ ?_
  · rintro left σ' m' _ - - exec ⟨isOpen, rfl⟩ follows
    obtain ⟨i, pushed⟩ := branches.pushed isOpen
    have there : join.index < c₂.graph.blocks.size := by
      have le := performs.adds.blocks_le
      rw [enters.size] at le
      omega
    exact pushed.goes isOpen inside there fun _ _ _ => .here ⟨.normal, σ', exec, m', rfl, follows⟩
  · intro exit σ' t early exec lands
    exact ⟨exit, σ', exec, lands.onward branches.adds.builder branches.adds.marked
      fun _ eq => absurd eq early⟩

end FlowIR

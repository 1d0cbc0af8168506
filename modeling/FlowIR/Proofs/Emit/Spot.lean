import FlowIR.Proofs.Emit.Adds
import FlowIR.Proofs.Machine.Cells
import FlowIR.Proofs.Machine.Leads
import FlowIR.Proofs.Source.Eval

/-!
A cursor as a place in the finished function.

A function under construction becomes a finished one by growing, by having placeholders replaced and
indirect branches given targets, and by having slots put in front of its entry block
(`Graph.Becomes`). Where code is emitted at an open cursor, the finished block goes on with that code:
`Cursor.spot` is the configuration of a run that has come to the cursor. Adding an instruction there
means executing it there (`Cursor.Pushed.next` and its kin).
-/

namespace FlowIR

open Machine FlowIR.Graph

abbrev Scene.lead (S : Scene) (x : BlockId) : List InstrId := Graph.lead S.entry S.front x

/-- A run in the scene comes to a configuration of which `P` holds. -/
abbrev Scene.Leads (S : Scene) (fuel : Nat) (s : Config) (P : Config → Prop) : Prop :=
  Machine.Leads S.graph S.args fuel s P

namespace Cursor

/-- The function at the cursor is on its way to the finished one. -/
structure In (c : Cursor) (S : Scene) : Prop where
  graph : c.graph.Becomes S.entry S.front S.graph
  entry : c.builder.entry = S.entry

/-- What the current block goes on with in the finished function. -/
def rest (c : Cursor) (S : Scene) : List InstrId :=
  (S.graph.body c.current).drop (S.lead c.current ++ c.graph.body c.current).length

def spot (c : Cursor) (S : Scene) (m : Machine) : Config := .before c.current (c.rest S) m

/-- A run in which an exception has been raised at the cursor. -/
def raising (c : Cursor) (S : Scene) (exception : Nat) (m : Machine) : Config :=
  match c.pads.head? with
  | none => .over (.ok (.raised exception, m))
  | some pad => .before pad (S.graph.body pad) { m with inFlight := some exception }

variable {S : Scene} {c mid after : Cursor} {x : BlockId} {i : InstrId} {m : Machine} {shape : Shape} {v : Operand}

theorem In.extends (h : after.In S) (grows : c.builder.Extends after.builder) : c.In S :=
  ⟨grows.graph.becomes h.graph, grows.entry.symm.trans h.entry⟩

theorem In.adds (h : after.In S) (adds : c.Adds after) : c.In S := h.extends adds.builder

/-- An instruction that stays as it is. -/
theorem In.instr (h : c.In S) {instr : Instr} (found : c.graph.instrs[i.index]? = some instr)
    (whole : instr.op.Whole) (direct : instr.op.isIndirect = false) :
    ∃ name, S.graph.instr i = .ok ⟨instr.op, instr.shape, name⟩ :=
  h.graph.exists_instr found whole direct

/-- A slot stays a slot. -/
theorem In.slot (h : c.In S) (hop : c.graph.op? i = some (.alloca shape)) : S.graph.op? i = some (.alloca shape) := by
  obtain ⟨instr, found, eq⟩ := Option.map_eq_some_iff.mp hop
  obtain ⟨name, there⟩ := h.instr found (by rw [eq]; rintro _ ⟨⟩)
    (by rw [eq]; rfl)
  rw [eq] at there
  exact op?_of_instr there

/-- The finished block starts with what it lists already. -/
theorem In.body_current (h : c.In S) :
    S.graph.body c.current = (S.lead c.current ++ c.graph.body c.current) ++ c.rest S := by
  obtain ⟨rest, eq⟩ := h.graph.body c.current
  unfold Cursor.rest
  rw [← eq, List.drop_left]

/-- A block that is started is the finished block. -/
theorem In.rest_of_starts (h : c.In S) (starts : c.Starts x) : c.rest S = S.graph.body x := by
  have inner : x ≠ S.entry := h.entry ▸ starts.inner
  have eq := h.body_current
  rw [starts.current, starts.empty, Scene.lead, Graph.lead, if_neg inner] at eq
  exact eq.symm

theorem spot_of_starts (h : c.In S) (starts : c.Starts x) : c.spot S m = .before x (S.graph.body x) m := by
  rw [spot, h.rest_of_starts starts, starts.current]

/-! ### Executing what is added -/

namespace Pushed

variable {instr : Instr} {P : Config → Prop} {fuel : Nat} {m' : Machine}

variable (h : c.Pushed instr i after)

include h

/-- The finished block goes on with the instruction. -/
theorem rest (isOpen : c.Open) (inside : after.In S) : c.rest S = i :: after.rest S := by
  obtain ⟨same, listed⟩ := h.listed isOpen
  have whole := inside.body_current
  rw [same, listed, ← List.append_assoc, List.append_assoc, List.singleton_append] at whole
  have start := (inside.adds h.adds).body_current
  exact List.append_cancel_left (start.symm.trans whole)

theorem spot (isOpen : c.Open) (inside : after.In S) : c.spot S m = .before c.current (i :: after.rest S) m := by
  rw [Cursor.spot, h.rest isOpen inside]

/-- The instruction in the finished function. -/
theorem there (inside : after.In S) (direct : instr.op.isIndirect = false) :
    ∃ name, S.graph.instr i = .ok ⟨instr.op, instr.shape, name⟩ :=
  inside.instr h.found (h.adds.whole i.index instr (Nat.le_of_eq h.index.symm) h.found) direct

/-- The instruction has a place among the results. -/
theorem below (inside : after.In S) : i.index < S.graph.instrs.size := by
  obtain ⟨instr', found, -⟩ := inside.graph.instr _ _ h.found
  exact (Array.getElem?_eq_some_iff.mp found).1

/-- An instruction that is no slot changes none. -/
theorem not_slot (inside : after.In S)
    (direct : instr.op.isIndirect = false) (plain : instr.op.isAlloca = false) : ¬ S.graph.Slot i := by
  rintro ⟨op, hop, slot⟩
  obtain ⟨name, found⟩ := h.there inside direct
  cases (op?_of_instr found).symm.trans hop
  rw [plain] at slot
  cases slot

variable (isOpen : c.Open) (inside : after.In S)

include isOpen inside

theorem next (exec : step S.graph S.args m i = .ok (.next, m')) (later : ∀ left, left < fuel →
      m'.world.lastException + left ≤ m.world.lastException + fuel →
      S.Leads left (after.spot S m') P) : S.Leads fuel (c.spot S m) P := by
  rw [h.spot isOpen inside]
  refine Leads.next exec fun left fewer bound => ?_
  have same := (h.listed isOpen).1
  have goal := later left fewer bound
  rwa [Cursor.spot, same] at goal

theorem jump {t : BlockId}
    (exec : step S.graph S.args m i = .ok (.jump t, m')) (there : t.index < S.graph.blocks.size)
    (later : ∀ left, left < fuel →
      m'.world.lastException + left ≤ m.world.lastException + fuel →
      S.Leads left (.before t (S.graph.body t) m') P) : S.Leads fuel (c.spot S m) P := by
  rw [h.spot isOpen inside]
  exact Leads.jump exec there later

theorem done {o : Outcome} (exec : step S.graph S.args m i = .ok (.done o, m')) (ended : P (.over (.ok (o, m')))) :
    S.Leads fuel (c.spot S m) P := by
  rw [h.spot isOpen inside]
  exact Leads.done exec ended

theorem fault {f : Fault} (exec : step S.graph S.args m i = .error f) (ended : P (.over (.error f))) :
    S.Leads fuel (c.spot S m) P := by
  rw [h.spot isOpen inside]
  exact Leads.fault exec ended

end Pushed

/-- A branch to a block that is started later. -/
theorem Pushed.branch {P : Config → Prop} {fuel : Nat} {t : BlockId}
    (h : c.Pushed ⟨.br t, .void, none⟩ i mid) (isOpen : c.Open) (grows : mid.builder.Extends after.builder)
    (inside : after.In S) (able : after.Able) (starts : after.Starts t)
    (later : ∀ left, left < fuel → m.world.lastException + left ≤ m.world.lastException + fuel →
      S.Leads left (after.spot S m) P) : S.Leads fuel (c.spot S m) P := by
  have here := inside.extends grows
  obtain ⟨name, found⟩ := h.there here rfl
  have exec : step S.graph S.args m i = .ok (.jump t, m) := by
    unfold step
    rw [found]
    rfl
  have there : t.index < S.graph.blocks.size :=
    Nat.lt_of_lt_of_le (starts.current ▸ able.current) inside.graph.size
  refine h.jump isOpen here exec there fun left fewer bound => ?_
  rw [← spot_of_starts inside starts]
  exact later left fewer bound

/-! ### Evaluations -/

/-- The operand is there at the cursor, and is a value of the shape. -/
structure Offers (c : Cursor) (v : Operand) (shape : Shape) : Prop where
  below : ∀ i, v = .result i → i.index < c.graph.instrs.size
  whole : v.isPlaceholder = false
  inner : ∀ n, v ≠ .arg n
  shape : c.graph.shapeOf v = .ok shape

theorem Offers.adds (h : c.Offers v shape) (k : c.Adds after) : after.Offers v shape where
  below := fun i eq => Nat.lt_of_lt_of_le (h.below i eq) k.instrs_le
  whole := h.whole
  inner := h.inner
  shape := by
    have same := h.shape
    cases v with
    | result i =>
      have inside := h.below i rfl
      have there : c.graph.instrs[i.index]? = some c.graph.instrs[i.index] := by simp [inside]
      have later := k.instr _ _ there
      simp only [shapeOf, instr, there] at same
      simp only [shapeOf, instr, later]
      exact same
    | arg n => exact absurd rfl (h.inner n)
    | _ => exact same

theorem Offers.shapeOf (h : c.Offers v shape) (inside : c.In S) : S.graph.shapeOf v = .ok shape := by
  have same := h.shape
  cases v with
  | result i =>
    have below := h.below i rfl
    have there : c.graph.instrs[i.index]? = some c.graph.instrs[i.index] := by simp [below]
    obtain ⟨instr', later, -, eq⟩ := inside.graph.instr _ _ there
    simp only [shapeOf, instr, there] at same
    simp only [shapeOf, instr, later]
    exact (congrArg Except.ok eq).trans same
  | arg n => exact absurd rfl (h.inner n)
  | _ => exact same

theorem Offers.of_instrs (h : c.Offers v shape)
    (same : after.graph.instrs = c.graph.instrs) : after.Offers v shape where
  below := fun i eq => same ▸ h.below i eq
  whole := h.whole
  inner := h.inner
  shape := by
    have known := h.shape
    cases v with
    | result i =>
      simp only [Graph.shapeOf, Graph.instr, same] at known ⊢
      exact known
    | arg n => exact absurd rfl (h.inner n)
    | _ => exact known

/-- A new result. -/
theorem Pushed.offers {instr : Instr} (h : c.Pushed instr i after) : after.Offers (.result i) instr.shape where
  below := fun j eq => by
    cases eq
    rw [h.index, h.size]
    exact Nat.lt_succ_self _
  whole := rfl
  inner := nofun
  shape := by
    simp only [Graph.shapeOf, Graph.instr, h.found]
    rfl

theorem offers_const (c : Cursor) (v : Constant) : c.Offers (.const v) v.shape :=
  ⟨nofun, rfl, nofun, rfl⟩

/-- What running code comes to, by what the evaluation of its source comes to: the goal of the code,
with a value that `Q` relates to the value of the source; the landing pad that encloses the code, or
the end of the function, with the exception; or a fault. What was there at the cursor `c` is kept. -/
def Comes {α : Type} (S : Scene) (c : Cursor) (goal : Machine → Config) (m : Machine)
    (Q : α → Machine → Prop) : Evaluated α → Config → Prop
  | .ok a w, s => ∃ m', s = goal m' ∧ S.Ready m' ∧
      S.Keeps (fun _ => False) c.graph.instrs.size m m' ∧ m'.world = w ∧ Q a m'
  | .error (.raised exception) w, s => ∃ m', s = c.raising S exception m' ∧ S.Ready m' ∧
      S.Keeps (fun _ => False) c.graph.instrs.size m m' ∧ m'.world = w
  | .error (.fault f) _, s => s = .over (.error f)

section Comes

variable {α β : Type} {Q : α → Machine → Prop} {R : β → Machine → Prop} {fuel : Nat}
  {goal : Machine → Config} {s : Config} {goal' : Machine → Config}

/-- Code of nothing. -/
theorem comes_pure {a : α} (ready : S.Ready m) (q : Q a m) :
    S.Leads fuel (c.spot S m) (Comes S c (c.spot S) m Q ((pure a : EvalM α) m.world)) :=
  .here ⟨m, rfl, ready, .refl _ _ _ _, rfl, q⟩

/-- A later part of some code, seen from its start. -/
theorem Comes.since {r : Evaluated α} {m' : Machine} (h : Comes S mid goal m' Q r s)
    (pads : mid.pads = c.pads) (le : c.graph.instrs.size ≤ mid.graph.instrs.size)
    (keeps : S.Keeps (fun _ => False) c.graph.instrs.size m m') : Comes S c goal m Q r s := by
  revert h
  cases r with
  | ok a w =>
    rintro ⟨m'', rfl, ready, keeps', world, q⟩
    exact ⟨m'', rfl, ready, keeps.trans (keeps'.below le), world, q⟩
  | error stop w =>
    cases stop with
    | raised exception =>
      rintro ⟨m'', rfl, ready, keeps', world⟩
      refine ⟨m'', ?_, ready, keeps.trans (keeps'.below le), world⟩
      unfold raising
      rw [pads]
    | fault f => exact fun come => come

/-- One evaluation after another, where the second goes on from anywhere. -/
theorem comes_then {x : EvalM α} {f : α → EvalM β} (first : S.Leads fuel s (Comes S c goal m Q (x m.world)))
    (second : ∀ left a m', left ≤ fuel → S.Ready m' →
      S.Keeps (fun _ => False) c.graph.instrs.size m m' → Q a m' →
      S.Leads left (goal m') (Comes S c goal' m R (f a m'.world))) :
    S.Leads fuel s (Comes S c goal' m R ((x >>= f) m.world)) := by
  refine first.bind fun left t fewer _ come => ?_
  have unfolded : (x >>= f) m.world = EStateM.bind x f m.world := rfl
  rw [unfolded, EStateM.bind]
  cases run : x m.world with
  | ok a w =>
    rw [run] at come
    obtain ⟨m', rfl, ready, keeps, rfl, q⟩ := come
    exact second left a m' fewer ready keeps q
  | error stop w =>
    rw [run] at come
    refine .here ?_
    cases stop <;> exact come

/-- One evaluation after another. -/
theorem comes_bind {x : EvalM α} {f : α → EvalM β} (adds : c.Adds mid)
    (first : S.Leads fuel s (Comes S c (mid.spot S) m Q (x m.world)))
    (second : ∀ left a m', left ≤ fuel → S.Ready m' →
      S.Keeps (fun _ => False) c.graph.instrs.size m m' → Q a m' →
      S.Leads left (mid.spot S m') (Comes S mid goal m' R (f a m'.world))) :
    S.Leads fuel s (Comes S c goal m R ((x >>= f) m.world)) :=
  comes_then first fun left a m' fewer ready keeps q =>
    (second left a m' fewer ready keeps q).mono fun _ come => come.since adds.pads adds.instrs_le keeps

/-- The same evaluation, with something more to do. -/
theorem comes_map {x : EvalM α} {R : α → Machine → Prop} (first : S.Leads fuel s (Comes S c goal m Q (x m.world)))
    (second : ∀ left a m', left ≤ fuel → S.Ready m' →
      S.Keeps (fun _ => False) c.graph.instrs.size m m' → Q a m' →
      S.Leads left (goal m') (Comes S c goal' m R ((pure a : EvalM α) m'.world))) :
    S.Leads fuel s (Comes S c goal' m R (x m.world)) := by
  have unit : x m.world = (x >>= pure) m.world := by rw [bind_pure]
  rw [unit]
  exact comes_then first second

end Comes

/-! ### Code that goes on -/

/-- Code has been added that goes on where it was: an open block is followed by an open one. -/
structure Flows (c after : Cursor) : Prop where
  able : after.Able
  adds : c.Adds after
  cleanups : after.cleanups = c.cleanups
  isOpen : c.Open → after.Open

theorem Flows.refl (able : c.Able) : c.Flows c := ⟨able, .refl c, rfl, id⟩

theorem Flows.trans (h : c.Flows mid) (k : mid.Flows after) : c.Flows after :=
  ⟨k.able, h.adds.trans k.adds, k.cleanups.trans h.cleanups, fun o => k.isOpen (h.isOpen o)⟩

/-- Names take no code. -/
theorem Renamed.flows (h : c.Renamed after) (able : c.Able) : c.Flows after := by
  have adds := h.adds
  have able' := h.able able
  obtain ⟨names, rfl⟩ := h.same
  exact ⟨able', adds, rfl, id⟩

theorem Pushed.flows {instr : Instr} (h : c.Pushed instr i after)
    (plain : instr.op.isTerminator = false) : c.Flows after :=
  ⟨h.able, h.adds, h.cleanups, fun _ => h.open_iff.mpr plain⟩

theorem Reserves.flows (able : c.Able) (h : c.Reserves shape i after) : c.Flows after :=
  ⟨h.able, h.adds, h.cleanups, (h.open_iff able).mpr⟩

/-- Making a slot takes no code. -/
theorem Reserves.spot (h : c.Reserves shape i after) : after.spot S m = c.spot S m := by
  have body : after.graph.body c.current = c.graph.body c.current := by
    rw [body, body, h.blocks]
  unfold Cursor.spot Cursor.rest
  rw [h.current, body]

/-- Making a block takes no code. -/
theorem Makes.spot (h : c.Makes x after) : after.spot S m = c.spot S m := by
  unfold Cursor.spot Cursor.rest
  rw [h.current, h.body]

structure Idle (c after : Cursor) : Prop extends c.Flows after where
  spot : ∀ S m, after.spot S m = c.spot S m

theorem Idle.refl (able : c.Able) : c.Idle c := ⟨.refl able, fun _ _ => rfl⟩

theorem Idle.trans (h : c.Idle mid) (k : mid.Idle after) : c.Idle after :=
  ⟨h.toFlows.trans k.toFlows, fun S m => (k.spot S m).trans (h.spot S m)⟩

theorem Makes.idle (h : c.Makes x after) : c.Idle after :=
  ⟨⟨h.able, h.adds, h.cleanups, h.open_iff.mpr⟩, fun _ _ => h.spot⟩

theorem Reserves.idle (able : c.Able) (h : c.Reserves shape i after) : c.Idle after :=
  ⟨h.flows able, fun _ _ => h.spot⟩

/-- Blocks have been made, no two of them the same, which are still empty. -/
structure Fresh (c after : Cursor) (xs : List BlockId) : Prop extends c.Idle after where
  waits : ∀ x ∈ xs, after.Waits x
  new : ∀ x ∈ xs, c.graph.blocks.size ≤ x.index
  nodup : xs.Nodup

theorem Idle.fresh (h : c.Idle after) : c.Fresh after [] :=
  ⟨h, by rintro _ ⟨⟩, by rintro _ ⟨⟩, .nil⟩

theorem Fresh.cons {xs : List BlockId} (h : c.Fresh mid xs) (k : mid.Makes x after) : c.Fresh after (x :: xs) where
  toIdle := h.toIdle.trans k.idle
  waits := List.forall_mem_cons.mpr ⟨k.waits, fun y hy => (h.waits y hy).adds k.adds⟩
  new := List.forall_mem_cons.mpr ⟨k.index ▸ h.adds.blocks_le, h.new⟩
  nodup := List.nodup_cons.mpr ⟨fun hx => Nat.lt_irrefl _ (k.index ▸ (h.waits x hx).made), h.nodup⟩

/-- What is known of three blocks that have been made. -/
theorem Fresh.three {y z : BlockId} (h : c.Fresh after [z, y, x]) :
    (after.Waits x ∧ after.Waits y ∧ after.Waits z) ∧ (c.graph.blocks.size ≤ x.index ∧
      c.graph.blocks.size ≤ y.index ∧ c.graph.blocks.size ≤ z.index) ∧ y ≠ x ∧ z ≠ x ∧ z ≠ y := by
  obtain ⟨-, waits, new, nodup⟩ := h
  simp only [List.forall_mem_cons] at waits new
  simp only [List.nodup_cons, List.mem_cons, not_or] at nodup
  exact ⟨⟨waits.2.2.1, waits.2.1, waits.1⟩, ⟨new.2.2.1, new.2.1, new.1⟩, nodup.2.1.1, nodup.1.2.1, nodup.1.1⟩

/-- An instruction that gives a value. -/
theorem Pushed.value {α : Type} {Q : α → Machine → Prop} {fuel : Nat} {a : α} {instr : Instr}
    {data : Bytes} (h : c.Pushed instr i after) (isOpen : c.Open) (inside : after.In S)
    (direct : instr.op.isIndirect = false) (plain : instr.op.isAlloca = false) (ready : S.Ready m)
    (exec : step S.graph S.args m i = .ok (.next, m.keep i data))
    (q : (m.keep i data).eval S.args (.result i) = .ok data → Q a (m.keep i data)) :
    S.Leads fuel (c.spot S m) (Comes S c (after.spot S) m Q ((pure a : EvalM α) m.world)) := by
  refine h.next isOpen inside exec fun left fewer bound => .here ?_
  refine ⟨_, rfl, ready.keep (h.not_slot inside direct plain), ?_, rfl, q ?_⟩
  · exact (Scene.Keeps.refl S _ _ m).keep (Nat.le_of_eq h.index.symm) data
  · exact ready.eval_keep (h.below inside)

/-- An instruction that puts a value into a slot. -/
theorem Pushed.store {P : Config → Prop} {fuel : Nat} {k : InstrId}
    {data : Bytes} (h : c.Pushed ⟨.store v (.result i), .void, none⟩ k after) (isOpen : c.Open)
    (inside : after.In S) (hop : c.graph.op? i = some (.alloca shape)) (ready : S.Ready m)
    (value : m.eval S.args v = .ok data) (size : Machine.sizeOf shape = .ok data.size) (pos : 1 ≤ data.size)
    (later : ∀ left, left < fuel → m.world.lastException + left ≤ m.world.lastException + fuel →
      S.Ready (S.put m i data) → S.Leads left (after.spot S (S.put m i data)) P) : S.Leads fuel (c.spot S m) P := by
  obtain ⟨_, found⟩ := h.there inside rfl
  have hslot := (inside.adds h.adds).slot hop
  have slot : S.graph.Slot i := ⟨_, hslot, rfl⟩
  have fits : data.size = (S.cell m i).size := by
    obtain ⟨n, size', width⟩ := ready.width hslot
    cases size.symm.trans size'
    omega
  exact h.next isOpen inside (Scene.step_store_all ready found slot value fits) fun left fewer bound =>
    later left fewer bound (ready.put slot fits)

end Cursor

/-- Three blocks are made, for the parts of what is emitted and for what follows them. -/
theorem newBlocks_ensures {β : Type} {f : BlockId → BlockId → BlockId → EmitM β} {Q : β → Cursor → Prop}
    {E : Halt BuildError → Cursor → Prop} {c mid : Cursor} {xs : List BlockId} (fresh : c.Fresh mid xs)
    (tag tag' tag'' : String)
    (next : ∀ x y z after, mid.Adds after → c.Fresh after (z :: y :: x :: xs) → Ensures (f x y z) after Q E) :
    Ensures (do
      let x ← Build.newBlock tag
      let y ← Build.newBlock tag'
      let z ← Build.newBlock tag''
      f x y z : EmitM β) mid Q E := by
  refine Ensures.bind (.of_succeeds (newBlock_succeeds fresh.able tag)) fun x c₁ made₁ => ?_
  refine Ensures.bind (.of_succeeds (newBlock_succeeds made₁.able tag')) fun y c₂ made₂ => ?_
  refine Ensures.bind (.of_succeeds (newBlock_succeeds made₂.able tag'')) fun z after made₃ => ?_
  exact next x y z after (made₁.adds.trans (made₂.adds.trans made₃.adds)) (((fresh.cons made₁).cons made₂).cons made₃)

end FlowIR

import FlowIR.Proofs.Emit.Program
import FlowIR.Proofs.Emit.Sound

/-!
The code of statements is sound.

A fact at a point of the code is taken to mean that an operand can be used there or that a block is owed
(`Fact.Sound`). Between statements no result is kept: blocks that statements start are supplied with nothing, and
what has to survive is in slots. The two blocks that values are kept across are those behind a call that may unwind
and those of a choice; they are supplied with all that was there before.
-/

namespace FlowIR

open Build List

variable {owed : BlockId → Prop} {su su' : Supply} {c after : Cursor} {k : Bool} {xs : List BlockId} {v dst : Operand}

def Emittable (code : EmitM Unit) : Prop :=
  ∀ {owed : BlockId → Prop} {su : Supply} {c : Cursor}, c.Sound owed su →
    Emits owed su c false [] code fun _ _ _ => True

/-! ### What is known -/

/-- What a fact means for the function under construction. -/
def Fact.Sound (owed : BlockId → Prop) (su : Supply) (c : Cursor) : Fact → Prop
  | .value v _ => c.Has su v
  | .all S => ∀ v a, S v a → c.Has su v
  | .slot v | .flag v => c.graph.Stable v
  | .block x | .target x => Awaits owed su false x Nothing
  | .unwind x => Awaits owed su true x Nothing
  | .join S x => Awaits owed su false x fun j => ∃ a, S (.result j) a
  | .outside | .typed _ _ | .result _ | .returns => True

namespace Fact

variable {Γ : List Fact} {f : Fact}

theorem Sound.imp {owing : BlockId → Prop} (h : f.Sound owed su c) (wider : ∀ x, owed x → owing x) :
    f.Sound owing su c := by
  cases f with
  | block x | target x | unwind x | join S x => exact Awaits.imp h wider
  | _ => exact h

/-- What is said of values does not depend on which blocks are owed. -/
theorem Sound.of_isPlain {owing : BlockId → Prop} (h : f.Sound owing su c) (plain : f.isPlain = true) :
    f.Sound owed su c := by
  cases f <;> first | exact h | cases plain

/-- A fact goes on to hold, a value if it is kept. -/
theorem Sound.grow (h : f.Sound owed su c) (sound : c.Sound owed su) (grows : c.Grows su su' after)
    (stays : f.lasts = true ∨ c.Keeps su su' after) : f.Sound owed su' after := by
  cases f with
  | value v a => exact (stays.resolve_left (by rintro ⟨⟩)).has h
  | all S => exact fun v a there => (stays.resolve_left (by rintro ⟨⟩)).has (h v a there)
  | slot v | flag v => exact grows.builder.graph.stable h
  | block x | target x | unwind x | join S x => exact Awaits.grow h sound grows
  | _ => trivial

/-- Facts are about the function and the place in it. -/
theorem Sound.congr (h : f.Sound owed su c) (graph : after.graph = c.graph) (current : after.current = c.current) :
    f.Sound owed su after := by
  have has : ∀ v, c.Has su v → after.Has su v := fun v has j hj => by
    have here : c.Here su j := has j hj
    rwa [Cursor.Here, graph, current]
  cases f with
  | value v a => exact has v h
  | all S => exact fun v a there => has v (h v a there)
  | slot v | flag v => exact (congrArg (Graph.Stable · v) graph).mpr h
  | _ => exact h

theorem Follows.sound (h : Follows Γ f) (known : ∀ f ∈ Γ, f.Sound owed su c) : f.Sound owed su c := by
  cases h with
  | mem there => exact known f there
  | slot there => exact Cursor.has_of_stable (known _ there)
  | const => exact Cursor.has_of_plain (by rintro _ ⟨⟩)
  | @value v a _ there _ => exact known (.value v a) there
  | held there holds _ => exact known _ there _ _ holds
  | fewer there fewer => exact fun v a holds => known _ there v a (fewer v a holds)

theorem Usable.has (h : Usable Γ v) (known : ∀ f ∈ Γ, f.Sound owed su c) : c.Has su v :=
  h.elim (fun ⟨_, follows⟩ => follows.sound known) fun flag => Cursor.has_of_stable (known _ flag)

theorem Reaches.sound {op : Op} {x : BlockId} (h : Reaches Γ x) (known : ∀ f ∈ Γ, f.Sound owed su c)
    (stays : op.unwind? ≠ some x) : c.Reaches owed su op x := by
  have stays := iff_of_false stays Bool.false_ne_true
  obtain waits | waits | ⟨S, waits, all⟩ := h
  · exact Awaits.reachable (known _ waits) stays
  · exact Awaits.reachable (known _ waits) stays
  · exact Awaits.reaches (known _ waits) stays fun j there => known _ all _ _ there.choose_spec j rfl

/-- Calls may unwind to a block, or branches may go to it, but not both. -/
theorem Reaches.ne_unwind {x pad : BlockId} (h : Reaches Γ x) (unwinds : .unwind pad ∈ Γ)
    (known : ∀ f ∈ Γ, f.Sound owed su c) : pad ≠ x := by
  have lands := (known _ unwinds).2.1.mpr rfl
  rintro rfl
  obtain waits | waits | ⟨S, waits, -⟩ := h <;> exact Bool.false_ne_true ((known _ waits).2.1.mp lands)

theorem sound_after {k : Bool} (known : ∀ f ∈ Γ, f.Sound owed su c) (sound : c.Sound owed su)
    (grows : c.Grows su su' after) (keeps : k = true → c.Keeps su su' after) :
    ∀ f ∈ Fact.after k Γ, f.Sound owed su' after := by
  intro f hf
  cases k with
  | true => exact (known f hf).grow sound grows (.inr (keeps rfl))
  | false =>
    obtain ⟨mem, lasts⟩ := Fact.mem_after_false.mp hf
    exact (known f mem).grow sound grows (.inl lasts)

end Fact

def Cursor.Free (su : Supply) (c : Cursor) (xs : List BlockId) : Prop :=
  xs.Nodup ∧ ∀ x ∈ xs, x.index < c.graph.blocks.size ∧ (su.lands x → su.idle x)

/-- What code that does `Λ` with blocks finds where it starts: the function is sound, `Γ` holds, and the blocks that the
code lays out are different and have not been started. -/
structure Cursor.Provides (owed : BlockId → Prop) (su : Supply) (c : Cursor) (Λ : List BlockId)
    (Γ : List Fact) : Prop where
  sound : c.Sound owed su
  known : ∀ f ∈ Γ, f.Sound owed su c
  free : c.Free su Λ

namespace Cursor.Provides

variable {Λ Λ' : List BlockId} {Γ Γ' : List Fact} {f : Fact}

theorem of_sound (h : c.Sound owed su) : c.Provides owed su [] [] :=
  ⟨h, by simp, by simp [Cursor.Free]⟩

variable (h : c.Provides owed su Λ Γ)

include h

theorem with_known (known : ∀ f ∈ Γ', f.Sound owed su c) : c.Provides owed su Λ Γ' := { h with known }

theorem cons (holds : f.Sound owed su c) : c.Provides owed su Λ (f :: Γ) :=
  h.with_known (forall_mem_cons.mpr ⟨holds, h.known⟩)

/-- The same in other surroundings. -/
theorem inside {c₁ : Cursor} (sound : c₁.Sound owed su) (graph : c₁.graph = c.graph)
    (current : c₁.current = c.current) : c₁.Provides owed su Λ Γ :=
  ⟨sound, fun f hf => (h.known f hf).congr graph current, h.free.1, graph ▸ h.free.2⟩

/-- A new block is meant to be laid out by the code. -/
theorem newBlock {x : BlockId} {mid : Cursor} (grows : c.Grows su su' mid)
    (sound : mid.Sound (fun y => owed y ∨ y = x) su') (made : c.Made x mid)
    (holds : f.Sound (fun y => owed y ∨ y = x) su' mid) (lands : su'.lands x → su'.idle x)
    (idle : ∀ y, su.idle y → su'.idle y) : mid.Provides (fun y => owed y ∨ y = x) su' (Λ ++ [x]) (f :: Γ) := by
  obtain ⟨once, there⟩ := h.free
  refine ⟨sound, forall_mem_cons.mpr ⟨holds, fun f hf => ?_⟩, ?_⟩
  · exact ((h.known f hf).grow h.sound grows (.inr (grows.keeps h.sound made.current))).imp fun _ => .inl
  refine ⟨nodup_append.mpr ⟨once, by simp, fun y hy z hz eq => ?_⟩, fun y hy => ?_⟩
  · rw [eq, mem_singleton.mp hz] at hy
    exact Nat.lt_irrefl _ (made.index ▸ (there x hy).1)
  · rcases mem_append.mp hy with old | new
    · obtain ⟨lt, fresh⟩ := there y old
      exact ⟨Nat.lt_of_lt_of_le lt grows.builder.graph.size, fun lands =>
        idle y (fresh ((grows.supply y lt).1.mp lands))⟩
    · rw [mem_singleton.mp new]
      exact ⟨(sound.builder.formed.owed_own x (.inr rfl)).1, lands⟩

/-- A landing block that the code lays out has not been started. -/
theorem idle {x : BlockId} (waits : .unwind x ∈ Γ) (mine : x ∈ Λ) : su.idle x :=
  (h.free.2 x mine).2 ((h.known _ waits).2.1.mpr rfl)

theorem empty {x : BlockId} (waits : .unwind x ∈ Γ) (mine : x ∈ Λ) : c.graph.body x = [] :=
  have idle := h.idle waits mine
  (h.sound.builder.supplied.empty x (h.sound.builder.supplied.idle x idle).1).mp idle

/-- The values that are there can be named. -/
theorem within : ∀ f ∈ Γ, f.Within fun v _ => c.Has su v := fun f hf => by
  cases f with
  | value v a | all S => exact h.known _ hf
  | _ => trivial

/-- What is known of the innermost cleanup. -/
theorem cleanup {x : Cleanup} (found : c.cleanups.head? = some x) :
    c.Provides owed su Λ (.flag x.flag :: .target x.block :: Γ) :=
  have ⟨waits, stable⟩ := h.sound.cleanups x (mem_of_head? found)
  h.with_known (forall_mem_cons.mpr ⟨stable, forall_mem_cons.mpr ⟨waits, h.known⟩⟩)

theorem pad {x : BlockId} (found : c.pads.head? = some x) : c.Provides owed su Λ (.unwind x :: Γ) :=
  h.cons (h.sound.pads x (mem_of_head? found))

theorem exit {x : BlockId} (found : c.exits.head? = some x) : c.Provides owed su Λ (.block x :: Γ) :=
  h.cons (h.sound.exits x (mem_of_head? found))

omit h

theorem first (h : c.Provides owed su (Λ ++ Λ') Γ) : c.Provides owed su Λ Γ := by
  obtain ⟨sound, known, once, there⟩ := h
  exact ⟨sound, known, (nodup_append.mp once).1, fun y hy => there y (mem_append_left _ hy)⟩

/-- What the second part starts is not started by the first. -/
theorem second {k : Bool} {mid : Cursor} {Δ : List Fact} (h : c.Provides owed su (Λ ++ Λ') Γ)
    (grows : c.Grows su su' mid) (sound : mid.Sound owed su') (kept : k = true → c.Keeps su su' mid)
    (idle : ∀ y, su.idle y → y ∈ Λ ∨ su'.idle y) (facts : ∀ f ∈ Δ, f.Sound owed su' mid) :
    mid.Provides owed su' Λ' (Δ ++ Fact.after k Γ) := by
  obtain ⟨start, known, once, there⟩ := h
  obtain ⟨-, right, apart⟩ := nodup_append.mp once
  refine ⟨sound, fun f hf => ?_, right, fun y hy => ?_⟩
  · exact (mem_append.mp hf).elim (facts f) (Fact.sound_after known start grows kept f)
  · obtain ⟨lt, fresh⟩ := there y (mem_append_right _ hy)
    refine ⟨Nat.lt_of_lt_of_le lt grows.builder.graph.size, fun lands => ?_⟩
    exact (idle y (fresh ((grows.supply y lt).1.mp lands))).resolve_left fun early => apart y early y hy rfl

end Cursor.Provides

/-- What a block is made for says how it is supplied. -/
theorem Fact.supply_of_role {Γ : List Fact} {fact : BlockId → Fact}
    (role : fact = .block ∨ fact = .unwind ∨ ∃ S, .all S ∈ Γ ∧ fact = .join S) :
    ∃ pad more, ∀ (owing : BlockId → Prop) (su : Supply) (c : Cursor) (x : BlockId),
      Awaits owing su pad x more → (fact x).Sound owing su c := by
  obtain rfl | rfl | ⟨S, -, rfl⟩ := role <;> exact ⟨_, _, fun _ _ _ _ => id⟩

/-- The code keeps the function sound wherever it finds what it needs: it lays out the blocks of `Λ`, and `P` and `Δ`
hold of its result. -/
def Lays {α : Type} (Λ : List BlockId) (Γ : List Fact) (k : Bool) (x : EmitM α) (P : α → Prop) (Δ : α → List Fact) :
    Prop :=
  ∀ (owed : BlockId → Prop) (su : Supply) (c : Cursor), c.Provides owed su Λ Γ →
    Emits owed su c k Λ x fun a su' after =>
      P a ∧ (∀ y ∈ Λ, y ∈ after.graph.layout) ∧ ∀ f ∈ Δ a, f.Sound owed su' after

theorem Lays.bind {α β : Type} {Λ Θ : List BlockId} {Γ : List Fact} {k k' : Bool} {x : EmitM α} {f : α → EmitM β}
    {P : α → Prop} {R : β → Prop} {Δ : α → List Fact} {E : β → List Fact} (first : Lays Λ Γ k' x P Δ)
    (second : ∀ a, P a → Lays Θ (Δ a ++ Fact.after k' Γ) k (f a) R E) (keeps : k = true → k' = true) :
    Lays (Λ ++ Θ) Γ k (x >>= f) R E := by
  intro owed su c h
  refine (first owed su c h.first).chain ?_ keeps
  rintro a su₁ mid grows sound kept idle ⟨holds, laid, facts⟩
  refine (second a holds owed su₁ mid (h.second grows sound kept idle facts)).mono ?_
  rintro b su₂ after grows' - - ⟨holds', laid', facts'⟩
  refine ⟨holds', fun y hy => ?_, facts'⟩
  exact (mem_append.mp hy).elim (fun hy => grows'.builder.graph.mem_layout (laid y hy)) (laid' y)

section Gives

variable {α : Type} {k : Bool} {x : EmitM α} {P : α → Supply → Cursor → Prop} (h : Emits owed su c k [] x P)

include h

/-- Code that lays out nothing. -/
theorem Emits.gives {R : α → Prop} {Δ : α → List Fact}
    (holds : ∀ a su' after, P a su' after → R a ∧ ∀ f ∈ Δ a, f.Sound owed su' after) :
    Emits owed su c k [] x fun a su' after =>
      R a ∧ (∀ y ∈ ([] : List BlockId), y ∈ after.graph.layout) ∧ ∀ f ∈ Δ a, f.Sound owed su' after :=
  h.mono fun a su' after _ _ _ p => ⟨(holds a su' after p).1, by simp, (holds a su' after p).2⟩

/-- Code that lays out nothing and of whose result nothing is said. -/
theorem Emits.lays : Emits owed su c k [] x fun a su' after =>
    Any a ∧ (∀ y ∈ ([] : List BlockId), y ∈ after.graph.layout) ∧ ∀ f ∈ ([] : List Fact), f.Sound owed su' after :=
  h.gives fun _ _ _ _ => ⟨trivial, by simp⟩

/-- Code that lays out nothing and has a value or storage for a result. -/
theorem Emits.yields {fact : α → Fact} (holds : ∀ a su' after, P a su' after → (fact a).Sound owed su' after) :
    Emits owed su c k [] x fun a su' after =>
      Any a ∧ (∀ y ∈ ([] : List BlockId), y ∈ after.graph.layout) ∧ ∀ f ∈ [fact a], f.Sound owed su' after :=
  h.gives fun a su' after p => ⟨trivial, forall_mem_singleton.mpr (holds a su' after p)⟩

end Gives

/-- Code behind which nothing is kept. -/
theorem Emits.forgets {α : Type} {ys : List BlockId} {code : EmitM α} {Δ : α → List Fact}
    (h : Emits owed su c false xs code fun _ _ after => ∀ y ∈ ys, y ∈ after.graph.layout)
    (holds : ∀ a su' after, ∀ f ∈ Δ a, f.Sound owed su' after) :
    Emits owed su c false xs code fun a su' after => Any a ∧ (∀ y ∈ ys, y ∈ after.graph.layout) ∧
      ∀ f ∈ Δ a, f.Sound owed su' after :=
  h.mono fun a su' after _ _ _ laid => ⟨trivial, laid, holds a su' after⟩

/-- The same code in other surroundings. -/
theorem Lays.inside {α : Type} {Λ : List BlockId} {Γ : List Fact} {code : EmitM α} {P : α → Prop} {Δ : α → List Fact}
    (ih : Lays Λ Γ k code P Δ) (h : c.Provides owed su Λ Γ) (c₁ : Cursor) (graph : c₁.graph = c.graph)
    (current : c₁.current = c.current) (sound : c₁.Sound owed su) :
    Emits owed su c₁ k Λ code fun _ _ after => ∀ y ∈ Λ, y ∈ after.graph.layout :=
  (ih owed su c₁ (h.inside sound graph current)).mono fun _ _ _ _ _ _ laid => laid.2.1

namespace Emit

/-! ### Storage -/

section

variable (h : c.Sound owed su)

include h

/-- A new temporary can be used everywhere. -/
theorem temporary_emits (ty : Ty) (tag : String) :
    Emits owed su c k xs (liftM (newTemporary ty tag)) fun r su' after =>
      su' = su ∧ after.graph.Stable r := by
  refine (Emits.lift h (newTemporary_builds h.builder ty tag)).mono ?_
  rintro r _ after - - - ⟨rfl, -, ⟨i, hi, slot⟩, -⟩
  exact ⟨rfl, fun j hj => Operand.result.inj (hi.symm.trans hj) ▸ slot⟩

/-- The storage of a variable can be used everywhere. -/
theorem lookupVar_emits (x : VarId) (span : Span) :
    Emits owed su c k xs (lookupVar x span) fun r _ after => after.graph.Stable r.slot := by
  unfold lookupVar
  refine Emits.builder ?_
  split
  · next y found =>
    refine .pure h (h.builder.rooted y.slot ?_)
    simp only [Builder.roots, mem_append, mem_map, Array.mem_toList_iff]
    exact .inl (.inl ⟨y, Array.mem_of_getElem? found, rfl⟩)
  · exact Emits.fail (by rintro _ ⟨⟩)

/-! ### Calls -/

/-- A call is there behind itself. Where it can unwind, only the block behind it is supplied with the
result. -/
theorem callInstr_emits (callee : String) {args : List Operand}
    (hargs : ∀ w ∈ args, c.Has su w) (shape : Shape) (name : Option String) :
    Emits owed su c k xs (callInstr callee args shape name) fun v su' after => after.Has su' v := by
  unfold callInstr
  refine Emits.get ?_
  split
  · next pad inside =>
    have waits := h.pads pad (mem_of_head? inside)
    refine Emits.newBlock (j := false) h (fun j => c.Here su j ∨ j = ⟨c.graph.instrs.size⟩) false (fun _ _ => .inl)
      fun cont su₁ c₁ grows₁ sound₁ made awaits _ => ?_
    have keeps₁ := grows₁.keeps h made.current
    have waits₁ : Awaits (fun y => owed y ∨ y = cont) su₁ true pad Nothing := waits.past h grows₁
    have apart : cont ≠ pad := fun eq => Bool.false_ne_true (awaits.2.1.mp (eq ▸ waits₁.2.1.mpr rfl))
    have inner : (Op.invoke callee args cont pad).isInner = true :=
      Op.isInner_iff.mpr ⟨rfl, fun _ none => Option.some_ne_none _ ((if_neg apart).symm.trans none)⟩
    refine (push_emits sound₁ rfl inner ?_ fun t ht => ?_).bind ?_
    · exact fun w hw => keeps₁.has (hargs w hw)
    · simp only [Op.successors, mem_cons, not_mem_nil, or_false] at ht
      rcases ht with rfl | rfl
      · refine ⟨.inl awaits.1, iff_of_false (fun eq => apart (Option.some.inj eq).symm) fun lands =>
          Bool.false_ne_true (awaits.2.1.mp lands), fun j hj => ((awaits.2.2 j).mp hj).imp (keeps₁ j) fun eq => ?_⟩
        exact ⟨by rw [eq, made.instrs], if_neg apart⟩
      · exact waits₁.reachable (iff_of_true rfl rfl)
    · rintro i su₂ c₂ grows₂ sound₂ - ⟨rfl, -⟩
      refine Ensures.bind (startBlock_emits sound₂ (awaits.grow sound₁ grows₂) : Emits _ _ _ false xs _ _) ?_
      rintro - c₃ ⟨_, grows₃, sound₃, -, idle, rfl, -, laid, here, -⟩
      refine ⟨_, grows₃, sound₃, by rintro ⟨⟩, idle, laid, fun _ j hj => here j (.inl hj), fun j hj => here j (.inr ?_)⟩
      rw [← Operand.result.inj hj, made.instrs]
  · refine Emits.bind (push_emits h rfl rfl ?_ ?_) fun i su₁ c₁ _ sound₁ _ pushed =>
      .pure sound₁ fun j hj => ?_
    · exact hargs
    · rintro _ ⟨⟩
    exact Operand.result.inj hj ▸ pushed.2 rfl

/-! ### Returns and exceptions -/

theorem leaveWith_emits {operand : Option Operand} (has : ∀ v ∈ operand, c.Has su v) (span : Span) :
    Emits owed su c k xs (leaveWith operand span) fun _ _ _ => True := by
  unfold leaveWith
  refine Emits.bind (ensureOpen_emits h) fun _ su₁ c₁ _ sound₁ keeps₁ ⟨open₁, _⟩ => ?_
  refine Emits.get (Emits.bind (Emits.lift sound₁ (prepareReturn_builds sound₁.builder
    sound₁.current sound₁.placed open₁ ?_ span)) ?_)
  · exact fun v j hv hj => keeps₁ j (has v hv j hj)
  · rintro value su₁ c₂ - sound₂ - ⟨rfl, current₂, ready⟩
    refine Emits.bind (effect_emits sound₂ rfl rfl rfl fun w hw j hj => ?_)
      fun _ _ _ _ sound₃ _ _ => .pure sound₃ trivial
    rw [Cursor.Here, current₂]
    exact ready w j (Option.mem_toList.mp hw) hj

/-- Of the cleanups that enclose code only their blocks and flags matter. -/
theorem markReturns_emits :
    Emits owed su c k xs (modify fun c => { c with cleanups := Cleanup.mark c.cleanups }) fun _ _ _ => True := by
  refine ⟨su, .of_builder (.refl _) rfl rfl (Cleanup.map_mark _), { h with cleanups := fun x hx => ?_ },
    fun _ => .refl su c, fun _ => .inr, trivial⟩
  obtain ⟨old, hold, block, flag⟩ := Cleanup.exists_of_mem_mark hx
  exact block ▸ flag ▸ h.cleanups old hold

/-! ### Labels -/

/-- A branch to the block of a label. -/
theorem goto_emits (l : LabelId) (span : Span) :
    Emits owed su c false xs (do perform (.br (← labelBlock l span))) fun _ _ _ => True := by
  refine Emits.bind (Emits.lift h (labelBlock_builds h.builder l span)) ?_
  rintro x su c₁ - sound₁ - ⟨rfl, -, hl⟩
  refine (push_emits sound₁ rfl rfl (by rintro _ ⟨⟩) fun t ht => ?_).mono
    fun _ _ _ _ _ _ _ => trivial
  cases mem_singleton.mp ht
  exact sound₁.reaches_home hl (by rintro ⟨⟩)

theorem jump_emits (has : c.Has su v) : Emits owed su c k xs (do
    let i ← perform (.indirectBr v [])
    (modify fun b => { b with labels := b.labels.recordBranch i } : BuildM Unit)) fun _ _ _ => True := by
  refine (effect_emits h rfl rfl rfl fun w hw => ?_).bind fun i su₂ c₂ _ sound₂ _ _ => ?_
  · exact mem_singleton.mp hw ▸ has
  · have sound := sound₂.builder.relabel (t := c₂.builder.labels.recordBranch i) rfl rfl
    exact (Emits.lift (P := fun _ _ => True) sound₂ (Preserves.change (.of_graph (.refl _) rfl)
      sound trivial)).mono fun _ _ _ _ _ _ _ => trivial

theorem placeLabel_emits (l : LabelId) (span : Span) :
    Emits owed su c false xs (placeLabel l span) fun _ _ _ => True := by
  unfold placeLabel
  refine Emits.bind (Emits.lift h (defineLabel_builds h.builder l span)) ?_
  rintro x su c₁ - sound₁ - ⟨rfl, -, hl, laid⟩
  refine Emits.bind (branchTo_emits sound₁ (sound₁.reaches_home hl (by rintro ⟨⟩))) fun _ su₂ c₂ grows₂ sound₂ _ _ => ?_
  exact (moveTo_emits sound₂ (grows₂.builder.graph.mem_layout laid)).mono fun _ _ _ _ _ _ _ => trivial

end

/-! ### All code -/

section Parts

variable {α : Type} {Λ : List BlockId} {Γ : List Fact} {code : EmitM α} {P : α → Prop} {Δ : α → List Fact} {x : BlockId}

theorem lays_withPad (waits : .unwind x ∈ Γ) (inner : Lays [] [] k code Any (fun _ => [])) :
    Lays [] Γ false (withPad x code) Any (fun _ => []) := fun _ _ _ h =>
  (withPad_emits (P := fun g => ∀ y ∈ ([] : List BlockId), y ∈ g.layout) h.sound (inner.inside (.of_sound h.sound))
    (h.known _ waits)).forgets (by simp)

theorem lays_branchTo (waits : Fact.Reaches Γ x) : Lays [] Γ k (branchTo x) Any (fun _ => []) := fun _ _ _ h =>
  (branchTo_emits h.sound (waits.sound h.known (by rintro ⟨⟩))).lays

theorem lays_startPad (kind : PadKind) (waits : .unwind x ∈ Γ) :
    Lays [x] Γ false (do startBlock x; landingPad kind) Any (fun v => [.value v false]) := by
  intro owed su c h
  refine (startPad_emits h.sound (h.known _ waits).1 (h.idle waits (by simp)) _ kind _).mono ?_
  rintro v su' after - - - ⟨laid, has⟩
  exact ⟨trivial, forall_mem_singleton.mpr laid, forall_mem_singleton.mpr has⟩

end Parts

/-- Code that is put together by the rules keeps a function sound. -/
theorem lays_code {i r k : Bool} {Λ : List BlockId} {Γ : List Fact} {α : Type} {x : EmitM α} {P : α → Prop}
    {Δ : α → List Fact} {n : List Event} (code : Code i r Λ Γ k x P Δ n) : Lays Λ Γ k x P Δ := by
  induction code with
  | pure holds facts =>
    exact fun owed su c ⟨h, known, _⟩ => .pure h ⟨holds, by simp, fun f hf => (facts f hf).sound known⟩
  | bind _ _ keeps first second => exact first.bind second keeps
  | conseq _ facts holds gives keeps ih =>
    exact fun owed su c h => (ih owed su c (h.with_known fun f hf => (facts f hf).sound h.known)).conseq
      (fun _ => id) fun a _ _ _ _ kept ⟨p, laid, known'⟩ =>
        ⟨fun on => kept (keeps on), holds a p, laid, fun f hf => (gives a p f hf).sound known'⟩
  | keeping _ ih =>
    refine fun owed su c h => (ih (fun v _ => c.Has su v) h.within owed su c
      (h.cons fun _ _ => id)).conseq (fun _ => id) ?_
    rintro a su' after - - - ⟨holds, laid, facts⟩
    obtain ⟨all, facts⟩ := forall_mem_cons.mp facts
    refine ⟨fun _ j here => all (.result j) false (fun i same => ?_) j rfl, holds, laid, facts⟩
    cases same
    exact here
  | fail span other => exact fun owed su c _ => .fail other.2
  | checked =>
    exact fun owed su c ⟨h, _, _⟩ => (Emits.checked h).gives fun _ _ _ run => ⟨run.2.2, by simp⟩
  | shapeOf =>
    exact fun owed su c ⟨h, _, _⟩ => (Emits.builder (Emits.checked h)).gives fun _ _ _ run =>
      ⟨Graph.shapeOf_eq_bytePtr run.2.2, by simp⟩
  | result _ _ ih =>
    exact fun owed su c h => .builder (ih c.builder owed su c (h.cons trivial))
  | ended _ ih =>
    refine fun owed su c h => Emits.bind (isTerminated_emits h.sound) ?_
    rintro b su c - - - ⟨rfl, rfl, -⟩
    exact ih b owed su c h
  | cleanup eq _ _ inside outside =>
    refine fun owed su c h => .get ?_
    rw [eq]
    split
    · next k found => exact inside k owed su c (h.cleanup found)
    · exact outside owed su c (h.cons trivial)
  | pad eq _ _ inside outside =>
    refine fun owed su c h => .get ?_
    rw [eq]
    split
    · next x found => exact inside x owed su c (h.pad found)
    · exact outside owed su c h
  | exit span eq _ inside =>
    refine fun owed su c h => .get ?_
    rw [eq]
    split
    · next x found => exact inside x owed su c (h.exit found)
    · exact .fail (by rintro _ ⟨⟩)
  | lookupVar v span =>
    exact fun owed su c ⟨h, _, _⟩ => (lookupVar_emits h v span).gives fun _ _ _ stable =>
      ⟨trivial, forall_mem_cons.mpr ⟨stable, forall_mem_singleton.mpr trivial⟩⟩
  | updateVar v slot ty =>
    exact fun owed su c ⟨h, _, _⟩ => (Emits.lift h (updateVar_builds h.builder v slot ty)).lays
  | newTemporary ty tag =>
    exact fun owed su c ⟨h, _, _⟩ => (temporary_emits h ty tag).yields fun _ _ _ stable => stable.2
  | returnSlot =>
    exact fun owed su c ⟨h, _, _⟩ => (Emits.lift h (returnSlot_builds h.builder)).yields fun _ _ _ stable =>
      stable.2.2
  | named tag shape yields ordinary uses =>
    exact fun owed su c ⟨h, known, _⟩ => (named_emits h yields (Op.isAlloca_of_isOrdinary ordinary)
      (Op.unwind?_of_isOrdinary ordinary).1 fun v hv => (uses v hv).has known).yields fun _ _ _ has => has
  | perform ordinary uses targets =>
    obtain ⟨inner, stays⟩ := Op.unwind?_of_isOrdinary ordinary
    exact fun owed su c ⟨h, known, _⟩ => (push_emits h (Op.isAlloca_of_isOrdinary ordinary) inner (fun v hv =>
      (uses v hv).has known) fun t ht => (targets t ht).sound known (by simp [stays])).lays
  | call shape uses =>
    exact fun owed su c ⟨h, known, _⟩ => (callInstr_emits h _ (fun v hv => (uses v hv).has known) shape _).yields
      fun _ _ _ has => has
  | namedCall tag shape uses =>
    refine fun owed su c ⟨h, known, _⟩ => Emits.yields ((Emits.lift h (fresh_builds h.builder tag)).bind ?_)
      fun _ _ _ has => has
    rintro name su c₁ grows sound keeps ⟨rfl, -, -⟩
    exact callInstr_emits sound _ (fun v hv => keeps.has ((uses v hv).has known)) shape _
  | rethrow uses next unwinds =>
    refine fun owed su c ⟨h, known, _⟩ => Emits.lays (P := fun _ _ _ => True)
      (Emits.builder ((push_emits h rfl (Op.isInner_iff.mpr ⟨rfl, fun _ none => ?_⟩) ?_ ?_).mono
        fun _ _ _ _ _ _ _ => trivial))
    · exact Option.some_ne_none _ ((if_neg (next.ne_unwind unwinds known).symm).symm.trans none)
    · exact forall_mem_singleton.mpr (uses.has known)
    · refine forall_mem_cons.mpr ⟨next.sound known fun eq => ?_, forall_mem_singleton.mpr ?_⟩
      · exact next.ne_unwind unwinds known (Option.some.inj eq)
      · exact Awaits.reachable (known _ unwinds) (iff_of_true rfl rfl)
  | @newBlock _ _ _ _ Λ _ _ _ _ tag fact _ role _ plain ih =>
    obtain ⟨pad, more, supplied⟩ := Fact.supply_of_role role
    intro owed su c h
    refine .newBlock (d := fun x => Λ ++ [x]) h.sound more pad (fun x y hy => ?_)
      fun x su₁ mid grows sound made awaits idle => (ih x _ su₁ mid (h.newBlock grows sound made
        (supplied _ su₁ mid x awaits) (fun lands => idle x (.inr ⟨rfl, awaits.2.1.mp lands⟩))
        fun y hy => idle y (.inl hy))).mono ?_
    · exact (mem_append.mp hy).imp_right mem_singleton.mp
    · rintro a su₂ after - - kept ⟨holds, laid, facts⟩
      exact ⟨laid x (by simp), fun on => (grows.keeps h.sound made.current).trans (kept on), holds,
        fun y hy => laid y (mem_append_left _ hy), fun f hf => (facts f hf).of_isPlain (plain a f hf)⟩
  | startBlock waits =>
    rintro owed su c ⟨h, known, -⟩
    exact ((startBlock_emits h (known _ waits)).mono
      fun _ _ _ _ _ _ started => forall_mem_singleton.mpr started.2.2.1).forgets (by simp)
  | startJoin waits _ =>
    rintro owed su c ⟨h, known, -⟩
    refine (startBlock_emits h (known _ waits)).mono ?_
    rintro - su' after - - - ⟨-, -, laid, here, -⟩
    refine ⟨trivial, forall_mem_singleton.mpr laid, forall_mem_singleton.mpr fun v a there j same => ?_⟩
    exact here j ⟨a, same ▸ there⟩
  | branchTo waits => exact lays_branchTo waits
  | returning _ ih => exact fun owed su c h => ih owed su c (h.cons trivial)
  | markReturns => exact fun owed su c ⟨h, _, _⟩ => (markReturns_emits h).lays
  | leaveWith span _ uses _ =>
    exact fun owed su c ⟨h, known, _⟩ => (leaveWith_emits h (fun v hv => (uses v hv).sound known) span).lays
  | markError => exact fun owed su c ⟨h, _, _⟩ => (Emits.lift h (markError_builds h.builder)).lays
  | addressOfLabel l span =>
    exact fun owed su c ⟨h, _, _⟩ => (Emits.lift h (addressOfLabel_builds h.builder l span)).yields
      fun _ _ _ fixed => Cursor.has_of_plain fixed.2.2
  | goto l span => exact fun owed su c ⟨h, _, _⟩ => (goto_emits h l span).lays
  | jump uses => exact fun owed su c ⟨h, known, _⟩ => (jump_emits h (uses.has known)).lays
  | placeLabel l span => exact fun owed su c ⟨h, _, _⟩ => (placeLabel_emits h l span).lays
  | part kind waits next _ ih =>
    exact (lays_withPad waits ih).bind (fun _ _ => (lays_branchTo (k := true) (.inl (by simpa using next))).bind
      (fun _ _ => lays_startPad kind (by simpa using waits)) (by rintro ⟨⟩)) (by rintro ⟨⟩)
  | deferral kind waits _ _ middle ih =>
    rw [← bind_assoc, ← append_nil (_ :: _)]
    refine (lays_startPad kind waits).bind (fun _ _ => Lays.bind
      (fun owed su c h => middle owed su c (h.with_known ?_)) (fun _ _ => lays_withPad ?_ ih) (by rintro ⟨⟩))
      (by rintro ⟨⟩)
    · exact fun f hf => h.known f (mem_append_right _ hf)
    · simpa using waits
  | withExit waits _ ih =>
    exact fun owed su c h => (withExit_emits (P := fun g => ∀ y ∈ _, y ∈ g.layout) h.sound
      (ih.inside h) (h.known _ waits)).forgets (by simp)
  | withCleanup stored waits _ _ ih =>
    exact fun owed su c h => (withCleanup_emits (P := fun g => ∀ y ∈ _, y ∈ g.layout) h.sound
      (h.known _ waits) (h.known _ stored) (ih.inside h)).forgets
        fun _ _ _ f hf => Fact.eq_returns_of_mem hf ▸ trivial

/-- The code of every statement can be emitted anywhere. -/
theorem stmt_emittable (s : Stmt) : Emittable (stmt s) := fun {_ su c} h =>
  (lays_code (stmt_code (i := true) (r := true) s fun _ => rfl) _ su c (.of_sound h)).mono
    fun _ _ _ _ _ _ _ => trivial

end Emit

end FlowIR

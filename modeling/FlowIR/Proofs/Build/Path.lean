import FlowIR.Proofs.Build.Finish

/-!
What happens to a function while it is built, change by change.

Every operation that sets a function up or emits code is a sequence of a few kinds of changes
(`Builder.Step`): something is noted, an instruction or a block is changed in what does not matter here, a
block is made or laid out, an instruction is made and listed at the end of a laid-out block, or a slot is
made. A path remembers what has been listed, in order. What each change keeps is therefore kept by all code;
the prolog and the late slots, which go to the front of the entry block, are no such changes.
-/

namespace FlowIR

open List

/-! ### What is listed -/

/-- What matters of an instruction here: whether it is a call, which may unwind to a block, or a landing pad. -/
inductive Mark where
  | call (callee : String) (target : Option BlockId)
  | land (kind : PadKind)

def Mark.isCall (f : String) : Mark → Bool
  | .call callee _ => callee == f
  | .land _ => false

@[simp] theorem Mark.isCall_call {f callee : String} {target : Option BlockId} :
    (Mark.call callee target).isCall f = (callee == f) := rfl

@[simp] theorem Mark.isCall_land {f : String} {kind : PadKind} : (Mark.land kind).isCall f = false := rfl

def Op.mark? : Op → Option Mark
  | .call callee _ => some (.call callee none)
  | .invoke callee _ _ unwind => some (.call callee (some unwind))
  | .landingPad kind => some (.land kind)
  | _ => none

def Op.calls (f : String) (op : Op) : Bool := op.mark?.any (Mark.isCall f)

/-- An instruction that has been listed in a block. -/
structure Entry where
  instr : InstrId
  block : BlockId
  op : Op

/-- A call or a landing pad, and where it is. -/
structure Site where
  instr : InstrId
  block : BlockId
  mark : Mark

def Entry.site? (e : Entry) : Option Site := e.op.mark?.map (⟨e.instr, e.block, ·⟩)

/-- An instruction that has changed in nothing but the addresses of blocks that it knows. -/
structure Op.Alike (op after : Op) : Prop where
  isAlloca : after.isAlloca = op.isAlloca
  mark : after.mark? = op.mark?
  results : ∀ j, .result j ∈ after.operands → .result j ∈ op.operands

theorem Op.Alike.refl (op : Op) : op.Alike op := ⟨rfl, rfl, fun _ => id⟩

theorem Op.Alike.of_resolves {op after : Op} (h : op.Resolves after) : op.Alike after where
  isAlloca := h.isAlloca
  mark := by
    obtain ⟨f, -, rfl⟩ := h
    cases op <;> rfl
  results := fun _ => h.result_mem

theorem Op.Alike.redirect (dests : List BlockId) (op : Op) : op.Alike (op.redirect dests) := by
  cases op <;> exact ⟨rfl, rfl, fun _ => id⟩

namespace Graph

variable {g after : Graph} {x y : BlockId} {i j : InstrId} {is : List InstrId} {f : Block → Block}

def listed (g : Graph) : List InstrId := g.blocks.toList.flatMap Block.body

theorem mem_listed : i ∈ g.listed ↔ ∃ x, i ∈ g.body x := by
  simp only [listed, mem_flatMap, Array.mem_toList_iff, Array.mem_iff_getElem?]
  constructor
  · rintro ⟨b, ⟨k, hk⟩, hi⟩
    exact ⟨⟨k⟩, by rwa [body, hk]⟩
  · rintro ⟨x, hi⟩
    unfold body at hi
    cases found : g.blocks[x.index]? with
    | none => simp [found] at hi
    | some b => exact ⟨b, ⟨_, found⟩, by rwa [found] at hi⟩

/-- Changing one list of many by adding to it adds to what all of them list. -/
theorem flatMap_modify {l : List Block} {k : Nat} (hf : ∀ b, (f b).body.Perm (is ++ b.body)) (hk : k < l.length) :
    ((l.modify k f).flatMap Block.body).Perm (is ++ l.flatMap Block.body) := by
  induction l generalizing k with
  | nil => cases hk
  | cons b l ih =>
    cases k with
    | zero =>
      rw [modify_zero_cons, flatMap_cons, flatMap_cons, ← append_assoc]
      exact (hf b).append_right _
    | succ k =>
      rw [modify_succ_cons, flatMap_cons, flatMap_cons]
      refine ((ih (Nat.lt_of_succ_lt_succ hk)).append_left _).trans ?_
      rw [← append_assoc, ← append_assoc]
      exact perm_append_comm.append_right _

theorem listed_of_updateBlock (run : g.updateBlock y f = .ok after)
    (hf : ∀ b, (f b).body.Perm (is ++ b.body)) : after.listed.Perm (is ++ g.listed) := by
  obtain ⟨hy, rfl⟩ := eq_of_updateBlock run
  unfold listed
  rw [Array.toList_modify]
  exact flatMap_modify hf (by rwa [Array.length_toList])

theorem listed_of_append (run : g.append y i = .ok after) : after.listed.Perm (i :: g.listed) :=
  have front : after.listed.Perm ([i] ++ g.listed) := listed_of_updateBlock run fun _ => perm_append_comm
  front

theorem listed_of_insertFront (run : g.insertFront y is = .ok after) : after.listed.Perm (is ++ g.listed) :=
  listed_of_updateBlock run fun _ => .refl _

@[simp] theorem listed_newBlock (name : String) : (g.newBlock name).2.listed = g.listed := by
  simp [listed, newBlock]

@[simp] theorem listed_attach : (g.attach x).listed = g.listed := by
  simp [listed]

/-- What is left alone of a block when it is changed is the same for all blocks as before. -/
theorem map_of_updateBlock {γ : Type} {t : Block → γ} (run : g.updateBlock x f = .ok after)
    (hf : ∀ b, t (f b) = t b) : after.blocks.toList.map t = g.blocks.toList.map t := by
  obtain ⟨-, rfl⟩ := eq_of_updateBlock run
  refine ext_getElem? fun k => ?_
  rw [Array.toList_modify, getElem?_map, getElem?_map, getElem?_modify]
  cases g.blocks.toList[k]? with
  | none => rfl
  | some b =>
    simp only [Option.map_eq_map, Option.map_some]
    split
    · rw [hf]
    · rfl

def blockNames (g : Graph) : List String := g.blocks.toList.map Block.name

theorem size_newInstr {instr : Instr} : (g.newInstr instr).2.instrs.size = g.instrs.size + 1 := by
  show (g.instrs.push instr).size = _
  rw [Array.size_push]

@[simp] theorem listed_newInstr (instr : Instr) : (g.newInstr instr).2.listed = g.listed := rfl

/-- What the first graph has made is in the second one as well, and is the same there but for addresses. -/
structure Retains (g after : Graph) : Prop where
  size_le : g.instrs.size ≤ after.instrs.size
  ops : ∀ i op, g.op? i = some op → ∃ op', after.op? i = some op' ∧ op.Alike op'

namespace Retains

theorem of_op? (size : g.instrs.size ≤ after.instrs.size)
    (same : ∀ i : InstrId, i.index < g.instrs.size → after.op? i = g.op? i) : g.Retains after where
  size_le := size
  ops := fun i op found => ⟨op, (same i (index_lt_of_op? found)).trans found, .refl op⟩

theorem of_instrs (h : after.instrs = g.instrs) : g.Retains after :=
  .of_op? (Nat.le_of_eq (by rw [h])) fun i _ => by rw [op?, h, op?]

theorem newInstr (g : Graph) (instr : Instr) : g.Retains (g.newInstr instr).2 :=
  .of_op? (size_newInstr ▸ Nat.le_succ _) fun i old => by rw [op?_newInstr, if_neg (Nat.ne_of_lt old)]

/-- A new instruction can be listed. -/
theorem emit {instr : Instr} (run : (g.newInstr instr).2.append x i = .ok after) : g.Retains after :=
  have instrs := instrs_of_updateBlock run
  .of_op? (by rw [instrs]; exact (newInstr g instr).size_le) fun j old => by
    rw [op?_of_updateBlock run, op?_newInstr, if_neg (Nat.ne_of_lt old)]

/-- An instruction that was there is what it was, but for addresses. -/
theorem op?_of_after (h : g.Retains after) (old : i.index < g.instrs.size) {op' : Op} (found : after.op? i = some op') :
    ∃ op, g.op? i = some op ∧ op.Alike op' := by
  have there : g.op? i = some g.instrs[i.index].op := by simp [op?, old]
  obtain ⟨op'', found', alike⟩ := h.ops i _ there
  cases found'.symm.trans found
  exact ⟨_, there, alike⟩

end Retains

/-- The graph has changed in nothing but names, marks and addresses. -/
structure Revises (g after : Graph) : Prop where
  size : after.instrs.size = g.instrs.size
  ops : ∀ i op, g.op? i = some op → ∃ op', after.op? i = some op' ∧ op.Alike op'
  layout : after.layout = g.layout
  bodies : after.blocks.toList.map Block.body = g.blocks.toList.map Block.body
  names : after.blockNames = g.blockNames

namespace Revises

theorem retains (h : g.Revises after) : g.Retains after := ⟨Nat.le_of_eq h.size.symm, h.ops⟩

theorem listed (h : g.Revises after) : after.listed = g.listed := by
  rw [Graph.listed, Graph.listed, flatMap_def, flatMap_def, h.bodies]

theorem body (h : g.Revises after) (x : BlockId) : after.body x = g.body x := by
  have view : ∀ g : Graph, g.body x = ((g.blocks.toList.map Block.body)[x.index]?).getD [] := fun g => by
    rw [Graph.body, getElem?_map, Array.getElem?_toList]
    cases g.blocks[x.index]? <;> rfl
  rw [view, view, h.bodies]

/-- A block is changed in anything but what it lists and its name. -/
theorem updateBlock {f : Block → Block} (run : g.updateBlock x f = .ok after)
    (hf : ∀ b, (f b).body = b.body ∧ (f b).name = b.name) : g.Revises after where
  size := by rw [instrs_of_updateBlock run]
  ops := (Retains.of_instrs (instrs_of_updateBlock run)).ops
  layout := layout_of_updateBlock run
  bodies := map_of_updateBlock run fun b => (hf b).1
  names := map_of_updateBlock run fun b => (hf b).2

/-- An instruction is changed in nothing but addresses. -/
theorem updateInstr {f : Instr → Instr} (run : g.updateInstr j f = .ok after) {t : Op → Op}
    (hf : ∀ instr, (f instr).op = t instr.op) (alike : ∀ op : Op, op.Alike (t op)) : g.Revises after := by
  have ops := op?_of_updateInstr run hf
  obtain ⟨-, rfl⟩ := eq_of_updateInstr run
  refine ⟨Array.size_modify, fun i op found => ?_, rfl, rfl, rfl⟩
  rw [ops]
  split
  · next same =>
    subst same
    exact ⟨t op, by rw [found]; rfl, alike op⟩
  · exact ⟨op, found, .refl op⟩

end Revises

end Graph

/-! ### Changes and sequences of changes -/

def Builder.code (b : Builder) : Graph × BlockId × List InstrId × List InstrId × Bool × Options :=
  (b.graph, b.entry, b.pendingSlots, b.lateSlots, b.prologPlaced, b.options)

inductive Builder.Step (b : Builder) : List Entry → Builder → Prop where
  /-- Something is noted that is not part of the code. Names may be handed out. -/
  | note {after : Builder} (code : after.code = b.code) (names : b.names.Before after.names) : b.Step [] after
  | revise {g : Graph} (revises : b.graph.Revises g) : b.Step [] { b with graph := g }
  | block (tag : String) : b.Step [] (b.addBlock tag)
  | attach (x : BlockId) : b.Step [] { b with graph := b.graph.attach x }
  /-- An instruction is made and listed at the end of a laid-out block. -/
  | emit {x : BlockId} {instr : Instr} {g : Graph} (laid : x ∈ b.graph.layout)
      (plain : instr.op.isAlloca = false)
      (run : (b.graph.newInstr instr).2.append x ⟨b.graph.instrs.size⟩ = .ok g) :
      b.Step [⟨⟨b.graph.instrs.size⟩, x, instr.op⟩] { b with graph := g }
  /-- A slot is made and waits for its place. -/
  | slot {instr : Instr} (slot : instr.op.isAlloca = true) : b.Step [] (b.withSlot instr)

inductive Builder.Path : Builder → List Entry → Builder → Prop where
  | refl (b : Builder) : Path b [] b
  | cons {b mid after : Builder} {ops more : List Entry} (step : b.Step ops mid) (rest : Path mid more after) :
      Path b (ops ++ more) after

namespace Builder

variable {b mid after : Builder} {ops more : List Entry}

theorem Step.path (h : b.Step ops after) : b.Path ops after := by
  have path := Path.cons h (.refl after)
  rwa [append_nil] at path

theorem Path.trans (h : b.Path ops mid) (k : mid.Path more after) : b.Path (ops ++ more) after := by
  induction h with
  | refl => exact k
  | cons step _ ih =>
    rw [append_assoc]
    exact .cons step (ih k)

theorem Path.snoc (h : b.Path ops mid) (k : mid.Step more after) : b.Path (ops ++ more) after := h.trans k.path

/-- Where nothing is listed, sequences of changes can be joined without looking at lists. -/
theorem Path.then (h : b.Path [] mid) (k : mid.Path [] after) : b.Path [] after := h.trans k

/-- What every change keeps is kept by a sequence of changes. -/
theorem Path.keeps {I : Builder → Prop} (step : ∀ b ops after, b.Step ops after → I b → I after)
    (h : b.Path ops after) (start : I b) : I after := by
  induction h with
  | refl => exact start
  | cons change _ ih => exact ih (step _ _ _ change start)

/-- The same where nothing is listed. -/
theorem Path.keeps_of_nil {I : Builder → Prop} (step : ∀ b after, b.Step [] after → I b → I after)
    (h : b.Path ops after) (none : ops = []) (start : I b) : I after := by
  induction h with
  | refl => exact start
  | cons change _ ih =>
    obtain ⟨rfl, more⟩ := append_eq_nil_iff.mp none
    exact ih more (step _ _ change start)

/-- Blocks are laid out behind those that are laid out already. -/
theorem Step.layout (h : b.Step ops after) : ∃ more, after.graph.layout = b.graph.layout ++ more := by
  cases h with
  | note code =>
    have graph : after.graph = b.graph := congrArg Prod.fst code
    exact ⟨[], by rw [graph, append_nil]⟩
  | revise revises => exact ⟨[], by rw [revises.layout, append_nil]⟩
  | block _ => exact ⟨[], (append_nil _).symm⟩
  | attach x =>
    show ∃ more, (b.graph.attach x).layout = _
    unfold Graph.attach
    split
    · exact ⟨[], (append_nil _).symm⟩
    · exact ⟨[x], rfl⟩
  | emit _ _ run => exact ⟨[], (Graph.layout_of_updateBlock run).trans (append_nil _).symm⟩
  | slot _ => exact ⟨[], by rw [b.graph_withSlot, append_nil]; rfl⟩

/-- A block that is laid out stays so. -/
theorem Path.layout (h : b.Path ops after) {x : BlockId} (hx : x ∈ b.graph.layout) : x ∈ after.graph.layout := by
  refine h.keeps (I := fun b => x ∈ b.graph.layout) (fun _ _ _ step there => ?_) hx
  obtain ⟨more, layout⟩ := step.layout
  exact layout ▸ mem_append_left _ there

theorem Step.terms (h : b.Step ops after) : after.entry = b.entry ∧ after.prologPlaced = b.prologPlaced ∧
    after.options = b.options := by
  cases h with
  | note code =>
    simp only [Builder.code, Prod.mk.injEq] at code
    exact ⟨code.2.1, code.2.2.2.2.1, code.2.2.2.2.2⟩
  | revise | block | attach | emit => exact ⟨rfl, rfl, rfl⟩
  | slot _ =>
    unfold withSlot
    split <;> exact ⟨rfl, rfl, rfl⟩

/-- The entry block, the options and whether the prolog is placed stay as they are. -/
theorem Path.terms (h : b.Path ops after) : after.entry = b.entry ∧ after.prologPlaced = b.prologPlaced ∧
    after.options = b.options := by
  refine h.keeps (I := fun mid => mid.entry = b.entry ∧ mid.prologPlaced = b.prologPlaced ∧
    mid.options = b.options) (fun _ _ _ step same => ?_) ⟨rfl, rfl, rfl⟩
  exact ⟨step.terms.1.trans same.1, step.terms.2.1.trans same.2.1, step.terms.2.2.trans same.2.2⟩

/-- Instructions stay what they are, but for addresses. -/
theorem Step.retains (h : b.Step ops after) : b.graph.Retains after.graph := by
  cases h with
  | note code =>
    have graph : after.graph = b.graph := congrArg Prod.fst code
    exact .of_instrs (by rw [graph])
  | revise revises => exact revises.retains
  | block _ => exact .of_instrs rfl
  | attach _ => exact .of_instrs Graph.instrs_attach
  | emit _ _ run => exact .emit run
  | slot _ =>
    rw [b.graph_withSlot]
    exact .newInstr _ _

/-- No two blocks have the same name, and their names are not handed out again. -/
structure Named (b : Builder) : Prop where
  nodup : b.graph.blockNames.Nodup
  used : ∀ name ∈ b.graph.blockNames, ¬ b.names.Free name

theorem Named.congr (h : b.Named) (blocks : after.graph.blockNames = b.graph.blockNames)
    (names : b.names.Before after.names) : after.Named :=
  ⟨blocks ▸ h.nodup, fun name mem free => h.used name (blocks ▸ mem) (names name free)⟩

theorem Named.addBlock (h : b.Named) (tag : String) : (b.addBlock tag).Named := by
  have names : (b.addBlock tag).graph.blockNames = b.graph.blockNames ++ [(b.names.fresh tag).1] := by
    simp [Graph.blockNames, Builder.addBlock, Graph.newBlock]
  refine ⟨?_, fun name mem free => ?_⟩
  · rw [names, nodup_append]
    refine ⟨h.nodup, pairwise_singleton _ _, fun name mem other last eq => h.used name mem ?_⟩
    rw [eq, mem_singleton.mp last]
    exact b.names.free_fresh tag
  · obtain ⟨before, apart⟩ := free.of_fresh
    rcases mem_append.mp (names ▸ mem) with old | new
    · exact h.used name old before
    · exact apart (mem_singleton.mp new)

theorem Step.named (h : b.Step ops after) (start : b.Named) : after.Named := by
  cases h with
  | note code names =>
    have graph : after.graph = b.graph := congrArg Prod.fst code
    exact start.congr (by rw [graph]) names
  | revise revises => exact start.congr revises.names (.refl _)
  | block tag => exact start.addBlock tag
  | attach x => exact start.congr (by simp [Graph.blockNames]) (.refl _)
  | @emit _ instr _ _ _ run =>
    exact start.congr (Graph.map_of_updateBlock (g := (b.graph.newInstr instr).2) run fun _ => rfl) (.refl _)
  | slot _ =>
    unfold withSlot
    split <;> exact start.congr rfl (.refl _)

/-- Instructions are never taken away. -/
theorem Path.size_le (h : b.Path ops after) : b.graph.instrs.size ≤ after.graph.instrs.size := by
  induction h with
  | refl => exact Nat.le_refl _
  | cons change _ ih => exact Nat.le_trans change.retains.size_le ih

end Builder

/-- Operations on labels list nothing. -/
theorem Builder.Relabels.path {b after : Builder} (h : b.Relabels after) : b.Path [] after := by
  induction h with
  | refl => exact .refl b
  | snoc _ k ih =>
    refine ih.then (Step.path ?_)
    cases k with
    | note => exact .note rfl (.refl _)
    | block tag => exact .block tag
    | attach x => exact .attach x
    | take run => exact .revise (.updateBlock run fun _ => ⟨rfl, rfl⟩)
    | resolve resolves run => exact .revise (.updateInstr run (fun _ => rfl) fun op => .of_resolves (resolves op))

end FlowIR

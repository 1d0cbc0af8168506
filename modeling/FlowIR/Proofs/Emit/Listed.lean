import FlowIR.Proofs.Build.Tidy
import FlowIR.Proofs.Emit.Calls
import FlowIR.Proofs.Emit.Function
import Mathlib.Data.List.Nodup

/-!
What a finished function lists.

Every stack slot is listed once, in the entry block, and before everything there that uses it. The instructions that
set the function up are listed once too, in front of all code (`Emit.function_slots_placed`). The calls that are listed
in the layout are those of the body, but for calls behind missing values (`Emit.function_calls_listed`).
-/

namespace FlowIR

open FlowIR.Graph Build List

variable {s : Session} {name : String} {signature : Signature} {b₀ b : Builder} {calls : List Build.Call} {body : Stmt}
  {g : Graph} {last : Builder}

/-! ### Finishing -/

namespace Build

variable {x : BlockId}

theorem closeBlock_hushes {op : Op} (laid : x ∈ b.graph.layout) (plain : op.isAlloca = false)
    (other : op.mark? = none) : Hushes (closeBlock op x) b := by
  refine .get ((Hushes.checked _).bind fun ended mid hushed => ?_)
  split
  · exact .pure _
  · have code : Hushes (do let i ← newInstr { op }; append x i; pure ()) mid :=
      .append rfl (hushed.layout laid) plain other fun _ _ _ => .pure _
    simpa only [bind_pure_unit] using code

theorem closeBlocks_hushes : Hushes closeBlocks b := by
  refine .get ?_
  refine .forM (P := fun x b => x ∈ b.graph.layout) (fun _ _ _ laid hushed => hushed.layout laid)
    (fun x b laid => closeBlock_hushes laid ?_ ?_) _ b fun _ laid => laid
  all_goals split <;> rfl

/-- A label without a place gets a block that traps. -/
theorem closeLabel_hushes (l : LabelId) : Hushes (closeLabel l) b := by
  have trap : ∀ (mid : Builder) (span : Span), Hushes (do
      let block ← labelBlock l span
      modify fun b => { b with graph := b.graph.attach block }
      let i ← newInstr { op := .unreachable }
      append block i
      resolve l block) mid := by
    intro mid span
    refine (Hushes.relabels (labelBlock_relabels l span)).bind fun x mid _ => ?_
    refine .modify ?_
    have laid : x ∈ (mid.graph.attach x).layout := mem_layout_attach.mpr (.inr rfl)
    have rest : Hushes (do let i ← newInstr { op := .unreachable }; append x i; resolve l x)
        { mid with graph := mid.graph.attach x } :=
      .append rfl laid rfl rfl fun _ _ _ => .relabels (resolve_relabels l x)
    exact Ensures.imp rest fun _ _ more => (Builder.Hushed.of_path (Builder.Step.attach x).path).trans more
  refine .get (.get ?_)
  dsimp only
  split
  · exact trap b _
  · exact (Hushes.fail _ _).bind fun _ mid _ => trap mid _

/-- The graph is what a function becomes when all its blocks are closed: the late slots go to the front, and blocks may
be taken out of the layout. -/
structure Seals (b : Builder) (front g : Graph) : Prop where
  late : b.graph.insertFront b.entry b.lateSlots = .ok front
  blocks : g.blocks = front.blocks
  instrs : g.instrs = front.instrs
  layout : b.options.prune = false → g.layout = front.layout
  first : front.layout.head? = some b.entry → g.layout.head? = some b.entry
  kept : g.layout.Sublist front.layout
  verified : g.verify = .ok ⟨⟩

/-- A function that has its prolog is finished. -/
theorem finish_seals (placed : b.prologPlaced = true) :
    Ensures finish b (fun g _ => ∃ mid front, b.Hushed mid ∧ Seals mid front g) fun _ _ => True := by
  refine ensures_finish (P := b.Hushed) (R := b.Hushed) placed closeBlocks_hushes (fun mid hushed => ?_)
    (fun _ _ _ _ _ => trivial) fun mid hushed => (conclude_ensures mid).mono ?_ fun _ _ _ => trivial
  · exact Ensures.imp (Hushes.forM (P := fun _ _ => True) (fun _ _ _ _ _ => trivial)
      (fun l b _ => closeLabel_hushes l) _ mid fun _ _ => trivial) fun _ _ more => hushed.trans more
  rintro g - ⟨dests, armed, front, seals, -, verified⟩
  have redirects := seals.retargets.redirects
  have revises : mid.graph.Revises armed := by
    refine ⟨seals.retargets.size, fun i op hop => ?_, redirects.layout, by rw [redirects.blocks],
      by rw [blockNames, redirects.blocks, blockNames]⟩
    rcases redirects.ops i with eq | eq
    · exact ⟨op, eq.trans hop, .refl op⟩
    · exact ⟨op.redirect dests, by rw [eq, hop]; rfl, .redirect dests op⟩
  refine ⟨{ mid with graph := armed }, front, hushed.trans (.of_path (Builder.Step.revise revises).path),
    { seals with late := seals.placed, layout := fun whole => ?_, first := fun first => ?_, kept := ?_, verified }⟩
  · have layout := seals.layout
    rwa [if_neg (by rw [whole]; exact Bool.false_ne_true)] at layout
  · rw [layout_of_updateBlock seals.placed, redirects.layout] at first
    exact seals.entry?.trans first
  · have layout := seals.layout
    split at layout
    · obtain ⟨found, -, layout⟩ := layout
      exact layout ▸ filter_sublist
    · exact layout ▸ .refl _

end Build

/-! ### Whole functions -/

namespace Emit

/-- What has happened to a function that is complete: the prolog was placed, the code of the body was emitted and its
blocks were closed, and the late slots got their place. -/
theorem function_path (begun : s.begin name signature = .ok b₀) (prepared : prepare calls b₀ = .ok b)
    (run : function body b = .ok g last) :
    ∃ opened ops final front, placeProlog b = .ok () opened ∧ opened.Tidy s.options ∧
      opened.prologPlaced = true ∧ opened.Path ops final ∧
      Routes s.options.rethrow [] (body.events false) (ops.filterMap Entry.site?) ∧ Build.Seals final front g := by
  have apportioned := Session.begin_apportioned begun
  obtain ⟨start, issued, kept⟩ := prepare_tidy (Session.begin_tidy begun) apportioned prepared
  obtain ⟨_, opened, prolog, run⟩ := exists_of_bind run
  obtain ⟨tidy, placed⟩ := placeProlog_tidy start kept prolog
  obtain ⟨sound, -⟩ := (placeProlog_sound (prepare_sound (Session.begin_sound begun) apportioned prepared)
    kept).of_ok prolog
  obtain ⟨_, mid, code, run⟩ := exists_of_bind run
  have emitted : Ensures (fromEntry (stmt body)) opened (fun _ after => ∃ ops, opened.Path ops after ∧
      Routed { builder := opened, current := opened.entry } (body.events false) (ops.filterMap Entry.site?))
      fun _ _ => True :=
    ensures_fromEntry.mpr ((stmt_counts body (.entry sound placed) tidy.laid).imp fun _ _ h => h.2.2)
  obtain ⟨ops, path, routes⟩ := emitted.of_ok code
  obtain ⟨final, front, ⟨closing, closed, quiet⟩, seals⟩ := (finish_seals (path.terms.2.1.trans placed)).of_ok run
  refine ⟨opened, ops ++ closing, final, front, prolog, tidy, placed, path.trans closed, ?_, seals⟩
  rw [filterMap_append, quiet, append_nil, ← tidy.options]
  exact routes

end Emit

/-! ### Slots -/

/-- The instruction is listed once in the whole function: in the block, and before everything there that uses it. -/
structure Graph.PlacedOnce (g : Graph) (x : BlockId) (i : InstrId) : Prop where
  once : g.listed.count i = 1
  ahead : ∃ before after, g.body x = before ++ i :: after ∧ ∀ j ∈ before, ¬ g.Uses j i

/-- What stands in front of the code in the entry block is listed once and before it is used. -/
theorem Builder.Stowed.placedOnce {setsUp : InstrId → Prop} {front code : List InstrId} {b : Builder}
    (h : b.Stowed setsUp front code) {i : InstrId} (hi : i ∈ front) : b.graph.PlacedOnce b.entry i := by
  constructor
  · have mem : i ∈ b.graph.listed := mem_listed.mpr ⟨b.entry, by rw [h.body]; exact mem_append_left _ hi⟩
    exact count_eq_one_of_mem (nodup_append.mp h.once).1 mem
  · obtain ⟨before, after, rfl⟩ := append_of_mem hi
    refine ⟨before, after ++ code, by rw [h.body, append_assoc, cons_append], fun j hj => ?_⟩
    exact (pairwise_append.mp h.order).2.2 j hj i mem_cons_self

/-- Once a function has been set up, all that has been made so far stays in front of the code that is added. -/
theorem Builder.Tidy.stowed_after {options : Options} {opened after : Builder} {ops : List Entry}
    (h : opened.Tidy options) (placed : opened.prologPlaced = true) (path : opened.Path ops after) :
    ∃ front code, after.Stowed (·.index < opened.graph.instrs.size) front code := by
  obtain ⟨front, all⟩ := h.stowed
  have stowed : opened.Stowed (·.index < opened.graph.instrs.size) front [] := { all with
    kept := fun i hi => all.kept i (hi.imp (fun made => ⟨made.1, trivial⟩) id)
    own := fun i hi => .inl (all.known i (all.mem_stock_of_setUp hi))
    later := by rintro _ ⟨⟩ }
  obtain ⟨code, emitted, -⟩ := stowed.path path (.inr ⟨placed, fun _ new => Nat.not_lt.mpr new⟩)
  exact ⟨front, _, emitted⟩

namespace Emit

/-- Whatever is called to set a function up, in whatever order, and whatever its body is: in the complete function every
slot is listed once, in the entry block and before it is used there, and so is every other instruction that was made
before the code of the body. All of them stand in front of that code. -/
theorem function_slots_placed (begun : s.begin name signature = .ok b₀) (prepared : prepare calls b₀ = .ok b)
    (run : function body b = .ok g last) :
    ∃ opened entry front code, placeProlog b = .ok () opened ∧ g.entry? = some entry ∧
      g.body entry = front ++ code ∧
      (∀ i, g.Slot i ∨ i.index < opened.graph.instrs.size → i ∈ front ∧ g.PlacedOnce entry i) ∧
      ∀ i ∈ code, ¬ g.Slot i ∧ opened.graph.instrs.size ≤ i.index := by
  obtain ⟨opened, ops, final, front, prolog, opened_tidy, placed, path, -, seals⟩ := function_path begun prepared run
  obtain ⟨start, code, closed⟩ := opened_tidy.stowed_after placed path
  have sealed := closed.placeLate seals.late
  have body : ∀ x, g.body x = front.body x := fun x => by rw [Graph.body, Graph.body, seals.blocks]
  have ops : ∀ i, g.op? i = front.op? i := fun i => by rw [op?, op?, seals.instrs]
  have slots : ∀ i, g.Slot i ↔ front.Slot i := fun i => by rw [Graph.Slot, Graph.Slot, ops]
  have size : opened.graph.instrs.size ≤ front.instrs.size := by
    rw [show front.instrs = final.graph.instrs from instrs_of_updateBlock seals.late]
    exact path.size_le
  have waiting : final.pendingSlots = [] := closed.placed (path.terms.2.1.trans placed)
  refine ⟨opened, final.entry, final.lateSlots ++ start, code, prolog, seals.first ?_, (body _).trans sealed.body,
    fun i hi => ?_, fun i hi => ?_⟩
  · rw [layout_of_updateBlock seals.late]
    exact path.first opened_tidy.first
  · have mem := sealed.kept i (hi.symm.imp (fun early => ⟨Nat.lt_of_lt_of_le early size, early⟩) (slots i).mp)
    have early : i ∈ final.lateSlots ++ start := by
      rwa [Builder.setUp, waiting, append_nil, append_nil] at mem
    have placed := sealed.placedOnce early
    refine ⟨early, ?_, ?_⟩
    · rw [show g.listed = front.listed by rw [listed, listed, seals.blocks]]
      exact placed.once
    · obtain ⟨before, after, split, unused⟩ := placed.ahead
      refine ⟨before, after, (body _).trans split, fun j hj uses => unused j hj ?_⟩
      rwa [Graph.Uses, ops] at uses
  · exact ⟨fun isSlot => (sealed.later i hi).2 ((slots i).mp isSlot), Nat.le_of_not_lt (sealed.later i hi).1⟩

/-- A parameter of two words, slots from before and after the prolog, late slots that are placed twice, and a closure
environment that comes when its code can no longer go to the prolog. -/
theorem function_slots_placed_late : ∃ b₀ b g last,
    Session.begin {} "f" { params := [.i64, .struct [.i64, .i64]], result := .i64 } = .ok b₀ ∧
    prepare [.registerParam "a" .i64 false {}, .newTemporary .i64 "t",
      .registerParam "p" (.struct [.i64, .i64]) false {}, .placeProlog, .registerLocal "x" .i64 none false {},
      .placeLateSlots, .registerEnv "env" (.ptr .void) {}, .newTemporary .i64 "u"] b₀ = .ok b ∧
    function (.attempt (.ret {} [.call { ty := .i64 } "h" [.var { ty := .i64 } ⟨0⟩]]) none
      (some (.eval (.call { ty := .void } "k" [])))) b = .ok g last ∧
    ∃ opened entry front code, placeProlog b = .ok () opened ∧ g.entry? = some entry ∧
      g.body entry = front ++ code ∧
      (∀ i, g.Slot i ∨ i.index < opened.graph.instrs.size → i ∈ front ∧ g.PlacedOnce entry i) ∧
      ∀ i ∈ code, ¬ g.Slot i ∧ opened.graph.instrs.size ≤ i.index :=
  exists_of_completes (t := fun _ => true) (by decide +kernel) fun _ _ _ _ begun prepared emitted _ =>
    function_slots_placed begun prepared emitted

end Emit

/-! ### Calls and landing pads -/

namespace Graph

variable {after : Graph} {i : InstrId}

/-- Whether an instruction of the graph calls the function. -/
def callsAt (g : Graph) (f : String) (i : InstrId) : Bool := (g.op? i).any (Op.calls f)

/-- The number of instructions in the layout that call the function. -/
def callCount (g : Graph) (f : String) : Nat := (g.layout.flatMap g.body).countP (g.callsAt f)

def mark? (g : Graph) (i : InstrId) : Option Mark := (g.op? i).bind Op.mark?

/-- The call or the landing pad is listed where it is said to be. -/
def IsSite (g : Graph) (s : Site) : Prop := s.instr ∈ g.body s.block ∧ g.mark? s.instr = some s.mark

theorem callsAt_eq (f : String) (i : InstrId) : g.callsAt f i = (g.mark? i).any (Mark.isCall f) := by
  unfold callsAt mark? Op.calls
  cases g.op? i <;> rfl

/-- Where every instruction is listed once, calls can be counted with their sites. -/
theorem countP_listed {sites : List Site} (once : g.listed.Nodup)
    (sorted : sites.Pairwise fun s t => s.instr.index < t.instr.index) (all : ∀ s, s ∈ sites ↔ g.IsSite s)
    (f : String) :
    g.listed.countP (g.callsAt f) = sites.countP (·.mark.isCall f) := by
  have perm : (g.listed.filter fun i => (g.mark? i).isSome).Perm (sites.map (·.instr)) := by
    refine (perm_ext_iff_of_nodup (once.filter _) ?_).mpr fun i => ?_
    · exact pairwise_map.mpr (sorted.imp fun lt eq => Nat.ne_of_lt lt (congrArg InstrId.index eq))
    · simp only [mem_filter, mem_listed, Option.isSome_iff_exists, mem_map, all]
      constructor
      · rintro ⟨⟨x, hi⟩, mark, found⟩
        exact ⟨⟨i, x, mark⟩, ⟨hi, found⟩, rfl⟩
      · rintro ⟨s, ⟨hi, found⟩, rfl⟩
        exact ⟨⟨s.block, hi⟩, s.mark, found⟩
  calc g.listed.countP (g.callsAt f)
    _ = (g.listed.filter fun i => (g.mark? i).isSome).countP (g.callsAt f) := by
      rw [countP_filter]
      refine countP_congr fun i _ => ?_
      rw [callsAt_eq]
      cases g.mark? i <;> simp
    _ = (sites.map (·.instr)).countP (g.callsAt f) := perm.countP_eq _
    _ = sites.countP (·.mark.isCall f) := by
      rw [countP_map]
      refine countP_congr fun s hs => ?_
      rw [Function.comp_apply, callsAt_eq, ((all s).mp hs).2, Option.any_some]

/-- Instructions call what they called. -/
theorem Retains.mark? (h : g.Retains after) (old : i.index < g.instrs.size) : after.mark? i = g.mark? i := by
  have there : g.op? i = some g.instrs[i.index].op := by simp [op?, old]
  obtain ⟨op', found', alike⟩ := h.ops i _ there
  rw [Graph.mark?, Graph.mark?, there, found', Option.bind_some, Option.bind_some, alike.mark]

theorem listed_eq_flatMap (g : Graph) : g.listed = g.blockIds.flatMap g.body := by
  have all : ∀ l : List Block, l.flatMap Block.body = (range l.length).flatMap fun k =>
    (l[k]?).elim [] Block.body := by
    intro l
    induction l with
    | nil => rfl
    | cons b l ih =>
      rw [length_cons, range_succ_eq_map, flatMap_cons, flatMap_cons, flatMap_map, ih]
      rfl
  rw [listed, all, blockIds, flatMap_map, Array.length_toList]
  simp only [body, Array.getElem?_toList]

/-- Empty blocks can be left out. -/
theorem flatMap_filter_body (l : List BlockId) :
    (l.filter fun x => !(g.body x).isEmpty).flatMap g.body = l.flatMap g.body := by
  induction l with
  | nil => rfl
  | cons x l ih =>
    rw [filter_cons, flatMap_cons, ← ih]
    split
    · rw [flatMap_cons]
    · next empty =>
      have none : g.body x = [] := by simpa using empty
      rw [none, nil_append]

/-- In a neat graph the layout lists all that blocks list. -/
theorem Neat.perm_listed (h : g.Neat) : (g.layout.flatMap g.body).Perm g.listed := by
  rw [listed_eq_flatMap, ← flatMap_filter_body, ← flatMap_filter_body g.blockIds]
  refine List.Perm.flatMap_right _ ((perm_ext_iff_of_nodup (h.nodup.filter _) ?_).mpr fun x => ?_)
  · refine List.Nodup.filter _ (List.Nodup.map (fun _ _ => BlockId.mk.inj) nodup_range)
  · simp only [mem_filter, Bool.not_eq_true', isEmpty_eq_false_iff, and_congr_left_iff]
    intro some
    constructor
    · intro _
      obtain ⟨i, hi⟩ := exists_mem_of_ne_nil _ some
      exact mem_map.mpr ⟨x.index, mem_range.mpr (index_lt_of_mem_body hi), rfl⟩
    · exact fun _ => Decidable.byContradiction fun outside => some (h.outside x outside)

end Graph

namespace Builder

variable {after : Builder} {ops : List Entry}

def Lists (b : Builder) : Prop := ∀ i ∈ b.graph.listed, i.index < b.graph.instrs.size

/-- A change adds the calls and the landing pads that it lists. -/
theorem Step.isSite (h : b.Step ops after) (known : b.Lists) :
    after.Lists ∧ ∀ s, after.graph.IsSite s ↔ b.graph.IsSite s ∨ s ∈ ops.filterMap Entry.site? := by
  have old : ∀ {i x}, i ∈ b.graph.body x → after.graph.mark? i = b.graph.mark? i := fun hi =>
    h.retains.mark? (known _ (mem_listed.mpr ⟨_, hi⟩))
  have same (bodies : ∀ x, after.graph.body x = b.graph.body x) :
      after.Lists ∧ ∀ s, after.graph.IsSite s ↔ b.graph.IsSite s ∨ s ∈ ([] : List Site) := by
    refine ⟨fun i hi => ?_, fun s => ?_⟩
    · obtain ⟨x, hi⟩ := mem_listed.mp hi
      exact Nat.lt_of_lt_of_le (known i (mem_listed.mpr ⟨x, bodies x ▸ hi⟩)) h.retains.size_le
    · rw [Graph.IsSite, bodies, or_iff_left not_mem_nil]
      exact and_congr_right fun hi => by rw [old hi]
  cases h with
  | note code =>
    have graph : after.graph = b.graph := congrArg Prod.fst code
    exact same fun _ => by rw [graph]
  | revise revises => exact same revises.body
  | block _ => exact same fun _ => body_newBlock _
  | attach x => exact same fun _ => body_attach
  | slot _ => exact same fun _ => by rw [b.graph_withSlot]; rfl
  | @emit x instr g laid plain run =>
    have body : ∀ {i y}, i ∈ g.body y ↔ i ∈ b.graph.body y ∨ y = x ∧ i = ⟨b.graph.instrs.size⟩ := fun {i y} => by
      rw [body_of_append run]
      split
      · next here => simp [here, body_newInstr]
      · next other => simp [other, body_newInstr]
    have new : g.mark? ⟨b.graph.instrs.size⟩ = instr.op.mark? := by
      rw [mark?, op?_of_updateBlock run, op?_newInstr, if_pos rfl, Option.bind_some]
    refine ⟨fun i hi => ?_, fun s => ?_⟩
    · show i.index < g.instrs.size
      rw [instrs_of_updateBlock run, size_newInstr]
      obtain ⟨y, hi⟩ := mem_listed.mp hi
      rcases body.mp hi with there | ⟨-, rfl⟩
      · exact Nat.lt_succ_of_lt (known i (mem_listed.mpr ⟨y, there⟩))
      · exact Nat.lt_succ_self _
    · show s.instr ∈ g.body s.block ∧ g.mark? s.instr = some s.mark ↔ _
      rw [body, or_and_right]
      refine or_congr (and_congr_right fun hi => by rw [old hi]) ?_
      obtain ⟨i, y, mark⟩ := s
      simp only [mem_filterMap, mem_singleton, exists_eq_left, Entry.site?, Option.map_eq_some_iff,
        Site.mk.injEq]
      constructor
      · rintro ⟨⟨rfl, rfl⟩, found⟩
        exact ⟨mark, new ▸ found, rfl, rfl, rfl⟩
      · rintro ⟨_, found, rfl, rfl, rfl⟩
        exact ⟨⟨rfl, rfl⟩, new.trans found⟩

theorem Path.isSite (h : b.Path ops after) (known : b.Lists) :
    ∀ s, after.graph.IsSite s ↔ b.graph.IsSite s ∨ s ∈ ops.filterMap Entry.site? := by
  induction h with
  | refl => simp
  | cons change _ ih =>
    obtain ⟨known', added⟩ := change.isSite known
    intro s
    rw [ih known' s, added, filterMap_append, mem_append, or_assoc]

/-- Instructions are made one after the other. -/
theorem Path.sorted (h : b.Path ops after) : (∀ e ∈ ops, b.graph.instrs.size ≤ e.instr.index) ∧
    ops.Pairwise fun e e' => e.instr.index < e'.instr.index := by
  induction h with
  | refl => exact ⟨by rintro _ ⟨⟩, .nil⟩
  | @cons b mid after ops more change _ ih =>
    obtain ⟨new, sorted⟩ := ih
    have grows := change.retains.size_le
    cases change with
    | emit _ _ run =>
      have size : b.graph.instrs.size + 1 ≤ _ := Nat.le_of_eq ((congrArg Array.size
        (instrs_of_updateBlock run)).trans size_newInstr).symm
      refine ⟨forall_mem_cons.mpr ⟨Nat.le_refl _, fun e he => ?_⟩, pairwise_cons.mpr ⟨fun e he => ?_, sorted⟩⟩
      · exact Nat.le_of_succ_le (Nat.le_trans size (new e he))
      · exact Nat.le_trans size (new e he)
    | note | revise | block | attach | slot =>
      exact ⟨fun e he => Nat.le_trans grows (new e he), sorted⟩

/-- Nothing that sets a function up is a call or a landing pad. -/
theorem Stowed.mark? {setsUp : InstrId → Prop} {front code : List InstrId} (h : b.Stowed setsUp front code)
    {i : InstrId} (hi : i ∈ b.setUp front) : b.graph.mark? i = none := by
  unfold Graph.mark?
  cases found : b.graph.op? i with
  | none => rfl
  | some op => exact h.silent i hi op found

theorem Tidy.lists {options : Options} (h : b.Tidy options) : b.Lists := by
  obtain ⟨front, stowed⟩ := h.stowed
  exact fun i hi => stowed.known i (mem_append_left _ hi)

theorem Tidy.not_isSite {options : Options} (h : b.Tidy options) (s : Site) : ¬ b.graph.IsSite s := by
  rintro ⟨hi, found⟩
  obtain ⟨front, stowed⟩ := h.stowed
  have listed := mem_listed.mpr ⟨_, hi⟩
  rw [stowed.mark? (stowed.kept _ (.inl ⟨h.lists _ listed, trivial⟩))] at found
  cases found

end Builder

namespace Emit

/-- The blocks of a complete function list the calls and the landing pads of its body, in the order in which they are
made, and no instruction twice. It is accepted by the verifier, and without pruning all that is listed is laid out. -/
theorem function_calls (begun : s.begin name signature = .ok b₀) (prepared : prepare calls b₀ = .ok b)
    (run : function body b = .ok g last) :
    (∃ sites, Routes s.options.rethrow [] (body.events false) sites ∧
      (sites.Pairwise fun s t => s.instr.index < t.instr.index) ∧ ∀ s, s ∈ sites ↔ g.IsSite s) ∧
      g.listed.Nodup ∧ g.verify = .ok ⟨⟩ ∧
      (s.options.prune = false → (g.layout.flatMap g.body).Perm g.listed) := by
  obtain ⟨opened, ops, final, front, -, opened_tidy, placed, path, routes, seals⟩ :=
    function_path begun prepared run
  obtain ⟨start, code, closed⟩ := opened_tidy.stowed_after placed path
  have listed : g.listed = front.listed := by rw [listed, listed, seals.blocks]
  have body_eq : g.body = front.body := by
    funext x
    rw [Graph.body, Graph.body, seals.blocks]
  refine ⟨⟨_, routes, ?_, fun s => ?_⟩, ?_, seals.verified, ?_⟩
  · refine List.Pairwise.filterMap _ (fun e e' lt s hs t ht => ?_) path.sorted.2
    obtain ⟨_, -, rfl⟩ := Option.map_eq_some_iff.mp hs
    obtain ⟨_, -, rfl⟩ := Option.map_eq_some_iff.mp ht
    exact lt
  · have mark : g.mark? s.instr = final.graph.mark? s.instr := by
      rw [mark?, mark?, op?, op?, seals.instrs, instrs_of_updateBlock seals.late]
    have all := path.isSite opened_tidy.lists s
    rw [or_iff_right (opened_tidy.not_isSite s)] at all
    rw [← all, Graph.IsSite, Graph.IsSite, mark, body_eq, body_of_insertFront seals.late]
    refine and_congr_left fun found => ?_
    split
    · next here =>
      refine ⟨fun mem => here ▸ mem_append_right _ mem, fun mem => ?_⟩
      refine here ▸ (mem_append.mp mem).resolve_left fun late => ?_
      rw [closed.mark? (mem_append_right _ (mem_append_right _ late))] at found
      cases found
    · exact .rfl
  · rw [listed]
    exact (nodup_append.mp (closed.placeLate seals.late).once).1
  · intro unpruned
    have laid : final.entry ∈ final.graph.layout := mem_of_mem_head? (path.first opened_tidy.first)
    have layout : g.layout = front.layout := seals.layout (by rw [path.terms.2.2, opened_tidy.options, unpruned])
    rw [layout, body_eq, listed]
    exact ((path.neat opened_tidy.neat).insertFront laid seals.late).perm_listed

/-- Whatever is called to set a function up, and whatever its body is: without pruning, the layout of the complete
function has as many calls of a function as the body has, those behind missing values left out; and all of them if the
body is solid. The routine that raises exceptions again is called by cleanups as well. -/
theorem function_calls_listed {f : String} (begun : s.begin name signature = .ok b₀)
    (prepared : prepare calls b₀ = .ok b)
    (run : function body b = .ok g last) (unpruned : s.options.prune = false) (other : s.options.rethrow ≠ f) :
    g.callCount f = body.calls false f ∧ (body.solid = true → g.callCount f = body.calls true f) := by
  obtain ⟨⟨sites, routes, sorted, all⟩, once, -, whole⟩ := function_calls begun prepared run
  have total : g.callCount f = body.calls false f := by
    rw [callCount, (whole unpruned).countP_eq, countP_listed once sorted all, routes.countP_eq other,
      body.countP_events]
  exact ⟨total, fun solid => total.trans (Stmt.calls_of_solid solid)⟩

/-- A call in the condition of a branch, one in the argument of a call that is returned, and one in a cleanup. -/
theorem function_calls_listed_nested : ∃ b₀ b g last, Session.begin {} "f" { params := [], result := .i64 } = .ok b₀ ∧
    prepare [.newTemporary .i64 "t", .placeProlog] b₀ = .ok b ∧
    function (.attempt (.ite (.call { ty := .bool } "g" []) (.ret {} [.call { ty := .i64 } "h"
      [.binary { ty := .i64 } .add (.call { ty := .i64 } "g" []) (.int { ty := .i64 } 1)]]) .skip) none
      (some (.eval (.call { ty := .void } "g" [])))) b = .ok g last ∧
    g.callCount "g" = 3 :=
  exists_of_completes (t := fun _ => true) (by decide +kernel) fun _ _ _ _ begun prepared emitted _ =>
    ((function_calls_listed begun prepared emitted rfl (by decide)).2 (by decide)).trans (by decide)

/-- A call whose argument is a call that gives no bytes is not listed at all. -/
theorem outer_call_dropped : ∃ b₀ b g last,
    Session.begin {} "f" { params := [], result := .void } = .ok b₀ ∧ prepare [] b₀ = .ok b ∧
    function (.eval (.call { ty := .void } "h" [.call { ty := .struct [] } "g" []])) b = .ok g last ∧
    (g.callCount "h" = 0 ∧ g.callCount "g" = 1) ∧
    Stmt.calls true "h" (.eval (.call { ty := .void } "h" [.call { ty := .struct [] } "g" []])) = 1 :=
  exists_of_completes (t := fun g => g.callCount "h" = 0 ∧ g.callCount "g" = 1) (by decide +kernel)
    fun _ _ _ _ _ _ _ counts => ⟨of_decide_eq_true counts, by decide⟩

end Emit

end FlowIR

import FlowIR.Proofs.Build.Steps
import FlowIR.Proofs.Convention.Placed
import FlowIR.Proofs.Names

/-!
What setting a function up does to it.

Calls register what a function has, and `prepare` performs any sequence of them, going on after calls that
report an error. They are put together from a few effects: names and what is said of the arguments change
(`Builder.Adorned`), slots are made (`Builder.Provided`), with which parameters get their storage
(`Builder.Outfitted`), and instructions are made that fill slots (`Builder.Spilled`). An invariant only has to
be looked at for these effects, and not for the operations.
-/

namespace FlowIR

open Placement List

/-! ### Calls -/

namespace Build

/-- A call that works on a function before its body. What precedes a return is part of the code of a body. -/
inductive Call where
  | registerParam (name : String) (ty : Ty) (addressTaken : Bool) (span : Span)
  | registerEnv (name : String) (ty : Ty) (span : Span)
  | registerLocal (name : String) (ty : Ty) (aliasOf : Option VarId) (addressTaken : Bool) (span : Span)
  | newTemporary (ty : Ty) (tag : String)
  | newLabel (span : Span)
  | labelBlock (l : LabelId) (span : Span)
  | defineLabel (l : LabelId) (span : Span)
  | addressOfLabel (l : LabelId) (span : Span)
  | markError
  | fresh (tag : String)
  | placeProlog
  | placeLateSlots

def Call.perform : Call → BuildM Unit
  | .registerParam name ty addressTaken span => do let _ ← Build.registerParam name ty addressTaken span
  | .registerEnv name ty span => do let _ ← Build.registerEnv name ty span
  | .registerLocal name ty aliasOf addressTaken span => do
    let _ ← Build.registerLocal name ty aliasOf addressTaken span
  | .newTemporary ty tag => do let _ ← Build.newTemporary ty tag
  | .newLabel span => do let _ ← Build.newLabel span
  | .labelBlock l span => do let _ ← Build.labelBlock l span
  | .defineLabel l span => do let _ ← Build.defineLabel l span
  | .addressOfLabel l span => do let _ ← Build.addressOfLabel l span
  | .markError => Build.markError
  | .fresh tag => do let _ ← Build.fresh tag
  | .placeProlog => Build.placeProlog
  | .placeLateSlots => Build.placeLateSlots

/-- The function after a call. A call that reports an error leaves a function to go on with. -/
def Call.apply (call : Call) (b : Builder) : Checked Builder :=
  match call.perform b with
  | .ok _ after | .error (.error _) after => .ok after
  | .error (.fault f) _ => .error f

def prepare (calls : List Call) (b : Builder) : Checked Builder := calls.foldlM (fun b call => call.apply b) b

/-- The function after a call is the one after the operation that it performs. -/
theorem Call.exists_of_apply {α : Type} {call : Call} {x : BuildM α} {b after : Builder} {Q : α → Builder → Prop}
    {E : Halt BuildError → Builder → Prop} (performs : call.perform = do let _ ← x) (h : Ensures x b Q E)
    (run : call.apply b = .ok after) :
    (∃ v, x b = .ok v after ∧ Q v after) ∨ ∃ err, x b = .error (.error err) after ∧ E (.error err) after := by
  have bind : call.perform b = EStateM.bind x (fun _ => pure ()) b := by rw [performs]; rfl
  unfold Call.apply at run
  rw [bind] at run
  unfold EStateM.bind at run
  unfold Ensures at h
  cases found : x b with
  | ok v mid =>
    rw [found] at run h
    cases run
    exact .inl ⟨v, rfl, h⟩
  | error e mid =>
    rw [found] at run h
    cases e with
    | error err =>
      cases run
      exact .inr ⟨_, rfl, h⟩
    | fault f => cases run

end Build

/-! ### Storage of parameters -/

namespace Placement

/-- Where parameters are kept, when the next slot is the one with number `next`. -/
def homes : (next : Nat) → List Placement → List Operand
  | _, [] => []
  | next, p :: ps =>
    if p.passing.isIndirect then .arg p.offset :: homes next ps else .result ⟨next⟩ :: homes (next + 1) ps

def kept (ps : List Placement) : List Shape := (ps.filter fun p => !p.passing.isIndirect).map (·.ty.shape)

theorem homes_append (next : Nat) (ps qs : List Placement) :
    homes next (ps ++ qs) = homes next ps ++ homes (next + (kept ps).length) qs := by
  induction ps generalizing next with
  | nil => rfl
  | cons p ps ih =>
    rw [cons_append, homes, homes, kept, filter_cons]
    cases indirect : p.passing.isIndirect with
    | true =>
      simp only [if_true, Bool.not_true, Bool.false_eq_true, if_false, cons_append, ih]
      rfl
    | false =>
      simp only [Bool.not_false, Bool.false_eq_true, if_true, if_false, cons_append, ih, map_cons,
        length_cons]
      rw [Nat.add_right_comm, Nat.add_assoc next]
      rfl

theorem kept_append (ps qs : List Placement) : kept (ps ++ qs) = kept ps ++ kept qs := by
  unfold kept
  rw [filter_append, map_append]

theorem length_homes (next : Nat) (ps : List Placement) : (homes next ps).length = ps.length := by
  induction ps generalizing next with
  | nil => rfl
  | cons p ps ih =>
    rw [homes]
    split <;> rw [length_cons, ih, length_cons]

/-- What a parameter is kept in: the argument that it travels behind, or a slot for its shape. -/
theorem getElem?_homes {next : Nat} : ∀ {ps : List Placement} {k : Nat} {p : Placement},
    ps[k]? = some p → (p.passing.isIndirect = true ∧ (homes next ps)[k]? = some (.arg p.offset)) ∨
      p.passing.isIndirect = false ∧ ∃ i, (homes next ps)[k]? = some (.result ⟨next + i⟩) ∧
        (kept ps)[i]? = some p.ty.shape
  | q :: ps, 0, p, found => by
    cases found
    unfold homes kept
    cases indirect : q.passing.isIndirect with
    | true => exact .inl ⟨rfl, by simp⟩
    | false => exact .inr ⟨rfl, 0, by simp, by simp [indirect]⟩
  | q :: ps, k + 1, p, found => by
    have found : ps[k]? = some p := found
    unfold homes kept
    cases indirect : q.passing.isIndirect with
    | true =>
      simp only [if_true, getElem?_cons_succ, filter_cons, indirect, Bool.not_true,
        Bool.false_eq_true, if_false]
      exact getElem?_homes found
    | false =>
      simp only [Bool.false_eq_true, if_false, getElem?_cons_succ, filter_cons, indirect,
        Bool.not_false, if_true, map_cons]
      rcases @getElem?_homes (next + 1) _ _ _ found with h | ⟨direct, i, home, shape⟩
      · exact .inl h
      · refine .inr ⟨direct, i + 1, ?_, shape⟩
        rw [home, Nat.add_right_comm, Nat.add_assoc]

theorem lt_of_mem_homes {next : Nat} : ∀ {ps : List Placement} {i : InstrId},
    Operand.result i ∈ homes next ps → next ≤ i.index
  | p :: ps, i, h => by
    rw [homes] at h
    split at h
    · rcases mem_cons.mp h with eq | later
      · cases eq
      · exact lt_of_mem_homes later
    · rcases mem_cons.mp h with eq | later
      · cases eq
        exact Nat.le_refl _
      · exact Nat.le_of_succ_le (lt_of_mem_homes later)

theorem le_of_mem_homes {next offset : Nat} : ∀ {ps : List Placement} {n : Nat}, Consecutive offset ps →
    Operand.arg n ∈ homes next ps → offset ≤ n
  | p :: ps, n, consecutive, h => by
    have rest : ∀ {next}, Operand.arg n ∈ homes next ps → offset ≤ n := fun later =>
      Nat.le_trans (Nat.le_add_right _ _) (le_of_mem_homes consecutive.2 later)
    rw [homes] at h
    split at h
    · rcases mem_cons.mp h with eq | later
      · cases eq
        exact Nat.le_of_eq consecutive.1.symm
      · exact rest later
    · rcases mem_cons.mp h with eq | later
      · cases eq
      · exact rest later

theorem slots_of_isIndirect {p : Placement} (h : p.passing.isIndirect = true) : p.slots = 1 := by
  unfold slots
  cases passing : p.passing with
  | indirect => rfl
  | ignored | direct => rw [passing] at h; cases h

/-- No two parameters are kept in the same place. -/
theorem nodup_homes {next offset : Nat} : ∀ {ps : List Placement}, Consecutive offset ps → (homes next ps).Nodup
  | [], _ => nodup_nil
  | p :: ps, consecutive => by
    rw [homes]
    split
    · next indirect =>
      refine nodup_cons.mpr ⟨fun later => ?_, nodup_homes consecutive.2⟩
      have slots := slots_of_isIndirect indirect
      have above := le_of_mem_homes consecutive.2 later
      have first := consecutive.1
      omega
    · refine nodup_cons.mpr ⟨fun later => ?_, nodup_homes consecutive.2⟩
      exact Nat.lt_irrefl _ (lt_of_mem_homes later)

/-- Parameters are kept where the caller put them, or in new slots. -/
theorem mem_homes {next : Nat} {ps : List Placement} {v : Operand} (h : v ∈ homes next ps) :
    (∃ p ∈ ps, v = .arg p.offset ∧ p.passing.isIndirect = true) ∨
      ∃ i, v = .result i ∧ next ≤ i.index ∧ i.index < next + (kept ps).length := by
  obtain ⟨k, found⟩ := List.getElem?_of_mem h
  have inside := (List.getElem?_eq_some_iff.mp found).1
  rw [length_homes] at inside
  rcases @getElem?_homes next _ _ _ (List.getElem?_eq_getElem inside) with ⟨indirect, home⟩ | ⟨-, i, home, shape⟩
  · exact .inl ⟨_, List.getElem_mem inside, Option.some.inj (found.symm.trans home), indirect⟩
  · have below := (List.getElem?_eq_some_iff.mp shape).1
    exact .inr ⟨_, Option.some.inj (found.symm.trans home), Nat.le_add_right _ _, Nat.add_lt_add_left below _⟩

/-- What travels in registers travels in one or two chunks. -/
def Fits (p : Placement) : Prop :=
  ∀ chunks ext, p.passing = .direct chunks ext → chunks.length = 1 ∨ chunks.length = 2

end Placement

/-! ### Changes that only adorn -/

/-- The operations and shapes of the instructions. -/
def Graph.kinds (g : Graph) : List (Op × Shape) := g.instrs.toList.map fun i => (i.op, i.shape)

def Graph.attrs (g : Graph) : List (List ArgAttr) := g.args.toList.map (·.attrs)

/-- Attributes are given to arguments, each at most once. -/
def tell : List (Nat × ArgAttr) → List (List ArgAttr) → List (List ArgAttr)
  | [], said => said
  | (n, a) :: more, said => tell more (said.modify n fun l => if a ∈ l then l else l ++ [a])

theorem tell_append : ∀ (l more : List (Nat × ArgAttr)) (said : List (List ArgAttr)),
    tell (l ++ more) said = tell more (tell l said)
  | [], _, _ => rfl
  | _ :: l, more, _ => tell_append l more _

@[simp] theorem length_tell : ∀ (l : List (Nat × ArgAttr)) (said : List (List ArgAttr)),
    (tell l said).length = said.length
  | [], _ => rfl
  | _ :: l, said => by rw [tell, length_tell l, length_modify]

theorem Graph.length_attrs (g : Graph) : g.attrs.length = g.args.size := by
  simp [attrs]

/-- The graphs differ in names, and in what is said of the arguments: the attributes `l` are told. -/
structure Graph.Alike (g : Graph) (l : List (Nat × ArgAttr)) (after : Graph) : Prop where
  name : after.name = g.name
  layout : after.layout = g.layout
  blocks : after.blocks = g.blocks
  kinds : after.kinds = g.kinds
  attrs : after.attrs = tell l g.attrs

section Alike

variable {g mid after : Graph} {l more : List (Nat × ArgAttr)}

theorem Graph.Alike.refl (g : Graph) : g.Alike [] g := ⟨rfl, rfl, rfl, rfl, rfl⟩

theorem Graph.Alike.trans (h : g.Alike l mid) (k : mid.Alike more after) : g.Alike (l ++ more) after :=
  ⟨k.name.trans h.name, k.layout.trans h.layout, k.blocks.trans h.blocks, k.kinds.trans h.kinds,
    by rw [k.attrs, h.attrs, tell_append]⟩

theorem Graph.Alike.args (h : g.Alike l after) : after.args.size = g.args.size := by
  rw [← length_attrs, h.attrs, length_tell, length_attrs]

end Alike

theorem Graph.length_kinds (g : Graph) : g.kinds.length = g.instrs.size := by
  simp [kinds]

theorem Graph.getElem?_kinds (g : Graph) (i : Nat) : g.kinds[i]? = g.instrs[i]?.map fun i => (i.op, i.shape) := by
  simp [kinds]

theorem Graph.op?_eq_kinds (g : Graph) (i : InstrId) : g.op? i = g.kinds[i.index]?.map Prod.fst := by
  rw [getElem?_kinds, Option.map_map]
  rfl

theorem Graph.Alike.op? {g after : Graph} {l : List (Nat × ArgAttr)} (h : g.Alike l after) (i : InstrId) :
    after.op? i = g.op? i := by
  rw [op?_eq_kinds, h.kinds, ← op?_eq_kinds]

theorem Graph.Alike.graph_extends {g after : Graph} {l : List (Nat × ArgAttr)} (h : g.Alike l after) :
    g.Extends after where
  size := h.blocks ▸ Nat.le_refl _
  layout := h.layout ▸ prefix_rfl
  body := fun x => by
    have same : after.body x = g.body x := by rw [Graph.body, Graph.body, h.blocks]
    exact same ▸ prefix_rfl
  ended := fun x _ => by rw [Graph.body, Graph.body, h.blocks]
  instr := fun i instr found => by
    have kinds := after.getElem?_kinds i
    rw [h.kinds, getElem?_kinds, found] at kinds
    obtain ⟨instr', found', eq⟩ := Option.map_eq_some_iff.mp kinds.symm
    obtain ⟨op, shape⟩ := Prod.mk.inj eq
    exact ⟨instr', found', op ▸ .refl _, shape⟩

/-- Naming an instruction changes nothing else. -/
theorem Graph.alike_of_rename {g after : Graph} {i : InstrId} {name : Option String}
    (run : g.updateInstr i ({ · with name := name }) = .ok after) : g.Alike [] after := by
  unfold updateInstr at run
  split at run
  · cases run
    refine ⟨rfl, rfl, rfl, ext_getElem? fun k => ?_, rfl⟩
    rw [getElem?_kinds, getElem?_kinds, Array.getElem?_modify]
    split
    · next same =>
      subst same
      rw [Option.map_map]
      rfl
    · rfl
  · cases run

namespace Builder

/-- Only names have changed, and what is said of the arguments. -/
def Adorned (b : Builder) (l : List (Nat × ArgAttr)) (after : Builder) : Prop :=
  ∃ graph names, after = { b with graph, names } ∧ b.names.Before names ∧ b.graph.Alike l graph

variable {b mid after : Builder} {l more : List (Nat × ArgAttr)}

theorem Adorned.refl (b : Builder) : b.Adorned [] b := ⟨_, _, rfl, .refl _, .refl _⟩

theorem Adorned.trans (h : b.Adorned l mid) (k : mid.Adorned more after) : b.Adorned (l ++ more) after := by
  obtain ⟨graph, names, rfl, later, alike⟩ := h
  obtain ⟨graph', names', rfl, later', alike'⟩ := k
  exact ⟨graph', names', rfl, later.trans later', alike.trans alike'⟩

variable (h : b.Adorned l after)

include h

theorem Adorned.attrs : after.graph.attrs = tell l b.graph.attrs := by
  obtain ⟨graph, names, rfl, -, alike⟩ := h
  exact alike.attrs

theorem Adorned.args : after.graph.args.size = b.graph.args.size := by
  obtain ⟨graph, names, rfl, -, alike⟩ := h
  exact alike.args

theorem Adorned.instrs : after.graph.instrs.size = b.graph.instrs.size := by
  obtain ⟨graph, names, rfl, -, alike⟩ := h
  rw [← Graph.length_kinds, ← Graph.length_kinds]
  exact congrArg length alike.kinds

end Builder

namespace Build

variable {b : Builder}

theorem fresh_adorns (b : Builder) (tag : String) : Succeeds (fresh tag) b fun _ after => b.Adorned [] after :=
  .of_run rfl ⟨b.graph, _, rfl, .fresh _ tag, .refl _⟩

theorem nameArg_adorns {n : Nat} (inside : n < b.graph.args.size) (name : String) :
    Succeeds (onGraph (·.nameArg n name)) b fun _ after => b.Adorned [] after := by
  refine .of_run (onGraph_eq (if_pos inside)) ⟨_, b.names, rfl, .refl _, rfl, rfl, rfl, rfl,
    ext_getElem? fun k => ?_⟩
  simp only [tell, Graph.attrs, getElem?_map, Array.getElem?_toList, Array.getElem?_modify]
  split <;> simp [Function.comp_def]

theorem addArgAttr_adorns {n : Nat} (inside : n < b.graph.args.size) (attr : ArgAttr) :
    Succeeds (onGraph (·.addArgAttr n attr)) b fun _ after => b.Adorned [(n, attr)] after := by
  refine .of_run (onGraph_eq (if_pos inside)) ⟨_, b.names, rfl, .refl _, rfl, rfl, rfl, rfl,
    ext_getElem? fun k => ?_⟩
  simp only [tell, Graph.attrs, getElem?_map, getElem?_modify, Array.getElem?_toList, Array.getElem?_modify]
  split <;> simp [Function.comp_def]

theorem nameOperand_adorns {v : Operand} (results : ∀ i, v = .result i → i.index < b.graph.instrs.size)
    (args : ∀ n, v = .arg n → n < b.graph.args.size) (name : String) :
    Succeeds (nameOperand v name) b fun _ after => b.Adorned [] after := by
  unfold nameOperand
  split
  · next i =>
    have run : b.graph.updateInstr i ({ · with name := some name }) = .ok _ := if_pos (results i rfl)
    exact .of_run (onGraph_eq run) ⟨_, b.names, rfl, .refl _, Graph.alike_of_rename run⟩
  · next n => exact nameArg_adorns (args n rfl) _
  · exact .refl b

/-- A loop of such changes. -/
theorem forM_adorns {α : Type} {f : α → BuildM PUnit} {t : α → List (Nat × ArgAttr)} : ∀ (l : List α) {b : Builder},
    (∀ a ∈ l, ∀ mid : Builder, mid.graph.args.size = b.graph.args.size →
      Succeeds (f a) mid fun _ after => mid.Adorned (t a) after) →
    Succeeds (l.forM f) b fun _ after => b.Adorned (l.flatMap t) after
  | [], b, _ => .refl b
  | a :: l, b, step => by
    refine (step a mem_cons_self b rfl).bind fun _ mid first => ?_
    refine (forM_adorns l fun a' mem mid' same => step a' (mem_cons_of_mem a mem) mid' (same.trans first.args)).imp
      fun _ _ rest => first.trans rest

/-- Naming a parameter changes no instruction. -/
theorem nameParam_adorns {p : Placement} {slot : Operand}
    (results : ∀ i, slot = .result i → i.index < b.graph.instrs.size)
    (args : ∀ n, slot = .arg n → n < b.graph.args.size) (inside : p.offset + p.argShapes.length ≤ b.graph.args.size)
    (name : String) : Succeeds (nameParam p slot name) b fun _ after => b.Adorned [] after := by
  unfold nameParam
  unfold argShapes at inside
  cases passing : p.passing with
  | ignored => exact nameOperand_adorns results args name
  | indirect =>
    rw [passing] at inside
    exact nameArg_adorns inside _
  | direct chunks ext =>
    rw [passing] at inside
    dsimp only at inside ⊢
    have last : ∀ mid, b.Adorned [] mid →
        Succeeds (nameOperand slot (name ++ ".addr")) mid fun _ after => b.Adorned [] after := fun mid adorned =>
      (nameOperand_adorns (fun i eq => adorned.instrs ▸ results i eq)
        (fun n eq => adorned.args ▸ args n eq) _).imp fun _ _ k => adorned.trans k
    split
    · exact (nameArg_adorns (by omega) _).bind fun _ mid adorned => last mid adorned
    · refine (forM_adorns (t := fun _ => []) _ fun k hk mid same => nameArg_adorns ?_ _).bind
        fun _ mid adorned => last mid ((flatMap_eq_nil_iff.mpr fun _ _ => rfl) ▸ adorned)
      have below := mem_range.mp hk
      omega

end Build

/-! ### Slots -/

/-- The operand is the address of storage: of a slot, or of what the caller has put behind an argument. -/
def Graph.Storage (g : Graph) : Operand → Prop
  | .arg _ => True
  | .result i => g.Slot i
  | _ => False

theorem Graph.Storage.mono {g after : Graph} {v : Operand} (h : g.Storage v)
    (slots : ∀ i, g.Slot i → after.Slot i) : after.Storage v := by
  cases v <;> first | exact slots _ h | exact h

theorem Graph.Storage.stable {g : Graph} {v : Operand} (h : g.Storage v) : g.Stable v := by
  rintro j rfl
  exact h

/-- Slots of the given shapes have been made one after the other, and but for that the function has only been
adorned. -/
inductive Builder.Provided (b : Builder) : List Shape → Builder → Prop where
  | refl : b.Provided [] b
  | adorn {mid after : Builder} {shapes : List Shape} {l : List (Nat × ArgAttr)} (h : b.Provided shapes mid)
      (k : mid.Adorned l after) :
      b.Provided shapes after
  | slot {mid : Builder} {shapes : List Shape} (h : b.Provided shapes mid) (shape : Shape) (name : Option String) :
      b.Provided (shapes ++ [shape]) (mid.withSlot ⟨.alloca shape, .ptr shape, name⟩)

/-- The storage of the first parameters has been set up, and the attributes `l` have been told. -/
structure Builder.Outfitted (b : Builder) (l : List (Nat × ArgAttr)) (ps : List Placement)
    (after : Builder) : Prop where
  provided : ∃ mid, b.Provided (kept ps) mid ∧ after =
    { mid with argsReady := true, paramSlots := b.paramSlots ++ homes b.graph.instrs.size ps }
  fits : ∀ p ∈ ps, p.Fits
  attrs : after.graph.attrs = tell l b.graph.attrs

/-- What is reported is that a parameter does not fit. -/
def Halt.Misfit (e : Halt BuildError) (ps : List Placement) : Prop :=
  ∃ err n, e = .error err ∧ err.cause = .inconsistentChunks n ∧ ∃ p ∈ ps, ¬ p.Fits

namespace Builder.Provided

variable {b mid after : Builder} {shapes more : List Shape}

theorem trans (h : b.Provided shapes mid) (k : mid.Provided more after) : b.Provided (shapes ++ more) after := by
  induction k with
  | refl => rwa [append_nil]
  | adorn _ k ih => exact ih.adorn k
  | slot _ shape name ih =>
    rw [← append_assoc]
    exact ih.slot shape name

/-- What adorning and making a slot keep is kept. -/
theorem keeps {I : Builder → Prop} (adorned : ∀ {b l after}, Adorned b l after → I b → I after)
    (slot : ∀ {b} shape name, I b → I (b.withSlot ⟨.alloca shape, .ptr shape, name⟩)) (h : b.Provided shapes after)
    (start : I b) : I after := by
  induction h with
  | refl => exact start
  | adorn _ k ih => exact adorned k ih
  | slot _ shape name ih => exact slot shape name ih

variable (h : b.Provided shapes after) {i : InstrId}

include h

theorem same : ∃ graph names pending late, after =
    { b with graph, names, pendingSlots := pending, lateSlots := late } := by
  refine h.keeps (I := fun after => ∃ graph names pending late, after =
    { b with graph, names, pendingSlots := pending, lateSlots := late }) ?_ ?_ ⟨_, _, _, _, rfl⟩
  · rintro _ _ _ ⟨_, _, rfl, -⟩ ⟨_, _, _, _, rfl⟩
    exact ⟨_, _, _, _, rfl⟩
  · rintro _ shape name ⟨_, _, _, _, rfl⟩
    unfold withSlot
    split <;> exact ⟨_, _, _, _, rfl⟩

theorem frame : after.graph.name = b.graph.name ∧ after.graph.blocks = b.graph.blocks ∧
    after.graph.args.size = b.graph.args.size := by
  refine h.keeps (I := fun after => after.graph.name = b.graph.name ∧ after.graph.blocks = b.graph.blocks ∧
    after.graph.args.size = b.graph.args.size) ?_ ?_ ⟨rfl, rfl, rfl⟩
  · rintro _ _ _ ⟨_, _, rfl, -, alike⟩ ⟨name, blocks, args⟩
    exact ⟨alike.name.trans name, alike.blocks.trans blocks, alike.args.trans args⟩
  · intro mid shape name kept
    rw [mid.graph_withSlot]
    exact kept

theorem kinds : after.graph.kinds = b.graph.kinds ++ shapes.map fun s => (.alloca s, .ptr s) := by
  induction h with
  | refl => rw [map_nil, append_nil]
  | adorn _ k ih =>
    obtain ⟨_, _, rfl, -, alike⟩ := k
    exact alike.kinds.trans ih
  | @slot mid _ _ shape name ih =>
    rw [mid.graph_withSlot, map_append, ← append_assoc, ← ih]
    simp [Graph.kinds, Graph.newInstr]

theorem size : after.graph.instrs.size = b.graph.instrs.size + shapes.length := by
  rw [← Graph.length_kinds, h.kinds, length_append, length_map, Graph.length_kinds]

theorem op?_old (old : i.index < b.graph.instrs.size) : after.graph.op? i = b.graph.op? i := by
  rw [Graph.op?_eq_kinds, Graph.op?_eq_kinds, h.kinds, getElem?_append_left (by rwa [Graph.length_kinds])]

/-- Slots stay slots, and what has been made are slots. -/
theorem slot_old (slot : b.graph.Slot i) : after.graph.Slot i := by
  obtain ⟨op, found, isSlot⟩ := slot
  exact ⟨op, (h.op?_old (Graph.index_lt_of_op? found)).trans found, isSlot⟩

theorem slot_new (new : b.graph.instrs.size ≤ i.index)
    (below : i.index < b.graph.instrs.size + shapes.length) : after.graph.Slot i := by
  have inside : i.index - b.graph.instrs.size < shapes.length := by omega
  refine ⟨.alloca shapes[i.index - b.graph.instrs.size], ?_, rfl⟩
  rw [Graph.op?_eq_kinds, h.kinds, getElem?_append_right (by rwa [Graph.length_kinds]), Graph.length_kinds,
    getElem?_map, getElem?_eq_getElem inside]
  rfl

/-- Making slots does not depend on which of them parameters have. -/
theorem dress (ready : Bool) (slots : List Operand) :
    ({ b with argsReady := ready, paramSlots := slots } : Builder).Provided shapes
      { after with argsReady := ready, paramSlots := slots } := by
  induction h with
  | refl => exact .refl
  | adorn _ k ih =>
    obtain ⟨graph, names, rfl, same⟩ := k
    exact ih.adorn ⟨graph, names, rfl, same⟩
  | @slot mid _ _ shape name ih =>
    have made := ih.slot shape name
    unfold withSlot at made ⊢
    split at made
    · next placed => rwa [if_pos placed]
    · next unplaced => rwa [if_neg unplaced]

end Builder.Provided

namespace Builder.Outfitted

variable {b mid after : Builder} {ps : List Placement} {l more : List (Nat × ArgAttr)}

/-- Adorning does not matter. -/
theorem adorned (h : b.Outfitted l ps mid) (k : mid.Adorned more after) : b.Outfitted (l ++ more) ps after := by
  have attrs : after.graph.attrs = tell (l ++ more) b.graph.attrs := by rw [k.attrs, h.attrs, tell_append]
  obtain ⟨⟨m, provided, rfl⟩, fits, -⟩ := h
  obtain ⟨graph, names, rfl, same⟩ := k
  exact ⟨⟨{ m with graph, names }, provided.adorn ⟨graph, names, rfl, same⟩, rfl⟩, fits, attrs⟩

/-- One more parameter gets its storage. -/
theorem next (h : b.Outfitted l ps mid) {p : Placement} {v : Operand} (k : mid.Provided (kept [p]) after)
    (home : homes mid.graph.instrs.size [p] = [v]) (fits : p.Fits)
    (attrs : after.graph.attrs = tell more mid.graph.attrs) :
    b.Outfitted (l ++ more) (ps ++ [p]) { after with paramSlots := after.paramSlots ++ [v] } := by
  have told : after.graph.attrs = tell (l ++ more) b.graph.attrs := by rw [attrs, h.attrs, tell_append]
  obtain ⟨⟨m, provided, rfl⟩, all, -⟩ := h
  have size : m.graph.instrs.size = b.graph.instrs.size + (kept ps).length := provided.size
  have slots : after.paramSlots = b.paramSlots ++ homes b.graph.instrs.size ps ∧ after.argsReady = true := by
    obtain ⟨_, _, _, _, rfl⟩ := k.same
    exact ⟨rfl, rfl⟩
  refine ⟨⟨_, kept_append ps [p] ▸ provided.trans (k.dress m.argsReady m.paramSlots), ?_⟩,
    fun q hq => ?_, told⟩
  · rw [homes_append, ← size, home, slots.1, ← slots.2, append_assoc]
  · rcases mem_append.mp hq with old | new
    · exact all q old
    · cases mem_singleton.mp new
      exact fits

end Builder.Outfitted

/-! ### Arguments -/

/-- The attributes of the arguments of a parameter. -/
def Placement.attrs (p : Placement) : List (Nat × ArgAttr) :=
  match p.passing with
  | .ignored => []
  | .indirect => [(p.offset, .byval)]
  | .direct chunks ext =>
    (Build.extensionAttr? ext).toList.flatMap fun attr => (range chunks.length).map fun k => (p.offset + k, attr)

def Convention.hidden (c : Convention) : List (Nat × ArgAttr) :=
  c.resultPointer?.toList.map (·, .sret) ++ [(c.chainIndex, .nest)]

namespace Build

variable {b : Builder}

/-- A parameter gets its slot or stays behind its pointer, unless it does not fit. -/
theorem setUpParam_provides (b : Builder) {p : Placement} (inside : p.offset + p.argShapes.length ≤ b.graph.args.size) :
    Ensures (setUpParam p) b (fun v after => b.Provided (kept [p]) after ∧
      homes b.graph.instrs.size [p] = [v] ∧ p.Fits ∧ after.graph.attrs = tell p.attrs b.graph.attrs)
      fun e after => after = b ∧ e.Misfit [p] := by
  have slot : ∀ mid, b.Adorned p.attrs mid → p.passing.isIndirect = false → p.Fits →
      Ensures (newSlot p.ty.shape none) mid (fun v after => b.Provided (kept [p]) after ∧
        homes b.graph.instrs.size [p] = [v] ∧ p.Fits ∧ after.graph.attrs = tell p.attrs b.graph.attrs)
        fun e after => after = b ∧ e.Misfit [p] := by
    intro mid adorned direct fits
    refine .of_run (newSlot_eq mid _ _) ⟨?_, ?_, fits, ?_⟩
    · simpa [kept, direct] using (Builder.Provided.refl.adorn adorned).slot p.ty.shape none
    · simp [homes, direct, adorned.instrs]
    · rw [mid.graph_withSlot]
      exact adorned.attrs
  unfold setUpParam
  unfold argShapes at inside
  unfold attrs at slot ⊢
  cases passing : p.passing with
  | ignored =>
    rw [passing] at slot
    exact slot b (.refl b) rfl (by rw [Placement.Fits, passing]; rintro _ _ ⟨⟩)
  | indirect =>
    rw [passing] at inside
    refine Ensures.bind (.of_succeeds (addArgAttr_adorns inside _)) fun _ mid adorned =>
      ensures_pure.mpr ⟨?_, ?_, ?_, adorned.attrs⟩
    · simpa [kept, passing, Passing.isIndirect] using Builder.Provided.refl.adorn adorned
    · simp [homes, passing, Passing.isIndirect]
    · rw [Placement.Fits, passing]
      rintro _ _ ⟨⟩
  | direct chunks ext =>
    rw [passing] at inside slot
    have fits : p.Fits ↔ chunks.length = 1 ∨ chunks.length = 2 := by
      rw [Placement.Fits, passing]
      exact ⟨fun fits => fits chunks ext rfl, by rintro few _ _ ⟨⟩; exact few⟩
    dsimp only at inside slot ⊢
    refine Ensures.when (P := fun mid => b = mid ∧ p.Fits) ?_ ?_
    · split
      · next wrong =>
        refine ⟨rfl, _, _, rfl, rfl, p, mem_singleton.mpr rfl, fun right => ?_⟩
        have few := fits.mp right
        omega
      · next right => exact ⟨rfl, fits.mpr (by omega)⟩
    · rintro _ ⟨rfl, few⟩
      cases told : extensionAttr? ext <;> rw [told] at slot
      case none => exact slot b (.refl b) rfl few
      case some attr =>
        refine Ensures.bind (.of_succeeds (forM_adorns (t := fun k => [(p.offset + k, attr)]) _
          fun k hk mid same => addArgAttr_adorns ?_ _)) fun _ mid adorned => slot mid ?_ rfl few
        · have below := mem_range.mp hk
          omega
        · simpa [map_eq_flatMap] using adorned

/-- The operation ends with the storage of all parameters, or of those before one that does not fit. -/
abbrev Outfits (b : Builder) (x : BuildM Unit) (s : Builder) : Prop :=
  Ensures x s (fun _ after => b.Outfitted (b.convention.hidden ++ b.convention.params.flatMap attrs)
    b.convention.params after) fun e after => ∃ done rest, b.convention.params = done ++ rest ∧
      b.Outfitted (b.convention.hidden ++ done.flatMap attrs) done after ∧ e.Misfit b.convention.params

/-- The storage of the parameters is set up one by one. -/
theorem setUpParams_outfits {mid : Builder} (start : b.Outfitted b.convention.hidden [] mid)
    (inside : ∀ p ∈ b.convention.params, p.offset + p.argShapes.length ≤ b.graph.args.size) :
    Outfits b (b.convention.params.forM fun p => do
      let slot ← setUpParam p
      modify fun b => { b with paramSlots := b.paramSlots ++ [slot] }) mid := by
  refine (Ensures.forM (I := fun rest mid => ∃ done, b.convention.params = done ++ rest ∧
    b.Outfitted (b.convention.hidden ++ done.flatMap attrs) done mid) ?_ b.convention.params mid
    ⟨[], rfl, (append_nil b.convention.hidden).symm ▸ start⟩).imp ?_
  · rintro p rest mid ⟨done, split, outfitted⟩
    have mem : p ∈ b.convention.params := split ▸ mem_append_right _ mem_cons_self
    refine Ensures.bind ((setUpParam_provides mid ?_).mono (fun _ _ h => h) ?_) ?_
    · obtain ⟨m, provided, rfl⟩ := outfitted.provided
      exact provided.frame.2.2.symm ▸ inside p mem
    · rintro _ _ ⟨rfl, err, n, eq, cause, q, hq, unfit⟩
      cases mem_singleton.mp hq
      exact ⟨done, _, split, outfitted, err, n, eq, cause, p, mem, unfit⟩
    · rintro v after ⟨provided, home, fits, attrs⟩
      refine ensures_modify.mpr ⟨done ++ [p], by rw [split]; simp, ?_⟩
      simpa [append_assoc] using outfitted.next provided home fits attrs
  · rintro _ after ⟨done, split, outfitted⟩
    rw [append_nil] at split
    exact split ▸ outfitted

/-- A hidden argument is described before any storage is set up. -/
theorem setUpHidden_outfits {mid : Builder} {n : Nat} (inside : n < b.graph.args.size) (tag : String) (attr : ArgAttr)
    {rest : BuildM Unit} {l : List (Nat × ArgAttr)} (start : b.Outfitted l [] mid)
    (later : ∀ mid, b.Outfitted (l ++ [(n, attr)]) [] mid → Outfits b rest mid) :
    Outfits b (do
      let name ← fresh tag
      onGraph (·.nameArg n name)
      onGraph (·.addArgAttr n attr)
      rest) mid := by
  have inside : ∀ {l : List (Nat × ArgAttr)} {mid : Builder}, b.Outfitted l [] mid → n < mid.graph.args.size := by
    rintro _ _ ⟨⟨m, provided, rfl⟩, -⟩
    exact provided.frame.2.2.symm ▸ inside
  refine Ensures.bind (.of_succeeds (fresh_adorns mid tag)) fun name mid k => ?_
  have start := start.adorned k
  refine Ensures.bind (.of_succeeds (nameArg_adorns (inside start) name)) fun _ mid k => ?_
  have start := start.adorned k
  refine Ensures.bind (.of_succeeds (addArgAttr_adorns (inside start) attr)) fun _ mid k => later mid ?_
  simpa using start.adorned k

/-- The arguments are set up once. -/
theorem setUpArgs_of_ready (ready : b.argsReady = true) : setUpArgs b = .ok () b := by
  unfold setUpArgs
  rw [get_bind_apply, if_pos ready]
  rfl

theorem setUpArgs_outfits (unready : b.argsReady = false) (chain : b.convention.chainIndex < b.graph.args.size)
    (inside : ∀ p ∈ b.convention.params, p.offset + p.argShapes.length ≤ b.graph.args.size) : Outfits b
    setUpArgs b := by
  unfold setUpArgs
  refine .get ?_
  rw [if_neg (by rw [unready]; exact Bool.false_ne_true)]
  refine .modify (.get ?_)
  have start : b.Outfitted [] [] { b with argsReady := true } :=
    ⟨⟨b, .refl, by rw [homes, append_nil]⟩, by rintro _ ⟨⟩, rfl⟩
  have hidden : b.convention.hidden = b.convention.resultPointer?.toList.map
    (·, .sret) ++ [(b.convention.chainIndex, .nest)] :=
    rfl
  dsimp only
  cases found : b.convention.resultPointer? with
  | some index =>
    rw [found] at hidden
    have first : index < b.graph.args.size := by
      unfold Convention.resultPointer? at found
      split at found <;> cases found
      exact Nat.lt_of_le_of_lt (Nat.zero_le _) chain
    exact setUpHidden_outfits first _ _ start fun _ start => setUpHidden_outfits chain _ _ start fun _ start =>
      setUpParams_outfits (hidden ▸ start) inside
  | none =>
    rw [found] at hidden
    exact setUpHidden_outfits chain _ _ start fun _ start => setUpParams_outfits (hidden ▸ start) inside

end Build

/-! ### Instructions that fill slots -/

def Halt.IsFault (e : Halt BuildError) : Prop := ∃ f, e = .fault f

/-- What an instruction of the graph is, its name apart. -/
def Graph.Does (g : Graph) (i : InstrId) (op : Op) (shape : Shape) : Prop :=
  ∃ name, g.instrs[i.index]? = some ⟨op, shape, name⟩

variable {op : Op}

theorem Graph.Does.op? {g : Graph} {i : InstrId} {shape : Shape} (h : g.Does i op shape) : g.op? i = some op := by
  obtain ⟨name, found⟩ := h
  rw [Graph.op?, found]
  rfl

theorem Graph.Does.kept {g : Graph} {i : InstrId} {shape : Shape} (h : g.Does i op shape)
    (yields : op.yields = true) : g.Kept i := ⟨op, h.op?, yields⟩

inductive Graph.Spills (g : Graph) (p : Placement) (slot : Operand) : List InstrId → Prop where
  | nothing (passing : p.passing.isDirect = false) : Spills g p slot []
  | whole {ext : Extension} {s : InstrId} (passing : p.passing = .direct [p.ty.shape] ext)
      (store : g.Does s (.store (.arg p.offset) slot) .void) : Spills g p slot [s]
  | single {chunk : Shape} {ext : Extension} {k s : InstrId} (passing : p.passing = .direct [chunk] ext)
      (other : chunk ≠ p.ty.shape) (cast : g.Does k (.cast .bitcast slot (.ptr chunk)) (.ptr chunk))
      (store : g.Does s (.store (.arg p.offset) (.result k)) .void) : Spills g p slot [k, s]
  | double {first second : Shape} {ext : Extension} {k f₀ s₀ f₁ s₁ : InstrId}
      (passing : p.passing = .direct [first, second] ext)
      (cast : g.Does k (.cast .bitcast slot (.ptr p.regShape)) (.ptr p.regShape))
      (field₀ : g.Does f₀ (.fieldAddr (.result k) 0) (.ptr first))
      (store₀ : g.Does s₀ (.store (.arg p.offset) (.result f₀)) .void)
      (field₁ : g.Does f₁ (.fieldAddr (.result k) 1) (.ptr second))
      (store₁ : g.Does s₁ (.store (.arg (p.offset + 1)) (.result f₁)) .void) :
      Spills g p slot [k, f₀, s₀, f₁, s₁]

/-- The instructions put parameters into their slots, one after the other. -/
def Graph.SpillsAll (g : Graph) : List Placement → List Operand → List InstrId → Prop
  | p :: ps, slot :: slots, is => ∃ here rest, is = here ++ rest ∧ g.Spills p slot here ∧
      g.SpillsAll ps slots rest
  | _, _, is => is = []

def Op.stored? : Op → Option Operand
  | .store value _ => some value
  | _ => none

/-- The values that instructions store, one after the other. -/
def Graph.stored (g : Graph) (is : List InstrId) : List Operand := (is.map g.op?).filterMap (·.bind Op.stored?)

section Mono

variable {g after : Graph} (does : ∀ i op shape, g.Does i op shape → after.Does i op shape)
include does

theorem Graph.Spills.mono {p : Placement} {slot : Operand} {is : List InstrId} (h : g.Spills p slot is) :
    after.Spills p slot is := by
  cases h with
  | nothing passing => exact .nothing passing
  | whole passing store => exact .whole passing (does _ _ _ store)
  | single passing other cast store => exact .single passing other (does _ _ _ cast) (does _ _ _ store)
  | double passing cast field₀ store₀ field₁ store₁ =>
    exact .double passing (does _ _ _ cast) (does _ _ _ field₀) (does _ _ _ store₀) (does _ _ _ field₁)
      (does _ _ _ store₁)

theorem Graph.SpillsAll.mono : ∀ {ps : List Placement} {slots : List Operand} {is : List InstrId},
    g.SpillsAll ps slots is → after.SpillsAll ps slots is
  | _ :: _, _ :: _, _, ⟨here, rest, eq, spills, all⟩ => ⟨here, rest, eq, spills.mono does, all.mono⟩
  | [], _, _, h => by
    unfold SpillsAll at h ⊢
    exact h
  | _ :: _, [], _, h => h

end Mono

/-- The operation computes an address from storage for which `base` holds, or puts an argument there. -/
inductive Op.Fills (base : Operand → Prop) : Op → Prop where
  | cast {ptr : Operand} (dst : Shape) (there : base ptr) : Op.Fills base (.cast .bitcast ptr dst)
  | field {ptr : Operand} (index : Nat) (there : base ptr) : Op.Fills base (.fieldAddr ptr index)
  | store (n : Nat) {ptr : Operand} (there : base ptr) : Op.Fills base (.store (.arg n) ptr)

theorem Op.Fills.mono {base base' : Operand → Prop} (h : op.Fills base) (sub : ∀ v, base v → base' v) :
    op.Fills base' := by
  cases h with
  | cast dst there => exact .cast dst (sub _ there)
  | field index there => exact .field index (sub _ there)
  | store n there => exact .store n (sub _ there)

variable {base : Operand → Prop}

theorem Op.Fills.inner (h : op.Fills base) : op.isTerminator = false ∧ op.isLandingPad = false := by
  cases h <;> exact ⟨rfl, rfl⟩

theorem Op.Fills.isAlloca (h : op.Fills base) : op.isAlloca = false := by
  cases h <;> rfl

theorem Op.Fills.result_mem (h : op.Fills base) {j : InstrId} (mem : .result j ∈ op.operands) : base (.result j) := by
  cases h with
  | cast dst there | field index there => exact mem_singleton.mp mem ▸ there
  | store n there =>
    rcases mem_cons.mp mem with eq | mem
    · cases eq
    · exact mem_singleton.mp mem ▸ there

def Builder.holdings (b : Builder) : List Variable := b.vars.toList.map ({ · with initializer := none })

theorem Builder.getElem?_holdings (b : Builder) (n : Nat) :
    b.holdings[n]? = b.vars[n]?.map ({ · with initializer := none }) := by
  simp [holdings]

theorem Builder.holdings_modify (b : Builder) (v : VarId) (f : Variable → Option InstrId) :
    ({ b with vars := b.vars.modify v.index fun x => { x with initializer := f x } } : Builder).holdings =
      b.holdings := by
  refine ext_getElem? fun n => ?_
  rw [getElem?_holdings, getElem?_holdings, Array.getElem?_modify]
  split
  · rw [Option.map_map]
    rfl
  · rfl

theorem Builder.roots_eq (b : Builder) :
    b.roots = b.holdings.map (·.slot) ++ b.paramSlots ++ b.returnSlot.toList := by
  rw [roots, holdings, map_map]
  rfl

/-- Instructions that fill storage have been made, and no block lists them yet. They use storage for which `base`
holds, and each other's results. -/
structure Builder.Spilled (base : Operand → Prop) (b after : Builder) (is : List InstrId) : Prop where
  same : ∃ instrs names vars, after = { b with graph := { b.graph with instrs }, names, vars }
  names : b.names.Before after.names
  holdings : after.holdings = b.holdings
  grows : b.graph.instrs.size ≤ after.graph.instrs.size
  mem : ∀ i, i ∈ is ↔ b.graph.instrs.size ≤ i.index ∧ i.index < after.graph.instrs.size
  sorted : is.Pairwise fun i j => i.index < j.index
  old : ∀ n : Nat, n < b.graph.instrs.size → after.graph.instrs[n]? = b.graph.instrs[n]?
  new : ∀ i ∈ is, ∃ op, after.graph.op? i = some op ∧ op.Fills fun v =>
    base v ∨ ∃ j ∈ is, v = .result j ∧ j.index < i.index ∧ after.graph.Kept j

namespace Builder.Spilled

variable {base base' : Operand → Prop} {b mid after : Builder} {is js : List InstrId}

theorem refl (b : Builder) : b.Spilled base b [] where
  same := ⟨_, _, _, rfl⟩
  names := .refl _
  holdings := rfl
  grows := Nat.le_refl _
  mem := fun i => by simp
  sorted := .nil
  old := fun _ _ => rfl
  new := by rintro _ ⟨⟩

section

variable (h : b.Spilled base after is)

include h

theorem op?_old {i : InstrId} (old : i.index < b.graph.instrs.size) : after.graph.op? i = b.graph.op? i :=
  congrArg (Option.map Instr.op) (h.old i.index old)

theorem does {i : InstrId} {op : Op} {shape : Shape} (k : b.graph.Does i op shape) : after.graph.Does i op shape :=
  k.imp fun _ found => (h.old _ (Array.getElem?_eq_some_iff.mp found).1).trans found

theorem kept {j : InstrId} (k : b.graph.Kept j) : after.graph.Kept j := by
  obtain ⟨op, found, yields⟩ := k
  exact ⟨op, (h.op?_old (Graph.index_lt_of_op? found)).trans found, yields⟩

end

/-- What is made behind other instructions can use their results. -/
theorem trans (h : b.Spilled base mid is) (k : mid.Spilled base' after js)
    (sub : ∀ v, base' v → base v ∨ ∃ j ∈ is, v = .result j ∧ mid.graph.Kept j) : b.Spilled base after (is ++ js) where
  same := by
    obtain ⟨_, _, _, rfl⟩ := h.same
    obtain ⟨_, _, _, rfl⟩ := k.same
    exact ⟨_, _, _, rfl⟩
  names := h.names.trans k.names
  holdings := k.holdings.trans h.holdings
  grows := Nat.le_trans h.grows k.grows
  mem := fun i => by
    have first := h.grows
    have second := k.grows
    rw [mem_append, h.mem, k.mem]
    omega
  sorted := pairwise_append.mpr ⟨h.sorted, k.sorted, fun i hi j hj =>
    Nat.lt_of_lt_of_le ((h.mem i).mp hi).2 ((k.mem j).mp hj).1⟩
  old := fun n below => (k.old n (Nat.lt_of_lt_of_le below h.grows)).trans (h.old n below)
  new := fun i hi => by
    rcases mem_append.mp hi with first | second
    · obtain ⟨op, found, fills⟩ := h.new i first
      refine ⟨op, (k.op?_old ((h.mem i).mp first).2).trans found, fills.mono fun v there => there.imp id ?_⟩
      exact fun ⟨j, hj, eq, before, kept⟩ => ⟨j, mem_append_left _ hj, eq, before, k.kept kept⟩
    · obtain ⟨op, found, fills⟩ := k.new i second
      refine ⟨op, found, fills.mono fun v there => ?_⟩
      rcases there with there | ⟨j, hj, eq, before, kept⟩
      · refine (sub v there).imp id fun ⟨j, hj, eq, kept⟩ => ⟨j, mem_append_left _ hj, eq, ?_, k.kept kept⟩
        exact Nat.lt_of_lt_of_le ((h.mem j).mp hj).2 ((k.mem i).mp second).1
      · exact .inr ⟨j, mem_append_right _ hj, eq, before, kept⟩

theorem mono (h : b.Spilled base after is) (sub : ∀ v, base v → base' v) : b.Spilled base' after is :=
  (refl b).trans h fun v there => .inl (sub v there)

/-- What uses the result of one instruction can stand behind it. -/
theorem through {i : InstrId} (h : b.Spilled base mid [i]) (kept : mid.graph.Kept i)
    (k : mid.Spilled (· = .result i) after js) : b.Spilled base after (i :: js) :=
  h.trans k fun _ eq => .inr ⟨i, mem_cons_self, eq, kept⟩

/-- Names, and when variables are set, may change. -/
theorem note (h : b.Spilled base mid is) {names : NameSupply} {vars : Array Variable}
    (later : mid.names.Before names) (holdings : ({ mid with vars } : Builder).holdings = mid.holdings) :
    b.Spilled base { mid with names, vars } is := by
  obtain ⟨⟨_, _, _, rfl⟩, before, same, grows, mem, sorted, old, new⟩ := h
  exact ⟨⟨_, _, _, rfl⟩, before.trans later, holdings.trans same, grows, mem, sorted, old, new⟩

variable (h : b.Spilled base after is)

include h

theorem graph_extends : b.graph.Extends after.graph := by
  have old := h.old
  obtain ⟨instrs, names, vars, rfl⟩ := h.same
  exact
    { Graph.Extends.refl b.graph with
      instr := fun i instr found =>
        ⟨instr, (old i (Array.getElem?_eq_some_iff.mp found).1).trans found, .refl _, rfl⟩ }

/-- No slot is made. -/
theorem slot_of_slot {j : InstrId} (slot : after.graph.Slot j) : b.graph.Slot j := by
  obtain ⟨op, found, isSlot⟩ := slot
  by_cases old : j.index < b.graph.instrs.size
  · exact ⟨op, (h.op?_old old).symm.trans found, isSlot⟩
  · obtain ⟨op', found', fills⟩ := h.new j ((h.mem j).mpr ⟨Nat.le_of_not_lt old, Graph.index_lt_of_op? found⟩)
    cases found.symm.trans found'
    rw [fills.isAlloca] at isSlot
    cases isSlot

/-- What an instruction uses comes before it. -/
theorem uses {n : Nat} {i j : InstrId} {op : Op} (hi : is[n]? = some i)
    (hop : after.graph.op? i = some op) (hj : .result j ∈ op.operands) :
    base (.result j) ∨ (j ∈ is.take n ∧ after.graph.Kept j) := by
  obtain ⟨op', found, fills⟩ := h.new i (List.mem_of_getElem? hi)
  cases hop.symm.trans found
  rcases fills.result_mem hj with there | ⟨k, hk, eq, before, kept⟩
  · exact .inl there
  · cases eq
    refine .inr ⟨?_, kept⟩
    obtain ⟨m, hm⟩ := List.getElem?_of_mem hk
    obtain ⟨below, rfl⟩ := List.getElem?_eq_some_iff.mp hm
    obtain ⟨inside, rfl⟩ := List.getElem?_eq_some_iff.mp hi
    refine List.mem_take_iff_getElem.mpr ⟨m, ?_, rfl⟩
    refine Nat.lt_min.mpr ⟨Nat.lt_of_not_le fun late => ?_, below⟩
    rcases Nat.lt_or_eq_of_le late with later | same
    · exact Nat.lt_asymm before (List.pairwise_iff_getElem.mp h.sorted _ _ inside below later)
    · subst same
      exact Nat.lt_irrefl _ before

end Builder.Spilled

namespace Build

variable {b : Builder}

theorem newInstr_spills (b : Builder) {base : Operand → Prop} (instr : Instr) (fills : instr.op.Fills base) :
    Succeeds (newInstr instr) b fun i after => b.Spilled base after [i] ∧ after.graph.Does i instr.op instr.shape := by
  have size : (b.graph.newInstr instr).2.instrs.size = b.graph.instrs.size + 1 := Array.size_push ..
  refine .of_run (a := ⟨b.graph.instrs.size⟩) rfl ⟨⟨⟨_, _, _, rfl⟩, .refl _, rfl, ?_, fun i =>
    ?_, pairwise_singleton _ _,
    fun n below => ?_, fun i hi => ?_⟩, instr.name, by simp⟩
  · exact Nat.le_of_lt (size ▸ Nat.lt_succ_self _)
  · show _ ↔ _ ∧ i.index < (b.graph.newInstr instr).2.instrs.size
    rw [mem_singleton, size]
    constructor
    · rintro rfl
      exact ⟨Nat.le_refl _, Nat.lt_succ_self _⟩
    · exact fun range => congrArg InstrId.mk (Nat.le_antisymm (Nat.le_of_lt_succ range.2) range.1)
  · exact (Array.getElem?_push_lt below).trans (Array.getElem?_eq_getElem below).symm
  · cases mem_singleton.mp hi
    exact ⟨instr.op, (Graph.op?_newInstr instr).trans (if_pos rfl), fills.mono fun _ => .inl⟩

theorem fresh_spills (b : Builder) (tag : String) (base : Operand → Prop) :
    Succeeds (fresh tag) b fun _ after => b.Spilled base after [] := (Builder.Spilled.refl b).note (.fresh _ tag) rfl

theorem newCast_spills (b : Builder) (ptr : Operand) (dst : Shape) : Succeeds (newCast ptr dst) b fun i after =>
    b.Spilled (· = ptr) after [i] ∧ after.graph.Does i (.cast .bitcast ptr dst) dst := by
  refine (fresh_spills b _ (· = ptr)).bind fun name mid first => ?_
  have fills : (Op.cast .bitcast ptr dst).Fills (· = ptr) := .cast dst rfl
  exact (newInstr_spills mid ⟨_, dst, name⟩ fills).imp fun _ _ h => ⟨first.trans h.1 fun _ => .inl, h.2⟩

theorem newStore_spills (b : Builder) (n : Nat) (ptr : Operand) : Succeeds (newStore (.arg n) ptr) b fun i after =>
    b.Spilled (· = ptr) after [i] ∧ after.graph.Does i (.store (.arg n) ptr) .void :=
  newInstr_spills b _ (.store n rfl)

/-- Putting one chunk into its field. -/
theorem spillChunk_spills (b : Builder) (base : Operand) (offset index : Nat) (chunk : Shape) :
    Succeeds (spillChunk base offset index chunk) b fun is after => b.Spilled (· = base) after is ∧
      ∃ f s, is = [f, s] ∧ after.graph.Does f (.fieldAddr base index) (.ptr chunk) ∧
        after.graph.Does s (.store (.arg (offset + index)) (.result f)) .void := by
  refine (fresh_spills b _ (· = base)).bind fun name mid named => ?_
  have fills : (Op.fieldAddr base index).Fills (· = base) := .field index rfl
  refine (newInstr_spills mid ⟨_, .ptr chunk, name⟩ fills).bind fun f mid ⟨first, field⟩ => ?_
  refine (newStore_spills mid _ _).bind fun s after ⟨second, store⟩ => ?_
  exact ⟨named.trans (first.through (field.kept rfl) second) fun _ => .inl, f, s, rfl, second.does field, store⟩

/-- Putting a parameter into its slot, if it has come in one or two chunks. -/
theorem spillParam_spills (b : Builder) {p : Placement} (slot : Operand) (fits : p.Fits) :
    Succeeds (spillParam p slot) b fun is after => b.Spilled (· = slot) after is ∧ after.graph.Spills p slot is := by
  unfold spillParam
  split
  · next chunk ext passing =>
    split
    · next same =>
      subst same
      exact (newStore_spills b _ _).bind fun s after ⟨spilled, store⟩ => ⟨spilled, .whole passing store⟩
    · next other =>
      refine (newCast_spills b _ _).bind fun k mid ⟨first, cast⟩ => ?_
      refine (newStore_spills mid _ _).bind fun s after ⟨second, store⟩ => ?_
      exact ⟨first.through (cast.kept rfl) second, .single passing other (second.does cast) store⟩
  · next low high ext passing =>
    refine (newCast_spills b _ _).bind fun k mid ⟨first, cast⟩ => ?_
    refine (spillChunk_spills mid _ _ _ _).bind ?_
    rintro _ mid' ⟨second, f₀, s₀, rfl, field₀, store₀⟩
    refine (spillChunk_spills mid' _ _ _ _).bind ?_
    rintro _ after ⟨third, f₁, s₁, rfl, field₁, store₁⟩
    exact ⟨first.through (cast.kept rfl) (second.trans third fun _ => .inl), .double passing
      (third.does (second.does cast)) (third.does field₀) (third.does store₀) field₁ store₁⟩
  · next chunks ext one two passing =>
    have count := fits _ _ passing
    rcases chunks with _ | ⟨first, _ | ⟨second, _ | ⟨third, rest⟩⟩⟩
    · simp at count
    · exact absurd rfl (one first)
    · exact absurd rfl (two first second)
    · simp at count
  · next none =>
    refine ⟨.refl b, .nothing ?_⟩
    cases passing : p.passing with
    | direct cs ext => exact (none cs ext passing).elim
    | _ => rfl

/-- Only storage that is missing can be in the way. -/
theorem spillParamAt_spills (b : Builder) {index : Nat} {p : Placement} (fits : index < b.paramSlots.length → p.Fits) :
    Ensures (spillParamAt index p) b (fun is after => b.Spilled (· ∈ b.paramSlots) after is ∧
      ∀ slot, b.paramSlots[index]? = some slot → after.graph.Spills p slot is)
      fun e _ => e.IsFault ∧ b.paramSlots.length ≤ index := by
  unfold spillParamAt
  split
  · next indirect => exact ⟨.refl b, fun _ _ => .nothing (by simpa using indirect)⟩
  · refine .get (ensures_bind.mpr (ensures_checked.mpr ⟨fun slot run => ?_, fun f run => ?_⟩))
    · have found := require_eq_ok_iff.mp run
      have here : ∀ v, v = slot → v ∈ b.paramSlots := by
        rintro _ rfl
        exact mem_of_getElem? found
      have only : ∀ {g : Graph} {is}, g.Spills p slot is →
          ∀ other, b.paramSlots[index]? = some other → g.Spills p other is := fun spills other found' => by
        cases found.symm.trans found'
        exact spills
      refine Ensures.bind (.of_succeeds (spillParam_spills b slot (fits (List.getElem?_eq_some_iff.mp found).1)))
        fun is mid ⟨spilled, spills⟩ => ?_
      refine .get ?_
      dsimp only
      split
      · exact ⟨(spilled.mono here).note (.refl _) (mid.holdings_modify _ _), only spills⟩
      · exact ⟨spilled.mono here, only spills⟩
    · refine ⟨⟨f, rfl⟩, getElem?_eq_none_iff.mp ?_⟩
      cases found : b.paramSlots[index]? with
      | none => rfl
      | some slot => rw [found] at run; cases run

/-- The arguments of the parameters from `index` on are stored in their slots. -/
theorem spillParams_spills : ∀ (ps : List Placement) (b : Builder) (index : Nat),
    (∀ k p, ps[k]? = some p → index + k < b.paramSlots.length → p.Fits) →
    Ensures (spillParams index ps) b (fun is after => b.Spilled (· ∈ b.paramSlots) after is ∧
      (index + ps.length ≤ b.paramSlots.length → after.graph.SpillsAll ps (b.paramSlots.drop index) is))
      fun e _ => e.IsFault ∧ b.paramSlots.length < index + ps.length
  | [], b, index, _ => ⟨.refl b, fun _ => by unfold Graph.SpillsAll; rfl⟩
  | p :: ps, b, index, fits => by
    unfold spillParams
    refine Ensures.bind ((spillParamAt_spills b (fits 0 p rfl)).mono (fun _ _ h => h) fun _ _ he => ⟨he.1, ?_⟩)
      fun here mid ⟨first, spills⟩ => ?_
    · rw [length_cons]
      omega
    have slots : mid.paramSlots = b.paramSlots := by
      obtain ⟨_, _, _, rfl⟩ := first.same
      rfl
    refine Ensures.bind ((spillParams_spills ps mid (index + 1) fun k q found => ?_).mono (fun _ _ h => h)
      fun _ _ he => ⟨he.1, ?_⟩) fun rest after ⟨second, all⟩ => ⟨?_, fun enough => ?_⟩
    · rw [slots, Nat.add_right_comm, Nat.add_assoc]
      exact fits (k + 1) q found
    · rw [slots] at he
      rw [length_cons]
      omega
    · rw [slots] at second
      exact first.trans second fun _ => .inl
    · rw [length_cons] at enough
      rw [slots] at all
      have below : index < b.paramSlots.length := by omega
      rw [drop_eq_getElem_cons below]
      exact ⟨here, rest, rfl, (spills _ (getElem?_eq_getElem below)).mono fun _ _ _ => second.does, all (by omega)⟩

/-- Putting the closure environment into its variable. -/
theorem spillEnv_spills (b : Builder) (v : VarId) (slot : Operand) (ty : Ty) :
    Succeeds (spillEnv v slot ty) b fun is after => b.Spilled (· = slot) after is ∧
      ∀ u ∈ after.graph.stored is, u = .arg b.convention.chainIndex := by
  refine .get ?_
  dsimp only
  split
  · refine (newStore_spills b _ _).bind fun s mid ⟨spilled, store⟩ =>
      ⟨spilled.note (.refl _) (mid.holdings_modify _ _), ?_⟩
    simp [Graph.stored, store.op?, Op.stored?]
  · refine (newCast_spills b _ _).bind fun k mid ⟨first, cast⟩ => ?_
    refine (newStore_spills mid _ _).bind fun s after ⟨second, store⟩ =>
      ⟨(first.through (cast.kept rfl) second).note (.refl _) (after.holdings_modify _ _), ?_⟩
    simp [Graph.stored, (second.does cast).op?, store.op?, Op.stored?]

end Build

end FlowIR

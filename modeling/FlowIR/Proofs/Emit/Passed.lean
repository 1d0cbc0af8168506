import FlowIR.Proofs.Emit.Compile
import FlowIR.Proofs.Emit.Listed
import FlowIR.Proofs.Machine.Passed

/-!
Passing parameters in registers loses nothing.

A complete function, whatever its body, starts with its slots and with the instructions that put the parameters
into them. If the struct of the chunks of every parameter is straight, a run comes through them, and then the slot
of each parameter that travels in registers holds the scalars of the value that was passed
(`Session.compiled_params_arrive`).
-/

namespace FlowIR

open Machine Placement List

/-! ### Functions with any body -/

namespace Builder

variable {b after : Builder} {ops : List Entry}

/-- A step behind the prolog keeps the slots, and those it makes are late ones. -/
theorem Step.stores (h : b.Step ops after) (placed : b.prologPlaced = true) :
    b.Stores after ∧ ∀ i, b.graph.Slot i → after.graph.Slot i := by
  refine ⟨?_, fun i slot => (h.retains.slot slot.index_lt).mpr slot⟩
  have retains := h.retains
  cases h with
  | note code =>
    simp only [Builder.code, Prod.mk.injEq] at code
    obtain ⟨graph, -, -, late, -⟩ := code
    exact .of_same late fun i slot => graph ▸ slot
  | revise revises => exact .of_same rfl fun i slot => (retains.slot (revises.size ▸ slot.index_lt)).mp slot
  | block name => exact .of_same rfl fun _ slot => slot
  | attach x =>
    exact .of_same rfl fun i slot => (retains.slot (Graph.instrs_attach (g := b.graph) ▸ slot.index_lt)).mp slot
  | @emit x instr g laid plain run =>
    refine .of_same rfl ?_
    rintro i ⟨op, hop, slot⟩
    rw [Graph.op?_of_updateBlock run, Graph.op?_newInstr] at hop
    split at hop
    · cases hop
      rw [plain] at slot
      cases slot
    · exact ⟨op, hop, slot⟩
  | @slot instr isSlot =>
    have late : b.withSlot instr = { b with
        graph := (b.graph.newInstr instr).2
        lateSlots := b.lateSlots ++ [⟨b.graph.instrs.size⟩] } := if_pos placed
    rw [late]
    refine ⟨[⟨b.graph.instrs.size⟩], rfl, by simp, fun i hi => ?_, ?_⟩
    · cases mem_singleton.mp hi
      exact ⟨Nat.le_refl _, instr.op, by rw [Graph.op?_newInstr, if_pos rfl], isSlot⟩
    · rintro i ⟨op, hop, slot⟩
      rw [Graph.op?_newInstr] at hop
      split at hop
      · next same => exact .inr (mem_singleton.mpr (by cases i; cases same; rfl))
      · exact .inl ⟨op, hop, slot⟩

/-- Once the prolog has been placed, new slots wait to be put in front of it. -/
theorem Path.stores (h : b.Path ops after) (placed : b.prologPlaced = true) : b.Stores after := by
  have all : b.Stores after ∧ b.graph.instrs.size ≤ after.graph.instrs.size ∧ after.prologPlaced = true := by
    refine h.keeps (I := fun mid => b.Stores mid ∧ b.graph.instrs.size ≤ mid.graph.instrs.size ∧
      mid.prologPlaced = true) ?_ ⟨.of_same rfl fun _ slot => slot, Nat.le_refl _, placed⟩
    rintro mid ops next step ⟨stores, le, placed⟩
    obtain ⟨more, keeps⟩ := step.stores placed
    exact ⟨stores.trans more keeps le, Nat.le_trans le step.retains.size_le, step.terms.2.1.trans placed⟩
  exact all.1

end Builder

/-- Finishing a function, whatever has become of its labels. -/
theorem Build.finish_completes {b : Builder} {su : Supply} (h : b.Sound (fun _ => False) su)
    (placed : b.prologPlaced = true) : Ensures finish b (fun g _ => ∃ last : Builder, b.Extends last ∧ b.Stores last ∧
      last.Completes g) fun _ _ => True := by
  refine ensures_finish (P := fun mid => b.Extends mid ∧ b.Hushed mid ∧ mid.Closing su mid.labels.dangling)
    (R := fun mid => b.Extends mid ∧ b.Hushed mid ∧ mid.Closing su []) placed ?_ ?_ (fun _ _ _ _ _ => trivial) ?_
  · refine ((closeBlocks_succeeds h placed).and closeBlocks_hushes).mono ?_ fun _ _ _ => trivial
    rintro - mid ⟨⟨closes, sound, ends⟩, hushed⟩
    obtain ⟨g, rfl⟩ := closes.same
    exact ⟨.of_graph closes.grows rfl, hushed, sound.closing placed ends⟩
  · rintro mid ⟨grows, hushed, closing⟩
    refine ((closeLabels_ensures _ mid closing).and (Hushes.forM (P := fun _ _ => True)
      (fun _ _ _ _ _ => trivial) (fun l _ _ => closeLabel_hushes l) _ mid fun _ _ => trivial)).mono ?_
      fun _ _ _ => trivial
    rintro - after ⟨⟨closing', more⟩, hushed'⟩
    exact ⟨grows.trans more, hushed.trans hushed', closing'⟩
  · rintro mid ⟨grows, ⟨ops, path, -⟩, closing⟩
    refine (conclude_ensures mid).mono ?_ fun _ _ _ => trivial
    rintro g - ⟨dests, armed, last, seals, -⟩
    exact ⟨mid, grows, path.stores placed, seals.completes closing.wired.formed.entry_first
      (.refl _) rfl rfl fun _ slot => slot⟩

/-- Slots that waited are slots of the complete function. -/
theorem Builder.Completes.slot_of_late {b last : Builder} {g : Graph} (h : last.Completes g) (stores : b.Stores last)
    (none : b.lateSlots = []) {i : InstrId} (hi : i ∈ last.lateSlots) : g.Slot i := by
  obtain ⟨new, late, -, made, -⟩ := stores
  rw [late, none, nil_append] at hi
  obtain ⟨op, hop, slot⟩ := (made i hi).2
  obtain ⟨shape, rfl⟩ := Op.exists_of_isAlloca slot
  exact ⟨_, h.becomes.alloca hop, rfl⟩

variable {s : Session} {name : String} {signature : Signature} {h : Header} {start b : Builder}
  {spills : List InstrId} {body : Stmt} {g : Graph}

/-- A complete function has grown from its body, and that from its prolog. -/
theorem Session.Prepares.exists_completes (p : s.Prepares signature h start b spills) {c : Cursor}
    (run : Emit.stmt body b.cursor = .ok () c) {after : Builder} (finished : Build.finish c.builder = .ok g after) :
    ∃ last : Builder, b.Extends c.builder ∧ c.builder.Extends last ∧ b.Stores last ∧ last.Completes g := by
  obtain ⟨_, first⟩ := p.sound_cursor
  obtain ⟨_, sound, grows⟩ := p.sound_of_ok run
  obtain ⟨-, -, ops, path, -⟩ := (Emit.stmt_counts (i := true) body first first.current).of_ok run
  obtain ⟨last, more, stores, completes⟩ :=
    (Build.finish_completes sound.builder (grows.placed.trans p.opened.placed)).of_ok finished
  refine ⟨last, grows, more, ?_, completes⟩
  exact (path.stores p.opened.placed).trans stores (fun _ slot => more.graph.slot slot) path.size_le

/-! ### Parameters -/

/-- The slot of a parameter that does not stay in the caller's memory. -/
theorem Session.Prepares.param_slot (p : s.Prepares signature h start b spills) {k : Nat} {q : Placement}
    (found : start.convention.params[k]? = some q) (kept : q.passing.isIndirect = false) :
    ∃ i x, (homes 0 start.convention.params)[k]? = some (.result i) ∧
      b.graph.Does i (.alloca q.ty.shape) (.ptr q.ty.shape) ∧ b.var? ⟨k⟩ = some x ∧ x.slot = .result i := by
  rcases getElem?_homes found with ⟨indirect, -⟩ | ⟨-, i, home, shape⟩
  · rw [kept] at indirect
    cases indirect
  have below : k < h.params.length := by
    have types := congrArg length p.placed.types
    rw [length_map, length_map] at types
    exact types ▸ (List.getElem?_eq_some_iff.mp found).1
  have var : (h.vars start.convention)[k]? = some (h.params[k].param (.result ⟨0 + i⟩)) := by
    have param : (zipWith Decl.param h.params (homes 0 start.convention.params))[k]? =
        some (h.params[k].param (.result ⟨0 + i⟩)) := by
      rw [getElem?_zipWith, getElem?_eq_getElem below, home]
    unfold Header.vars
    rw [List.getElem?_append_left (List.getElem?_eq_some_iff.mp param).1, param]
  obtain ⟨x, hx, slot, -⟩ := p.opened.vars k _ var
  refine ⟨⟨0 + i⟩, x, home, p.opened.slots (0 + i) q.ty.shape ?_, hx, slot⟩
  rw [Nat.zero_add, List.getElem?_append_left (List.getElem?_eq_some_iff.mp shape).1, shape]

/-- The images of the parameters that travel in registers have been passed. -/
def Convention.Passes (c : Convention) (args : Array Bytes) (images : Nat → Bytes) : Prop :=
  ∀ k p, c.params[k]? = some p → p.passing.isDirect = true →
    p.ty.size? = some (images k).size ∧ p.Passes args (images k)

instance (c : Convention) (args : Array Bytes) (images : Nat → Bytes) : Decidable (c.Passes args images) :=
  decidable_of_iff (∀ q ∈ c.params.zipIdx, q.1.passing.isDirect = true →
    q.1.ty.size? = some (images q.2).size ∧ q.1.Passes args (images q.2))
    ⟨fun h k p found => h (p, k) (mem_zipIdx_iff_getElem?.mpr found),
      fun h q hq => h q.2 q.1 (mem_zipIdx_iff_getElem?.mp hq)⟩

/-- The variables of the parameters that travel in registers hold the scalars of the images. -/
def Builder.Holds (b : Builder) (args : Array Bytes) (images : Nat → Bytes) (m : Machine) : Prop :=
  ∀ k p, b.convention.params[k]? = some p → p.passing.isDirect = true →
    ∃ x ptr, b.var? ⟨k⟩ = some x ∧ m.evalWord args x.slot = .ok ptr ∧
      ∀ ls l n, p.ty.leaves? = some ls → l ∈ ls → l.shape.size? = some n →
        m.memory.read (ptr + l.offset) n = .ok ((images k).slice l.offset n)

theorem Machine.sizeOf_eq {shape : Shape} {n size : Nat} (sized : shape.size? = some n)
    (run : Machine.sizeOf shape = .ok size) : size = n := by
  unfold Machine.sizeOf at run
  rw [sized] at run
  have fitted : fitting n = .ok size := run
  unfold fitting at fitted
  split at fitted <;> cases fitted
  rfl

section Run

variable (p : s.Prepares signature h start b spills) (found : signature.convention? {} = some start.convention)
  (external : signature.internal = false) (straight : ∀ q ∈ start.convention.params, q.isStraight = true)

include p found external straight

/-- What has been passed can be put into the slots of the parameters, which are all zero. -/
theorem Session.Prepares.exists_spilled {S : Scene} {last : Builder} {world : World} {m : Machine}
    {images : Nat → Bytes} (inside : b.cursor.In S) (entered : S.Entered last world m)
    (passes : start.convention.Passes S.args images) {k : Nat} {q : Placement} {slot : Operand}
    (param : start.convention.params[k]? = some q) (home : (homes 0 start.convention.params)[k]? = some slot) :
    (∃ n, slot = .arg n ∧ q.passing.isDirect = false) ∨ ∃ i shape data, slot = .result i ∧
      S.IsSlot i shape ∧ q.Spilled S.args (S.cell m i) data ∧
      ∀ chunks ext, q.passing = .direct chunks ext → (S.cell m i).size = (images k).size ∧
        (images k).size ≤ 16 ∧ q.ty.Cut (images k).size chunks := by
  by_cases indirect : q.passing.isIndirect = true
  · rcases getElem?_homes param with ⟨-, home'⟩ | ⟨other, -⟩
    · cases home.symm.trans home'
      refine .inl ⟨_, rfl, ?_⟩
      cases passing : q.passing <;> rw [passing] at indirect <;> first | rfl | cases indirect
    · rw [indirect] at other
      cases other
  obtain ⟨i, x, home', does, -⟩ := p.param_slot param (Bool.eq_false_iff.mpr indirect)
  cases home.symm.trans home'
  have isSlot : S.IsSlot i q.ty.shape := p.opened.does inside does
  cases passing : q.passing with
  | ignored =>
    refine .inr ⟨i, _, _, rfl, isSlot, .nothing (by rw [passing]; rfl), fun chunks ext direct => ?_⟩
    cases direct
  | indirect => exact absurd (by rw [passing]; rfl) indirect
  | direct chunks ext =>
    have mem := mem_of_getElem? param
    obtain ⟨n, sized, pos, small, cut⟩ := signature.cut_of_convention? found external mem passing
    obtain ⟨image, passed⟩ := passes k q param (by rw [passing]; rfl)
    cases sized.symm.trans image
    have fits : (S.cell m i).size = (images k).size := by
      obtain ⟨size, sized', zeros⟩ := entered.zeros i _ isSlot.op?
      cases Machine.sizeOf_eq sized sized'
      rw [zeros, Bytes.size_zeros]
      omega
    obtain ⟨data, spilled⟩ := Placement.exists_spilled passed passing cut
      (p.placed.chunks q mem chunks ext passing) (straight q mem) fits
    refine .inr ⟨i, _, data, rfl, isSlot, spilled, fun chunks' ext' same => ?_⟩
    cases same
    exact ⟨fits, small, cut⟩

/-- Once the parameters have been put into their slots, the slots hold what was passed. -/
theorem Session.Prepares.holds_of_filled {S : Scene} {last : Builder} {world : World}
    {m m' : Machine} {images : Nat → Bytes} (inside : b.cursor.In S) (entered : S.Entered last world m)
    (passes : start.convention.Passes S.args images)
    (filled : S.Filled start.convention.params (homes 0 start.convention.params) m m') :
    b.Holds S.args images m' := by
  intro k q param isDirect
  rw [p.opened.convention] at param
  obtain ⟨chunks, ext, direct⟩ : ∃ chunks ext, q.passing = .direct chunks ext := by
    cases passing : q.passing <;> rw [passing] at isDirect <;> first | exact ⟨_, _, rfl⟩ | cases isDirect
  obtain ⟨i, x, home, does, var, slot⟩ := p.param_slot param (by rw [direct]; rfl)
  rcases p.exists_spilled found external straight inside entered passes param home with
    ⟨n, eq, -⟩ | ⟨_, _, _, eq, isSlot, -, facts⟩
  · cases eq
  cases eq
  obtain ⟨fits, small, cut⟩ := facts chunks ext direct
  refine ⟨x, Memory.pointer (S.loc i), var, ?_, fun ls l n leaves hl size => ?_⟩
  · rw [slot]
    exact filled.ready.evalWord_slot isSlot.slot
  · obtain ⟨width, bound, same⟩ := (filled.spilled k q i param home).slice_leaf (passes k q param isDirect).2 direct
      cut (straight q (mem_of_getElem? param)) fits leaves hl size
    rw [← same]
    exact Memory.read_pointer (filled.ready.alloc isSlot.slot) (by unfold Memory.span; omega) (by omega)

end Run

/-- The steps of a compilation that has succeeded. -/
theorem Session.exists_of_compile (compiled : s.compile name signature h body = .ok g) :
    ∃ b₀ b last, s.begin name signature = .ok b₀ ∧ Build.prepare h.calls b₀ = .ok b ∧
      Emit.function body b = .ok g last := by
  unfold Session.compile at compiled
  split at compiled
  · cases compiled
  · next b₀ begun =>
    split at compiled
    · cases compiled
    · next b prepared =>
      split at compiled
      · cases compiled
      · next last run =>
        cases compiled
        exact ⟨b₀, b, _, begun, prepared, run⟩

def Graph.slotsFit (g : Graph) : Bool :=
  g.instrs.all fun instr => match instr.op with
    | .alloca shape => (Machine.sizeOf shape).isOk
    | _ => true

theorem Graph.fitSlot_of_slotsFit (fit : g.slotsFit = true) {i : InstrId} (slot : g.Slot i) : g.FitSlot i := by
  obtain ⟨op, hop, isSlot⟩ := slot
  obtain ⟨shape, rfl⟩ := Op.exists_of_isAlloca isSlot
  obtain ⟨instr, there, same⟩ := Option.map_eq_some_iff.mp hop
  have fits := Array.all_eq_true_iff_forall_mem.mp fit instr (Array.mem_of_getElem? there)
  rw [same] at fits
  cases run : Machine.sizeOf shape with
  | ok n => exact ⟨shape, n, hop, run⟩
  | error f =>
    dsimp only at fits
    rw [run] at fits
    cases fits

/-- Whether a function compiles to one that passes a test. -/
def Session.gives (s : Session) (name : String) (signature : Signature) (h : Header) (body : Stmt)
    (test : Graph → Bool) : Bool :=
  match s.compile name signature h body with
  | .error _ => false
  | .ok g => test g

theorem Session.exists_of_gives {test : Graph → Bool} (gives : s.gives name signature h body test = true) :
    ∃ g, s.compile name signature h body = .ok g ∧ test g = true := by
  unfold Session.gives at gives
  split at gives
  · cases gives
  · next g compiled => exact ⟨g, compiled, gives⟩

/-- Whatever the body of an external function is: the entry block of the complete function lists slots, then what sets
the function up, then the code of the body. If the parameters that travel in registers are passed in chunks of eight
bytes each, and the struct of the chunks of every parameter has its second field at offset eight, a run comes through
to the code of the body without a fault, and then the variable of each of these parameters holds all scalars of the
value that was passed. -/
theorem Session.compiled_params_arrive {c : Convention} (target : s.target = {}) (external : signature.internal = false)
    (params : h.params.map (·.ty) = signature.params) (found : signature.convention? {} = some c)
    (straight : ∀ p ∈ c.params, p.isStraight = true) (compiled : s.compile name signature h body = .ok g)
    (sized : ∀ i, g.Slot i → g.FitSlot i) :
    ∃ b₀ b opened slots code, s.begin name signature = .ok b₀ ∧ Build.prepare h.calls b₀ = .ok b ∧
      Build.placeProlog b = .ok () opened ∧ opened.convention = c ∧ g.entry? = some opened.entry ∧
      g.body opened.entry = slots ++ opened.graph.body opened.entry ++ code ∧ (∀ i ∈ slots, g.Slot i) ∧
      ∀ (args : Array Bytes) (images : Nat → Bytes) (memory : Memory) (world : World),
        memory.allocs.size + stepLimit + 1 < Memory.span → c.Passes args images →
        Leads g args stepLimit (.before opened.entry (g.body opened.entry) (Machine.start g memory world))
          fun t => ∃ m, t = .before opened.entry code m ∧ m.world = world ∧ opened.Holds args images m := by
  obtain ⟨b₀, b, last, begun, prepared, run⟩ := Session.exists_of_compile compiled
  obtain ⟨opened, spills, placed, p⟩ := Session.exists_prepares target params begun prepared
  obtain ⟨-, -, -, same⟩ := Session.begin_begun target begun
  cases found.symm.trans same
  rw [Emit.function_of_placed placed body] at run
  cases emitted : Emit.stmt body opened.cursor with
  | error e c => rw [emitted] at run; cases run
  | ok _ c =>
    rw [emitted] at run
    obtain ⟨final, first, more, stores, completes⟩ := p.exists_completes emitted run
    have grows := first.trans more
    have becomes := grows.graph.becomes completes.becomes
    obtain ⟨code, split⟩ := becomes.body opened.entry
    rw [Graph.lead, if_pos grows.entry.symm] at split
    refine ⟨b₀, b, opened, final.lateSlots, code, begun, prepared, placed, p.opened.convention,
      completes.entry.trans (congrArg some grows.entry), split.symm,
      fun i => completes.slot_of_late stores p.opened.late, fun args images memory world room passes => ?_⟩
    rw [p.opened.entry] at split ⊢
    refine leads_entry p.opened grows stores completes room (fun i shape f hop failed => ?_) ?_
    · obtain ⟨_, n, hop', fits⟩ := sized i ⟨_, hop, rfl⟩
      cases hop.symm.trans hop'
      cases fits.symm.trans failed
    rintro S left m - rfl rfl entered
    have inside : opened.cursor.In S := (entered.inside ⟨final, final.entry, [], [], []⟩ rfl).extends grows
    have rest : opened.cursor.rest S = code := by
      have here := inside.body_current
      have current : opened.cursor.current = ⟨0⟩ := p.opened.entry
      have lead : S.lead ⟨0⟩ = final.lateSlots := by
        rw [Scene.lead, ← inside.entry, entered.front, Graph.lead]
        exact if_pos p.opened.entry.symm
      rw [current, lead, ← split] at here
      exact (append_cancel_left here).symm
    rw [rest]
    refine Scene.leads_spills entered.ready (p.opened.spilled.mono fun _ _ _ => p.opened.does inside)
      (nodup_homes p.placed.consecutive) (fun k q slot param home => ?_) fun left m' _ filled => .here ?_
    · refine (p.exists_spilled found external straight inside entered passes param home).imp id ?_
      rintro ⟨i, shape, data, rfl, isSlot, spilled, -⟩
      exact ⟨i, shape, data, rfl, isSlot, spilled⟩
    · exact ⟨m', rfl, filled.world.trans entered.world,
        p.holds_of_filled found external straight inside entered passes filled⟩

/-- A word, a value that stays in the caller's memory, and a struct of two words in an integer and a float register. -/
theorem Session.compiled_params_arrive_struct :
    let sig : Signature :=
      { params := [.i64, .array .i64 3, .struct [.i32, .u16, .f64]], result := .i64 }
    let h : Header :=
      { params := [⟨"a", .i64, false, {}⟩, ⟨"b", .array .i64 3, false, {}⟩,
        ⟨"c", .struct [.i32, .u16, .f64], false, {}⟩] }
    let body : Stmt := .ret {} [.call { ty := .i64 } "g" [.var { ty := .i64 } ⟨0⟩]]
    let image := Bytes.ofList [1, 2, 3, 4, 5, 6, 0, 0, 9, 10, 11, 12, 13, 14, 15, 16]
    let args := #[Bytes.zeros 8, Bytes.ofNat 8 5, Bytes.zeros 8, image.slice 0 8, image.slice 8 8]
    ∃ (g : Graph) (opened : Builder) (code : List InstrId), Session.compile {} "f" sig h body = .ok g ∧
      (∀ i, g.Slot i → g.FitSlot i) ∧
      Leads g args stepLimit (.before opened.entry (g.body opened.entry) (Machine.start g {} {}))
        fun t => ∃ m, t = .before opened.entry code m ∧ m.world = {} ∧
          opened.Holds args (fun k => if k = 0 then Bytes.ofNat 8 5 else image) m := by
  intro sig h body image args
  have ready : Session.gives {} "f" sig h body Graph.slotsFit = true := by decide +kernel
  obtain ⟨g, compiled, fit⟩ := Session.exists_of_gives ready
  have passed : (sig.convention? {}).any (fun c => decide ((∀ p ∈ c.params, p.isStraight = true) ∧
      c.Passes args fun k => if k = 0 then Bytes.ofNat 8 5 else image)) = true := by decide +kernel
  obtain ⟨c, found, test⟩ := (Option.any_eq_true _ _).mp passed
  obtain ⟨straight, passes⟩ := of_decide_eq_true test
  obtain ⟨-, -, opened, -, code, -, -, -, -, -, -, -, arrive⟩ :=
    Session.compiled_params_arrive rfl rfl rfl found straight compiled fun i => Graph.fitSlot_of_slotsFit fit
  exact ⟨g, opened, code, compiled, fun i => Graph.fitSlot_of_slotsFit fit, arrive _ _ {} {} (by decide) passes⟩

/-- The second chunk of eleven bytes has three. An integer of three bytes is aligned to three, so its field lies at
offset nine, and it does not fit into the slot. -/
theorem Session.chunk_of_three_faults :
    let sig : Signature := { params := [.array .u8 11], result := .void }
    let h : Header := { params := [⟨"p", .array .u8 11, false, {}⟩] }
    let image := Bytes.ofList [1, 2, 3, 4, 5, 6, 7, 8, 9, 10, 11]
    let args := #[Bytes.zeros 8, image.slice 0 8, image.slice 8 3]
    (∃ c, sig.convention? {} = some c ∧ c.Passes args fun _ => image) ∧
      ∃ g f, Session.compile {} "f" sig h .skip = .ok g ∧ execute g args (Machine.start g {} {}) = .error f := by
  intro sig h image args
  have passed : (sig.convention? {}).any (fun c => decide (c.Passes args fun _ => image)) = true := by decide +kernel
  refine ⟨?_, Session.exists_fault (by decide +kernel)⟩
  obtain ⟨c, found, test⟩ := (Option.any_eq_true _ _).mp passed
  exact ⟨c, found, of_decide_eq_true test⟩

end FlowIR

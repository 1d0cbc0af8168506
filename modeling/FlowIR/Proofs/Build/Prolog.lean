import FlowIR.Proofs.Build.Declare

/-!
The prolog of a declared function.

Placing the prolog always succeeds. The entry block then lists the slots in the order of their
declaration, and behind them the instructions that put the parameters into their slots
(`Builder.Opened`).
-/

namespace FlowIR

open Placement List

/-- The operation uses no placeholder, makes no slot and branches to no address. -/
structure Op.Plain (op : Op) : Prop where
  whole : op.Whole
  isAlloca : op.isAlloca = false
  isIndirect : op.isIndirect = false

theorem Op.Fills.plain {base : Operand → Prop} {op : Op} (h : op.Fills base)
    (whole : ∀ v, base v → v.isPlaceholder = false) : op.Plain := by
  refine ⟨fun v hv => ?_, h.isAlloca, by cases h <;> rfl⟩
  cases h with
  | cast dst there | field index there => exact mem_singleton.mp hv ▸ whole _ there
  | store n there =>
    rcases mem_cons.mp hv with rfl | hv
    · rfl
    · exact mem_singleton.mp hv ▸ whole _ there

/-- Variables stay in their places when it is noted where they are set. -/
theorem Builder.exists_var?_of_holdings {b after : Builder} (same : after.holdings = b.holdings) {v : VarId}
    {x : Variable} (found : b.var? v = some x) : ∃ x', after.var? v = some x' ∧ x'.slot = x.slot ∧ x'.ty = x.ty := by
  have there := after.getElem?_holdings v.index
  rw [same, b.getElem?_holdings, show b.vars[v.index]? = some x from found] at there
  obtain ⟨x', found', eq⟩ := Option.map_eq_some_iff.mp there.symm
  have slot := congrArg Variable.slot eq
  have ty := congrArg Variable.ty eq
  exact ⟨x', found', slot, ty⟩

/-! ### The prolog -/

/-- What a function is like once its prolog has been placed: the entry block lists the slots and the
instructions that fill those of the parameters. -/
structure Builder.Opened (start b : Builder) (vars : List Variable) (locals : List Shape)
    (labels : List Span) (spills : List InstrId) : Prop where
  entry : b.entry = ⟨0⟩
  layout : b.graph.layout = [⟨0⟩]
  blocks : b.graph.blocks.size = 1
  body : b.graph.body ⟨0⟩ =
    (range (kept start.convention.params ++ locals).length).map InstrId.mk ++ spills
  slots : ∀ (i : Nat) (shape : Shape), (kept start.convention.params ++ locals)[i]? = some shape →
    b.graph.Does ⟨i⟩ (.alloca shape) (.ptr shape)
  others : ∀ (i : Nat) (instr : Instr), (kept start.convention.params ++ locals).length ≤ i →
    b.graph.instrs[i]? = some instr → instr.op.Plain
  spilled : b.graph.SpillsAll start.convention.params (homes 0 start.convention.params) spills
  vars : ∀ (k : Nat) (x : Variable), vars[k]? = some x →
    ∃ x', b.var? ⟨k⟩ = some x' ∧ x'.slot = x.slot ∧ x'.ty = x.ty
  late : b.lateSlots = []
  placed : b.prologPlaced = true
  returnSlot : b.returnSlot = none
  labels : b.labels = { labels := (labels.map fun span => ({ span } : Label)).toArray }
  errorSeen : b.errorSeen = false
  convention : b.convention = start.convention
  signature : b.signature = start.signature
  options : b.options = start.options

theorem Decl.kind_of_mem_locals {x : Variable} : ∀ {next : Nat} {ds : List Decl},
    x ∈ Decl.locals next ds → x.kind = .local
  | _, d :: ds, h => by
    rcases mem_cons.mp h with rfl | later
    · rfl
    · exact kind_of_mem_locals later

/-- Declared variables come with their parameters first, and none is the closure environment. -/
theorem Builder.Declared.params {start b : Builder} {types : List Ty} {h : Header} {locals : List Shape}
    {labels : List Span} (begun : start.Begun types) (all : h.params.map (·.ty) = types)
    (declared : start.Declared b (h.vars start.convention) locals labels) :
    b.tables.registered = start.convention.params.length ∧ b.env? = none := by
  have length : h.params.length = start.convention.params.length := by
    simpa using congrArg length (all.trans begun.placed.types.symm)
  constructor
  · rw [show b.tables.registered = b.params.length from declared.tabled.registered,
      declared.tabled.length_params, declared.vars, Header.vars, countP_append]
    have first : countP (fun x => decide (x.kind = .param))
        (zipWith Decl.param h.params (homes 0 start.convention.params)) =
        start.convention.params.length := by
      rw [countP_eq_length.mpr fun x hx => by simp [Decl.kind_of_mem_params hx], length_zipWith,
        length_homes, length, Nat.min_self]
    have second : countP (fun x => decide (x.kind = .param))
        (Decl.locals (kept start.convention.params).length h.locals) = 0 :=
      countP_eq_zero.mpr fun x hx => by simp [Decl.kind_of_mem_locals hx]
    omega
  · refine declared.tabled.env?_eq_none fun x hx => ?_
    rw [declared.vars] at hx
    rcases mem_append.mp hx with param | loc
    · simp [Decl.kind_of_mem_params param]
    · simp [Decl.kind_of_mem_locals loc]

namespace Build

variable {start b : Builder} {types : List Ty} {h : Header}

/-- Placing the prolog of a declared function. -/
theorem placeProlog_opened (begun : start.Begun types) (all : h.params.map (·.ty) = types)
    (declared : start.Declared b (h.vars start.convention) (h.locals.map (·.ty.shape)) h.labels) :
    Succeeds placeProlog b fun _ after => ∃ spills,
      start.Opened after (h.vars start.convention) (h.locals.map (·.ty.shape)) h.labels spills := by
  unfold placeProlog
  refine .get ?_
  rw [if_neg (by rw [declared.starting.unplaced]; exact Bool.false_ne_true)]
  refine (setUpArgs_declared begun declared).bind ?_
  rintro _ b ⟨-, declared⟩
  obtain ⟨count, env⟩ := declared.params begun all
  refine .get ?_
  dsimp only
  rw [if_neg (by rw [count, declared.convention]; simp), env]
  refine ensures_bind.mpr (ensures_pure.mpr ?_)
  have enough : 0 + b.convention.params.length ≤ b.paramSlots.length := Nat.le_of_eq (by
    rw [declared.paramSlots, length_homes, declared.convention, Nat.zero_add])
  refine Ensures.bind ((spillParams_spills b.convention.params b 0 fun k p found _ => ?_).mono (fun _ _ q => q)
    fun _ _ he => Nat.not_lt_of_le enough he.2) ?_
  · rw [declared.convention] at found
    exact begun.placed.chunks p (mem_of_getElem? found)
  rintro spills b₁ ⟨spilling, spilled⟩
  have spilled := spilled enough
  have slotted : ∀ v ∈ b.paramSlots, v.isPlaceholder = false := fun v hv => by
    rw [declared.paramSlots] at hv
    rcases mem_homes hv with ⟨_, _, rfl, _⟩ | ⟨_, rfl, _⟩ <;> rfl
  have plain : ∀ (i : Nat) (instr : Instr), b.graph.instrs.size ≤ i → b₁.graph.instrs[i]? = some instr →
      instr.op.Plain := by
    intro i instr new found
    obtain ⟨op, hop, fills⟩ := spilling.new ⟨i⟩ ((spilling.mem _).mpr ⟨new, (Array.getElem?_eq_some_iff.mp found).1⟩)
    rw [Graph.op?, show b₁.graph.instrs[i]? = some instr from found] at hop
    cases hop
    refine fills.plain fun v there => ?_
    rcases there with slot | ⟨j, -, rfl, -⟩
    · exact slotted v slot
    · rfl
  rw [drop_zero, declared.paramSlots, declared.convention] at spilled
  have holdings := spilling.holdings
  have does := @spilling.does
  obtain ⟨instrs, names, vars, rfl⟩ := spilling.same
  have starting := declared.starting
  obtain ⟨name, blocks⟩ := starting.blocks
  have inside : b.entry.index < b.graph.blocks.size := by
    rw [starting.entry, blocks]
    exact Nat.one_pos
  refine .get ?_
  refine .after (a := ⟨⟩) (onGraph_eq (if_pos inside)) ?_
  refine .modify ?_
  generalize placedAt : ({ b with
      graph := { b.graph with
        instrs
        blocks := b.graph.blocks.modify b.entry.index fun block =>
          { block with body := (b.pendingSlots ++ [] ++ spills) ++ block.body } }
      names, vars, pendingSlots := [], prologPlaced := true } : Builder) = b₂
  have opened : start.Opened b₂ (h.vars start.convention) (h.locals.map (·.ty.shape)) h.labels spills := by
    subst placedAt
    refine
      { entry := starting.entry
        layout := starting.layout
        blocks := by rw [Array.size_modify, blocks]; rfl
        body := ?_
        slots := fun i shape found => ?_
        others := fun i instr new found => plain i instr (starting.size ▸ new) found
        spilled := ?_
        vars := fun k x found => ?_
        late := starting.late
        placed := rfl
        returnSlot := starting.returnSlot
        labels := declared.labels
        errorSeen := declared.errorSeen
        convention := declared.convention
        signature := declared.signature
        options := declared.options }
    · show Graph.body _ ⟨0⟩ = _
      simp only [Graph.body, Array.getElem?_modify, starting.entry, blocks, starting.pending]
      simp
    · have listed : b.graph.kinds[i]? = some (.alloca shape, .ptr shape) := by
        rw [starting.kinds, getElem?_map, found]
        rfl
      rw [Graph.getElem?_kinds, Option.map_eq_some_iff] at listed
      obtain ⟨instr, there, eq⟩ := listed
      cases instr with
      | mk op shape name =>
        cases eq
        exact does ⟨name, there⟩
    · refine Graph.SpillsAll.mono ?_ spilled
      exact fun _ _ _ does => does
    · have there : b.var? ⟨k⟩ = some x := by
        show b.vars[k]? = some x
        rw [declared.vars, getElem?_toArray, found]
      exact Builder.exists_var?_of_holdings holdings there
  dsimp only
  split
  · next last _ =>
    refine .get ?_
    refine Ensures.forM (I := fun _ after => ∃ spills,
      start.Opened after (h.vars start.convention) (h.locals.map (·.ty.shape)) h.labels spills) ?_ _ _ ⟨spills, opened⟩
    rintro v _ mid ⟨spills, opened⟩
    refine ⟨spills, { opened with vars := fun k x found => ?_ }⟩
    obtain ⟨x', found', slot, ty⟩ := opened.vars k x found
    obtain ⟨x'', found'', slot', ty'⟩ := Builder.exists_var?_of_holdings
      (mid.holdings_modify v fun x => x.initializer <|> some last) found'
    exact ⟨x'', found'', slot'.trans slot, ty'.trans ty⟩
  · exact ⟨spills, opened⟩

end Build

end FlowIR

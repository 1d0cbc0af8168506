import FlowIR.Proofs.Build.Prepare
import FlowIR.Proofs.Graph.Verified

/-!
The last steps of finishing a function.

When blocks and labels are closed, the indirect branches get their targets and the late slots their place in
front of everything else, unreachable blocks are taken out, and the graph is verified (`Build.conclude`).
`Builder.Seals` says what becomes of the graph on the way, and `Build.conclude_ensures` that this is so however
sealing ends.
-/

namespace FlowIR

open FlowIR.Graph

variable {owed : BlockId → Prop} {su : Supply} {b : Builder}

def Graph.lead (entry : BlockId) (front : List InstrId) (x : BlockId) : List InstrId :=
  if x = entry then front else []

def Op.Whole (op : Op) : Prop := ∀ v ∈ op.operands, v.isPlaceholder = false

/-! ### Indirect branches -/

def Op.redirect (dests : List BlockId) : Op → Op
  | .indirectBr addr _ => .indirectBr addr dests
  | op => op

section Redirect

variable {dests : List BlockId} {op : Op}

@[simp] theorem Op.redirect_redirect : (op.redirect dests).redirect dests = op.redirect dests := by
  cases op <;> rfl

theorem Op.mem_successors_redirect {t : BlockId} (h : t ∈ (op.redirect dests).successors) :
    t ∈ op.successors ∨ t ∈ dests := by
  cases op <;> first | exact .inl h | exact .inr h

theorem Build.op_retarget (instr : Instr) : (retarget dests instr).op = instr.op.redirect dests := by
  unfold retarget Op.redirect
  split <;> simp_all

end Redirect

namespace Graph

variable {g mid after : Graph} {dests : List BlockId} {home : LabelId → Option BlockId}
  {entry : BlockId}

structure Redirects (dests : List BlockId) (g after : Graph) : Prop where
  layout : after.layout = g.layout
  blocks : after.blocks = g.blocks
  ops : ∀ i, after.op? i = g.op? i ∨ after.op? i = (g.op? i).map (Op.redirect dests)

namespace Redirects

theorem refl (dests : List BlockId) (g : Graph) : g.Redirects dests g :=
  ⟨rfl, rfl, fun _ => .inl rfl⟩

theorem step (h : g.Redirects dests mid) {j : InstrId}
    (run : mid.updateInstr j (Build.retarget dests) = .ok after) : g.Redirects dests after where
  layout := (layout_of_updateInstr run).trans h.layout
  blocks := (blocks_of_updateInstr run).trans h.blocks
  ops := fun i => by
    rw [op?_of_updateInstr (t := Op.redirect dests) run Build.op_retarget]
    split
    · next same =>
      subst same
      right
      rcases h.ops i with eq | eq <;> rw [eq]
      rw [Option.map_map]
      congr 1
      funext op
      exact Op.redirect_redirect
    · exact h.ops i

section

variable (h : g.Redirects dests after) {j : InstrId}

include h

theorem body (x : BlockId) : after.body x = g.body x := by
  rw [Graph.body, Graph.body, h.blocks]

theorem taken (x : BlockId) : after.taken x = g.taken x := by
  rw [Graph.taken, Graph.taken, h.blocks]

/-- What an instruction was before, and what stays of it. -/
theorem before {i : InstrId} {op' : Op} (hop' : after.op? i = some op') :
    ∃ op, g.op? i = some op ∧ op'.isTerminator = op.isTerminator ∧ op'.operands = op.operands ∧
      op'.yields = op.yields ∧ op'.isAlloca = op.isAlloca ∧ op'.normal? = op.normal? ∧
      op'.isLandingPad = op.isLandingPad ∧ op'.unwind? = op.unwind? ∧
      ∀ t ∈ op'.successors, t ∈ op.successors ∨ t ∈ dests := by
  rcases h.ops i with eq | eq
  · exact ⟨op', eq ▸ hop', rfl, rfl, rfl, rfl, rfl, rfl, rfl, fun _ ht => .inl ht⟩
  · obtain ⟨op, hop, rfl⟩ := Option.map_eq_some_iff.mp (eq ▸ hop')
    refine ⟨op, hop, ?_, ?_, ?_, ?_, ?_, ?_, ?_, fun _ => Op.mem_successors_redirect⟩ <;> cases op <;> rfl

theorem later {i : InstrId} {op : Op} (hop : g.op? i = some op) : ∃ op', after.op? i = some op' := by
  rcases h.ops i with eq | eq
  · exact ⟨op, eq.trans hop⟩
  · exact ⟨op.redirect dests, eq.trans (by rw [hop]; rfl)⟩

theorem slot : after.Slot j ↔ g.Slot j := by
  constructor
  · rintro ⟨op', hop', slot⟩
    obtain ⟨op, hop, -, -, -, same, -⟩ := h.before hop'
    exact ⟨op, hop, same ▸ slot⟩
  · rintro ⟨op, hop, slot⟩
    obtain ⟨op', hop'⟩ := h.later hop
    obtain ⟨op'', hop'', -, -, -, same, -⟩ := h.before hop'
    cases hop.symm.trans hop''
    exact ⟨op', hop', same ▸ slot⟩

theorem kept (hj : g.Kept j) : after.Kept j := by
  obtain ⟨op, hop, yields⟩ := hj
  obtain ⟨op', hop'⟩ := h.later hop
  obtain ⟨op'', hop'', -, -, same, -⟩ := h.before hop'
  cases hop.symm.trans hop''
  exact ⟨op', hop', same ▸ yields⟩

theorem ready {x : BlockId} {done : List InstrId} (hj : g.Ready su x done j) : after.Ready su x done j :=
  hj.imp h.slot.mpr (Or.imp id fun ⟨mem, kept⟩ => ⟨mem, h.kept kept⟩)

theorem ends {x : BlockId} (hx : g.Ends x) : after.Ends x := by
  obtain ⟨i, op, last, hop, hterm⟩ := hx
  obtain ⟨op', hop'⟩ := h.later hop
  obtain ⟨op'', hop'', same, -⟩ := h.before hop'
  cases hop.symm.trans hop''
  exact ⟨i, op', h.body x ▸ last, hop', same ▸ hterm⟩

end

variable (r : g.Redirects dests after)

include r

theorem formed (h : g.Formed owed home entry)
    (inside : ∀ t ∈ dests, t ∈ g.layout ∧ g.taken t = true) : after.Formed owed home entry := by
  refine h.congr r.layout (by rw [r.blocks]) r.body (fun x hx => .inl (r.taken x ▸ hx)) ?_
  intro x i hi op hop
  obtain ⟨op', hop'⟩ := r.later hop
  obtain ⟨op'', hop'', hterm, -, -, -, -, -, -, targets⟩ := r.before hop'
  cases hop.symm.trans hop''
  exact ⟨op', hop', hterm, fun t ht => (targets t ht).imp id fun dest =>
    ⟨h.taken_ne t (inside t dest).2, (inside t dest).1⟩⟩

theorem supplied (h : g.Supplied su home entry)
    (inside : ∀ t ∈ dests, g.taken t = true) : after.Supplied su home entry where
  entry := h.entry
  new := fun x hx => h.new x (r.blocks ▸ hx)
  home := h.home
  taken := fun x hx => h.taken x (r.taken x ▸ hx)
  idle := fun x hx => r.layout ▸ h.idle x hx
  empty := fun x hx => r.body x ▸ h.empty x hx
  uses := fun x k i hi op' hop' => by
    obtain ⟨op, hop, -, operands, -, -, normal, starts, unwinds, targets⟩ := r.before hop'
    rw [r.body] at hi ⊢
    obtain ⟨ready, here, apart, sends⟩ := h.uses x k i hi op hop
    refine ⟨fun j hj => r.ready (ready j (operands ▸ hj)), starts ▸ here, unwinds ▸ normal ▸ apart,
      fun t ht => unwinds ▸ ?_⟩
    rcases targets t ht with old | dest
    · exact sends t old
    · have bare := (h.taken t (inside t dest)).2
      exact iff_of_false (fun unwinds => bare ((sends t (Op.successor_of_unwind? unwinds)).mp unwinds)) bare
  edges := fun x i hi op' hop' t ht j hj => by
    obtain ⟨op, hop, -, -, -, -, normal, -, -, targets⟩ := r.before hop'
    rw [r.body] at hi ⊢
    rcases targets t ht with old | dest
    · exact (h.edges x i hi op hop t old j hj).imp r.ready fun ⟨eq, n⟩ => ⟨eq, normal.trans n⟩
    · exact absurd hj ((h.taken t (inside t dest)).1 j)

theorem stocked {placed : Bool} {pending late : List InstrId}
    (h : g.Stocked entry placed pending late) : after.Stocked entry placed pending late where
  pending_slot := fun i hi => r.slot.mpr (h.pending_slot i hi)
  late_plain := fun i hi => by
    obtain ⟨op, hop, hterm, inner⟩ := h.late_plain i hi
    obtain ⟨op', hop'⟩ := r.later hop
    obtain ⟨op'', hop'', same, -, -, -, -, starts, -⟩ := r.before hop'
    cases hop.symm.trans hop''
    exact ⟨op', hop', same.trans hterm, starts.trans inner⟩
  late_order := fun k i hi op' hop' j hj => by
    obtain ⟨op, hop, -, operands, -⟩ := r.before hop'
    exact (h.late_order k i hi op hop j (operands ▸ hj)).imp id r.kept
  all := fun j hj => by
    refine (h.all j (r.slot.mp hj)).imp id (Or.imp id ?_)
    rintro ⟨front, pre, unused⟩
    refine ⟨front, r.body entry ▸ pre, fun i hi => ?_⟩
    obtain ⟨op, hop, none⟩ := unused i hi
    obtain ⟨op', hop'⟩ := r.later hop
    obtain ⟨op'', hop'', -, operands, -⟩ := r.before hop'
    cases hop.symm.trans hop''
    exact ⟨op', hop', fun uses => none (operands ▸ uses)⟩
  pending_nil := h.pending_nil
  late_nil := h.late_nil
  body_nil := fun unplaced => (r.body entry).trans (h.body_nil unplaced)

end Redirects

end Graph

/-! ### Targets of indirect branches -/

/-- The indirect branches have got their targets, except those in `rest`. -/
structure Graph.Retargets (g : Graph) (branches : List InstrId) (dests : List BlockId)
    (rest : List InstrId) (after : Graph) : Prop where
  redirects : g.Redirects dests after
  args : after.args = g.args
  size : after.instrs.size = g.instrs.size
  instr : ∀ (i : Nat) (instr : Instr), g.instrs[i]? = some instr → ∃ instr', after.instrs[i]? = some instr' ∧
    (instr'.op = instr.op ∨ instr'.op = instr.op.redirect dests) ∧ instr'.shape = instr.shape ∧
    instr'.name = instr.name
  done : ∀ i ∈ branches, i ∈ rest ∨ after.op? i = (g.op? i).map (Op.redirect dests)

theorem Graph.Retargets.refl (g : Graph) (branches : List InstrId) (dests : List BlockId) :
    g.Retargets branches dests branches g where
  redirects := .refl dests g
  args := rfl
  size := rfl
  instr := fun _ instr h => ⟨instr, h, .inl rfl, rfl, rfl⟩
  done := fun _ hi => .inl hi

/-- One more indirect branch gets its targets. -/
theorem Graph.Retargets.step {g mid after : Graph} {branches rest : List InstrId} {dests : List BlockId}
    {j : InstrId} (h : g.Retargets branches dests (j :: rest) mid)
    (run : mid.updateInstr j (Build.retarget dests) = .ok after) : g.Retargets branches dests rest after := by
  have redirects := h.redirects.step run
  have ops := op?_of_updateInstr (t := Op.redirect dests) run Build.op_retarget
  have twice : ∀ o : Option Op, (o.map (Op.redirect dests)).map (Op.redirect dests) =
      o.map (Op.redirect dests) := fun o => by cases o <;> simp
  obtain ⟨-, rfl⟩ := eq_of_updateInstr run
  refine ⟨redirects, h.args, (Array.size_modify).trans h.size, fun i instr found => ?_, fun i hi => ?_⟩
  · obtain ⟨instr', found', op, shape, name⟩ := h.instr i instr found
    simp only [Array.getElem?_modify, found']
    split
    · refine ⟨Build.retarget dests instr', rfl, .inr ?_, ?_, ?_⟩
      · rw [Build.op_retarget]
        rcases op with eq | eq <;> simp [eq]
      · unfold Build.retarget
        split <;> exact shape
      · unfold Build.retarget
        split <;> exact name
    · exact ⟨instr', rfl, op, shape, name⟩
  · rw [ops]
    by_cases same : i = j
    · subst same
      rw [if_pos rfl]
      rcases h.redirects.ops i with eq | eq
      · exact .inr (by rw [eq])
      · exact .inr (by rw [eq, twice])
    · rw [if_neg same]
      refine (h.done i hi).imp (fun mem => ?_) id
      exact (List.mem_cons.mp mem).resolve_left same

namespace Build

/-- The indirect branches get their targets, if all that is looked at is there. -/
theorem setIndirectTargets_ensures (b : Builder) :
    Ensures setIndirectTargets b (fun _ after => ∃ dests g, b.graph.addressTaken = .ok dests ∧
      after = { b with graph := g } ∧ b.graph.Retargets b.labels.branches dests [] g)
      fun e _ => (∃ f, e = .fault f) ∧ ¬ ((∀ x ∈ b.graph.layout, x.index < b.graph.blocks.size) ∧
        ∀ i ∈ b.labels.branches, i.index < b.graph.instrs.size) := by
  refine .get (ensures_bind.mpr (ensures_checked.mpr
    ⟨fun dests taken => ?_, fun f failed => ⟨⟨f, rfl⟩, fun ⟨placed, _⟩ => ?_⟩⟩))
  · refine (Ensures.forM (I := fun rest mid => (∃ g, mid = { b with graph := g } ∧
      b.graph.Retargets b.labels.branches dests rest g) ∧ ∀ i ∈ rest, i ∈ b.labels.branches) ?_ b.labels.branches b
      ⟨⟨b.graph, rfl, .refl _ _ _⟩, fun _ hi => hi⟩).imp fun _ _ ⟨⟨g, q⟩, _⟩ => ⟨dests, g, taken, q⟩
    rintro i rest _ ⟨⟨g, rfl, retargets⟩, inside⟩
    refine ensures_onGraph.mpr ⟨fun g' run => ⟨⟨g', rfl, retargets.step run⟩, fun j hj =>
      inside j (List.mem_cons_of_mem i hj)⟩, fun f failed => ⟨⟨f, rfl⟩, fun ⟨_, branches⟩ => ?_⟩⟩
    have there := branches i (inside i List.mem_cons_self)
    rw [← retargets.size] at there
    unfold updateInstr at failed
    rw [if_pos there] at failed
    cases failed
  · cases failed.symm.trans (addressTaken_eq_ok_iff.mpr ⟨placed, rfl⟩)

end Build

/-! ### Checks that a closed graph passes -/

namespace Graph

variable {g : Graph} {entry x : BlockId} {i : InstrId}

def Listed (g : Graph) : Prop := ∀ x, ∀ i ∈ g.body x, (g.op? i).isSome

def Whole (g : Graph) : Prop := ∀ i op, g.op? i = some op → op.Whole

theorem Listed.exists_instr (h : g.Listed) (hi : i ∈ g.body x) :
    ∃ instr, g.instr i = .ok instr ∧ g.op? i = some instr.op := by
  obtain ⟨op, hop⟩ := Option.isSome_iff_exists.mp (h x i hi)
  obtain ⟨instr, found, rfl⟩ := Graph.exists_instr hop
  exact ⟨instr, found, hop⟩

variable (h : g.Closed entry)

include h

theorem Closed.connected : g.Connected g.layout := by
  intro x hx
  obtain ⟨succs, hs⟩ := h.exists_successors hx
  exact ⟨succs, hs, fun t ht => (h.successor_mem hx hs ht).1⟩

theorem Closed.exists_hasLandingPad (listed : g.Listed) : ∃ t, Build.hasLandingPad g = .ok t := by
  refine exists_anyM fun x hx => ?_
  obtain ⟨b, hb⟩ := exists_block (h.placed x hx)
  obtain ⟨t, ht⟩ := exists_anyM (l := b.body)
      (p := fun i => (do return (← g.instr i).op.isLandingPad : Checked Bool)) fun i hi => by
    obtain ⟨instr, found, -⟩ := listed.exists_instr (body_of_block hb ▸ hi)
    exact ⟨instr.op.isLandingPad, by rw [found]; rfl⟩
  exact ⟨t, by rw [hb]; exact ht⟩

theorem Closed.verify_eq_ok (listed : g.Listed) (whole : g.Whole) : g.verify = .ok ⟨⟩ := by
  refine verify_eq_ok_iff.mpr ⟨List.ne_nil_of_mem h.entry_mem, fun x hx => ?_⟩
  exact ⟨h.placed x hx, listed x, h.ends x hx, h.endsOnce x, fun i _ => whole i,
    fun i hi op hop t ht => (h.targets x hx i hi op hop t ht).1⟩

end Graph

/-! ### The finished graph -/

/-- The indirect branches of a function have got their targets, which makes it `mid`, and the late slots
their place, which makes it `last`. -/
structure Builder.Arms (b : Builder) (dests : List BlockId) (mid last : Graph) : Prop where
  taken : b.graph.addressTaken = .ok dests
  retargets : b.graph.Retargets b.labels.branches dests [] mid
  placed : mid.insertFront b.entry b.lateSlots = .ok last

theorem Builder.Arms.mem_dests {dests : List BlockId} {mid last : Graph} (h : b.Arms dests mid last) {t : BlockId} :
    t ∈ dests ↔ t ∈ b.graph.layout ∧ b.graph.taken t = true := by
  rw [(addressTaken_eq_ok_iff.mp h.taken).2, List.mem_filter]

/-- Besides, unreachable blocks have been taken out, if they should be. -/
structure Builder.Seals (b : Builder) (dests : List BlockId) (mid last g : Graph) : Prop extends
    b.Arms dests mid last where
  layout : if b.options.prune then ∃ found, last.reachable = .ok found ∧ g.layout = last.layout.filter (· ∈ found)
    else g.layout = last.layout
  blocks : g.blocks = last.blocks
  instrs : g.instrs = last.instrs
  args : g.args = last.args

namespace Builder.Seals

variable {dests : List BlockId} {mid last g after : Graph}

variable (h : b.Seals dests mid last g)

include h

/-- The entry block stays where it is. -/
theorem entry? : g.entry? = b.graph.entry? := by
  have first : last.entry? = b.graph.entry? := by
    rw [ Graph.entry?, Graph.layout_of_updateBlock h.placed, h.retargets.redirects.layout]
    rfl
  have layout := h.layout
  split at layout
  · obtain ⟨found, reached, eq⟩ := layout
    rw [ Graph.entry?, eq]
    exact (entry?_filter reached).trans first
  · rw [ Graph.entry?, layout]
    exact first

/-- Control stays in a layout without the unreachable blocks. -/
theorem closed {entry : BlockId} (closed : last.Closed entry) : g.Closed entry := by
  have layout := h.layout
  split at layout
  · obtain ⟨found, reached, eq⟩ := layout
    exact (closed.filter reached).congr eq h.blocks h.instrs
  · exact closed.congr layout h.blocks h.instrs

theorem op? (i : InstrId) : g.op? i = mid.op? i := by
  rw [Graph.op?, h.instrs, ← Graph.op?_of_updateBlock h.placed i]
  rfl

theorem body (x : BlockId) : g.body x = Graph.lead b.entry b.lateSlots x ++ b.graph.body x := by
  rw [Graph.body, h.blocks]
  show last.body x = _
  rw [body_of_insertFront h.placed, lead]
  split
  · next same => rw [same, h.retargets.redirects.body]
  · rw [List.nil_append, h.retargets.redirects.body]

theorem instr {i : Nat} {instr : Instr} (found : b.graph.instrs[i]? = some instr) :
    ∃ instr', g.instrs[i]? = some instr' ∧ (instr'.op = instr.op ∨ instr'.op = instr.op.redirect dests) ∧
      instr'.shape = instr.shape ∧ instr'.name = instr.name := by
  rw [h.instrs, instrs_of_updateBlock h.placed]
  exact h.retargets.instr i instr found

theorem slot {i : InstrId} (slot : g.Slot i) : b.graph.Slot i := by
  obtain ⟨op, hop, isSlot⟩ := slot
  exact h.retargets.redirects.slot.mp ⟨op, h.op? i ▸ hop, isSlot⟩

/-- No placeholder comes in. -/
theorem whole (all : b.graph.Whole) : g.Whole := by
  intro i op hop
  obtain ⟨op', hop', -, operands, -⟩ := h.retargets.redirects.before (h.op? i ▸ hop)
  unfold Op.Whole
  rw [operands]
  exact all i op' hop'

theorem listed (code : b.graph.Listed) (late : ∀ i ∈ b.lateSlots, (b.graph.op? i).isSome) : g.Listed := by
  intro x i hi
  have known : (b.graph.op? i).isSome := by
    rw [h.body, lead] at hi
    split at hi
    · exact (List.mem_append.mp hi).elim (late i) (code x i)
    · exact code x i hi
  obtain ⟨op, hop⟩ := Option.isSome_iff_exists.mp known
  obtain ⟨op', hop'⟩ := h.retargets.redirects.later hop
  rw [h.op?, hop']
  rfl

end Builder.Seals

structure Builder.Sealable (b : Builder) : Prop where
  closed : b.graph.Closed b.entry
  arms : ∀ {dests : List BlockId} {mid last : Graph}, b.Arms dests mid last → last.Closed b.entry
  branches : ∀ i ∈ b.labels.branches, i.index < b.graph.instrs.size
  listed : b.graph.Listed
  late : ∀ i ∈ b.lateSlots, (b.graph.op? i).isSome
  whole : b.graph.Whole

namespace Build

/-! ### Sealing -/

/-- What is left of finishing a function when its blocks and labels are closed. -/
def conclude : BuildM Graph := do
  setIndirectTargets
  placeLateSlots
  if (← get).options.prune then
    onGraph fun g => return (← g.prune).2
  if ← hasLandingPad (← get).graph then
    modify fun b => { b with graph := { b.graph with personality := some b.options.personality } }
  let graph := (← get).graph
  match graph.verify with
  | .ok () => return graph
  | .error (.fault f) => throw (.fault f)
  | .error (.error e) => fail {} (.verify e)

/-- A function that has its prolog is finished by closing its blocks and its labels and sealing it. -/
theorem ensures_finish {P R : Builder → Prop} {Q : Graph → Builder → Prop} {E : Halt BuildError → Builder → Prop}
    (placed : b.prologPlaced = true) (blocks : Ensures closeBlocks b (fun _ mid => P mid) E)
    (labels : ∀ mid, P mid → Ensures (mid.labels.dangling.forM closeLabel) mid (fun _ after => R after) E)
    (loose : ∀ mid, R mid → 0 < mid.labels.pending → ∀ e : BuildError,
      e.cause = .danglingLabelAddress mid.labels.pending → E (.error e) mid)
    (rest : ∀ mid, R mid → Ensures conclude mid Q E) : Ensures finish b Q E := by
  refine .after (placeProlog_skips placed) (blocks.bind fun _ mid p => ?_)
  refine .get ((labels mid p).bind fun _ after r => ?_)
  refine .get ?_
  dsimp only
  split
  · next left => exact loose after r left _ rfl
  · exact rest after r

/-- Sealing gives what `Seals` says, and no other graph is ever verified on the way. -/
theorem conclude_ensures (b : Builder) : Ensures conclude b
    (fun g after => ∃ dests mid last, b.Seals dests mid last g ∧ after.labels = b.labels ∧ g.verify = .ok ⟨⟩)
    fun e _ => ¬ b.Sealable ∧ ((∃ f, e = .fault f) ∨ ∃ dests mid last g v, b.Seals dests mid last g ∧
      g.verify = .error (.error v) ∧ ∃ error : BuildError, e = .error error ∧ error.cause = .verify v) := by
  refine Ensures.bind ((setIndirectTargets_ensures b).mono (fun _ _ q => q)
    fun _ _ he => ⟨fun h => he.2 ⟨h.closed.placed, h.branches⟩, .inl he.1⟩) ?_
  rintro - _ ⟨dests, mid, taken, rfl, retargets⟩
  refine ensures_bind.mpr (.get (ensures_bind.mpr (ensures_onGraph.mpr
    ⟨fun last late => ?_, fun f failed => ⟨fun h => ?_, .inl ⟨f, rfl⟩⟩⟩)))
  case refine_2 =>
    have there : b.entry.index < mid.blocks.size := by
      rw [retargets.redirects.blocks]
      exact h.closed.placed _ h.closed.entry_mem
    replace failed : mid.insertFront b.entry b.lateSlots = .error f := failed
    rw [insertFront, updateBlock, if_pos there] at failed
    cases failed
  have arms : b.Arms dests mid last := ⟨taken, retargets, late⟩
  refine ensures_modify.mpr (.get ?_)
  refine Ensures.when (P := fun after => b.Seals dests mid last after.graph ∧ after.labels = b.labels) ?_
    fun after ⟨seals, labels⟩ => ?_
  · split
    · next prunes =>
      replace prunes : b.options.prune = true := prunes
      refine ensures_onGraph.mpr ⟨fun g run => ?_, fun f failed => ⟨fun h => ?_, .inl ⟨f, rfl⟩⟩⟩
      · rw [Checked.bind_eq_ok_iff] at run
        obtain ⟨⟨n, kept⟩, run, same⟩ := run
        cases same
        obtain ⟨found, reached, -, rfl⟩ := prune_eq_ok_iff.mp run
        exact ⟨⟨arms, by rw [if_pos prunes]; exact ⟨found, reached, rfl⟩, rfl, rfl, rfl⟩, rfl⟩
      · obtain ⟨found, reached⟩ := exists_reachable (h.arms arms).connected
        have run : last.prune = .ok _ := prune_eq_of_reachable reached
        replace failed : (do return (← last.prune).2 : Checked Graph) = .error f := failed
        rw [run] at failed
        cases failed
    · next whole =>
      replace whole : ¬ b.options.prune = true := whole
      exact ⟨⟨arms, by rw [if_neg whole], rfl, rfl, rfl⟩, rfl⟩
  refine .get (ensures_bind.mpr (ensures_checked.mpr ⟨fun pads _ => ?_,
    fun f failed => ⟨fun h => ?_, .inl ⟨f, rfl⟩⟩⟩))
  case refine_2 =>
    obtain ⟨pads, found⟩ := (seals.closed (h.arms arms)).exists_hasLandingPad (seals.listed h.listed h.late)
    cases failed.symm.trans found
  refine Ensures.when (P := fun after => b.Seals dests mid last after.graph ∧ after.labels = b.labels) ?_
    fun after ⟨seals, labels⟩ => ?_
  · split
    · exact ⟨{ seals with }, labels⟩
    · exact ⟨seals, labels⟩
  have accepted : b.Sealable → after.graph.verify = .ok ⟨⟩ := fun h =>
    (seals.closed (h.arms arms)).verify_eq_ok (seals.listed h.listed h.late) (seals.whole h.whole)
  refine .get ?_
  dsimp only
  split
  · next verified => exact ⟨dests, mid, last, seals, labels, verified⟩
  · next f failed => exact ⟨fun h => (by cases failed.symm.trans (accepted h)), .inl ⟨f, rfl⟩⟩
  · next v failed =>
    exact ⟨fun h => (by cases failed.symm.trans (accepted h)),
      .inr ⟨dests, mid, last, _, v, seals, failed, _, rfl, rfl⟩⟩

end Build

end FlowIR

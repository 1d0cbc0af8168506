import FlowIR.Proofs.Build.Path
import FlowIR.Proofs.Emit.Stmt

/-!
The calls and the landing pads of the code of a program.

Emitting code is a sequence of changes of the function (`Counts`), which leaves alone what encloses the code. The
calls that are listed on the way are those of the program, those behind missing values left out. Inside of parts
whose exceptions go to landing pads they unwind to the pad of the innermost part. Each part has a pad of its own, which
is the landing pad in front of the clause that takes its exceptions (`Routes`). Control blocks, cleanups and returns
add no calls but those of the routine that raises a kept exception again.
-/

namespace FlowIR

open Build List

/-! ### Where calls unwind to -/

/-- Whether the step is no call and neither begins nor ends a part with a landing pad. -/
def Event.isQuiet : Event → Bool
  | .call _ | .enter | .leave | .land _ => false
  | _ => true

/-- Inside of these landing pads, the innermost one first, the steps of a program list these calls and landing pads, in
order. The routine that raises exceptions again may be called in between. -/
inductive Routes (again : String) : (pads : List BlockId) → List Event → List Site → Prop where
  | nil : Routes again pads [] []
  | step {e : Event} (quiet : e.isQuiet = true) (rest : Routes again pads n sites) : Routes again pads (e :: n) sites
  | call {i : InstrId} {x : BlockId} (rest : Routes again pads n sites) :
      Routes again pads (.call callee :: n) (⟨i, x, .call callee pads.head?⟩ :: sites)
  -- Behind a part comes the landing pad that its calls unwind to, and behind that its clause.
  | part {i : InstrId} (inner : Routes again (pad :: pads) n sites) (rest : Routes again pads m others) :
      Routes again pads (padded kind n ++ m) (sites ++ ⟨i, pad, .land kind⟩ :: others)
  -- A landing pad and a check can also come before the part.
  | deferral {i : InstrId} (check : Routes again pads l checks) (inner : Routes again (pad :: pads) n sites)
      (rest : Routes again pads m others) :
      Routes again pads (.land kind :: (l ++ enclosed n) ++ m) (⟨i, pad, .land kind⟩ :: (checks ++ sites) ++ others)
  | again {i : InstrId} {x : BlockId} (target : Option BlockId) (rest : Routes again pads n sites) :
      Routes again pads n (⟨i, x, .call again target⟩ :: sites)

namespace Routes

variable {again : String} {pads : List BlockId} {n m : List Event} {sites others : List Site}

theorem append (h : Routes again pads n sites) (k : Routes again pads m others) :
    Routes again pads (n ++ m) (sites ++ others) := by
  induction h with
  | nil => exact k
  | step quiet _ ih => exact .step quiet (ih k)
  | call _ ih => exact .call (ih k)
  | part inner _ _ ih =>
    rw [append_assoc, append_assoc, cons_append]
    exact .part inner (ih k)
  | deferral check inner _ _ _ ih =>
    rw [append_assoc, append_assoc]
    exact .deferral check inner (ih k)
  | again target _ ih => exact .again target (ih k)

theorem of_quiet (h : n.all Event.isQuiet = true) : Routes again pads n [] := by
  induction n with
  | nil => exact .nil
  | cons e n ih =>
    rw [all_cons, Bool.and_eq_true] at h
    exact .step h.1 (ih h.2)

/-- Other functions are called as often as in the program. -/
theorem countP_eq {f : String} (h : Routes again pads n sites) (other : again ≠ f) :
    sites.countP (·.mark.isCall f) = n.countP (Event.isCall f) := by
  induction h with
  | nil => rfl
  | @step _ _ _ e quiet _ ih =>
    have none : e.isCall f = false := by cases e <;> first | rfl | cases quiet
    rw [ih, countP_cons_of_neg (Bool.eq_false_iff.mp none)]
  | call _ ih => simp [countP_cons, ih, Event.isCall]
  | part _ _ ih ih' => simp [ih, ih']
  | deferral _ _ _ ih ih' ih'' => simp [ih, ih', ih'', Event.isCall]
  | again _ _ ih => simp [ih, other]

end Routes

/-! ### The judgment -/

/-- What stays when code is emitted. -/
structure Cursor.Stays (c after : Cursor) : Prop where
  options : after.builder.options = c.builder.options
  pads : after.pads = c.pads

theorem Cursor.Stays.trans {c mid after : Cursor} (h : c.Stays mid) (k : mid.Stays after) : c.Stays after :=
  ⟨k.options.trans h.options, k.pads.trans h.pads⟩

/-- At the cursor, if its block is laid out, emitting the code changes the function step by step and leaves alone
where exceptions go. `Q` holds of the result, and of the calls and landing pads that are listed. -/
def Counts {α : Type} (x : EmitM α) (c : Cursor) (Q : α → List Site → Prop) : Prop :=
  c.current ∈ c.builder.graph.layout → Ensures x c (fun a after => after.current ∈ after.builder.graph.layout ∧
    c.Stays after ∧ ∃ ops, c.builder.Path ops after.builder ∧ Q a (ops.filterMap Entry.site?)) fun _ _ => True

abbrev Silent {α : Type} (x : EmitM α) : Prop := ∀ c : Cursor, Counts x c fun _ sites => sites = []

section Rules

variable {α β : Type} {c : Cursor} {P : α → List Site → Prop} {Q : β → List Site → Prop}
  {x : EmitM α} {g : α → EmitM β}

theorem Counts.mono {R : α → List Site → Prop} (h : Counts x c P)
    (hq : ∀ a sites, P a sites → R a sites) : Counts x c R :=
  fun laid => (h laid).imp fun a _ ⟨laid', stays, ops, path, p⟩ => ⟨laid', stays, ops, path, hq a _ p⟩

/-- What else is known behind the first part can be used for the second. -/
theorem Counts.bind_of {K : α → Cursor → Prop} {E : Halt BuildError → Cursor → Prop} (first : Counts x c P)
    (known : Ensures x c K E) (second : ∀ a mid sites, c.Stays mid → K a mid → P a sites →
      Counts (g a) mid fun b more => Q b (sites ++ more)) : Counts (x >>= g) c Q := by
  intro laid
  refine Ensures.bind (((first laid).and known).mono (fun _ _ both => both) fun _ _ _ => trivial)
    fun a mid ⟨⟨laid', stays, ops, path, p⟩, holds⟩ => ?_
  refine (second a mid _ stays holds p laid').imp fun b after ⟨laid'', stays', more, path', q⟩ => ?_
  refine ⟨laid'', stays.trans stays', ops ++ more, path.trans path', ?_⟩
  rwa [filterMap_append]

theorem Counts.bind (first : Counts x c P) (second : ∀ a mid sites, c.Stays mid → P a sites →
      Counts (g a) mid fun b more => Q b (sites ++ more)) : Counts (x >>= g) c Q := by
  have nothing : Ensures x c (fun _ _ => True) fun _ _ => True := by
    unfold Ensures
    split <;> trivial
  exact first.bind_of nothing fun a mid sites stays _ => second a mid sites stays

theorem Counts.pure {a : α} (p : P a []) : Counts (pure a) c P := fun laid => ⟨laid, ⟨rfl, rfl⟩, [], .refl _, p⟩

theorem Counts.get {g : Cursor → EmitM α} (h : Counts (g c) c P) : Counts (get >>= g) c P := h

theorem Counts.builder {g : Builder → EmitM α} (h : Counts (g c.builder) c P) : Counts (Emit.builder >>= g) c P := h

theorem Counts.fail (span : Span) (cause : Cause) : Counts (Emit.fail span cause : EmitM α) c P := fun _ =>
  ensures_lift.mpr trivial

theorem Counts.checked {x : Checked α} (h : ∀ a, x = .ok a → P a []) : Counts (liftM x : EmitM α) c P :=
  fun laid => ensures_checked.mpr ⟨fun a run => ⟨laid, ⟨rfl, rfl⟩, [], .refl _, h a run⟩, fun _ _ => trivial⟩

theorem Silent.bind (first : Silent x) (second : ∀ a mid, c.Stays mid → Counts (g a) mid Q) : Counts (x >>= g) c Q :=
  (first c).bind fun a mid _ stays none => (second a mid stays).mono fun _ _ q => by rwa [none, nil_append]

/-- Code without calls in sequence. -/
theorem Silent.then (first : Silent x) (second : ∀ a, Silent (g a)) :
    Silent (x >>= g) := fun _ => first.bind fun a mid _ => second a mid

theorem Silent.pure {a : α} : Silent (pure a) := fun _ => .pure rfl

end Rules

/-! ### Operations on the function that list no call and no landing pad -/

/-- The function has changed, and no call and no landing pad has been listed. -/
def Builder.Hushed (b after : Builder) : Prop := ∃ ops, b.Path ops after ∧ ops.filterMap Entry.site? = []

def Hushes {α : Type} (x : BuildM α) (b : Builder) : Prop :=
  Ensures x b (fun _ after => b.Hushed after) fun _ _ => True

theorem Silent.lift {α : Type} {x : BuildM α} (h : ∀ b, Hushes x b) : Silent (liftM x : EmitM α) :=
  fun c laid => ensures_lift.mpr (Ensures.imp (h c.builder) fun _ _ ⟨ops, path, silent⟩ =>
    ⟨path.layout laid, ⟨path.terms.2.2, rfl⟩, ops, path, silent⟩)

namespace Builder.Hushed

variable {b mid after : Builder}

theorem refl (b : Builder) : b.Hushed b := ⟨[], .refl b, rfl⟩

theorem trans (h : b.Hushed mid) (k : mid.Hushed after) : b.Hushed after := by
  obtain ⟨ops, path, none⟩ := h
  obtain ⟨more, path', none'⟩ := k
  exact ⟨ops ++ more, path.trans path', by rw [filterMap_append, none, none', append_nil]⟩

theorem of_path (h : b.Path [] after) : b.Hushed after := ⟨[], h, rfl⟩

theorem layout (h : b.Hushed after) {x : BlockId} (hx : x ∈ b.graph.layout) : x ∈ after.graph.layout := by
  obtain ⟨ops, path, -⟩ := h
  exact path.layout hx

end Builder.Hushed

namespace Hushes

variable {α β : Type} {b : Builder} {x : BlockId} {instr : Instr}

theorem bind {op : BuildM α} {rest : α → BuildM β} (first : Hushes op b)
    (second : ∀ a mid, b.Hushed mid → Hushes (rest a) mid) : Hushes (op >>= rest) b :=
  ensures_bind.mpr (Ensures.imp first fun a mid hushed => Ensures.imp (second a mid hushed)
    fun _ _ more => hushed.trans more)

theorem pure (a : α) : Hushes (pure a) b := Builder.Hushed.refl b

theorem get {rest : Builder → BuildM α} (h : Hushes (rest b) b) : Hushes (get >>= rest) b := h

theorem fail (span : Span) (cause : Cause) : Hushes (fail span cause : BuildM α) b := trivial

theorem checked (op : Checked α) : Hushes (liftM op : BuildM α) b :=
  ensures_checked.mpr ⟨fun _ _ => .refl b, fun _ _ => trivial⟩

/-- The operation is a single change. -/
theorem change {f : Builder → α × Builder} (step : b.Step [] (f b).2) : Hushes (modifyGet f : BuildM α) b :=
  .of_path step.path

/-- The labels, the names and the like are changed. -/
theorem note {f : Builder → Builder} (code : (f b).code = b.code) (names : b.names.Before (f b).names) :
    Hushes (modify f : BuildM PUnit) b :=
  .of_path (Builder.Step.note code names).path

theorem relabels {op : BuildM α} {Q : α → Builder → Prop} (h : Build.Relabels op b Q) : Hushes op b :=
  Ensures.mono h (fun _ _ k => .of_path k.1.path) fun _ _ _ => trivial

/-- A loop that finds what it needs again after each round. -/
theorem forM {γ : Type} {op : γ → BuildM PUnit} {P : γ → Builder → Prop}
    (stays : ∀ a b after, P a b → b.Hushed after → P a after) (step : ∀ a b, P a b → Hushes (op a) b) :
    ∀ (l : List γ) (b : Builder), (∀ a ∈ l, P a b) → Hushes (l.forM op) b
  | [], _, _ => .pure _
  | a :: l, b, all => (step a b (all a mem_cons_self)).bind fun _ mid hushed =>
      forM stays step l mid fun c hc => stays c b mid (all c (mem_cons_of_mem _ hc)) hushed

/-- An instruction is made and listed. Its placeholders may be recorded. -/
theorem append {make : BuildM InstrId} {labels : LabelTable} (made : make b = .ok ⟨b.graph.instrs.size⟩
      { b with graph := (b.graph.newInstr instr).2, labels }) (laid : x ∈ b.graph.layout)
    (plain : instr.op.isAlloca = false) (other : instr.op.mark? = none) {rest : InstrId → BuildM α}
    (h : ∀ i mid, b.Hushed mid → Hushes (rest i) mid) :
    Hushes (do
      let i ← make
      append x i
      rest i) b := by
  refine .after made ?_
  refine ensures_bind.mpr (ensures_onGraph.mpr ⟨fun g run => ?_, fun _ _ => trivial⟩)
  have noted : Builder.Step { b with graph := g } [] { b with graph := g, labels } := .note rfl (.refl _)
  have hushed : b.Hushed _ := ⟨_, (Builder.Step.emit laid plain run).path.snoc noted, by simp [Entry.site?, other]⟩
  exact Ensures.imp (h _ _ hushed) fun _ _ more => hushed.trans more

end Hushes

namespace Build

variable {b : Builder} {x : BlockId}

theorem fresh_hushes (tag : String) : Hushes (fresh tag) b := .change (.note rfl (.fresh _ tag))

theorem newTemporary_hushes (ty : Ty) (tag : String) : Hushes (newTemporary ty tag) b :=
  (fresh_hushes tag).bind fun name mid _ => .of_run (newSlot_eq mid ty.shape name)
    (.of_path (Builder.Step.slot rfl).path)

theorem returnSlot_hushes : Hushes returnSlot b := by
  refine .get ?_
  split
  · exact .pure _
  · exact .get ((newTemporary_hushes _ _).bind fun _ _ _ => (Hushes.note rfl (.refl _)).bind fun _ _ _ => .pure _)

theorem loadThrough_hushes (laid : x ∈ b.graph.layout) (ptr : Operand) (shape : Shape) :
    Hushes (loadThrough x ptr shape) b := by
  unfold loadThrough newCast
  rw [bind_assoc]
  refine (fresh_hushes _).bind fun _ _ hushed₁ => ?_
  refine .append rfl (hushed₁.layout laid) rfl rfl fun cast _ hushed₂ => ?_
  refine (fresh_hushes _).bind fun _ _ hushed₃ => ?_
  exact .append rfl (hushed₃.layout (hushed₂.layout (hushed₁.layout laid))) rfl rfl fun _ _ _ => .pure _

/-- What precedes a return calls nothing. -/
theorem prepareReturn_hushes (laid : x ∈ b.graph.layout) (value : Option Operand) (span : Span) :
    Hushes (prepareReturn x value span) b := by
  refine .get ?_
  dsimp only
  split
  · exact .pure _
  · refine (Hushes.checked _).bind fun _ _ hushed => (Hushes.checked _).bind fun _ _ hushed' => ?_
    exact .append rfl (hushed'.layout (hushed.layout laid)) rfl rfl fun _ _ _ => .pure _
  · split
    · exact (loadThrough_hushes laid _ _).bind fun _ _ _ => .pure _
    · exact .pure _
  · exact .fail _ _

end Build

/-! ### Code without calls and landing pads -/

namespace Emit

variable {c : Cursor}

/-- Looking at the end of the block changes nothing. -/
theorem ended_counts {α : Type} {Q : α → List Site → Prop} {g : Bool → EmitM α}
    (h : ∀ b, (b = true ↔ c.graph.Ends c.current) → Counts (g b) c Q) : Counts (isTerminated >>= g) c Q := fun laid =>
  ensures_bind.mpr (.get (ensures_checked.mpr
    ⟨fun b run => h b (Graph.isTerminated_eq_ok run) laid, fun _ _ => trivial⟩))

theorem newBlock_silent (tag : String) : Silent (liftM (newBlock tag) : EmitM BlockId) := fun c laid =>
  have path : c.builder.Path [] (c.builder.addBlock tag) := (Builder.Step.block tag).path
  ensures_lift.mpr (.of_run rfl ⟨laid, ⟨path.terms.2.2, rfl⟩, [], path, rfl⟩)

theorem fresh_silent (tag : String) : Silent (liftM (fresh tag) : EmitM String) := .lift fun _ => fresh_hushes tag

theorem startBlock_silent (x : BlockId) : Silent (startBlock x) := fun c _ =>
  have path : c.builder.Path [] { c.builder with graph := c.builder.graph.attach x } := (Builder.Step.attach x).path
  ensures_bind.mpr (ensures_lift.mpr ⟨Graph.mem_layout_attach.mpr (.inr rfl),
    ⟨path.terms.2.2, rfl⟩, [], path, rfl⟩)

theorem ensureOpen_silent : Silent ensureOpen := fun c => by
  refine ended_counts fun ended _ => ?_
  split
  · exact (newBlock_silent _).then startBlock_silent c
  · exact .pure rfl

/-- An instruction is listed in the current block, whether or not that has ended. -/
theorem enlist_counts {instr : Instr} (plain : instr.op.isAlloca = false) : Counts (do
    let i ← (liftM (newTracked instr) : EmitM InstrId)
    append (← get).current i
    return i) c fun _ sites => ∃ i, sites = (instr.op.mark?.map (⟨i, c.current, ·⟩)).toList := by
  intro laid
  refine ensures_bind.mpr (ensures_lift.mpr (.of_run (a := ⟨c.builder.graph.instrs.size⟩) rfl ?_))
  refine .get (ensures_bind.mpr (ensures_lift.mpr (ensures_onGraph.mpr
    ⟨fun g run => ?_, fun _ _ => trivial⟩)))
  have noted : Builder.Step { c.builder with graph := g } [] { c.builder with
      graph := g
      labels := (instr.op.operands.filterMap (·.placeholder?)).foldl
        (fun t p => t.recordUse p ⟨c.builder.graph.instrs.size⟩) c.builder.labels } :=
    .note rfl (.refl _)
  have path := (Builder.Step.emit laid plain run).path.snoc noted
  refine ⟨path.layout laid, ⟨path.terms.2.2, rfl⟩, _, path, ⟨c.builder.graph.instrs.size⟩, ?_⟩
  rw [append_nil, filterMap_cons, filterMap_nil]
  unfold Entry.site?
  cases instr.op.mark? <;> rfl

/-- An instruction is listed, in the current block unless that has ended. -/
theorem push_counts {instr : Instr} (plain : instr.op.isAlloca = false) :
    Counts (push instr) c fun _ sites => ∃ i x, (¬ c.graph.Ends c.current → x = c.current) ∧
      sites = (instr.op.mark?.map (⟨i, x, ·⟩)).toList := by
  unfold push ensureOpen
  rw [bind_assoc]
  refine ended_counts fun ended ends => ?_
  split
  · next stops =>
    refine Silent.bind ((newBlock_silent _).then startBlock_silent) fun _ mid _ => ?_
    exact (enlist_counts plain).mono fun _ _ ⟨i, listed⟩ =>
      ⟨i, mid.current, fun goes => absurd (ends.mp stops) goes, listed⟩
  · exact (enlist_counts plain).mono fun _ _ ⟨i, listed⟩ => ⟨i, c.current, fun _ => rfl, listed⟩

theorem push_silent {instr : Instr} (plain : instr.op.isAlloca = false) (other : instr.op.mark? = none) :
    Silent (push instr) := fun _ =>
  (push_counts plain).mono fun _ _ ⟨_, _, _, listed⟩ => by rw [listed, other]; rfl

theorem named_silent (tag : String) {op : Op} (plain : op.isAlloca = false) (other : op.mark? = none)
    (shape : Shape) : Silent (named tag op shape) :=
  (fresh_silent tag).then fun _ => (push_silent plain other).then fun _ => .pure

theorem perform_silent {op : Op} (plain : op.isAlloca = false) (other : op.mark? = none) :
    Silent (perform op) := push_silent plain other

theorem branchTo_silent (x : BlockId) : Silent (branchTo x) := fun c => by
  refine ended_counts fun ended _ => ?_
  split
  · exact .pure rfl
  · exact (perform_silent rfl rfl).then (fun _ => .pure) c

/-! ### What encloses code -/

section Enclosing

variable {α : Type} {Q : α → List Site → Prop}

theorem withPad_counts {pad : BlockId} {code : EmitM α} (h : Counts code { c with pads := pad :: c.pads } Q) :
    Counts (withPad pad code) c Q := fun laid =>
  .modify ((h laid).bind fun _ _ ⟨laid', stays, made⟩ =>
    .modify ⟨laid', ⟨stays.options, congrArg tail stays.pads⟩, made⟩)

theorem withExit_counts {exit : BlockId} {code : EmitM α} (h : Counts code { c with exits := exit :: c.exits } Q) :
    Counts (withExit exit code) c Q := fun laid =>
  .modify ((h laid).bind fun _ _ ⟨laid', stays, made⟩ => .modify ⟨laid', ⟨stays.options, stays.pads⟩, made⟩)

theorem withCleanup_counts {block : BlockId} {flag : Operand} {code : EmitM Unit} {P : List Site → Prop}
    (h : Counts code { c with cleanups := { block, flag } :: c.cleanups } fun _ => P) :
    Counts (withCleanup block flag code) c fun _ => P := fun laid =>
  .modify ((h laid).bind fun _ _ ⟨laid', stays, made⟩ =>
    .get (ensures_bind.mpr (ensures_modify.mpr ⟨laid', ⟨stays.options, stays.pads⟩, made⟩)))

end Enclosing

/-! ### Variables, calls and returns -/

theorem lookupVar_silent (v : VarId) (span : Span) : Silent (lookupVar v span) := fun c => by
  refine .builder ?_
  split
  · exact .pure rfl
  · exact .fail _ _

/-- A call unwinds to the innermost pad. -/
theorem callInstr_counts (callee : String) (args : List Operand) (shape : Shape) (name : Option String) :
    Counts (callInstr callee args shape name) c fun _ sites =>
      ∃ i x, sites = [⟨i, x, .call callee c.pads.head?⟩] := by
  refine .get ?_
  split
  · next pad found =>
    refine (newBlock_silent _).bind fun _ _ _ => (push_counts rfl).bind ?_
    rintro _ _ _ _ ⟨i, x, -, listed⟩
    refine (startBlock_silent _).bind fun _ _ _ => .pure ⟨i, x, ?_⟩
    rw [listed, found]
    rfl
  · next found =>
    refine (push_counts rfl).bind ?_
    rintro _ _ _ _ ⟨i, x, -, listed⟩
    refine .pure ⟨i, x, ?_⟩
    rw [listed, found]
    rfl

/-- In an empty block a landing pad comes first. -/
theorem startPad_counts {x : BlockId} (empty : c.graph.body x = []) (kind : PadKind) :
    Counts (do startBlock x; landingPad kind) c fun _ sites => ∃ i, sites = [⟨i, x, .land kind⟩] := by
  refine (startBlock_silent x c).bind_of (K := fun _ mid => mid.current = x ∧ mid.graph.body x = [])
    (E := fun _ _ => True) (ensures_bind.mpr (ensures_lift.mpr ⟨rfl, Graph.body_attach.trans empty⟩)) ?_
  rintro - c₁ sites - ⟨here, still⟩ rfl
  refine ((fresh_silent "ex") c₁).bind_of (K := fun _ mid => mid.current = x ∧ mid.graph.body x = [])
    (E := fun _ _ => True) (ensures_lift.mpr ⟨here, still⟩) ?_
  rintro name c₂ sites - ⟨here, still⟩ rfl
  refine (push_counts rfl).bind fun _ _ _ _ ⟨i, y, there, listed⟩ => .pure ⟨i, ?_⟩
  have goes : ¬ c₂.graph.Ends c₂.current := fun ⟨j, op, last, _⟩ => by
    rw [here, still] at last
    cases last
  rw [listed, there goes, here]
  rfl

theorem leaveWith_silent (operand : Option Operand) (span : Span) : Silent (leaveWith operand span) := by
  refine ensureOpen_silent.then fun _ => Silent.then (x := do
    let c ← get
    liftM (prepareReturn c.current operand span)) (fun c laid => ?_) fun _ =>
      (perform_silent rfl rfl).then fun _ => .pure
  refine .get (ensures_lift.mpr ?_)
  exact Ensures.mono (prepareReturn_hushes laid operand span)
    (fun _ _ ⟨ops, path, silent⟩ => ⟨path.layout laid, ⟨path.terms.2.2, rfl⟩, ops, path, silent⟩) fun _ _ _ => trivial

theorem placeLabel_silent (l : LabelId) (span : Span) : Silent (placeLabel l span) := by
  intro c laid
  refine ensures_bind.mpr (ensures_lift.mpr (Ensures.mono (defineLabel_relabels l span)
    (fun x mid ⟨relabels, here⟩ => ?_) fun _ _ _ => trivial))
  have path := relabels.path
  refine (branchTo_silent x { c with builder := mid } (path.layout laid)).bind
    fun _ after ⟨_, stays, ops, path', count⟩ => ?_
  exact ⟨path'.layout here, ⟨stays.options.trans path.terms.2.2, stays.pads⟩, _, path.trans path', count⟩

end Emit

/-! ### All code -/

/-- What is listed is what the steps say. -/
def Routed (c : Cursor) (n : List Event) (sites : List Site) : Prop := Routes c.builder.options.rethrow c.pads n sites

theorem Routed.of_stays {c mid : Cursor} {n : List Event} {sites : List Site} (h : Routed mid n sites)
    (stays : c.Stays mid) : Routed c n sites := by
  unfold Routed at h
  rwa [stays.options, stays.pads] at h

/-- Where a sound function provides what the code needs, the code lists what the steps say. -/
def Lists {α : Type} (Λ : List BlockId) (Γ : List Fact) (x : EmitM α) (P : α → Prop) (n : List Event) : Prop :=
  ∀ owed su (c : Cursor), c.Provides owed su Λ Γ → Counts x c fun a sites => P a ∧ Routed c n sites

theorem Silent.lists {α : Type} {x : EmitM α} {Λ : List BlockId} {Γ : List Fact} {n : List Event} (h : Silent x)
    (quiet : n.all Event.isQuiet = true) : Lists Λ Γ x Any n := fun _ _ c _ =>
  (h c).mono fun _ _ none => ⟨trivial, none ▸ .of_quiet quiet⟩

/-- The calls of two parts are those of the first, then those of the second. -/
theorem Lists.bind {α β : Type} {k : Bool} {Λ Λ' : List BlockId} {Γ : List Fact} {P : α → Prop} {R : β → Prop}
    {Δ : α → List Fact} {n m : List Event} {code : EmitM α} {f : α → EmitM β} (first : Lists Λ Γ code P n)
    (lays : Lays Λ Γ k code P Δ) (second : ∀ a, P a → Lists Λ' (Δ a ++ Fact.after k Γ) (f a) R m) :
    Lists (Λ ++ Λ') Γ (code >>= f) R (n ++ m) := by
  intro owed su c h
  refine (first owed su c h.first).bind_of (lays owed su c h.first) ?_
  rintro a mid sites stays ⟨su', grows, sound, kept, idle, -, -, facts⟩ ⟨holds, listed⟩
  refine (second a holds owed su' mid (h.second grows sound kept idle facts)).mono ?_
  exact fun b more made => ⟨made.1, listed.append (made.2.of_stays stays)⟩

namespace Emit

section Parts

variable {α : Type} {k : Bool} {Λ : List BlockId} {Γ : List Fact} {n m : List Event} {x t : BlockId}

/-- A part of the code is emitted inside of a new pad. -/
theorem withPad_lists {code : EmitM α} (inner : Lists [] [] code Any n) {owed : BlockId → Prop} {su : Supply}
    {c : Cursor} (sound : c.Sound owed su) (waits : Awaits owed su true x Nothing) :
    Counts (withPad x code) c fun _ sites => Routes c.builder.options.rethrow (x :: c.pads) n sites := by
  have inside : ({ c with pads := x :: c.pads } : Cursor).Sound owed su :=
    { sound with pads := forall_mem_cons.mpr ⟨waits, sound.pads⟩ }
  exact (withPad_counts (inner owed su _ (.of_sound inside))).mono fun _ _ made => made.2

/-- The landing pad behind a part is the one that its calls unwind to. -/
theorem part_lists {code : EmitM Unit} (kind : PadKind) (waits : .unwind x ∈ Γ) (next : .block t ∈ Γ)
    (inner : Lists [] [] code Any n) (lays : Lays [] [] k code Any fun _ => []) :
    Lists [x] Γ (do withPad x code; branchTo t; startBlock x; landingPad kind) Any (padded kind n) := by
  intro owed su c h
  have counted : Counts (do withPad x code; branchTo t) c fun _ sites =>
      Routes c.builder.options.rethrow (x :: c.pads) n sites :=
    (withPad_lists inner h.sound (h.known _ waits)).bind fun _ mid _ _ made =>
      (branchTo_silent t mid).mono fun _ _ none => by rwa [none, append_nil]
  have laid : Lays [] Γ false (do withPad x code; branchTo t) Any fun _ => [] :=
    (lays_withPad waits lays).bind (Θ := [])
      (fun _ _ => lays_branchTo (k := false) (.inl (by simpa using next))) (by rintro ⟨⟩)
  rw [← bind_assoc]
  refine counted.bind_of (laid owed su c (h.first (Λ := []))) ?_
  rintro _ mid sites stays ⟨su', grows, sound, kept, idle, -⟩ made
  have rest := h.second (Λ := []) (Δ := []) grows sound kept idle (by simp)
  refine (startPad_counts (rest.empty (by simpa using waits) (by simp)) kind).mono fun _ more ⟨i, listed⟩ =>
    ⟨trivial, ?_⟩
  rw [listed, ← append_nil (padded kind n)]
  exact .part made .nil

/-- The landing pad in front of a check is the one that the calls of the part behind the check unwind to. -/
theorem deferral_lists {check : EmitM Unit} {code : EmitM α} (kind : PadKind) (waits : .unwind x ∈ Γ)
    (middle : Lists Λ (Fact.after false Γ) check Any m)
    (lays : Lays Λ (Fact.after false Γ) false check Any fun _ => []) (inner : Lists [] [] code Any n) :
    Lists (x :: Λ) Γ (do startBlock x; let _ ← landingPad kind; check; withPad x code) Any
      (.land kind :: (m ++ enclosed n)) := by
  intro owed su c h
  rw [← bind_assoc]
  refine (startPad_counts (h.empty waits (by simp)) kind).bind_of
    (lays_startPad kind waits owed su c (h.first (Λ := [x]))) ?_
  rintro _ mid _ stays ⟨su₁, grows₁, sound₁, kept₁, idle₁, -, -, facts₁⟩ ⟨i, rfl⟩
  have next := h.second (Λ := [x]) grows₁ sound₁ kept₁ idle₁ facts₁
  replace next := next.with_known fun f hf => next.known f (mem_append_right _ hf)
  refine (middle owed su₁ mid next).bind_of (lays owed su₁ mid next) ?_
  rintro _ mid' checks stays' ⟨su₂, grows₂, sound₂, kept₂, idle₂, -, -, facts₂⟩ ⟨-, checked⟩
  have last := (Λ.append_nil.symm ▸ next).second grows₂ sound₂ kept₂ idle₂ facts₂
  refine (withPad_lists inner sound₂ (last.known (.unwind x) (by simpa using waits))).mono
    fun _ more made => ⟨trivial, ?_⟩
  rw [(stays.trans stays').options, (stays.trans stays').pads] at made
  have whole : Routes _ _ (.land kind :: (m ++ enclosed n) ++ []) (⟨i, x, .land kind⟩ :: (checks ++ more) ++ []) :=
    .deferral (checked.of_stays stays) made .nil
  rwa [append_nil, append_nil] at whole

end Parts

/-- Code that is put together by the rules makes the calls and the landing pads that it lists, and no others. -/
theorem counts_code {i r k : Bool} {Λ : List BlockId} {Γ : List Fact} {α : Type} {x : EmitM α} {P : α → Prop}
    {Δ : α → List Fact} {n : List Event} (h : Code i r Λ Γ k x P Δ n) : Lists Λ Γ x P n := by
  have plain : ∀ {op : Op}, op.isOrdinary = true → op.mark? = none := fun {op} ordinary => by
    cases op <;> first | rfl | cases ordinary
  have calm : ∀ {Γ : List Fact} {n : List Event} {ok : Bool}, Tells Γ n ok → n.all Event.isQuiet = true :=
    fun tells => by cases tells <;> rfl
  induction h with
  | pure holds _ => exact fun _ _ _ _ => .pure ⟨holds, .nil⟩
  | bind code _ _ first second => exact first.bind (lays_code code) second
  | conseq _ facts holds _ _ ih =>
    exact fun owed su c h => (ih owed su c (h.with_known fun f hf => (facts f hf).sound h.known)).mono
      fun a _ made => ⟨holds a made.1, made.2⟩
  | keeping _ ih =>
    exact fun owed su c h => ih (fun v _ => c.Has su v) h.within owed su c (h.cons fun _ _ => id)
  | fail span _ => exact fun _ _ _ _ => .fail span _
  | checked tells => exact fun _ _ _ _ => .checked fun _ run => ⟨run, .of_quiet (calm tells)⟩
  | shapeOf =>
    exact fun _ _ _ _ => .builder (.checked fun _ run => ⟨Graph.shapeOf_eq_bytePtr run, .nil⟩)
  | result _ _ ih => exact fun owed su c h => .builder (ih c.builder owed su c (h.cons trivial))
  | ended _ ih => exact fun owed su c h => ended_counts fun b _ => ih b owed su c h
  | cleanup eq _ _ inside outside =>
    refine fun owed su c h => .get ?_
    rw [eq]
    split
    · next found => exact inside _ owed su c (h.cleanup found)
    · exact outside owed su c (h.cons trivial)
  | pad eq _ _ inside outside =>
    refine fun owed su c h => .get ?_
    rw [eq]
    split
    · next found => exact inside _ owed su c (h.pad found)
    · exact outside owed su c h
  | exit span eq _ inside =>
    refine fun owed su c h => .get ?_
    rw [eq]
    split
    · next found =>
      refine (inside _ owed su c (h.exit found)).mono fun _ _ made => ⟨made.1, ?_⟩
      exact .step rfl made.2
    · exact .fail span _
  | lookupVar v span => exact (lookupVar_silent v span).lists rfl
  | updateVar v slot => exact Silent.lists (.lift fun _ => .note rfl (.refl _)) rfl
  | newTemporary ty tag => exact (Silent.lift fun _ => newTemporary_hushes ty tag).lists rfl
  | returnSlot => exact (Silent.lift fun _ => returnSlot_hushes).lists rfl
  | named tag shape _ ordinary =>
    exact (named_silent tag (Op.isAlloca_of_isOrdinary ordinary) (plain ordinary) _).lists rfl
  | perform ordinary => exact (perform_silent (Op.isAlloca_of_isOrdinary ordinary) (plain ordinary)).lists rfl
  | call shape =>
    refine fun _ _ _ _ => (callInstr_counts _ _ shape _).mono ?_
    rintro _ _ ⟨_, _, rfl⟩
    exact ⟨trivial, .call .nil⟩
  | namedCall tag shape =>
    refine fun _ _ _ _ => (fresh_silent tag).bind fun _ mid stays => (callInstr_counts _ _ shape _).mono ?_
    rintro _ _ ⟨_, _, rfl⟩
    rw [stays.pads]
    exact ⟨trivial, .call .nil⟩
  | rethrow =>
    refine fun _ _ _ _ => .builder ((push_counts rfl).mono ?_)
    rintro _ _ ⟨_, _, -, rfl⟩
    exact ⟨trivial, .again _ .nil⟩
  | newBlock tag role _ _ ih =>
    intro owed su c h
    obtain ⟨pad, more, meant⟩ := Fact.supply_of_role role
    refine (newBlock_silent tag c).bind_of (newBlock_made h.sound tag more pad) ?_
    rintro x mid _ stays ⟨su', grows, sound, made, awaits, idle⟩ rfl
    have provides := h.newBlock grows sound made (meant _ su' mid x awaits)
      (fun lands => idle x (.inr ⟨rfl, awaits.2.1.mp lands⟩)) fun y hy => idle y (.inl hy)
    exact (ih x _ su' mid provides).mono fun _ _ made => ⟨made.1, made.2.of_stays stays⟩
  | startBlock | startJoin => exact (startBlock_silent _).lists rfl
  | branchTo => exact (branchTo_silent _).lists rfl
  | returning _ ih => exact fun owed su c h => ih owed su c (h.cons trivial)
  | markReturns =>
    exact Silent.lists (fun c laid => ⟨laid, ⟨rfl, rfl⟩, [], .refl _, rfl⟩) rfl
  | leaveWith span => exact (leaveWith_silent _ span).lists rfl
  | markError => exact Silent.lists (.lift fun _ => .note rfl (.refl _)) rfl
  | addressOfLabel l span => exact (Silent.lift fun _ => .relabels (addressOfLabel_relabels l span)).lists rfl
  | goto l span =>
    exact Silent.lists (Silent.then (.lift fun _ => .relabels (labelBlock_relabels l span)) fun _ =>
      perform_silent rfl rfl) rfl
  | jump =>
    exact Silent.lists ((perform_silent rfl rfl).then fun i => .lift fun _ => .note rfl (.refl _)) rfl
  | placeLabel l span => exact (placeLabel_silent l span).lists rfl
  | part kind waits next code ih => exact part_lists kind waits next ih (lays_code code)
  | deferral kind waits middle _ ih ih' => exact deferral_lists kind waits ih (lays_code middle) ih'
  | withExit waits _ ih =>
    exact fun owed su c h => withExit_counts (ih owed su _ (h.inside
      { h.sound with exits := forall_mem_cons.mpr ⟨h.known _ waits, h.sound.exits⟩ } rfl rfl))
  | @withCleanup _ _ _ _ _ _ _ flag x _ stored waits _ _ ih =>
    intro owed su c h
    have inside : ({ c with cleanups := { block := x, flag } :: c.cleanups } : Cursor).Sound owed su :=
      { h.sound with cleanups := forall_mem_cons.mpr ⟨⟨h.known _ waits, h.known _ stored⟩, h.sound.cleanups⟩ }
    have counted := ih owed su _ (h.inside inside rfl rfl)
    exact (withCleanup_counts (P := Routed c _) (counted.mono fun _ _ made => made.2)).mono
      fun _ _ made => ⟨trivial, made⟩

/-- The code of a statement makes its calls, those behind missing values left out. -/
theorem stmt_counts (s : Stmt) {i : Bool} {owed : BlockId → Prop} {su : Supply} {c : Cursor} (h : c.Sound owed su) :
    Counts (stmt s) c fun _ sites => Routed c (s.events i) sites :=
  (counts_code (stmt_code (r := true) s fun _ => rfl) owed su c (.of_sound h)).mono fun _ _ made => made.2

end Emit

end FlowIR

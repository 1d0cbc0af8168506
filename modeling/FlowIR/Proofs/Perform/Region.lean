import FlowIR.Proofs.Perform.Switch

/-!
Regions and deferred calls.

An exception in a body that is shielded by a landing pad arrives at the pad (`Cursor.Shielded`), and the pad
hands it on to a handler or keeps it for the cleanup (`Cursor.Landed`).
-/

namespace FlowIR

open Machine Emit

variable {F : Frame} {S : Scene} {c mid after : Cursor} {m m' : Machine} {σ : State} {fuel : Nat}
  {watched : Option InstrId} {within : Bool} {code : EmitM Unit}

/-! ### Landing pads -/

theorem Scene.step_landingPad {S : Scene} {m : Machine} {k : InstrId} {shape : Shape} {name : Option String}
    {kind : PadKind} {exception : Nat} (hk : S.graph.instr k = .ok ⟨.landingPad kind, shape, name⟩)
    (inFlight : m.inFlight = some exception) :
    step S.graph S.args m k = .ok (.next, { m with inFlight := none }.keep k (tokenOf exception)) := by
  simp only [step, hk, inFlight, bind, Except.bind]
  rfl

structure Cursor.Landed (base c : Cursor) (pad : BlockId) (i : InstrId) (after : Cursor) : Prop
    extends base.Places c pad after where
  isOpen : after.Open
  runs : ∀ S : Scene, after.In S → ∀ fuel m exception (P : Config → Prop), S.Ready m →
    (∀ left m', left < fuel → S.Ready m' → S.Keeps (fun _ => False) c.graph.instrs.size m m' →
      m'.world = m.world → m'.eval S.args (.result i) = .ok (tokenOf exception) →
      S.Leads left (after.spot S m') P) →
    S.Leads fuel (.before pad (S.graph.body pad) { m with inFlight := some exception }) P

/-- A block that starts with its landing pad. -/
theorem landed_succeeds {base : Cursor} {pad : BlockId} (able : c.Able) (adds : base.Adds c) (waits : c.Waits pad)
    (new : base.graph.blocks.size ≤ pad.index) (kind : PadKind) :
    Succeeds (startBlock pad >>= fun _ => landingPad kind) c fun v after =>
      ∃ i, v = .result i ∧ base.Landed c pad i after := by
  refine (startBlock_succeeds able waits).bind fun _ c₁ enters => ?_
  have whole : (Op.landingPad kind).Whole := by rintro _ ⟨⟩
  refine (named_succeeds enters.able whole rfl "ex" .token).imp ?_
  rintro _ after ⟨i, name, rfl, pushed⟩
  have same : c₁.graph.instrs.size = c.graph.instrs.size := congrArg Array.size enters.instrs
  refine ⟨i, rfl, (enters.places adds new).then pushed.adds pushed.able, pushed.open_iff.mpr rfl,
    fun S inside fuel m exception P ready later => ?_⟩
  have inside₁ := inside.adds pushed.adds
  obtain ⟨_, found⟩ := pushed.there inside rfl
  rw [← Cursor.spot_of_starts inside₁ enters.starts]
  have ready' : S.Ready { m with inFlight := none } := ready.congr rfl rfl
  have keeps : S.Keeps (fun _ => False) c.graph.instrs.size m { m with inFlight := none } :=
    (Scene.Keeps.refl S _ _ m).congr rfl rfl
  refine pushed.next enters.starts.open inside (Scene.step_landingPad found rfl) fun left fewer _ => ?_
  exact later left _ fewer (ready'.keep (pushed.not_slot inside rfl rfl))
    (keeps.keep (Nat.le_of_eq (pushed.index.trans same).symm) _) rfl (ready'.eval_keep (pushed.below inside))

/-! ### Shielded code -/

section Surroundings

variable {pads : List BlockId} {pad x : BlockId}

theorem Cursor.Able.shielded (h : c.Able) (made : pad.index < c.graph.blocks.size) :
    ({ c with pads := pad :: c.pads } : Cursor).Able :=
  ⟨h.placed, h.entry, h.current, h.listed, h.late, List.forall_mem_cons.mpr ⟨made, h.pads⟩, h.cleanups⟩

theorem Cursor.Hosts.shielded (h : c.Hosts F) (made : pad.index < c.graph.blocks.size) :
    ({ c with pads := pad :: c.pads } : Cursor).Hosts F :=
  ⟨h.able.shielded made, h.declares, h.typed, h.apart, h.kept, h.own, h.flags, h.result, h.returns, h.rethrow⟩

end Surroundings

/-- The code of a statement whose exceptions arrive at a landing pad, and which goes on to `join`. -/
structure Cursor.Shielded (c : Cursor) (F : Frame) (pad join : BlockId) (s : Stmt) (after : Cursor) : Prop where
  able : after.Able
  adds : c.Adds after
  runs : c.Open → ∀ S : Scene, after.In S → ∀ watched fuel σ m, c.Meets F S watched fuel σ m →
    ({ c with pads := pad :: c.pads } : Cursor).Does F S watched after
      (fun m' t => t = .before join (S.graph.body join) m') fuel (c.spot S m) m s σ

/-- Code under a landing pad, with a branch to `join` behind it. -/
theorem shielded_ensures {pad join : BlockId} {s : Stmt} {β : Type}
    {f : Unit → EmitM β} {Q : β → Cursor → Prop} {distinct : Bool} (enacts : Enacts F s within code)
    (host : c.Hosts F) (exits : within = true → c.Leavable) (madePad : pad.index < c.graph.blocks.size)
    (madeJoin : join.index < c.graph.blocks.size) (part : s.isDistinct = false → distinct = false)
    (next : ∀ after, c.Shielded F pad join s after → s.isDistinct = true →
      Ensures (f ()) after Q fun e _ => e.IsDuplicate ∧ distinct = false) :
    Ensures (withPad pad code >>= fun _ => branchTo join >>= f) c Q
      fun e _ => e.IsDuplicate ∧ distinct = false := by
  unfold withPad
  refine ensures_bind.mpr (.modify ?_)
  refine enacts.bind (host.shielded madePad) exits part fun c₁ performs distinct' => ?_
  refine .modify (ensures_pure.mpr ?_)
  have pads : c₁.pads = pad :: c.pads := performs.adds.pads
  have able₂ : ({ c₁ with pads := c₁.pads.tail } : Cursor).Able :=
    ⟨performs.able.placed, performs.able.entry, performs.able.current, performs.able.listed, performs.able.late,
      fun x hx => performs.able.pads x (List.mem_of_mem_tail hx), performs.able.cleanups⟩
  have adds₂ : c.Adds { c₁ with pads := c₁.pads.tail } :=
    performs.adds.within ⟨rfl, rfl⟩ ⟨rfl, rfl⟩ (by rw [pads]; rfl) performs.adds.exits performs.adds.cleanups
  refine (branchTo_succeeds able₂ join).or fun _ after branches => next after ?_ distinct'
  refine ⟨branches.able, adds₂.trans branches.adds, fun isOpen S inside watched fuel σ m meets => ?_⟩
  have inside₁ : c₁.In S := inside.extends branches.adds.builder
  have run := performs.runs isOpen S inside₁ watched fuel σ m ⟨meets.toTracks, meets.slot, meets.bound⟩
  refine Cursor.Does.bind run (.refl _) (.refl _ _ _ _) ?_ ?_
  · rintro left σ' m' _ - - exec ⟨isOpen₁, rfl⟩ follows
    obtain ⟨i, pushed⟩ := branches.pushed isOpen₁
    have there := Nat.lt_of_lt_of_le madeJoin adds₂.blocks_le
    exact pushed.goes isOpen₁ inside there fun _ _ _ => .here ⟨.normal, σ', exec, m', rfl, follows⟩
  · intro exit σ' t early exec lands
    exact ⟨exit, σ', exec, lands.onward branches.adds.builder branches.adds.marked fun _ eq => absurd eq early⟩

/-- Shielded code ends with an exception that arrives at the pad, or as it would end without it. -/
theorem Cursor.Shielded.leads {pad join : BlockId} {s : Stmt} {P : Config → Prop} (h : c.Shielded F pad join s after)
    (isOpen : c.Open) (inside : after.In S) (meets : c.Meets F S watched fuel σ m)
    (caught : ∀ left exception σ' m', m'.world.lastException + left ≤ m.world.lastException + fuel →
      Exec s σ (.stopped (.raised exception)) σ' → (F.hides = true → exception < wordCount) →
      c.Proceeds F S watched m m' σ' →
      S.Leads left (.before pad (S.graph.body pad) { m' with inFlight := some exception }) P)
    (other : ∀ exit σ' t, exit.isRaised = false → Exec s σ exit σ' →
      c.Lands F S watched after (fun m' t => t = .before join (S.graph.body join) m') m exit σ' t → P t) :
    S.Leads fuel (c.spot S m) P := by
  refine Leads.bind (h.runs isOpen S inside watched fuel σ m meets) ?_
  rintro left t - bound ⟨exit, σ', exec, lands⟩
  by_cases raised : exit.isRaised = true
  · obtain ⟨exception, rfl⟩ := Exit.exists_of_isRaised raised
    obtain ⟨m', rfl, small, follows⟩ := lands
    exact caught left exception σ' m' bound exec small (follows.reframe rfl rfl)
  · exact .here (other exit σ' t (Bool.not_eq_true _ ▸ raised) exec
      (lands.reframe rfl rfl (fun h => absurd h raised) fun _ => rfl))

/-! ### Handlers -/

/-- A statement that is a region without clauses. -/
theorem enacts_bare {body : Stmt} (h : Enacts F body within code) :
    Enacts F (.attempt body none none) within code := by
  intro c host exits
  have distinct : (Stmt.attempt body none none).isDistinct = body.isDistinct := by rw [Stmt.isDistinct]
  rw [distinct]
  refine (h c host exits).mono ?_ fun _ _ failed => failed
  rintro _ after ⟨performs, distinct'⟩
  refine ⟨⟨performs.able, performs.adds, fun isOpen S inside watched fuel σ m meets => ?_⟩, distinct'⟩
  refine (performs.runs isOpen S inside watched fuel σ m meets).mono ?_
  rintro t ⟨exit, σ', exec, lands⟩
  exact ⟨exit, σ', .bare exec, lands⟩

/-- A run in which nothing that the program can see has changed. -/
theorem Cursor.Proceeds.trans {m'' : Machine} (h : c.Proceeds F S watched m m' σ) (host : c.Hosts F)
    (inside : c.In S) (watches : ∀ i, watched = some i → c.builder.returnSlot = some (.result i))
    (ready : S.Ready m'') (keeps : S.Keeps (fun _ => False) c.graph.instrs.size m' m'')
    (world : m''.world = m'.world) : c.Proceeds F S watched m m'' σ :=
  ⟨h.toTracks.keeps host inside watches ready keeps (fun _ no => no.elim) (world ▸ h.world),
    h.keeps.trans (keeps.widen fun _ no => no.elim)⟩

structure Cursor.Catches (base c : Cursor) (pad target : BlockId) (after : Cursor) : Prop
    extends base.Places c pad after where
  runs : ∀ S : Scene, after.In S → ∀ fuel m exception (P : Config → Prop), S.Ready m →
    (∀ left m', left < fuel → S.Ready m' → S.Keeps (fun _ => False) c.graph.instrs.size m m' →
      m'.world = m.world → S.Leads left (.before target (S.graph.body target) m') P) →
    S.Leads fuel (.before pad (S.graph.body pad) { m with inFlight := some exception }) P

/-- A landing pad that takes the exception and goes to the handler. -/
theorem catchInto_succeeds {base : Cursor} {pad target : BlockId} (able : c.Able) (adds : base.Adds c)
    (waits : c.Waits pad) (new : base.graph.blocks.size ≤ pad.index) (made : target.index < c.graph.blocks.size) :
    Succeeds (catchInto pad target) c fun _ after => base.Catches c pad target after := by
  unfold catchInto
  rw [← bind_assoc]
  refine (landed_succeeds able adds waits new .catchAll).bind ?_
  rintro _ c₁ ⟨i, rfl, landed⟩
  have whole : (Op.br target).Whole := by rintro _ ⟨⟩
  refine (perform_succeeds landed.able whole rfl).bind fun k after pushed => ?_
  refine ⟨landed.toPlaces.then pushed.adds pushed.able, fun S inside fuel m exception P ready later => ?_⟩
  refine landed.runs S (inside.adds pushed.adds) fuel m exception P ready fun left m' fewer ready' keeps world _ => ?_
  refine pushed.goes landed.isOpen inside (Nat.lt_of_lt_of_le made landed.builder.graph.size) fun left' fewer' _ => ?_
  exact later left' m' (Nat.lt_trans fewer' fewer) ready' keeps world

/-- A region with a handler and no cleanup. -/
theorem enacts_tryCatch {body handler : Stmt} {code handlerCode : EmitM Unit}
    (hb : Enacts F body within code) (hh : Enacts F handler within handlerCode) :
    Enacts F (.attempt body (some handler) none) within (tryCatch code handlerCode) := by
  intro c host exits
  have distinct : (Stmt.attempt body (some handler) none).isDistinct = (body.isDistinct && handler.isDistinct) := by
    rw [Stmt.isDistinct]
  unfold Emit.tryCatch
  refine newBlocks_ensures (Cursor.Idle.refl host.able).fresh _ _ _ fun pad block cont c₃ adds₃ fresh => ?_
  obtain ⟨⟨waitsPad, waitsBlock, waitsCont⟩, ⟨newPad, newBlock, newCont⟩, apartBlock, apartPad, apartCont⟩ :=
    fresh.three
  refine shielded_ensures hb (host.adds adds₃ fresh.able) (fun h => (exits h).adds adds₃) waitsPad.made
    waitsCont.made (fun twice => by rw [distinct, twice]; rfl) fun c₄ shielded distinctBody => ?_
  have adds₄ := adds₃.trans shielded.adds
  refine (catchInto_succeeds shielded.able adds₄ (waitsPad.adds shielded.adds) newPad
    (waitsBlock.adds shielded.adds).made).or fun _ c₅ catches => ?_
  have waitsCont₅ := catches.waits (waitsCont.adds shielded.adds) apartPad
  have waitsBlock₅ := catches.waits (waitsBlock.adds shielded.adds) apartBlock
  refine part_succeeds hh (host.adds catches.adds catches.able) (fun h =>
    (exits h).adds catches.adds) catches.adds waitsBlock₅
    newBlock waitsCont₅.made (fun twice => by rw [distinct, twice, Bool.and_false])
    fun c₆ handled distinctHandler => ?_
  refine (startBlock_succeeds handled.able (handled.waits waitsCont₅ apartCont)).mono ?_ fun _ _ h => h.elim
  intro _ after enters
  refine ⟨⟨enters.able, enters.adds c handled.adds newCont, fun isOpen S inside watched fuel σ m meets => ?_⟩,
    by rw [distinct, distinctBody, distinctHandler]; rfl⟩
  have inside₆ := inside.extends enters.builder
  have inside₅ := inside₆.extends handled.builder
  have inside₄ := inside₅.extends catches.builder
  have inside₃ := inside₄.adds shielded.adds
  have isOpen₃ : c₃.Open := fresh.isOpen isOpen
  have atCont : ∀ m'' t, t = Config.before cont (S.graph.body cont) m'' → after.Open ∧ t = after.spot S m'' :=
    fun m'' t eq => ⟨enters.starts.open, eq.trans (Cursor.spot_of_starts inside enters.starts).symm⟩
  have marks₄ : c₄.marked = true → after.marked = true := fun h =>
    enters.marked (handled.marked (catches.marked h))
  have grows₄ : c₄.builder.Extends after.builder :=
    catches.builder.trans (handled.builder.trans enters.builder)
  rw [← fresh.spot S m]
  refine shielded.leads isOpen₃ inside₄ (meets.adds adds₃) ?_ ?_
  · -- The exception arrives at the pad, which hands over to the handler.
    intro left exception σ₁ m₁ bound exec _ follows
    have follows' := follows.since adds₃ (.refl _ _ _ _)
    refine catches.runs S inside₅ left m₁ exception _ follows.ready fun left' m₂ fewer' ready keeps world => ?_
    have follows₂ := follows'.trans host (inside₃.adds adds₃) meets.slot ready (keeps.below adds₄.instrs_le) world
    have bound' : m₂.world.lastException + left' ≤ m.world.lastException + fuel := by
      rw [world]
      exact Nat.le_trans (Nat.add_le_add_left (Nat.le_of_lt fewer') _) bound
    refine (handled.runs S inside₆ watched left' σ₁ m₂ (meets.next follows₂.toTracks bound')).mono ?_
    rintro t ⟨exit', σ₂, exec', lands'⟩
    refine ⟨exit', σ₂, .caught exec exec', ?_⟩
    exact (lands'.since (.refl c) follows₂.keeps).onward enters.builder enters.marked
      fun m'' _ reached => atCont m'' t reached
  · intro exit σ₁ t other exec lands
    refine ⟨exit, σ₁, .uncaught exec other, ?_⟩
    exact (lands.since adds₃ (.refl _ _ _ _)).onward grows₄ marks₄ fun m'' _ reached => atCont m'' t reached

/-! ### Deferred calls -/

/-- What calling an epilogue comes to: the end of its code, or the landing pad that shields it. -/
def Cursor.Called (c : Cursor) (F : Frame) (S : Scene) (watched : Option InstrId) (pad : BlockId) (epilogue : Expr)
    (goal : Machine → Config → Prop) (m : Machine) (σ : State) (t : Config) : Prop :=
  (∃ m' w, epilogue.perform σ.vars σ.world = .ok () w ∧ goal m' t ∧
    c.Proceeds F S watched m m' { σ with world := w }) ∨
  ∃ stop w, epilogue.perform σ.vars σ.world = .error stop w ∧
    ({ c with pads := pad :: c.pads } : Cursor).Lands F S watched c goal m (.stopped stop) { σ with world := w } t

/-- The loop of a deferred call: whenever the call raises, the check runs and the call is made again. Each round
takes steps, so the induction is on the steps that are left. -/
theorem Cursor.Does.deferred {c₁ c₂ c₃ : Cursor} {pad block finish : BlockId} {span : Span} {epilogue : Expr}
    {check : Stmt} {goal : Machine → Config → Prop} (host : c.Hosts F) (inside : c₃.In S) (adds : c.Adds c₁)
    (catches : c.Catches c₁ pad block c₂) (checked : c.Part c₂ F block finish check c₃)
    (grows : c₃.builder.Extends after.builder) (marks : c₃.marked = true → after.marked = true)
    (called : ∀ fuel σ m, c.Meets F S watched fuel σ m → S.Leads fuel (.before finish (S.graph.body finish) m)
      (c.Called F S watched pad epilogue goal m σ)) :
    ∀ (fuel : Nat) (σ : State) (m : Machine), c.Meets F S watched fuel σ m →
      c.Does F S watched after goal fuel (.before finish (S.graph.body finish) m) m (.defer span epilogue check) σ := by
  intro fuel
  induction fuel using Nat.strongRecOn with
  | ind fuel ih =>
    intro σ m meets
    have inside₂ := inside.extends checked.builder
    refine Leads.bind (called fuel σ m meets) ?_
    rintro left t fewer bound (⟨m', w, run, reached, follows⟩ | ⟨stop, w, run, lands⟩)
    · exact .here ⟨.normal, _, .deferred run, m', reached, follows⟩
    cases stop with
    | fault f => exact .here ⟨_, _, .deferFaults run, lands⟩
    | raised exception =>
      obtain ⟨m₁, eq, -, follows⟩ := lands
      have follows : c.Proceeds F S watched m m₁ { σ with world := w } := follows.reframe rfl rfl
      have arrived : t = .before pad (S.graph.body pad) { m₁ with inFlight := some exception } := eq
      subst arrived
      refine catches.runs S inside₂ left m₁ exception _ follows.ready fun left₂ m₂ fewer₂ ready keeps world => ?_
      have follows₂ := follows.trans host ((inside₂.extends catches.builder).adds adds) meets.slot ready
        (keeps.below adds.instrs_le) world
      have bound₂ : m₂.world.lastException + left₂ ≤ m.world.lastException + fuel := by
        rw [world]
        exact Nat.le_trans (Nat.add_le_add_left (Nat.le_of_lt fewer₂) _) bound
      refine Cursor.Does.bind (checked.runs S inside watched left₂ _ m₂ (meets.next follows₂.toTracks bound₂))
        (.refl c) follows₂.keeps ?_ ?_
      · rintro left₃ σ₃ m₃ _ fewer₃ bound₃ exec rfl follows₃
        have less : left₃ < fuel := by omega
        refine (ih left₃ less σ₃ m₃ (meets.next follows₃.toTracks (Nat.le_trans bound₃ bound₂))).mono ?_
        rintro t ⟨exit, σ₄, exec', lands⟩
        exact ⟨exit, σ₄, .deferAgain run exec exec', lands.since (.refl c) follows₃.keeps⟩
      · intro exit σ₃ t early exec lands
        exact ⟨exit, σ₃, .deferLeaves run exec early, lands.onward grows marks fun _ eq => absurd eq early⟩

/-- A deferred call and its check. -/
theorem enacts_defer {span : Span} {epilogue : Expr} {check : Stmt}
    (isCall : epilogue.isCall = true) (effect : epilogue.isEffect F.types = true)
    (quiet : epilogue.isQuiet F.hides = true) (hc : Enacts F check within code) :
    Enacts F (.defer span epilogue check) within (deferred epilogue code span) := by
  intro c host exits
  have distinct : (Stmt.defer span epilogue check).isDistinct = check.isDistinct := by rw [Stmt.isDistinct]
  have plain : epilogue.isError = false := by
    cases epilogue <;> first | rfl | cases isCall
  unfold deferred
  rw [plain, isCall, if_neg Bool.false_ne_true]
  simp only [Bool.not_true, Bool.false_eq_true, if_false]
  refine newBlocks_ensures (Cursor.Idle.refl host.able).fresh _ _ _ fun pad block finish c₃ adds₃ fresh => ?_
  obtain ⟨⟨waitsPad, waitsBlock, waitsFinish⟩, ⟨newPad, newBlock, newFinish⟩, apartBlock, apartPad, apartFinish⟩ :=
    fresh.three
  refine (branchTo_succeeds fresh.able finish).or fun _ c₄ branches => ?_
  have adds₄ := adds₃.trans branches.adds
  refine (catchInto_succeeds branches.able adds₄ (waitsPad.adds branches.adds) newPad
    (waitsBlock.adds branches.adds).made).or fun _ c₅ catches => ?_
  have waitsFinish₅ := catches.waits (waitsFinish.adds branches.adds) apartPad
  have waitsBlock₅ := catches.waits (waitsBlock.adds branches.adds) apartBlock
  refine part_succeeds hc (host.adds catches.adds catches.able) (fun h =>
    (exits h).adds catches.adds) catches.adds waitsBlock₅
    newBlock waitsFinish₅.made (fun twice => by rw [distinct, twice]) fun c₆ checked distinctCheck => ?_
  refine (startBlock_succeeds checked.able (checked.waits waitsFinish₅ apartFinish)).or fun _ c₇ enters => ?_
  have adds₇ : c.Adds c₇ := enters.adds c checked.adds newFinish
  have madePad : pad.index < c₇.graph.blocks.size := by
    have le' := (catches.builder.trans (checked.builder.trans enters.builder)).graph.size
    exact Nat.lt_of_lt_of_le (waitsPad.adds branches.adds).made le'
  have host₇ := (host.adds adds₇ enters.able).shielded madePad
  unfold withPad
  refine ensures_bind.mpr (.modify ?_)
  refine (expr_effect host₇.able host₇.declares effect).or ?_
  rintro _ c₈ ⟨flows, runs⟩
  refine .modify (ensures_pure.mpr (ensures_pure.mpr ?_))
  have pads : c₈.pads = pad :: c₇.pads := flows.adds.pads
  have able : ({ c₈ with pads := c₈.pads.tail } : Cursor).Able :=
    ⟨flows.able.placed, flows.able.entry, flows.able.current, flows.able.listed, flows.able.late,
      fun x hx => flows.able.pads x (List.mem_of_mem_tail hx), flows.able.cleanups⟩
  have adds₈ : c₇.Adds { c₈ with pads := c₈.pads.tail } :=
    flows.adds.within ⟨rfl, rfl⟩ ⟨rfl, rfl⟩ (by rw [pads]; rfl) flows.adds.exits flows.adds.cleanups
  refine ⟨⟨able, adds₇.trans adds₈, fun isOpen S inside watched fuel σ m meets => ?_⟩,
    by rw [distinct, distinctCheck]⟩
  have inside₈ : c₈.In S := ⟨inside.graph, inside.entry⟩
  have inside₇ : c₇.In S := inside.adds adds₈
  have inside₆ := inside₇.extends enters.builder
  have inside₄ := (inside₆.extends checked.builder).extends catches.builder
  have isOpen₃ : c₃.Open := fresh.isOpen isOpen
  obtain ⟨i, pushed⟩ := branches.pushed isOpen₃
  rw [← fresh.spot S m]
  refine pushed.goes isOpen₃ inside₄ waitsFinish.made fun left fewer _ => ?_
  refine Cursor.Does.deferred host inside₆ adds₄ catches checked (enters.builder.trans adds₈.builder)
    (fun h => adds₈.marked (enters.marked h)) ?_ left σ m (meets.fewer (Nat.le_of_lt fewer))
  -- One round: the call is made at the start of its block.
  intro fuel σ m meets
  rw [← Cursor.spot_of_starts inside₇ enters.starts]
  have meets₇ := meets.adds adds₇
  have round := runs enters.starts.open S inside₈ fuel σ.vars m meets.ready meets.holds
  have keeps : S.Keeps (c.Touches F) c.graph.instrs.size m m := .refl _ _ _ _
  refine Cursor.Meets.evaluate (c := { c₇ with pads := pad :: c₇.pads })
    ⟨meets₇.toTracks, meets₇.slot, meets₇.bound⟩ host₇ ⟨inside₇.graph, inside₇.entry⟩ (Expr.honest_perform quiet)
    round ?_ ?_
  · intro left' _ m' w _ run meets' keeps' _
    have follows : c₇.Proceeds F S watched m m' { σ with world := w } :=
      ⟨meets'.toTracks, keeps'.widen fun _ no => no.elim⟩
    exact .here (.inl ⟨m', w, run, ⟨flows.isOpen enters.starts.open, rfl⟩, follows.since adds₇ keeps⟩)
  · intro stop w t run lands
    refine .inr ⟨stop, w, run, ?_⟩
    have shielded : ({ c with pads := pad :: c.pads } : Cursor).Adds { c₇ with pads := pad :: c₇.pads } :=
      adds₇.within ⟨rfl, rfl⟩ ⟨rfl, rfl⟩ (by rw [adds₇.pads]) adds₇.exits adds₇.cleanups
    exact (lands c _).since shielded keeps

end FlowIR

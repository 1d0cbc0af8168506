import FlowIR.Proofs.Perform.Cleanup

/-!
Regions with a cleanup.

The body and the handler of such a region are guarded: where they come to their end, raise an exception or
return, the run arrives at the cleanup with what has to be taken up again behind it (`Cursor.Guards`). The
cleanup is then run as any other statement, and its end goes on as the flag says.
-/

namespace FlowIR

open Machine Emit List

variable {F : Frame} {S : Scene} {c mid after : Cursor} {m m' : Machine} {σ : State} {fuel : Nat}
  {watched : Option InstrId}

/-! ### Keeping an exception -/

/-- A landing pad that keeps the exception and enters a cleanup. -/
structure Cursor.Stows (base c : Cursor) (pad : BlockId) (kept flag : InstrId) (block : BlockId) (after : Cursor) :
    Prop extends base.Places c pad after where
  runs : ∀ S : Scene, after.In S → ∀ fuel m exception (P : Config → Prop), S.Ready m →
    (∀ left m', left < fuel → S.Ready m' → S.Keeps (fun j => j = kept ∨ j = flag) c.graph.instrs.size m m' →
      m'.world = m.world → S.cell m' kept = tokenOf exception →
      S.cell m' flag = Ty.i8.encode Emit.Reason.reraise.code →
      S.Leads left (.before block (S.graph.body block) m') P) →
    S.Leads fuel (.before pad (S.graph.body pad) { m with inFlight := some exception }) P

/-- The landing pad of a cleanup keeps the exception and enters the cleanup. -/
theorem cleanUpRaised_succeeds {base : Cursor} {pad block : BlockId} {kept flag : InstrId} (able : c.Able)
    (adds : base.Adds c) (waits : c.Waits pad) (new : base.graph.blocks.size ≤ pad.index) (stores : c.Stores kept)
    (hop : c.graph.op? flag = some (.alloca .i8)) (apart : flag ≠ kept) (made : block.index < c.graph.blocks.size) :
    Succeeds (cleanUpRaised pad (.result kept) (.result flag) block) c fun _ after =>
      base.Stows c pad kept flag block after := by
  unfold cleanUpRaised
  rw [← bind_assoc]
  refine (landed_succeeds able adds waits new .cleanup).bind ?_
  rintro _ c₁ ⟨i, rfl, landed⟩
  have whole : (Op.store (.result i) (.result kept)).Whole := by
    rintro v (_ | ⟨_, _ | ⟨_, ⟨⟩⟩⟩) <;> rfl
  have hopKept := landed.op? stores.op?
  have hopFlag := landed.op? hop
  refine (perform_succeeds landed.able whole rfl).bind fun k c₂ stored => ?_
  refine (enterCleanup_succeeds stored.able .reraise (stored.adds.op? hopFlag)
    (Nat.lt_of_lt_of_le made (Nat.le_trans landed.builder.graph.size stored.adds.blocks_le))).imp ?_
  intro _ after enters
  refine ⟨(landed.toPlaces.then stored.adds stored.able).then enters.adds enters.able, ?_⟩
  intro S inside fuel m exception P ready later
  have inside₂ := inside.adds enters.adds
  have inside₁ := inside₂.adds stored.adds
  have slotKept : S.graph.Slot kept := ⟨_, inside₁.slot hopKept, rfl⟩
  have slotFlag : S.graph.Slot flag := ⟨_, inside₁.slot hopFlag, rfl⟩
  refine landed.runs S inside₁ fuel m exception P ready fun left m₁ fewer ready₁ keeps₁ world₁ token => ?_
  refine stored.store landed.isOpen inside₂ hopKept ready₁ token (by rw [size_tokenOf]; rfl)
    (by rw [size_tokenOf]; decide) fun left' fewer' _ ready₂ => ?_
  refine enters.runs (stored.open_iff.mpr rfl) S inside left' _ P ready₂ fun left'' fewer'' ready₃ => ?_
  have keeps : S.Keeps (fun j => j = kept ∨ j = flag) c.graph.instrs.size m _ :=
    ((keeps₁.widen fun _ no => no.elim).put slotKept (.inr (.inl rfl)) (tokenOf exception)).put slotFlag
      (.inr (.inr rfl)) (Ty.i8.encode Emit.Reason.reraise.code)
  refine later left'' _ (Nat.lt_trans fewer'' (Nat.lt_trans fewer' fewer)) ready₃ keeps world₁ ?_ ?_
  · rw [Scene.cell_put_ne slotFlag slotKept apart.symm]
    exact ready₁.cell_put slotKept
  · exact ready₂.cell_put slotFlag

/-! ### Guarded code -/

/-- The surroundings of code whose returns have to pass through a cleanup. -/
def Cursor.guarding (c : Cursor) (block : BlockId) (flag : InstrId) : Cursor :=
  { c with cleanups := { block, flag := .result flag } :: c.cleanups }

/-- The slots of a cleanup have been made, and belong to nothing else. -/
structure Cursor.Fitted (c : Cursor) (F : Frame) (flag kept : InstrId) : Prop where
  hop : c.graph.op? flag = some (.alloca .i8)
  stores : c.Stores kept
  apart : flag ≠ kept
  ownFlag : c.Private F flag
  ownKept : c.Private F kept

section Guarding

variable {block : BlockId} {flag kept : InstrId}

theorem Cursor.Fitted.retains (h : c.Fitted F flag kept) (retains : c.Retains after) : after.Fitted F flag kept where
  hop := retains.op? h.hop
  stores := h.stores.retains retains
  apart := h.apart
  ownFlag := h.ownFlag.retains retains (Graph.index_lt_of_op? h.hop)
  ownKept := h.ownKept.retains retains (Graph.index_lt_of_op? h.stores.op?)

/-- A slot that has just been made is private. -/
theorem Cursor.Reserves.private {shape : Shape} {i : InstrId} (h : c.Reserves shape i after) (host : c.Hosts F) :
    after.Private F i := by
  refine ⟨fun v t known eq => ?_, fun eq => ?_⟩
  · have below := host.declares.below known
    rw [eq, h.index] at below
    exact Nat.lt_irrefl _ below
  · obtain ⟨_, eq', hop⟩ := host.kept _ (h.returnSlot ▸ eq)
    cases eq'
    have below := Graph.index_lt_of_op? hop
    rw [h.index] at below
    exact Nat.lt_irrefl _ below

theorem Cursor.Fitted.guarding (h : c.Fitted F flag kept) : (c.guarding block flag).Fitted F flag kept :=
  ⟨h.hop, h.stores, h.apart, h.ownFlag, h.ownKept⟩

theorem Cursor.Hosts.guarding (h : c.Hosts F) (fitted : c.Fitted F flag kept)
    (made : block.index < c.graph.blocks.size) : (c.guarding block flag).Hosts F where
  able := ⟨h.able.placed, h.able.entry, h.able.current, h.able.listed, h.able.late, h.able.pads,
    forall_mem_cons.mpr ⟨⟨made, flag, rfl, fitted.hop⟩, h.able.cleanups⟩⟩
  declares := h.declares
  typed := h.typed
  apart := h.apart
  kept := h.kept
  own := h.own
  flags := forall_mem_cons.mpr ⟨fun j eq => by cases eq; exact fitted.ownFlag, h.flags⟩
  result := h.result
  returns := h.returns
  rethrow := h.rethrow

theorem Cursor.Adds.guarding (h : c.Adds after) (same : after.cleanups = c.cleanups) :
    (c.guarding block flag).Adds (after.guarding block flag) := by
  refine h.within ⟨rfl, rfl⟩ ⟨rfl, rfl⟩ h.pads h.exits ?_
  unfold Cursor.guarding
  rw [same]
  exact .refl _

/-- What guarded code leaves as it is, seen from outside the guard. -/
theorem Cursor.Proceeds.unguarded (h : (c.guarding block flag).Proceeds F S watched m m' σ)
    (new : c.graph.instrs.size ≤ flag.index) : c.Proceeds F S watched m m' σ := by
  refine ⟨h.toTracks, h.keeps.mono (Nat.le_refl _) ?_⟩
  rintro j old (var | slot | ⟨k, head, eq⟩)
  · exact .inl var
  · exact .inr (.inl slot)
  · cases head
    cases eq
    exact absurd old (Nat.not_lt.mpr new)

end Guarding

/-- Where the run of guarded code goes on, by how the code was left. -/
def Cursor.Arrives (c : Cursor) (F : Frame) (S : Scene) (watched : Option InstrId) (after : Cursor)
    (flag kept : InstrId) (finok block : BlockId) (m : Machine) : Exit → State → Config → Prop
  | .normal, σ, t => ∃ m', t = .before finok (S.graph.body finok) m' ∧ c.Proceeds F S watched m m' σ
  | .stopped (.raised exception), σ, t => ∃ m', t = .before block (S.graph.body block) m' ∧
      c.Proceeds F S watched m m' σ ∧ S.cell m' flag = Ty.i8.encode Emit.Reason.reraise.code ∧
      S.cell m' kept = tokenOf exception ∧ (F.hides = true → exception < wordCount)
  | .stopped (.fault f), _, t => t = .over (.error f)
  | .returned _, σ, t => c.Leaves F S watched after m σ t
  | .left, _, _ => False

section Arriving

variable {finok block pad : BlockId} {flag kept : InstrId} {exit : Exit} {t : Config} {s : Stmt}

theorem Cursor.Lands.arrives
    (h : c.Lands F S watched mid (fun m' t => t = .before finok (S.graph.body finok) m') m exit σ t)
    (grows : mid.builder.Extends after.builder) (marks : mid.marked = true → after.marked = true)
    (other : exit.isRaised = false) (stays : exit ≠ .left) :
    c.Arrives F S watched after flag kept finok block m exit σ t := by
  cases exit with
  | normal => exact h
  | left => exact absurd rfl stays
  | returned v => exact Cursor.Leaves.seen (fun _ k => k) rfl grows marks h
  | stopped stop =>
    cases stop with
    | raised exception => cases other
    | fault f => exact h

theorem Cursor.Arrives.since (h : c.Arrives F S watched after flag kept finok block m' exit σ t)
    (keeps : S.Keeps (c.Touches F) c.graph.instrs.size m m') :
    c.Arrives F S watched after flag kept finok block m exit σ t := by
  cases exit with
  | normal =>
    obtain ⟨m'', eq, follows⟩ := h
    exact ⟨m'', eq, follows.since (.refl c) keeps⟩
  | left => exact h
  | returned v => exact Cursor.Leaves.seen (fun _ k => k.since (.refl c) keeps) rfl (.refl _) id h
  | stopped stop =>
    cases stop with
    | raised exception =>
      obtain ⟨m'', eq, follows, rest⟩ := h
      exact ⟨m'', eq, follows.since (.refl c) keeps, rest⟩
    | fault f => exact h

/-- Code that is shielded by a landing pad which keeps the exception. -/
theorem Cursor.Shielded.arrives {base : Cursor} (shielded : c.Shielded F pad finok s mid)
    (stows : base.Stows mid pad kept flag block after) (host : c.Hosts F) (fitted : c.Fitted F flag kept)
    (adds : base.Adds c) (newFlag : base.graph.instrs.size ≤ flag.index)
    (newKept : base.graph.instrs.size ≤ kept.index) (isOpen : c.Open) (inside : after.In S)
    (meets : c.Meets F S watched fuel σ m) (stays : ∀ σ', ¬ Exec s σ .left σ') :
    S.Leads fuel (c.spot S m) fun t => ∃ exit σ', Exec s σ exit σ' ∧
      base.Arrives F S watched after flag kept finok block m exit σ' t := by
  have insideMid := inside.extends stows.builder
  have insideC := insideMid.adds shielded.adds
  refine shielded.leads isOpen insideMid meets ?_ ?_
  · intro left exception σ₁ m₁ _ exec small follows₁
    refine stows.runs S inside left m₁ exception _ follows₁.ready fun left' m₂ _ ready keeps world token told => ?_
    refine .here ⟨_, σ₁, exec, m₂, rfl, ⟨?_, ?_⟩, told, token, small⟩
    · refine follows₁.toTracks.keeps host insideC meets.slot ready (keeps.below shielded.adds.instrs_le) ?_
        (world ▸ follows₁.world)
      rintro j (rfl | rfl)
      · exact fitted.ownKept
      · exact fitted.ownFlag
    · refine (follows₁.since adds (.refl _ _ _ _)).keeps.trans
        (keeps.mono (adds.trans shielded.adds).instrs_le ?_)
      rintro j old (rfl | rfl)
      · exact absurd old (Nat.not_lt.mpr newKept)
      · exact absurd old (Nat.not_lt.mpr newFlag)
  · intro exit σ₁ t other exec lands
    refine ⟨exit, σ₁, exec, ?_⟩
    exact (lands.since adds (.refl _ _ _ _)).arrives stows.builder stows.marked other fun eq =>
      stays σ₁ (eq ▸ exec)

end Arriving

/-- Guarded code can be emitted at the cursor. The region that it belongs to started at `base`. -/
structure Cursor.Prepared (base c : Cursor) (F : Frame) (flag kept : InstrId) (finok block : BlockId) : Prop where
  host : c.Hosts F
  fitted : c.Fitted F flag kept
  adds : base.Adds c
  newFlag : base.graph.instrs.size ≤ flag.index
  newKept : base.graph.instrs.size ≤ kept.index
  madeEnd : finok.index < c.graph.blocks.size
  made : block.index < c.graph.blocks.size

structure Cursor.Guards (base c : Cursor) (F : Frame) (flag kept : InstrId) (finok block : BlockId) (s : Stmt)
    (after : Cursor) : Prop extends c.Retains after where
  able : after.Able
  adds : base.Adds after
  runs : c.Open → ∀ S : Scene, after.In S → ∀ watched fuel σ m, c.Meets F S watched fuel σ m →
    S.Leads fuel (c.spot S m) fun t => ∃ exit σ', Exec s σ exit σ' ∧
      base.Arrives F S watched after flag kept finok block m exit σ' t

section Guarded

variable {base : Cursor} {finok block pad : BlockId} {flag kept : InstrId} {body handler : Stmt}
  {code handlerCode : EmitM Unit}

/-- Other blocks have been filled in the meantime. -/
theorem Cursor.Prepared.retains (h : base.Prepared c F flag kept finok block) (host : after.Hosts F)
    (adds : base.Adds after) (retains : c.Retains after) : base.Prepared after F flag kept finok block :=
  ⟨host, h.fitted.retains retains, adds, h.newFlag, h.newKept, Nat.lt_of_lt_of_le h.madeEnd retains.builder.graph.size,
    Nat.lt_of_lt_of_le h.made retains.builder.graph.size⟩

/-- A guarded body without a handler. -/
theorem guarded_bare (hb : Enacts F body false code) (ready : base.Prepared c F flag kept finok block)
    (waits : c.Waits pad) (new : base.graph.blocks.size ≤ pad.index) (stays : ∀ σ σ', ¬ Exec body σ .left σ') :
    Ensures (guarded code none pad finok block (.result flag) (.result kept)) c
      (fun _ after => base.Guards c F flag kept finok block (.attempt body none none) after ∧
        (∀ y, c.Waits y → y ≠ pad → after.Waits y) ∧ body.isDistinct = true)
      fun e _ => e.IsDuplicate ∧ body.isDistinct = false := by
  unfold guarded
  refine shielded_ensures hb ready.host (by rintro ⟨⟩) waits.made ready.madeEnd id fun c₁ shielded distinct => ?_
  have fitted₁ := ready.fitted.retains shielded.adds.retains
  refine (cleanUpRaised_succeeds shielded.able (ready.adds.trans shielded.adds) (waits.adds shielded.adds) new
    fitted₁.stores fitted₁.hop fitted₁.apart (Nat.lt_of_lt_of_le ready.made shielded.adds.blocks_le)).mono ?_
    fun _ _ no => no.elim
  intro _ after stows
  refine ⟨⟨shielded.adds.retains.trans stows.toRetains, stows.able, stows.adds, ?_⟩, ?_, distinct⟩
  · intro isOpen S inside watched fuel σ m meets
    refine (shielded.arrives stows ready.host ready.fitted ready.adds ready.newFlag ready.newKept isOpen inside meets
      fun σ' => stays σ σ').mono ?_
    rintro t ⟨exit, σ', exec, arrives⟩
    exact ⟨exit, σ', .bare exec, arrives⟩
  · exact fun y hy ne => stows.waits (hy.adds shielded.adds) ne

/-- A guarded body with a handler: the body raises to the handler, the handler to the cleanup. -/
theorem guarded_handled {blocks : Emit.HandlerBlocks} (hb : Enacts F body false code)
    (hh : Enacts F handler false handlerCode) (ready : base.Prepared c F flag kept finok block)
    (fresh : [blocks.pad, blocks.handler, pad].Nodup)
    (waits : ∀ x ∈ [blocks.pad, blocks.handler, pad], c.Waits x ∧ base.graph.blocks.size ≤ x.index)
    (stays : ∀ σ σ', ¬ Exec body σ .left σ') (staysHandler : ∀ σ σ', ¬ Exec handler σ .left σ') :
    Ensures (guarded code (some (handlerCode, blocks)) pad finok block (.result flag) (.result kept)) c
      (fun _ after => base.Guards c F flag kept finok block (.attempt body (some handler) none) after ∧
        (∀ y, c.Waits y → y ∉ [blocks.pad, blocks.handler, pad] → after.Waits y) ∧
        body.isDistinct = true ∧ handler.isDistinct = true)
      fun e _ => e.IsDuplicate ∧ (body.isDistinct && handler.isDistinct) = false := by
  simp only [forall_mem_cons] at waits
  obtain ⟨⟨waitsOther, newOther⟩, ⟨waitsHandler, newHandler⟩, ⟨waitsPad, newPad⟩, -⟩ := waits
  simp only [nodup_cons, mem_cons, not_mem_nil, or_false, not_or] at fresh
  obtain ⟨⟨otherHandler, otherPad⟩, handlerPad, -⟩ := fresh
  unfold guarded
  refine shielded_ensures hb ready.host (by rintro ⟨⟩) waitsPad.made ready.madeEnd
    (fun twice => by rw [twice]; rfl) fun c₁ shielded distinct => ?_
  have adds₁ := ready.adds.trans shielded.adds
  refine (catchInto_succeeds shielded.able adds₁ (waitsPad.adds shielded.adds) newPad
    (waitsHandler.adds shielded.adds).made).or fun _ c₂ catches => ?_
  have waitsHandler₂ := catches.waits (waitsHandler.adds shielded.adds) handlerPad
  refine (startBlock_succeeds catches.able waitsHandler₂).or fun _ c₃ enters => ?_
  have places := enters.places catches.adds newHandler
  have retains₃ : c.Retains c₃ := shielded.adds.retains.trans (catches.toRetains.trans places.toRetains)
  have ready₃ : base.Prepared c₃ F flag kept finok block :=
    ready.retains (places.hosts (catches.hosts (ready.host.adds shielded.adds shielded.able))) places.adds retains₃
  have waitsOther₃ : c₃.Waits blocks.pad :=
    places.waits (catches.waits (waitsOther.adds shielded.adds) otherPad) otherHandler
  refine shielded_ensures hh ready₃.host (by rintro ⟨⟩) waitsOther₃.made ready₃.madeEnd
    (fun twice => by rw [twice, Bool.and_false]) fun c₄ shielded' distinct' => ?_
  have fitted₄ := ready₃.fitted.retains shielded'.adds.retains
  refine (cleanUpRaised_succeeds shielded'.able (ready₃.adds.trans shielded'.adds)
    (waitsOther₃.adds shielded'.adds) newOther fitted₄.stores fitted₄.hop fitted₄.apart
    (Nat.lt_of_lt_of_le ready₃.made shielded'.adds.blocks_le)).mono ?_ fun _ _ no => no.elim
  intro _ after stows
  have retains' : c₃.Retains after := shielded'.adds.retains.trans stows.toRetains
  have grows₁ : c₁.builder.Extends after.builder := catches.builder.trans (places.builder.trans retains'.builder)
  have marks₁ : c₁.marked = true → after.marked = true := fun h =>
    stows.marked (shielded'.adds.marked (places.marked (catches.marked h)))
  refine ⟨⟨retains₃.trans retains', stows.able, stows.adds, ?_⟩, ?_, distinct, distinct'⟩
  · intro isOpen S inside watched fuel σ m meets
    have inside₃ := (inside.extends stows.builder).adds shielded'.adds
    have inside₂ := inside₃.extends places.builder
    have inside₁ := inside₂.extends catches.builder
    have inside₀ := inside₁.adds shielded.adds
    refine shielded.leads isOpen inside₁ meets ?_ ?_
    · intro left exception σ₁ m₁ bound exec _ follows₁
      refine catches.runs S inside₂ left m₁ exception _ follows₁.ready fun left' m₂ fewer' ready' keeps world => ?_
      have follows₂ := follows₁.trans ready.host inside₀ meets.slot ready' (keeps.below shielded.adds.instrs_le) world
      have bound' : m₂.world.lastException + left' ≤ m.world.lastException + fuel := by
        rw [world]
        exact Nat.le_trans (Nat.add_le_add_left (Nat.le_of_lt fewer') _) bound
      have meets₃ : c₃.Meets F S watched left' σ₁ m₂ :=
        (meets.next follows₂.toTracks bound').extends retains₃.builder
      rw [← Cursor.spot_of_starts inside₃ enters.starts]
      refine (shielded'.arrives stows ready₃.host ready₃.fitted ready₃.adds ready₃.newFlag ready₃.newKept
        enters.starts.open inside meets₃ fun σ' => staysHandler σ₁ σ').mono ?_
      rintro t ⟨exit, σ', exec', arrives⟩
      exact ⟨exit, σ', .caught exec exec', arrives.since (follows₂.since ready.adds (.refl _ _ _ _)).keeps⟩
    · intro exit σ₁ t other exec lands
      refine ⟨exit, σ₁, .uncaught exec other, ?_⟩
      exact (lands.since ready.adds (.refl _ _ _ _)).arrives grows₁ marks₁ other fun eq => stays σ σ₁ (eq ▸ exec)
  · intro y hy others
    simp only [mem_cons, not_mem_nil, or_false, not_or] at others
    obtain ⟨neOther, neHandler, nePad⟩ := others
    exact stows.waits ((places.waits (catches.waits (hy.adds shielded.adds) nePad) neHandler).adds shielded'.adds)
      neOther

end Guarded

/-! ### Cleanups -/

section Finishing

variable {finok block cont : BlockId} {flag kept j : InstrId} {cleanup : Stmt} {code : EmitM Unit}

/-- A statement that is emitted after private slots were made changes none of them. -/
theorem Cursor.Private.untouched (own : after.Private F j) (able : c.Able) (adds : c.Adds after)
    (new : c.graph.instrs.size ≤ j.index) : ¬ after.Touches F j := by
  rintro (⟨v, t, known, eq⟩ | slot | ⟨k, head, eq⟩)
  · exact own.1 v t known eq
  · exact own.2 slot
  · obtain ⟨k', mem, -, same⟩ := adds.cleanups.exists_of_mem (mem_of_mem_head? head)
    obtain ⟨-, i, flag, hop⟩ := able.cleanups k' mem
    cases flag.symm.trans (same.symm.trans eq)
    exact absurd (Graph.index_lt_of_op? hop) (Nat.not_lt.mpr new)

/-- The dispatch is only there if the end of the cleanup is reached. -/
theorem dispatchIfOpen_succeeds (host : c.Hosts F) (hop : c.graph.op? flag = some (.alloca .i8))
    (stores : c.Stores kept) (made : cont.index < c.graph.blocks.size) (returns : Bool) {β : Type}
    {rest : EmitM β} {Q : β → Cursor → Prop} {E : Halt BuildError → Cursor → Prop}
    (next : ∀ after, after.Able → c.Adds after → (c.Open → c.Dispatches F flag kept cont returns after) →
      Ensures rest after Q E) :
    Ensures (do
      unless ← isTerminated do
        dispatch (.result flag) (.result kept) cont returns
      rest) c Q E := by
  refine (isTerminated_succeeds host.able).or ?_
  rintro t _ ⟨rfl, ended⟩
  split
  · next yes => exact next _ host.able (.refl _) fun isOpen => absurd isOpen (ended.mp yes)
  · exact (dispatch_succeeds host hop stores made returns).or fun _ after dispatches =>
      next after dispatches.able dispatches.adds fun _ => dispatches

/-- The end of guarded code, the cleanup and its end have been emitted. -/
structure Cursor.Finishes (base c : Cursor) (F : Frame) (flag kept : InstrId) (finok block : BlockId) (returns : Bool)
    (cleanup : Stmt) (after : Cursor) : Prop extends c.Retains after where
  able : after.Able
  adds : base.Adds after
  proceeds : ∀ S : Scene, after.In S → ∀ fuel m (P : Config → Prop), S.Ready m →
    (∀ left, left < fuel → S.Ready (S.put m flag (Ty.i8.encode Emit.Reason.proceed.code)) →
      S.Leads left (.before block (S.graph.body block) (S.put m flag (Ty.i8.encode Emit.Reason.proceed.code))) P) →
    S.Leads fuel (.before finok (S.graph.body finok) m) P
  runs : ∀ S : Scene, after.In S → ∀ pending watched fuel σ m, c.Meets F S watched fuel σ m → F.hides = true →
    S.cell m flag = Ty.i8.encode pending.reason.code → S.Owes F kept returns watched m pending →
    S.Leads fuel (.before block (S.graph.body block) m) fun t => ∃ last σ', Exec cleanup σ last σ' ∧
      base.Lands F S watched after (fun m' t => after.Open ∧ t = after.spot S m') m (pending.after last) σ' t

/-- The cleanup behind the guarded code: entered, run, and left for where it was entered from. -/
theorem finish_ensures {base : Cursor} {within : Bool} (hc : Enacts F cleanup within code) (host : base.Hosts F)
    (exits : within = true → base.Leavable) (adds : base.Adds c) (able : c.Able) (fitted : c.Fitted F flag kept)
    (newFlag : base.graph.instrs.size ≤ flag.index) (newKept : base.graph.instrs.size ≤ kept.index)
    (fresh : [cont, block, finok].Nodup)
    (waits : ∀ x ∈ [cont, block, finok], c.Waits x ∧ base.graph.blocks.size ≤ x.index) (returns : Bool) :
    Ensures (do
        startBlock finok
        enterCleanup .proceed (.result flag) block
        startBlock block
        code
        unless ← isTerminated do
          dispatch (.result flag) (.result kept) cont returns
        startBlock cont) c
      (fun _ after => base.Finishes c F flag kept finok block returns cleanup after ∧ cleanup.isDistinct = true)
      fun e _ => e.IsDuplicate ∧ cleanup.isDistinct = false := by
  simp only [forall_mem_cons] at waits
  obtain ⟨⟨waitsCont, newCont⟩, ⟨waitsBlock, newBlock⟩, ⟨waitsEnd, newEnd⟩, -⟩ := waits
  simp only [nodup_cons, mem_cons, not_mem_nil, or_false, not_or] at fresh
  obtain ⟨⟨contBlock, contEnd⟩, blockEnd, -⟩ := fresh
  refine (startBlock_succeeds able waitsEnd).or fun _ c₁ entersEnd => ?_
  have placesEnd := entersEnd.places adds newEnd
  have fitted₁ := fitted.retains placesEnd.toRetains
  have waitsBlock₁ := placesEnd.waits waitsBlock blockEnd
  refine (enterCleanup_succeeds placesEnd.able .proceed fitted₁.hop waitsBlock₁.made).or fun _ c₂ proceeds => ?_
  have places₂ := placesEnd.then proceeds.adds proceeds.able
  refine (startBlock_succeeds proceeds.able (waitsBlock₁.adds proceeds.adds)).or fun _ c₃ entersBlock => ?_
  have places₃ := entersBlock.places places₂.adds newBlock
  have waitsCont₃ : c₃.Waits cont := places₃.waits (places₂.waits waitsCont contEnd) contBlock
  have host₃ := host.adds places₃.adds places₃.able
  refine hc.bind host₃ (fun h => (exits h).adds places₃.adds) id fun c₄ performs distinct => ?_
  have adds₄ := places₃.adds.trans performs.adds
  have retains₄ : c.Retains c₄ := places₂.toRetains.trans (places₃.toRetains.trans performs.adds.retains)
  have fitted₄ := fitted.retains retains₄
  have host₄ := host.adds adds₄ performs.able
  refine dispatchIfOpen_succeeds host₄ fitted₄.hop fitted₄.stores (waitsCont₃.adds performs.adds).made returns ?_
  intro c₅ able₅ adds₅ dispatches
  refine (startBlock_succeeds able₅ ((waitsCont₃.adds performs.adds).adds adds₅)).mono ?_ fun _ _ no => no.elim
  intro _ after entersCont
  have places := entersCont.places (adds₄.trans adds₅) newCont
  have retains₃ : c₃.Retains after := performs.adds.retains.trans (adds₅.retains.trans places.toRetains)
  have retains₂ : c₂.Retains after := places₃.toRetains.trans retains₃
  refine ⟨⟨places₂.toRetains.trans retains₂, places.able, places.adds, ?_, ?_⟩, distinct⟩
  · intro S inside fuel m P ready later
    have inside₂ := inside.extends retains₂.builder
    rw [← Cursor.spot_of_starts (inside₂.adds proceeds.adds) entersEnd.starts]
    exact proceeds.runs entersEnd.starts.open S inside₂ fuel m P ready later
  · intro S inside pending watched fuel σ m meets hidden told owes
    have inside₅ := inside.extends places.builder
    have inside₄ := inside₅.adds adds₅
    have inside₃ := inside₄.adds performs.adds
    rw [← Cursor.spot_of_starts inside₃ entersBlock.starts]
    have meets₃ : c₃.Meets F S watched fuel σ m := meets.extends (places₂.builder.trans places₃.builder)
    have run := performs.runs entersBlock.starts.open S inside₄ watched fuel σ m meets₃
    have atCont : ∀ m' t, t = Config.before cont (S.graph.body cont) m' → after.Open ∧ t = after.spot S m' :=
      fun m' t eq => ⟨entersCont.starts.open, eq.trans (Cursor.spot_of_starts inside entersCont.starts).symm⟩
    refine Cursor.Does.bind run (.refl c₃) (.refl _ _ _ _) ?_ ?_
    · -- The cleanup has come to its end, and its slots are as they were at its start.
      rintro left σ₁ m₁ _ - bound exec ⟨isOpen, rfl⟩ follows
      have fitted₃ := fitted.retains (places₂.toRetains.trans places₃.toRetains)
      have sameFlag := follows.keeps.cells flag (Graph.index_lt_of_op? fitted₃.hop)
        ⟨_, inside₃.slot fitted₃.hop, rfl⟩ (fitted₃.ownFlag.untouched host.able places₃.adds newFlag)
      have sameKept := follows.keeps.cells kept (Graph.index_lt_of_op? fitted₃.stores.op?)
        ⟨_, inside₃.slot fitted₃.stores.op?, rfl⟩ (fitted₃.ownKept.untouched host.able places₃.adds newKept)
      have meets₄ : c₄.Meets F S watched left σ₁ m₁ := (meets₃.next follows.toTracks bound).adds performs.adds
      refine ((dispatches isOpen).runs isOpen S inside₅ pending watched left σ₁ m₁ meets₄ hidden
        (sameFlag.trans told) (owes.of_cell sameKept)).mono fun t lands => ⟨.normal, σ₁, exec, ?_⟩
      have keeps := (follows.since places₃.adds (.refl _ _ _ _)).keeps
      exact (lands.since adds₄ keeps).onward places.builder places.marked fun m' _ reached => atCont m' t reached
    · intro last σ₁ t early exec lands
      refine ⟨last, σ₁, exec, ?_⟩
      rw [Exit.after_of_ne early]
      exact (lands.since places₃.adds (.refl _ _ _ _)).onward (adds₅.builder.trans places.builder)
        (fun h => places.marked (adds₅.marked h)) fun _ eq => absurd eq early

end Finishing

/-! ### Regions -/

section Regions

variable {finok block cont pad : BlockId} {flag kept : InstrId} {body cleanup : Stmt} {handler : Option Stmt}
  {code cleanupCode : EmitM Unit} {p : Cursor}

theorem Cursor.Waits.guarding {x : BlockId} (h : c.Waits x) : (c.guarding block flag).Waits x :=
  ⟨h.made, h.empty, h.apart, h.inner⟩

/-- The cursor behind guarded code. -/
theorem Cursor.Adds.unguarded (h : (c.guarding block flag).Adds after) :
    c.Adds { after with cleanups := after.cleanups.tail } := by
  refine h.within ⟨rfl, rfl⟩ ⟨rfl, rfl⟩ h.pads h.exits ?_
  obtain ⟨returns, -, eq⟩ := h.cleanups
  rw [eq]
  exact .refl _

/-- Guarded code, and the cleanup behind it. -/
theorem Cursor.Guards.finished {c₁ : Cursor}
    (guards : (c.guarding block flag).Guards (p.guarding block flag) F flag kept finok block
      (.attempt body handler none) c₁)
    (finishes : c.Finishes { c₁ with cleanups := c₁.cleanups.tail } F flag kept finok block c₁.marked cleanup after)
    (host : c.Hosts F) (idle : c.Idle p) (fitted : p.Fitted F flag kept)
    (newFlag : c.graph.instrs.size ≤ flag.index) (hidden : F.hides = true) (isOpen : c.Open) (inside : after.In S)
    (meets : c.Meets F S watched fuel σ m) :
    c.Does F S watched after (fun m' t => after.Open ∧ t = after.spot S m') fuel (c.spot S m) m
      (.attempt body handler (some cleanup)) σ := by
  have inside₁ : c₁.In S := inside.extends finishes.builder
  have insideP : p.In S := inside₁.extends guards.builder
  have slot₁ : ∀ i, watched = some i → c₁.builder.returnSlot = some (.result i) := fun i eq =>
    guards.adds.builder.returnSlot _ (meets.slot i eq)
  have meets₁ : (p.guarding block flag).Meets F S watched fuel σ m := meets.extends idle.adds.builder
  rw [← idle.spot]
  refine Leads.bind (guards.runs (idle.isOpen isOpen) S inside₁ watched fuel σ m meets₁) ?_
  rintro left t - bound ⟨pending, σ₁, exec, arrives⟩
  -- The run is at the start of the cleanup.
  have conclude : pending.isFault = false → ∀ {left watched' m'},
      m'.world.lastException + left ≤ m.world.lastException + fuel → (∀ i, watched = some i → watched' = some i) →
      (∀ i, watched' = some i → c₁.builder.returnSlot = some (.result i)) → c.Proceeds F S watched' m m' σ₁ →
      S.cell m' flag = Ty.i8.encode pending.reason.code → S.Owes F kept c₁.marked watched' m' pending →
      c.Does F S watched after (fun m' t => after.Open ∧ t = after.spot S m') left
        (.before block (S.graph.body block) m') m (.attempt body handler (some cleanup)) σ := by
    intro sane left watched' m' bound' sub slot follows told owes
    have meets' : Cursor.Meets { c₁ with cleanups := c₁.cleanups.tail } F S watched' left σ₁ m' :=
      ⟨follows.toTracks, slot, fun h => Nat.lt_of_le_of_lt bound' (meets.bound h)⟩
    refine (finishes.runs S inside pending watched' left σ₁ m' meets' hidden told owes).mono ?_
    rintro t ⟨last, σ₂, exec', lands⟩
    exact ⟨_, σ₂, .cleaned exec sane exec', (lands.since (.refl c) follows.keeps).rewatch sub⟩
  cases pending with
  | left => exact arrives.elim
  | normal =>
    obtain ⟨m₁, rfl, follows⟩ := arrives
    have slotFlag : S.graph.Slot flag := ⟨_, insideP.slot fitted.hop, rfl⟩
    refine finishes.proceeds S inside left m₁ _ follows.ready fun left' fewer' ready => ?_
    have less : m₁.world.lastException + left' ≤ m.world.lastException + fuel :=
      Nat.le_trans (Nat.add_le_add_left (Nat.le_of_lt fewer') _) bound
    refine conclude rfl less (fun _ eq => eq) slot₁ ⟨?_, ?_⟩ (follows.ready.cell_put slotFlag) trivial
    · refine follows.toTracks.keeps (host.adds idle.adds idle.able) insideP (meets.adds idle.adds).slot ready
        ((Scene.Keeps.refl S (· = flag) _ m₁).put slotFlag (.inr rfl) _) ?_ follows.world
      rintro _ rfl
      exact fitted.ownFlag
    · exact (follows.unguarded newFlag).keeps.put slotFlag (.inl newFlag) _
  | stopped stop =>
    cases stop with
    | fault f => exact .here ⟨_, σ₁, .faulted exec, arrives⟩
    | raised exception =>
      obtain ⟨m₁, rfl, follows, told, token, small⟩ := arrives
      exact conclude rfl bound (fun _ eq => eq) slot₁ (follows.unguarded newFlag) told ⟨token, small hidden⟩
  | returned v =>
    obtain ⟨m₁, i, eq, rfl, follows, told, marked, latest⟩ := arrives
    cases eq
    have follows' := follows.unguarded newFlag
    by_cases integer : F.result.isInteger = true
    · -- The value that is pending is in the slot of the result, which the cleanup leaves alone.
      obtain ⟨j, a, slot, value, held⟩ := latest integer
      have sub : ∀ i, watched = some i → some j = some i := fun i eq => by
        cases slot.symm.trans (slot₁ i eq)
        rfl
      refine conclude rfl bound sub (by rintro _ ⟨⟩; exact slot) ⟨?_, follows'.keeps⟩ told ⟨marked, fun _ => ⟨j, rfl⟩⟩
      exact ⟨follows'.ready, follows'.holds, follows'.world, by rintro _ ⟨⟩; exact ⟨a, value, held⟩, follows'.void⟩
    · exact conclude rfl bound (fun _ eq => eq) slot₁ follows' told ⟨marked, fun h => absurd h integer⟩

/-- A region with a cleanup, for any code that keeps to what `Guards` says. -/
theorem tryFinallyWith_ensures {handlerBlocks : Option (EmitM Unit × Emit.HandlerBlocks)} {xs : List BlockId}
    {within distinct : Bool} (hc : Enacts F cleanup within cleanupCode) (host : c.Hosts F)
    (exits : within = true → c.Leavable) (fresh : c.Fresh p xs) (fitted : p.Fitted F flag kept)
    (newFlag : c.graph.instrs.size ≤ flag.index) (newKept : c.graph.instrs.size ≤ kept.index)
    (hidden : F.hides = true) (guard : ∀ (q : Cursor) (finok block : BlockId), (∀ x ∈ xs, q.Waits x) →
      (c.guarding block flag).Prepared (q.guarding block flag) F flag kept finok block →
      Ensures (guarded code handlerBlocks pad finok block (.result flag) (.result kept)) (q.guarding block flag)
        (fun _ after => (c.guarding block flag).Guards (q.guarding block flag) F flag kept finok block
            (.attempt body handler none) after ∧
          (∀ y, (q.guarding block flag).Waits y → y ∉ xs → after.Waits y) ∧ distinct = true)
        fun e _ => e.IsDuplicate ∧ distinct = false) :
    Ensures (do
        let finok ← Build.newBlock "finok"
        let cleanupBlock ← Build.newBlock "finally"
        let cont ← Build.newBlock "cont"
        let returns ← withCleanup cleanupBlock (.result flag)
          (guarded code handlerBlocks pad finok cleanupBlock (.result flag) (.result kept))
        startBlock finok
        enterCleanup .proceed (.result flag) cleanupBlock
        startBlock cleanupBlock
        cleanupCode
        unless ← isTerminated do
          dispatch (.result flag) (.result kept) cont returns
        startBlock cont : EmitM Unit) p
      (fun _ after => c.Performs F (.attempt body handler (some cleanup)) after ∧
        (distinct && cleanup.isDistinct) = true)
      fun e _ => e.IsDuplicate ∧ (distinct && cleanup.isDistinct) = false := by
  refine newBlocks_ensures fresh _ _ _ fun finok block cont q adds made => ?_
  have fitted' := fitted.retains adds.retains
  have apart := made.nodup
  simp only [nodup_cons, mem_cons, not_or] at apart
  obtain ⟨⟨contBlock, contEnd, contOld⟩, ⟨blockEnd, blockOld⟩, endOld, -⟩ := apart
  have waits := made.waits
  have new := made.new
  simp only [forall_mem_cons] at waits new
  obtain ⟨waitsCont, waitsBlock, waitsEnd, waitsOld⟩ := waits
  obtain ⟨newCont, newBlock, newEnd, -⟩ := new
  have ready : (c.guarding block flag).Prepared (q.guarding block flag) F flag kept finok block :=
    ⟨(host.adds made.adds made.able).guarding fitted' waitsBlock.made, fitted'.guarding,
      made.adds.guarding made.cleanups,
      newFlag, newKept, waitsEnd.made, waitsBlock.made⟩
  unfold withCleanup
  refine ensures_bind.mpr (.modify ?_)
  refine ((guard q finok block waitsOld ready).mono (fun _ _ done => done) fun _ _ failed => ?_).bind ?_
  · exact ⟨failed.1, by rw [failed.2]; rfl⟩
  rintro _ c₁ ⟨guards, waits₁, first⟩
  refine .get (.modify (ensures_pure.mpr ?_))
  have unguarded := guards.adds.unguarded
  have able₁ : ({ c₁ with cleanups := c₁.cleanups.tail } : Cursor).Able :=
    ⟨guards.able.placed, guards.able.entry, guards.able.current, guards.able.listed, guards.able.late, guards.able.pads,
      fun k hk => guards.able.cleanups k (mem_of_mem_tail hk)⟩
  have fitted₁ : ({ c₁ with cleanups := c₁.cleanups.tail } : Cursor).Fitted F flag kept :=
    fitted'.retains ⟨guards.builder, guards.instr, guards.returnSlot⟩
  have waitsAfter : ∀ x ∈ [cont, block, finok],
      ({ c₁ with cleanups := c₁.cleanups.tail } : Cursor).Waits x ∧ c.graph.blocks.size ≤ x.index := by
    have still : ∀ {x}, q.Waits x → x ∉ xs → ({ c₁ with cleanups := c₁.cleanups.tail } : Cursor).Waits x :=
      fun hx old => ⟨(waits₁ _ hx.guarding old).made, (waits₁ _ hx.guarding old).empty,
        (waits₁ _ hx.guarding old).apart, (waits₁ _ hx.guarding old).inner⟩
    simp only [forall_mem_cons]
    exact ⟨⟨still waitsCont contOld, newCont⟩, ⟨still waitsBlock blockOld, newBlock⟩, ⟨still waitsEnd endOld, newEnd⟩,
      by rintro _ ⟨⟩⟩
  refine (finish_ensures hc host exits unguarded able₁ fitted₁ newFlag newKept (made.nodup.sublist ?_) waitsAfter
    c₁.marked).mono ?_ ?_
  · exact .cons_cons _ (.cons_cons _ (.cons_cons _ (nil_sublist xs)))
  · rintro _ after ⟨finishes, second⟩
    refine ⟨⟨finishes.able, finishes.adds, fun isOpen S inside watched fuel σ m meets =>
      ?_⟩, by rw [first, second]; rfl⟩
    exact guards.finished finishes host made.toIdle fitted' newFlag hidden isOpen inside meets
  · exact fun _ _ failed => ⟨failed.1, by rw [failed.2, Bool.and_false]⟩

/-- The slots and the first landing pad of a region with a cleanup. -/
theorem fit_ensures {β : Type} {f : Operand → Operand → BlockId → EmitM β} {Q : β → Cursor → Prop}
    {E : Halt BuildError → Cursor → Prop} (host : c.Hosts F)
    (next : ∀ flag kept pad p, c.Fresh p [pad] → p.Fitted F flag kept → c.graph.instrs.size ≤ flag.index →
      c.graph.instrs.size ≤ kept.index → Ensures (f (.result flag) (.result kept) pad) p Q E) :
    Ensures (do
        let flag ← Build.newTemporary .i8 "finvar"
        let kept ← Build.newTemporary tokenTy "ehtmp"
        let pad ← Build.newBlock "pad"
        f flag kept pad : EmitM β) c Q E := by
  have sizedFlag : Machine.sizeOf Ty.i8.shape = .ok 1 := rfl
  have sizedKept : Machine.sizeOf tokenTy.shape = .ok 16 := rfl
  refine (newTemporary_succeeds host.able sizedFlag "finvar").or ?_
  rintro _ c₁ ⟨flag, rfl, reserves⟩
  have host₁ := host.adds reserves.adds reserves.able
  refine (newTemporary_succeeds reserves.able sizedKept "ehtmp").or ?_
  rintro _ c₂ ⟨kept, rfl, reserves'⟩
  refine (newBlock_succeeds reserves'.able "pad").or fun pad p made => next flag kept pad p ?_ ?_ ?_ ?_
  · exact ((reserves.idle host.able).trans (reserves'.idle reserves.able)).fresh.cons made
  · have apart : flag ≠ kept := fun eq => by
      have below := Graph.index_lt_of_op? reserves.slot
      rw [eq, reserves'.index] at below
      exact Nat.lt_irrefl _ below
    have own := (reserves.private host).retains reserves'.adds.retains (Graph.index_lt_of_op? reserves.slot)
    have fitted : c₂.Fitted F flag kept :=
      ⟨reserves'.adds.op? reserves.slot, reserves'.found, apart, own, reserves'.private host₁⟩
    exact fitted.retains made.adds.retains
  · exact Nat.le_of_eq reserves.index.symm
  · exact reserves'.index ▸ reserves.adds.instrs_le

/-- A region with a cleanup and no handler. -/
theorem enacts_tryFinally {within : Bool} (hidden : F.hides = true) (hb : Enacts F body false code)
    (hc : Enacts F cleanup within cleanupCode) (stays : ∀ σ σ', ¬ Exec body σ .left σ') :
    Enacts F (.attempt body none (some cleanup)) within (tryFinally code none cleanupCode) := by
  intro c host exits
  have distinct : (Stmt.attempt body none (some cleanup)).isDistinct = (body.isDistinct && cleanup.isDistinct) := by
    rw [Stmt.isDistinct]
  rw [distinct]
  unfold Emit.tryFinally
  refine fit_ensures host fun flag kept pad p fresh fitted newFlag newKept => ?_
  refine ensures_bind.mpr (ensures_pure.mpr ?_)
  refine tryFinallyWith_ensures hc host exits fresh fitted newFlag newKept hidden fun q finok block waits ready => ?_
  refine (guarded_bare hb ready (waits pad mem_cons_self).guarding (fresh.new pad mem_cons_self)
    stays).mono ?_ fun _ _ failed => failed
  rintro _ after ⟨guards, waits', distinct'⟩
  exact ⟨guards, fun y hy other => waits' y hy fun eq => other (eq ▸ mem_cons_self), distinct'⟩

/-- A region with a handler and a cleanup. -/
theorem enacts_tryCatchFinally {handler : Stmt} {handlerCode : EmitM Unit} {within : Bool} (hidden : F.hides = true)
    (hb : Enacts F body false code) (hh : Enacts F handler false handlerCode)
    (hc : Enacts F cleanup within cleanupCode) (stays : ∀ σ σ', ¬ Exec body σ .left σ')
    (staysHandler : ∀ σ σ', ¬ Exec handler σ .left σ') :
    Enacts F (.attempt body (some handler) (some cleanup)) within
      (tryFinally code (some handlerCode) cleanupCode) := by
  intro c host exits
  have distinct : (Stmt.attempt body (some handler) (some cleanup)).isDistinct =
      (body.isDistinct && handler.isDistinct && cleanup.isDistinct) := by
    rw [Stmt.isDistinct]
  rw [distinct]
  unfold Emit.tryFinally
  refine fit_ensures host fun flag kept pad p fresh fitted newFlag newKept => ?_
  refine (newBlock_succeeds fresh.able "catch").or fun block p₁ made₁ => ?_
  refine (newBlock_succeeds made₁.able "catchpad").or fun other p₂ made₂ => ?_
  refine ensures_bind.mpr (ensures_pure.mpr ?_)
  have made : c.Fresh p₂ [other, block, pad] := (fresh.cons made₁).cons made₂
  have fitted' := fitted.retains (made₁.adds.trans made₂.adds).retains
  refine tryFinallyWith_ensures hc host exits made fitted' newFlag newKept hidden fun q finok block' waits ready => ?_
  refine (guarded_handled hb hh ready made.nodup (fun x hx => ⟨(waits x hx).guarding, made.new x hx⟩) stays
    staysHandler).mono ?_ fun _ _ failed => failed
  rintro _ after ⟨guards, waits', first, second⟩
  exact ⟨guards, waits', by rw [first, second]; rfl⟩

end Regions

end FlowIR

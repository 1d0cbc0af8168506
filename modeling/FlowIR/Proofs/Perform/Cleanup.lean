import FlowIR.Proofs.Perform.Region

/-!
Cleanups.

Code with a cleanup comes to the cleanup in one of three ways: it has come to its end, it has raised an
exception, or it has returned. The flag says which (`Exit.reason`), and what has to be taken up again
behind the cleanup is kept in slots: the exception, and the value of the return (`Scene.Owes`). The
cleanup changes none of them, except for the value of a return that it executes itself. Its end goes on as the
flag says (`Cursor.Dispatches`).
-/

namespace FlowIR

open Machine Emit Bytes List

variable {F : Frame} {S : Scene} {c mid after : Cursor} {m m' : Machine} {σ : State} {fuel : Nat}
  {watched : Option InstrId} {kept : InstrId} {name : Option String}

/-! ### Kept exceptions -/

theorem size_tokenOf (exception : Nat) : (tokenOf exception).size = 16 := by
  unfold tokenOf
  rw [size_append, size_ofNat, size_ofNat]

/-- The first word of a token is the exception. -/
theorem slice_tokenOf (exception : Nat) : (tokenOf exception).slice 0 8 = ofNat 8 exception := by
  ext1
  simp only [tokenOf, slice, toList_take, toList_drop, toList_append, drop_zero]
  exact take_left' (by rw [length_toList, size_ofNat])

theorem word_tokenOf {exception : Nat} (small : exception < wordCount) : (tokenOf exception).word = exception := by
  have first : (tokenOf exception).word = ((tokenOf exception).slice 0 8).word := by
    unfold word slice
    congr 1
    simp only [toList_take, toList_drop, drop_zero, take_take, Nat.min_self]
  rw [first, slice_tokenOf, word_ofNat_eight small]

theorem Scene.step_resume {S : Scene} {m : Machine} {k : InstrId} {shape : Shape}
    {v : Operand} {exception : Nat} (hk : S.graph.instr k = .ok ⟨.resume v, shape, name⟩)
    (token : m.eval S.args v = .ok (tokenOf exception)) (small : exception < wordCount) :
    step S.graph S.args m k = .ok (.done (.raised exception), m) := by
  have long : ¬ (tokenOf exception).size < 8 := by
    rw [size_tokenOf]
    decide
  simp only [step, hk, token, bind, Except.bind, if_neg long, word_tokenOf small]
  rfl

/-- A load through the address of a slot. -/
theorem Scene.step_load_address {S : Scene} {m : Machine} (ready : S.Ready m) {i k : InstrId} {shape : Shape}
    {v : Operand} {n : Nat} (hk : S.graph.instr k = .ok ⟨.load v, shape, name⟩)
    (slot : S.graph.Slot i) (address : m.eval S.args v = .ok (S.address i 0))
    (size : Machine.sizeOf shape = .ok n) (fits : n ≤ (S.cell m i).size) :
    step S.graph S.args m k = .ok (.next, m.keep k ((S.cell m i).slice 0 n)) := by
  have word := Scene.evalWord_address slot Memory.span_pos address
  rw [Nat.add_zero] at word
  have read := Memory.read_start (ready.alloc slot) fits
  unfold step
  rw [Checked.bind_eq_ok_iff]
  refine ⟨_, hk, ?_⟩
  simp only [Checked.bind_eq_ok_iff]
  exact ⟨_, word, n, size, _, read, rfl⟩

/-- Raising an exception again raises it, and what happens is noted. -/
theorem World.call_rethrow (w : World) (bytes : Bytes) (size : Checked Nat) :
    w.call World.rethrow [bytes] size =
      .ok (.raise bytes.word, { w with trace := w.trace.push ⟨World.rethrow, [int bytes]⟩ }) := rfl

theorem World.seen_rethrow {w : World} {args : List Int} :
    ({ w with trace := w.trace.push ⟨World.rethrow, args⟩ } : World).seen true = w.seen true := by
  simp [World.seen, World.visible]

def Cursor.Stores (c : Cursor) (kept : InstrId) : Prop :=
  ∃ name, c.graph.instrs[kept.index]? = some ⟨.alloca .token, .ptr .token, name⟩

theorem Cursor.Stores.retains (h : c.Stores kept) (retains : c.Retains after) : after.Stores kept := by
  obtain ⟨name, found⟩ := h
  exact ⟨name, retains.instr _ _ found⟩

theorem Cursor.Stores.op? (h : c.Stores kept) : c.graph.op? kept = some (.alloca .token) := by
  obtain ⟨name, found⟩ := h
  rw [Graph.op?, found]
  rfl

theorem Cursor.Stores.offers (h : c.Stores kept) : c.Offers (.result kept) (.ptr .token) := by
  refine ⟨fun j eq => ?_, rfl, by rintro _ ⟨⟩, ?_⟩
  · cases eq
    exact Graph.index_lt_of_op? h.op?
  · obtain ⟨name, found⟩ := h
    simp only [Graph.shapeOf, Graph.instr, found]
    rfl

/-- Reading the exception of a kept token: the address of its first word, then the word itself. -/
theorem loadException_succeeds (able : c.Able) (stores : c.Stores kept) :
    Succeeds (named "field" (.fieldAddr (.result kept) 0) (.ptr .bytePtr) >>= fun ptr =>
      named "exn" (.load ptr) .bytePtr) c fun v after => ∃ k, v = .result k ∧ c.Flows after ∧
      (c.Open → ∀ S : Scene, after.In S → ∀ fuel m exception (P : Config → Prop), S.Ready m →
        S.cell m kept = tokenOf exception →
        (∀ left m', left < fuel → S.Ready m' → S.Keeps (fun _ => False) c.graph.instrs.size m m' →
          m'.world = m.world → m'.eval S.args (.result k) = .ok (ofNat 8 exception) →
          S.Leads left (after.spot S m') P) → S.Leads fuel (c.spot S m) P) := by
  have whole : (Op.fieldAddr (.result kept) 0).Whole := fun v hv => by cases mem_singleton.mp hv; rfl
  refine (named_succeeds able whole rfl "field" (.ptr .bytePtr)).bind ?_
  rintro _ c₁ ⟨p, name₁, rfl, addressed⟩
  have whole₁ : (Op.load (.result p)).Whole := fun v hv => by cases mem_singleton.mp hv; rfl
  refine (named_succeeds addressed.able whole₁ rfl "exn" .bytePtr).imp ?_
  rintro _ after ⟨k, name₂, rfl, loaded⟩
  refine ⟨k, rfl, (addressed.flows rfl).trans (loaded.flows rfl), ?_⟩
  intro isOpen S inside fuel m exception P ready token later
  have inside₁ := inside.adds loaded.adds
  have inside₀ := inside₁.adds addressed.adds
  have slot : S.graph.Slot kept := ⟨_, inside₀.slot stores.op?, rfl⟩
  have field : Shape.token.fieldOffset? 0 = some 0 := rfl
  obtain ⟨_, there⟩ := addressed.there inside₁ rfl
  obtain ⟨_, there'⟩ := loaded.there inside rfl
  have exec := Scene.step_field slot there (stores.offers.shapeOf inside₀) (ready.eval_slot slot) field
    Memory.span_pos
  refine addressed.next isOpen inside₁ exec fun left fewer _ => ?_
  have ready₁ : S.Ready (m.keep p (S.address kept 0)) := ready.keep (addressed.not_slot inside₁ rfl rfl)
  have size : Machine.sizeOf .bytePtr = .ok 8 := rfl
  have token₁ : S.cell (m.keep p (S.address kept 0)) kept = tokenOf exception := token
  have exec' := Scene.step_load_address ready₁ there' slot (ready.eval_keep (addressed.below inside₁)) size
    (by rw [token₁, size_tokenOf]; decide)
  rw [token₁, slice_tokenOf] at exec'
  refine loaded.next (addressed.open_iff.mpr rfl) inside exec' fun left' fewer' _ => ?_
  refine later left' _ (Nat.lt_trans fewer' fewer) (ready₁.keep (loaded.not_slot inside rfl rfl)) ?_ rfl
    (ready₁.eval_keep (loaded.below inside))
  exact ((Scene.Keeps.refl S _ _ m).keep (Nat.le_of_eq addressed.index.symm) _).keep
    (loaded.index ▸ addressed.adds.instrs_le) _

structure Cursor.Reraises (c : Cursor) (F : Frame) (kept : InstrId) (after : Cursor) : Prop where
  able : after.Able
  adds : c.Adds after
  runs : c.Open → ∀ S : Scene, after.In S → ∀ watched fuel σ m exception, c.Meets F S watched fuel σ m →
    F.hides = true → S.cell m kept = tokenOf exception → exception < wordCount →
    S.Leads fuel (c.spot S m)
      (c.Lands F S watched after (fun _ _ => False) m (.stopped (.raised exception)) σ)

/-- Outside any landing pad the exception leaves the function. -/
theorem reraise_resumes (host : c.Hosts F) (stores : c.Stores kept) (hpad : c.pads.head? = none) :
    Succeeds (named "exn" (.load (.result kept)) .token >>= fun token => perform (.resume token) >>=
      fun _ => pure ()) c fun _ after => c.Reraises F kept after := by
  have whole : (Op.load (.result kept)).Whole := fun v hv => by cases mem_singleton.mp hv; rfl
  refine (named_succeeds host.able whole rfl "exn" .token).bind ?_
  rintro _ c₁ ⟨k, name, rfl, loaded⟩
  have whole' : (Op.resume (.result k)).Whole := fun v hv => by cases mem_singleton.mp hv; rfl
  refine (perform_succeeds loaded.able whole' rfl).bind fun i after pushed => ?_
  refine ⟨pushed.able, loaded.adds.trans pushed.adds, ?_⟩
  intro isOpen S inside watched fuel σ m exception meets hidden token small
  have inside₁ := inside.adds pushed.adds
  have slot : S.graph.Slot kept := ⟨_, (inside₁.adds loaded.adds).slot stores.op?, rfl⟩
  have sized : Machine.sizeOf .token = .ok 16 := rfl
  obtain ⟨_, there⟩ := loaded.there inside₁ rfl
  obtain ⟨_, there'⟩ := pushed.there inside rfl
  have exec := Scene.step_load_all meets.ready there slot (by rw [token, size_tokenOf]; exact sized)
  refine loaded.next isOpen inside₁ exec fun left _ _ => ?_
  have held : (m.keep k (S.cell m kept)).eval S.args (.result k) = .ok (tokenOf exception) :=
    token ▸ meets.ready.eval_keep (loaded.below inside₁)
  have keeps : S.Keeps (fun _ => False) c.graph.instrs.size m (m.keep k (S.cell m kept)) :=
    (Scene.Keeps.refl S _ _ m).keep (Nat.le_of_eq loaded.index.symm) _
  have ready : S.Ready (m.keep k (S.cell m kept)) := meets.ready.keep (loaded.not_slot inside₁ rfl rfl)
  refine pushed.done (loaded.open_iff.mpr rfl) inside (Scene.step_resume there' held small) ?_
  refine ⟨m.keep k (S.cell m kept), ?_, fun _ => small, ?_⟩
  · unfold Cursor.raising
    rw [hpad]
  · exact (Cursor.Proceeds.refl meets.toTracks).trans host (inside₁.adds loaded.adds) meets.slot ready keeps rfl

/-- The kept exception is raised again. -/
theorem reraise_succeeds (host : c.Hosts F) (stores : c.Stores kept) :
    Succeeds (reraise (.result kept)) c fun _ after => c.Reraises F kept after := by
  unfold reraise
  refine .get ?_
  cases hpad : c.pads.head? with
  | none => exact reraise_resumes host stores hpad
  | some pad =>
    dsimp only
    rw [← bind_assoc]
    refine (loadException_succeeds host.able stores).bind ?_
    rintro _ c₁ ⟨k, rfl, flows, loads⟩
    refine (newBlock_succeeds flows.able "cont").bind fun cont c₂ made => ?_
    have adds₂ : c.Adds c₂ := flows.adds.trans made.adds
    unfold builder
    refine ensures_bind.mpr (.get (ensures_pure.mpr ?_))
    have whole : (Op.invoke c₂.builder.options.rethrow [.result k] cont pad).Whole := fun v hv => by
      cases mem_singleton.mp hv
      rfl
    refine (perform_succeeds made.able whole rfl).bind fun i c₃ raised => ?_
    refine (startBlock_succeeds raised.able (made.waits.adds raised.adds)).bind fun _ c₄ enters => ?_
    refine (perform_succeeds enters.able (by rintro _ ⟨⟩) rfl).bind
      fun _ after ended => ?_
    refine ⟨ended.able, (enters.adds c (adds₂.trans raised.adds) (made.index ▸ flows.adds.blocks_le)).trans
      ended.adds, ?_⟩
    intro isOpen S inside watched fuel σ m exception meets hidden token small
    have inside₃ := (inside.adds ended.adds).extends enters.builder
    have inside₁ := (inside₃.adds raised.adds).adds made.adds
    have inside₀ := inside₁.adds flows.adds
    refine loads isOpen S inside₁ fuel m exception _ meets.ready token fun left m₁ _ ready₁ keeps₁ world₁ value => ?_
    -- Raising the exception again is a call like any other.
    obtain ⟨_, there⟩ := raised.there inside₃ rfl
    have args : [Operand.result k].mapM (m₁.eval S.args) = .ok [ofNat 8 exception] := by
      rw [mapM_cons, value]
      rfl
    have exec := Scene.step_invoke there args
    rw [(host.adds adds₂ made.able).rethrow hidden, World.call_rethrow, word_ofNat_eight small] at exec
    have isOpen₂ : c₂.Open := made.open_iff.mpr (flows.isOpen isOpen)
    have madePad : pad.index < S.graph.blocks.size :=
      Nat.lt_of_lt_of_le (host.able.pads pad (mem_of_mem_head? hpad)) inside₀.graph.size
    rw [← made.spot]
    refine raised.jump isOpen₂ inside₃ exec madePad fun left' _ _ => .here ?_
    generalize hw : ({ m₁.world with
      trace := m₁.world.trace.push ⟨World.rethrow, [int (ofNat 8 exception)]⟩ } : World) = w
    have seen : w.seen F.hides = m₁.world.seen F.hides := by
      rw [hidden, ← hw]
      exact World.seen_rethrow
    have ready₂ : S.Ready { m₁ with world := w } := ready₁.congr rfl rfl
    have keeps₂ : S.Keeps (fun _ => False) c.graph.instrs.size m { m₁ with world := w } := keeps₁.congr rfl rfl
    refine ⟨{ m₁ with world := w }, ?_, fun _ => small, ?_, keeps₂.widen fun _ no => no.elim⟩
    · unfold Cursor.raising
      rw [hpad]
    · exact meets.toTracks.keeps host inside₀ meets.slot ready₂ keeps₂ (fun _ no => no.elim)
        (seen.trans (world₁ ▸ meets.world))

/-! ### Kept returns -/

structure Cursor.ReturnsKept (c : Cursor) (F : Frame) (after : Cursor) : Prop where
  able : after.Able
  adds : c.Adds after
  runs : c.Open → ∀ S : Scene, after.In S → ∀ watched fuel σ m v, c.Meets F S watched fuel σ m →
    (F.result.isInteger = true → ∃ j, watched = some j) →
    S.Leads fuel (c.spot S m) (c.Lands F S watched after (fun _ _ => False) m (.returned v) σ)

/-- Outside any cleanup, a function without a result is left. -/
theorem returnKept_void (host : c.Hosts F) (head : c.cleanups.head? = none) (isVoid : F.result = .void) :
    Succeeds (leaveWith none {}) c fun _ after => c.ReturnsKept F after := by
  refine (leaveWith_succeeds host.able host.returns (.nothing isVoid) {}).imp ?_
  rintro _ after ⟨i, pushed⟩
  refine ⟨pushed.able, pushed.adds, fun isOpen S inside watched fuel σ m v meets _ => ?_⟩
  refine pushed.leave isOpen inside (t := F.result) .nothing (.ended head ?_ meets.world)
  rw [meets.void isVoid]

/-- Outside any cleanup, a function with a result is left with what its slot holds. -/
theorem returnKept_loads (host : c.Hosts F) (head : c.cleanups.head? = none) (integer : F.result.isInteger = true) :
    Succeeds (liftM Build.returnSlot >>= fun slot => loadValue slot F.result "retval.ld" >>= fun v =>
      leaveWith (some v) {}) c fun _ after => c.ReturnsKept F after := by
  refine (returnSlot_succeeds host.able host.kept host.result integer).bind ?_
  rintro _ c₁ ⟨j, rfl, flows, made, hop, same⟩
  refine (load_succeeds flows.able integer hop "retval.ld").bind ?_
  rintro v c₂ ⟨flows', offers, loads⟩
  have host₂ := host.adds (flows.adds.trans flows'.adds) flows'.able
  refine (leaveWith_succeeds flows'.able host₂.returns (.value integer offers.whole) {}).imp ?_
  rintro _ after ⟨i, pushed⟩
  refine ⟨pushed.able, flows.adds.trans (flows'.adds.trans pushed.adds), ?_⟩
  intro isOpen S inside watched fuel σ m r meets watches
  have inside₂ := inside.adds pushed.adds
  obtain ⟨j', watched'⟩ := watches integer
  obtain ⟨a, latest, held⟩ := meets.latest j' watched'
  cases made.symm.trans (flows.adds.builder.returnSlot _ (meets.slot j' watched'))
  rw [← same]
  refine (loads (flows.isOpen isOpen) S inside₂ fuel a m meets.ready held).bind ?_
  rintro left _ - - ⟨m', rfl, ready, keeps, world, gives⟩
  refine pushed.leave (flows'.isOpen (flows.isOpen isOpen)) inside (.value gives) (.ended head ?_ ?_)
  · rw [latest, Option.map_some, Option.map_some, Ty.encode_wrap integer]
  · rw [world]
    exact meets.world

/-- A return that was put off is done after the cleanup. -/
theorem returnKept_succeeds (host : c.Hosts F) : Succeeds returnKept c fun _ after => c.ReturnsKept F after := by
  unfold returnKept
  refine .get ?_
  cases head : c.cleanups.head? with
  | some k =>
    dsimp only
    refine (routeReturn_succeeds host head).imp fun _ after routes => ?_
    refine ⟨routes.able, routes.adds, fun isOpen S inside watched fuel σ m v meets watches => ?_⟩
    refine (routes.runs isOpen S inside watched fuel σ m meets).mono ?_
    rintro t ⟨m', i, flag, eq, follows, cell, same⟩
    unfold Cursor.Lands Cursor.Leaves
    rw [head]
    refine ⟨m', i, flag, eq, follows, cell, routes.marked, fun integer => ?_⟩
    obtain ⟨j, watched'⟩ := watches integer
    obtain ⟨a, latest, held⟩ := meets.latest j watched'
    have made := meets.slot j watched'
    exact ⟨j, a, routes.adds.builder.returnSlot _ made, latest, (same j made).trans held⟩
  | none =>
    dsimp only
    unfold builder
    refine ensures_bind.mpr (.get (ensures_pure.mpr ?_))
    rw [host.result]
    rcases host.returns.2 with ⟨integer, -⟩ | ⟨isVoid, -⟩
    · rw [Ty.isZeroSized?_of_isInteger integer]
      refine ensures_bind.mpr (.of_checked rfl ?_)
      rw [if_neg Bool.false_ne_true]
      exact returnKept_loads host head integer
    · have zero : F.result.isZeroSized? = some true := by
        rw [isVoid]
        rfl
      rw [zero]
      refine ensures_bind.mpr (.of_checked rfl ?_)
      rw [if_pos rfl]
      exact returnKept_void host head isVoid

/-! ### The end of a cleanup -/

/-- Why a cleanup is entered after code that was left in the given way. -/
def Exit.reason : Exit → Emit.Reason
  | .normal | .left => .proceed
  | .stopped _ => .reraise
  | .returned _ => .ret

/-- What has to be there behind a cleanup, for the way to be taken up again. -/
def Scene.Owes (S : Scene) (F : Frame) (kept : InstrId) (returns : Bool) (watched : Option InstrId) (m : Machine) :
    Exit → Prop
  | .normal => True
  | .stopped (.raised exception) => S.cell m kept = tokenOf exception ∧ exception < wordCount
  | .returned _ => returns = true ∧ (F.result.isInteger = true → ∃ j, watched = some j)
  | .left | .stopped (.fault _) => False

theorem Scene.Owes.of_cell {returns : Bool} {pending : Exit}
    (h : S.Owes F kept returns watched m pending) (same : S.cell m' kept = S.cell m kept) :
    S.Owes F kept returns watched m' pending := by
  cases pending with
  | stopped stop =>
    cases stop with
    | raised exception => exact ⟨same.trans h.1, h.2⟩
    | fault f => exact h
  | _ => exact h

/-- What the end of a cleanup does: it goes on as the flag says. -/
structure Cursor.Dispatches (c : Cursor) (F : Frame) (flag kept : InstrId) (cont : BlockId) (returns : Bool)
    (after : Cursor) : Prop where
  able : after.Able
  adds : c.Adds after
  runs : c.Open → ∀ S : Scene, after.In S → ∀ pending watched fuel σ m, c.Meets F S watched fuel σ m →
    F.hides = true → S.cell m flag = Ty.i8.encode pending.reason.code → S.Owes F kept returns watched m pending →
    S.Leads fuel (c.spot S m)
      (c.Lands F S watched after (fun m' t => t = .before cont (S.graph.body cont) m') m pending σ)

/-- A block that lets a kept exception go on. -/
theorem reraised_succeeds {base : Cursor} {x : BlockId} (host : c.Hosts F) (adds : base.Adds c)
    (waits : c.Waits x) (new : base.graph.blocks.size ≤ x.index) (stores : c.Stores kept) :
    Succeeds (startBlock x >>= fun _ => reraise (.result kept)) c fun _ after =>
      base.Places c x after ∧ ∀ S : Scene, after.In S → ∀ watched fuel σ m exception,
        base.Meets F S watched fuel σ m → F.hides = true → S.cell m kept = tokenOf exception →
        exception < wordCount → S.Leads fuel (.before x (S.graph.body x) m)
          (base.Lands F S watched after (fun _ _ => False) m (.stopped (.raised exception)) σ) := by
  refine (startBlock_succeeds host.able waits).bind fun _ c₁ enters => ?_
  have places := enters.places adds new
  refine (reraise_succeeds (host.enters enters) (stores.retains enters.retains)).imp fun _ after reraises => ?_
  refine ⟨places.then reraises.adds reraises.able, ?_⟩
  intro S inside watched fuel σ m exception meets hidden token small
  rw [← Cursor.spot_of_starts (inside.adds reraises.adds) enters.starts]
  refine (reraises.runs enters.starts.open S inside watched fuel σ m exception (meets.adds places.adds) hidden token
    small).mono fun t lands => ?_
  exact lands.since places.adds (.refl _ _ _ _)

/-- A block that lets a kept return go on. -/
theorem returned_succeeds {base : Cursor} {x : BlockId} (host : c.Hosts F) (adds : base.Adds c)
    (waits : c.Waits x) (new : base.graph.blocks.size ≤ x.index) :
    Succeeds (startBlock x >>= fun _ => returnKept) c fun _ after =>
      base.Places c x after ∧ ∀ S : Scene, after.In S → ∀ watched fuel σ m v,
        base.Meets F S watched fuel σ m → (F.result.isInteger = true → ∃ j, watched = some j) →
        S.Leads fuel (.before x (S.graph.body x) m)
          (base.Lands F S watched after (fun _ _ => False) m (.returned v) σ) := by
  refine (startBlock_succeeds host.able waits).bind fun _ c₁ enters => ?_
  have places := enters.places adds new
  refine (returnKept_succeeds (host.enters enters)).imp fun _ after returns => ?_
  refine ⟨places.then returns.adds returns.able, ?_⟩
  intro S inside watched fuel σ m v meets watches
  rw [← Cursor.spot_of_starts (inside.adds returns.adds) enters.starts]
  refine (returns.runs enters.starts.open S inside watched fuel σ m v (meets.adds places.adds) watches).mono
    fun t lands => ?_
  exact lands.since places.adds (.refl _ _ _ _)

def dispatchCases (reraise cont : BlockId) (ret : Option BlockId) : List (Int × BlockId) :=
  [(Emit.Reason.reraise.code, reraise), (Emit.Reason.proceed.code, cont)] ++
    ret.toList.map fun x => (Emit.Reason.ret.code, x)

/-- Reading the flag of a cleanup and going to the block for what it says. -/
theorem Cursor.Pushed.decides {c₁ c₂ : Cursor} {flag state i : InstrId} {bad x : BlockId}
    {cases : List (Int × BlockId)} {reason : Emit.Reason} {P : Config → Prop}
    (loaded : c.Pushed ⟨.load (.result flag), .i8, name⟩ state c₁) (hop : c.graph.op? flag = some (.alloca .i8))
    (idle : c₁.Idle c₂) (pushed : c₂.Pushed ⟨.switch (.result state) bad cases, .void, none⟩ i after)
    (isOpen : c.Open) (inside : after.In S) (ready : S.Ready m)
    (told : S.cell m flag = Ty.i8.encode reason.code) (found : cases.lookup reason.code = some x)
    (made : x.index < c₂.graph.blocks.size)
    (later : ∀ left m', left < fuel → S.Ready m' → S.Keeps (fun _ => False) c.graph.instrs.size m m' →
      m'.world = m.world → S.Leads left (.before x (S.graph.body x) m') P) : S.Leads fuel (c.spot S m) P := by
  have inside₂ := inside.adds pushed.adds
  have inside₁ := inside₂.adds idle.adds
  have slot : S.graph.Slot flag := ⟨_, (inside₁.adds loaded.adds).slot hop, rfl⟩
  obtain ⟨_, there⟩ := loaded.there inside₁ rfl
  obtain ⟨_, there'⟩ := pushed.there inside rfl
  have sized : Machine.sizeOf .i8 = .ok (S.cell m flag).size := by
    rw [told, Ty.size_encode]
    rfl
  have exec := Scene.step_load_all ready there slot sized
  refine loaded.next isOpen inside₁ exec fun left fewer _ => ?_
  have held : (m.keep state (S.cell m flag)).eval S.args (.result state) = .ok (Ty.i8.encode reason.code) :=
    told ▸ ready.eval_keep (loaded.below inside₁)
  have shape := (loaded.offers.adds idle.adds).shapeOf inside₂
  have exec' := Scene.step_switch (t := .i8) there' rfl shape held
  have value : signedOf Ty.i8.bits (Ty.i8.word reason.code) = reason.code := by
    cases reason <;> decide
  rw [value, found] at exec'
  rw [← idle.spot]
  refine pushed.jump (idle.isOpen (loaded.open_iff.mpr rfl)) inside exec'
    (Nat.lt_of_lt_of_le made inside₂.graph.size) fun left' fewer' _ => ?_
  exact later left' _ (Nat.lt_trans fewer' fewer) (ready.keep (loaded.not_slot inside₁ rfl rfl))
    ((Scene.Keeps.refl S _ _ m).keep (Nat.le_of_eq loaded.index.symm) _) rfl

/-- What a block does that lets a kept return go on. -/
def Cursor.Returning (c : Cursor) (F : Frame) (x : BlockId) (after : Cursor) : Prop :=
  ∀ S : Scene, after.In S → ∀ watched fuel σ m v, c.Meets F S watched fuel σ m →
    (F.result.isInteger = true → ∃ j, watched = some j) →
    S.Leads fuel (.before x (S.graph.body x) m)
      (c.Lands F S watched after (fun _ _ => False) m (.returned v) σ)

/-- The switch at the end of a cleanup and the blocks that it alone goes to. -/
theorem dispatchTo_succeeds {c₁ c₂ : Cursor} {flag kept state : InstrId}
    {x cont : BlockId} {ret : Option BlockId} (host : c.Hosts F) (hop : c.graph.op? flag = some (.alloca .i8))
    (stores : c.Stores kept) (loaded : c.Pushed ⟨.load (.result flag), .i8, name⟩ state c₁) (idle : c₁.Idle c₂)
    (waits : c₂.Waits x) (new : c.graph.blocks.size ≤ x.index)
    (waitsRet : ∀ y, ret = some y → c₂.Waits y ∧ c.graph.blocks.size ≤ y.index ∧ y ≠ x)
    (made : cont.index < c.graph.blocks.size) :
    Succeeds (do
        let badBlock ← Build.newBlock "finbad"
        let returnCase := ret.toList.map fun b => (Emit.Reason.ret.code, b)
        let cases := [(Emit.Reason.reraise.code, x), (Emit.Reason.proceed.code, cont)] ++ returnCase
        let _ ← perform (.switch (.result state) badBlock cases)
        startBlock x
        reraise (.result kept)
        if let some block := ret then
          startBlock block
          returnKept
        startBlock badBlock
        let _ ← perform .unreachable : EmitM Unit) c₂ fun _ after =>
      c.Dispatches F flag kept cont ret.isSome after := by
  have adds₂ : c.Adds c₂ := loaded.adds.trans idle.adds
  refine (newBlock_succeeds idle.able "finbad").bind fun bad c₃ madeBad => ?_
  have whole : (Op.switch (.result state) bad (dispatchCases x cont ret)).Whole := fun v hv => by
    cases mem_singleton.mp hv
    rfl
  refine (perform_succeeds madeBad.able whole rfl).bind fun i c₄ pushed => ?_
  have adds₃₄ : c₂.Adds c₄ := madeBad.adds.trans pushed.adds
  have adds₄ := adds₂.trans adds₃₄
  rw [← bind_assoc]
  refine (reraised_succeeds (host.adds adds₄ pushed.able) adds₄ (waits.adds adds₃₄) new
    (stores.retains adds₄.retains)).bind ?_
  rintro _ c₅ ⟨places, reraises⟩
  have newBad := madeBad.index
  have badNe : ∀ y, c₂.Waits y → bad ≠ y := fun y hy eq => by
    have := hy.made
    rw [← eq] at this
    omega
  have waitsBad : c₅.Waits bad := places.waits (madeBad.waits.adds pushed.adds) (badNe x waits)
  -- What remains, whether or not returns pass through.
  have last : ∀ (c₆ : Cursor) (z : BlockId), c.Places c₅ z c₆ → bad ≠ z →
      (∀ y, ret = some y → c.Returning F y c₆) →
      Succeeds (do
          startBlock bad
          let _ ← perform .unreachable) c₆ fun _ after => c.Dispatches F flag kept cont ret.isSome after := by
    intro c₆ z places₆ apart returning
    refine (startBlock_succeeds places₆.able (places₆.waits waitsBad apart)).bind fun _ c₇ enters => ?_
    have none : Op.unreachable.Whole := by rintro _ ⟨⟩
    refine (perform_succeeds enters.able none rfl).bind fun _ after ended => ?_
    refine ensures_pure.mpr ?_
    have newBad' : c.graph.blocks.size ≤ bad.index := newBad ▸ adds₂.blocks_le
    have finish := (enters.places places₆.adds newBad').then ended.adds ended.able
    refine ⟨finish.able, finish.adds, ?_⟩
    intro isOpen S inside pending watched fuel σ m meets hidden told owes
    have inside₆ := inside.extends finish.builder
    have inside₅ := inside₆.extends places₆.builder
    have inside₄ := inside₅.extends places.builder
    have inside₀ := inside₄.adds adds₄
    have follows : ∀ {m'}, S.Ready m' → S.Keeps (fun _ => False) c.graph.instrs.size m m' → m'.world = m.world →
        c.Proceeds F S watched m m' σ := fun ready keeps world =>
      (Cursor.Proceeds.refl meets.toTracks).trans host inside₀ meets.slot ready keeps world
    have onward : ∀ {mid : Cursor} {m' t}, mid.builder.Extends after.builder →
        (mid.marked = true → after.marked = true) → c.Proceeds F S watched m m' σ →
        c.Lands F S watched mid (fun _ _ => False) m' pending σ t →
        c.Lands F S watched after (fun m' t => t = .before cont (S.graph.body cont) m') m pending σ t :=
      fun grows marks follows lands =>
        (lands.since (.refl c) follows.keeps).onward grows marks fun _ _ no => no.elim
    have bound : ∀ {m' : Machine} {left}, left < fuel → m'.world = m.world →
        m'.world.lastException + left ≤ m.world.lastException + fuel := fun fewer world => by
      rw [world]
      exact Nat.add_le_add_left (Nat.le_of_lt fewer) _
    have decides : ∀ (y : BlockId), (dispatchCases x cont ret).lookup pending.reason.code = some y →
        y.index < c₃.graph.blocks.size → (∀ left m', left < fuel → c.Meets F S watched left σ m' →
          c.Proceeds F S watched m m' σ → S.cell m' kept = S.cell m kept →
          S.Leads left (.before y (S.graph.body y) m')
            (c.Lands F S watched after (fun m' t => t = .before cont (S.graph.body cont) m') m pending σ)) →
        S.Leads fuel (c.spot S m)
          (c.Lands F S watched after (fun m' t => t = .before cont (S.graph.body cont) m') m pending σ) :=
      fun y found there later => loaded.decides hop (idle.trans madeBad.idle) pushed isOpen inside₄ meets.ready told
        found there fun left m' fewer ready keeps world =>
          later left m' fewer (meets.next (follows ready keeps world).toTracks (bound fewer world))
            (follows ready keeps world)
            (keeps.cells kept (Graph.index_lt_of_op? stores.op?) ⟨_, inside₀.slot stores.op?, rfl⟩ fun no => no)
    have le₃ : c.graph.blocks.size ≤ c₃.graph.blocks.size := (adds₂.trans madeBad.adds).blocks_le
    cases pending with
    | left => exact owes.elim
    | normal =>
      exact decides cont rfl (Nat.lt_of_lt_of_le made le₃) fun left m' _ _ follows _ => .here ⟨m', rfl, follows⟩
    | returned v =>
      obtain ⟨some?, watches⟩ := owes
      obtain ⟨y, rfl⟩ := Option.isSome_iff_exists.mp some?
      refine decides y rfl ((waitsRet y rfl).1.adds madeBad.adds).made fun left m' _ meets' follows _ => ?_
      refine (returning y rfl S inside₆ watched left σ m' v meets' watches).mono fun t lands => ?_
      exact onward finish.builder finish.marked follows lands
    | stopped stop =>
      cases stop with
      | fault f => exact owes.elim
      | raised exception =>
        obtain ⟨token, small⟩ := owes
        refine decides x rfl (waits.adds madeBad.adds).made fun left m' _ meets' follows same => ?_
        refine (reraises S inside₅ watched left σ m' exception meets' hidden (same.trans token) small).mono
          fun t lands => ?_
        exact onward (places₆.builder.trans finish.builder) (fun h => finish.marked (places₆.marked h)) follows lands
  cases ret with
  | none => exact last c₅ x (.refl places.adds places.able) (badNe x waits) (by rintro _ ⟨⟩)
  | some y =>
    obtain ⟨waitsRet, newRet, apart⟩ := waitsRet y rfl
    rw [← bind_assoc]
    have waits₅ := places.waits (waitsRet.adds adds₃₄) apart
    refine (returned_succeeds (host.adds places.adds places.able) places.adds waits₅ newRet).bind ?_
    rintro _ c₆ ⟨places₆, returns⟩
    refine last c₆ y places₆ (badNe y waitsRet) ?_
    rintro _ ⟨⟩
    exact returns

/-- Behind a cleanup, the flag says where the run goes on. -/
theorem dispatch_succeeds {flag kept : InstrId} {cont : BlockId} (host : c.Hosts F)
    (hop : c.graph.op? flag = some (.alloca .i8)) (stores : c.Stores kept)
    (made : cont.index < c.graph.blocks.size) (returns : Bool) :
    Succeeds (dispatch (.result flag) (.result kept) cont returns) c fun _ after =>
      c.Dispatches F flag kept cont returns after := by
  unfold dispatch
  have whole : (Op.load (.result flag)).Whole := fun v hv => by cases mem_singleton.mp hv; rfl
  refine (named_succeeds host.able whole rfl "finvar.ld" .i8).bind ?_
  rintro _ c₁ ⟨state, name, rfl, loaded⟩
  refine (newBlock_succeeds loaded.able "finres").bind fun x c₂ made₂ => ?_
  have new : c.graph.blocks.size ≤ x.index := made₂.index ▸ loaded.adds.blocks_le
  cases returns with
  | false =>
    rw [if_neg Bool.false_ne_true, pure_bind]
    exact dispatchTo_succeeds host hop stores loaded made₂.idle made₂.waits new (by rintro _ ⟨⟩) made
  | true =>
    rw [if_pos rfl, map_eq_pure_bind, bind_assoc]
    refine (newBlock_succeeds made₂.able "finret").bind fun y c₃ made₃ => ?_
    rw [pure_bind]
    have fresh := made₃.index
    refine dispatchTo_succeeds host hop stores loaded (made₂.idle.trans made₃.idle) (made₂.waits.adds made₃.adds) new
      ?_ made
    rintro _ ⟨⟩
    refine ⟨made₃.waits, fresh ▸ (loaded.adds.trans made₂.adds).blocks_le, fun eq => ?_⟩
    have below := made₂.waits.made
    rw [← eq] at below
    omega

end FlowIR

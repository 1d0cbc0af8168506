import FlowIR.Proofs.Build.Label
import FlowIR.Proofs.Build.Storage

/-!
Who owns which slot.

Calls that set a function up hand out slots: to variables, to parameters before they are registered, and as
temporaries. The invariant is about one list of them, `Builder.places`. A call adds a slot to it that is new,
or it lets a registered parameter take over the slot that was kept for it, and so no two holders ever share a
slot (`slots_owned`), whatever calls there were and whichever of them reported an error.

All that registering parameters and variables and placing the prolog do is made of a few kinds of changes
(`Builder.Move`). What each of them keeps is kept by every such call (`Builder.Moves.keeps`).
-/

namespace FlowIR

open FlowIR.Graph List

/-! ### What calls hand out -/

structure LabelTable.Idle (t : LabelTable) : Prop where
  users : ∀ p i, ¬ t.UsedBy p i
  branches : t.branches = []

namespace Build

structure Issued where
  params : List VarId := []
  temporaries : List Operand := []

def Call.issue (call : Call) (b : Builder) (given : Issued) : Issued :=
  match call with
  | .registerParam name ty addressTaken span =>
    match Build.registerParam name ty addressTaken span b with
    | .ok v _ => { given with params := given.params ++ [v] }
    | .error .. => given
  | .newTemporary ty tag =>
    match Build.newTemporary ty tag b with
    | .ok slot _ => { given with temporaries := given.temporaries ++ [slot] }
    | .error .. => given
  | _ => given

/-- Performs calls one after the other and records what they hand out. -/
def record : List Call → Builder → Issued → Checked (Builder × Issued)
  | [], b, given => return (b, given)
  | call :: calls, b, given => do record calls (← call.apply b) (call.issue b given)

end Build

/-- The numbers of the variables of a kind. -/
def VarKind.ids (kind : VarKind) (xs : List Variable) : List VarId :=
  ((range xs.length).map VarId.mk).filter fun v => xs[v.index]?.any (·.kind = kind)

theorem VarKind.ids_push (kind : VarKind) (xs : List Variable) (x : Variable) :
    kind.ids (xs ++ [x]) = kind.ids xs ++ if x.kind = kind then [⟨xs.length⟩] else [] := by
  unfold ids
  rw [length_append, length_singleton, range_succ, map_append, filter_append]
  congr 1
  · refine filter_congr fun v hv => ?_
    obtain ⟨n, below, rfl⟩ := mem_map.mp hv
    rw [getElem?_append_left (mem_range.mp below)]
  · by_cases same : x.kind = kind <;> simp [same]

/-- Variables are counted by their kind. -/
theorem VarKind.length_ids (kind : VarKind) (xs : List Variable) :
    (kind.ids xs).length = xs.countP (·.kind = kind) := by
  have counted : ∀ (l : List Variable) (q : Variable → Bool),
      (range l.length).countP (fun k => l[k]?.any q) = l.countP q := by
    intro l q
    induction l with
    | nil => rfl
    | cons a l ih =>
      rw [length_cons, range_succ_eq_map, countP_cons, countP_cons, countP_map, ← ih]
      rfl
  unfold ids
  rw [filter_map, length_map, ← countP_eq_length_filter]
  exact counted xs (·.kind = kind)

namespace VarTables

variable {t : VarTables} {xs : List Variable}

/-- The tables list the variables: by their kinds, and those that are no aliases by their slots. -/
structure Lists (t : VarTables) (xs : List Variable) : Prop where
  registered : t.registered = t.params.length
  params : t.params = VarKind.param.ids xs
  locals : t.locals = VarKind.local.ids xs
  env : t.env?.toList = VarKind.env.ids xs
  owners : ∀ slot v, (slot, v) ∈ t.owners ↔ ∃ x, xs[v.index]? = some x ∧ x.isAlias = false ∧ x.slot = slot

/-- What has to be noted of a new variable. -/
def entered (x : Variable) (v : VarId) (t : VarTables) : VarTables :=
  { params := if x.kind = .param then t.params ++ [v] else t.params
    registered := if x.kind = .param then t.registered + 1 else t.registered
    locals := if x.kind = .local then t.locals ++ [v] else t.locals
    env? := if x.kind = .env then some v else t.env?
    owners := if x.isAlias then t.owners else (x.slot, v) :: t.owners }

theorem Lists.push (h : t.Lists xs) (x : Variable) (first : x.kind = .env → t.env? = none) :
    (entered x ⟨xs.length⟩ t).Lists (xs ++ [{ x with initializer := none }]) := by
  refine ⟨?_, ?_, ?_, ?_, fun slot v => ?_⟩
  · cases kind : x.kind <;> simp [entered, kind, h.registered]
  · rw [VarKind.ids_push, ← h.params]
    cases kind : x.kind <;> simp [entered, kind]
  · rw [VarKind.ids_push, ← h.locals]
    cases kind : x.kind <;> simp [entered, kind]
  · rw [VarKind.ids_push, ← h.env]
    cases kind : x.kind <;> simp [entered, kind, first]
  · have mem : (slot, v) ∈ (entered x ⟨xs.length⟩ t).owners ↔
        (x.isAlias = false ∧ x.slot = slot ∧ v = ⟨xs.length⟩) ∨ (slot, v) ∈ t.owners := by
      unfold entered
      cases x.isAlias <;> simp [eq_comm]
    rw [mem, h.owners]
    obtain ⟨n⟩ := v
    rcases Nat.lt_trichotomy n xs.length with old | rfl | none
    · simp [getElem?_append_left old, Nat.ne_of_lt old]
    · simp
    · simp [getElem?_append_right (Nat.le_of_lt none), Nat.ne_of_gt none, Nat.le_of_lt none,
        Nat.sub_ne_zero_of_lt none]

end VarTables

namespace Builder

/-- The tables list the variables. -/
def Tabled (b : Builder) : Prop := b.tables.Lists b.holdings

def ownSlots (b : Builder) : List Operand := (b.holdings.filter (!·.isAlias)).map (·.slot)

/-- All slots that have a holder: a variable, a parameter to come, or the one who asked for a temporary. -/
def places (b : Builder) (given : Build.Issued) : List Operand :=
  b.ownSlots ++ (b.paramSlots.drop b.params.length ++ given.temporaries)

def told (b : Builder) : List (Nat × ArgAttr) :=
  if b.argsReady then
    b.convention.hidden ++ (b.convention.params.take b.paramSlots.length).flatMap Placement.attrs
  else []

structure Apportioned (b : Builder) (target : Target) (sig : Signature) (given : Build.Issued) : Prop where
  signature : b.signature = sig
  convention : sig.convention? target = some b.convention
  attrs : b.graph.attrs = tell b.told (replicate b.convention.argShapes.length [])
  idle : b.labels.Idle
  unreturned : b.returnSlot = none
  unready : b.argsReady = false → b.paramSlots = []
  ready : b.argsReady = true → (∀ p ∈ b.convention.params, p.Fits) → b.paramSlots.length = b.convention.params.length
  fits : ∀ (k : Nat) p, b.convention.params[k]? = some p → k < b.paramSlots.length → p.Fits
  nodup : (b.places given).Nodup
  made : ∀ v ∈ b.places given, b.graph.Storage v
  args : ∀ n, .arg n ∈ b.places given → b.argsReady = true ∧ n < b.graph.args.size
  owned : ∀ x ∈ b.holdings, ∃ y ∈ b.holdings, y.isAlias = false ∧ y.slot = x.slot
  tabled : b.Tabled
  params : b.params = given.params
  placed : ∀ (k : Nat) (v : VarId), b.params[k]? = some v → ∃ x, b.holdings[v.index]? = some x ∧
    x.isAlias = false ∧ sig.params[k]? = some x.ty ∧ b.paramSlots[k]? = some x.slot

structure Tends (b after : Builder) : Prop where
  holdings : after.holdings = b.holdings
  tables : after.tables = b.tables
  paramSlots : after.paramSlots = b.paramSlots
  argsReady : after.argsReady = b.argsReady
  convention : after.convention = b.convention
  signature : after.signature = b.signature
  returnSlot : after.returnSlot = b.returnSlot
  idle : b.labels.Idle → after.labels.Idle
  attrs : after.graph.attrs = b.graph.attrs
  slots : ∀ i, b.graph.Slot i → after.graph.Slot i

variable {b mid after : Builder} {target : Target} {sig : Signature} {given : Build.Issued}

/-- Slots stay, and there may be other labels. -/
theorem Tends.of_graph (slots : ∀ i, b.graph.Slot i → after.graph.Slot i) (idle : b.labels.Idle → after.labels.Idle)
    (same : (after.holdings, after.tables, after.paramSlots, after.argsReady, after.convention, after.signature,
      after.returnSlot, after.graph.attrs) = (b.holdings, b.tables, b.paramSlots, b.argsReady, b.convention,
      b.signature, b.returnSlot, b.graph.attrs)) : b.Tends after := by
  simp only [Prod.mk.injEq] at same
  obtain ⟨holdings, tables, paramSlots, argsReady, convention, signature, returnSlot, attrs⟩ := same
  exact ⟨holdings, tables, paramSlots, argsReady, convention, signature, returnSlot, idle, attrs, slots⟩

theorem Tends.refl (b : Builder) : b.Tends b := .of_graph (fun _ => id) id rfl

theorem Tends.trans (h : b.Tends mid) (k : mid.Tends after) : b.Tends after :=
  ⟨k.holdings.trans h.holdings, k.tables.trans h.tables, k.paramSlots.trans h.paramSlots, k.argsReady.trans h.argsReady,
    k.convention.trans h.convention, k.signature.trans h.signature, k.returnSlot.trans h.returnSlot,
    fun idle => k.idle (h.idle idle), k.attrs.trans h.attrs, fun i slot => k.slots i (h.slots i slot)⟩

section

variable (h : b.Tends after)

include h

theorem Tends.args : after.graph.args.size = b.graph.args.size := by
  rw [← length_attrs, h.attrs, length_attrs]

theorem Tends.told : after.told = b.told := by
  unfold Builder.told
  rw [h.argsReady, h.convention, h.paramSlots]

theorem Tends.params : after.params = b.params := congrArg (·.params) h.tables

theorem Tends.places (given : Build.Issued) : after.places given = b.places given := by
  unfold Builder.places ownSlots
  rw [h.holdings, h.paramSlots, h.params]

end

theorem Apportioned.tends (h : b.Apportioned target sig given) (k : b.Tends after) :
    after.Apportioned target sig given where
  signature := k.signature.trans h.signature
  convention := k.convention ▸ h.convention
  attrs := by rw [k.attrs, k.told, k.convention, h.attrs]
  idle := k.idle h.idle
  unreturned := k.returnSlot.trans h.unreturned
  unready := k.argsReady ▸ k.paramSlots ▸ h.unready
  ready := k.argsReady ▸ k.paramSlots ▸ k.convention ▸ h.ready
  fits := k.paramSlots ▸ k.convention ▸ h.fits
  nodup := k.places given ▸ h.nodup
  made := fun v hv => (h.made v (k.places given ▸ hv)).mono k.slots
  args := fun n hn => k.argsReady ▸ k.args ▸ h.args n (k.places given ▸ hn)
  owned := k.holdings ▸ h.owned
  tabled := by
    rw [Tabled, k.tables, k.holdings]
    exact h.tabled
  params := k.params.trans h.params
  placed := by
    rw [k.params, k.holdings, k.paramSlots]
    exact h.placed

/-- The arguments are set up, and but for storage nothing has changed. -/
def Readied (b after : Builder) : Prop :=
  ∃ graph names pending late slots, after = { b with
    graph, names, pendingSlots := pending, lateSlots := late, argsReady := true, paramSlots := slots } ∧
    graph.blocks = b.graph.blocks

structure Complete (b : Builder) : Prop where
  fits : ∀ p ∈ b.convention.params, p.Fits
  registered : b.params.length = b.convention.params.length
  entry : b.entry.index < b.graph.blocks.size

/-- The entry block has taken the slots made so far, the instructions `env`, which store no argument but the
closure environment, and those that put the parameters into their slots. -/
structure Opens (b after : Builder) (env spills : List InstrId) : Prop where
  entry : after.entry = b.entry
  body : after.graph.body b.entry = b.pendingSlots ++ (env ++ spills) ++ b.graph.body b.entry
  slots : ∀ i, b.graph.Slot i → after.graph.Slot i
  ready : after.argsReady = b.argsReady
  env : ∀ v ∈ after.graph.stored env, v = .arg b.convention.chainIndex
  spills : b.convention.params.length ≤ b.paramSlots.length →
    after.graph.SpillsAll b.convention.params b.paramSlots spills

/-! ### New holders -/

/-- A variable is added and entered into the tables. -/
abbrev withEntered (b : Builder) (x : Variable) : Builder := b.withVar x (VarTables.entered x)

theorem holdings_push (b : Builder) (x : Variable) (enter : VarId → VarTables → VarTables) :
    (b.withVar x enter).holdings = b.holdings ++ [{ x with initializer := none }] := by
  simp [holdings, withVar]

theorem length_holdings (b : Builder) : b.holdings.length = b.vars.size := by simp [holdings]

theorem params_push (b : Builder) (x : Variable) : (b.withEntered x).params =
    b.params ++ if x.kind = .param then [⟨b.vars.size⟩] else [] := by
  show (if x.kind = .param then b.params ++ [⟨b.vars.size⟩] else b.params) = _
  split <;> simp

theorem Tabled.push (h : b.Tabled) {x : Variable} (first : x.kind = .env → b.env? = none) :
    (b.withEntered x).Tabled := by
  have pushed := VarTables.Lists.push h x first
  rw [b.length_holdings] at pushed
  rw [Tabled, holdings_push]
  exact pushed

theorem ownSlots_push (b : Builder) (x : Variable) : (b.withEntered x).ownSlots =
    b.ownSlots ++ if x.isAlias then [] else [x.slot] := by
  unfold ownSlots
  rw [holdings_push, filter_append, map_append]
  cases x.isAlias <;> simp

theorem Tabled.empty {b : Builder} (blank : b.tables = {}) (none : b.vars = #[]) : b.Tabled := by
  rw [Tabled, blank, holdings, none]
  exact ⟨rfl, rfl, rfl, rfl, by simp⟩

theorem places_push (b : Builder) (x : Variable) (given : Build.Issued) : (b.withEntered x).places given =
    (b.ownSlots ++ if x.isAlias then [] else [x.slot]) ++
      (b.paramSlots.drop (b.params.length + if x.kind = VarKind.param then 1 else 0) ++ given.temporaries) := by
  show (b.withEntered x).ownSlots ++ (b.paramSlots.drop (b.withEntered x).params.length ++ _) = _
  rw [params_push, ownSlots_push]
  by_cases param : x.kind = .param <;> simp [param]

section

variable (h : b.Apportioned target sig given)

include h

/-- Adding a variable, which owns its slot or shares it with another. -/
theorem Apportioned.push {x : Variable} {given' : Build.Issued} (nodup : ((b.withEntered x).places given').Nodup)
    (known : ∀ v ∈ (b.withEntered x).places given', v ∈ b.places given ∨ ∃ i, v = .result i ∧ b.graph.Slot i)
    (first : x.kind = .env → b.env? = none) (owned : x.isAlias = true → ∃ y ∈ b.holdings, y.slot = x.slot)
    (params : given'.params = given.params ++ if x.kind = .param then [⟨b.vars.size⟩] else [])
    (param : x.kind = .param → x.isAlias = false ∧ sig.params[b.params.length]? = some x.ty ∧
      b.paramSlots[b.params.length]? = some x.slot) : (b.withEntered x).Apportioned target sig given' := by
  refine ⟨h.signature, h.convention, h.attrs, h.idle, h.unreturned, h.unready, h.ready, h.fits, nodup, fun v hv => ?_,
    fun n hn => ?_, ?_, h.tabled.push first, ?_, ?_⟩
  · rcases known v hv with old | ⟨j, rfl, made⟩
    · exact h.made v old
    · exact made
  · rcases known _ hn with old | ⟨j, eq, -⟩
    · exact h.args n old
    · cases eq
  · rw [holdings_push]
    have old : ∀ z ∈ b.holdings, ∃ y ∈ b.holdings ++ [{ x with initializer := none }],
        y.isAlias = false ∧ y.slot = z.slot := by
      intro z hz
      obtain ⟨y, mem, own⟩ := h.owned z hz
      exact ⟨y, mem_append_left _ mem, own⟩
    intro z hz
    rcases mem_append.mp hz with there | new
    · exact old z there
    · cases mem_singleton.mp new
      by_cases other : x.isAlias = true
      · obtain ⟨y, hy, same⟩ := owned other
        obtain ⟨w, hw, own, slot⟩ := old y hy
        exact ⟨w, hw, own, slot.trans same⟩
      · exact ⟨_, mem_append_right _ (mem_singleton.mpr rfl), Bool.eq_false_iff.mpr other, rfl⟩
  · rw [params_push, params, h.params]
  · rw [params_push, holdings_push]
    intro k v found
    by_cases old : k < b.params.length
    · rw [getElem?_append_left old] at found
      obtain ⟨z, hz, own⟩ := h.placed k v found
      exact ⟨z, by rw [List.getElem?_append_left (List.getElem?_eq_some_iff.mp hz).1, hz], own⟩
    · rw [getElem?_append_right (Nat.le_of_not_lt old)] at found
      split at found
      · next kind =>
        have last : k = b.params.length := by
          have below := (List.getElem?_eq_some_iff.mp found).1
          rw [length_singleton] at below
          omega
        rw [last, Nat.sub_self] at found
        cases found
        rw [last]
        exact ⟨{ x with initializer := none }, by rw [← b.length_holdings, getElem?_concat_length], param kind⟩
      · cases found

/-- A parameter takes over the slot that was kept for it. -/
theorem Apportioned.addParam {x : Variable} (kind : x.kind = .param)
    (own : x.isAlias = false) (ty : sig.params[b.params.length]? = some x.ty)
    (slot : b.paramSlots[b.params.length]? = some x.slot) :
    (b.withEntered x).Apportioned target sig { given with params := given.params ++ [⟨b.vars.size⟩] } := by
  obtain ⟨below, here⟩ := List.getElem?_eq_some_iff.mp slot
  have places : (b.withEntered x).places { given with params := given.params ++ [⟨b.vars.size⟩] } =
      b.places given := by
    rw [places_push, if_pos kind, own, Builder.places, List.drop_eq_getElem_cons below, here]
    simp
  refine h.push (places ▸ h.nodup) (fun v hv => .inl (places ▸ hv)) (fun env => by cases kind.symm.trans env)
    (fun other => ?_) (by rw [if_pos kind]) fun _ => ⟨own, ty, slot⟩
  rw [own] at other
  cases other

/-- A variable is added that shares the storage of another. -/
theorem Apportioned.addAlias {x y : Variable} (shared : y ∈ b.holdings)
    (slot : y.slot = x.slot) (other : x.isAlias = true) (kind : x.kind = .local) :
    (b.withEntered x).Apportioned target sig given := by
  have notParam : x.kind ≠ .param := fun param => by cases kind.symm.trans param
  have places : (b.withEntered x).places given = b.places given := by
    rw [places_push, if_neg notParam, other]
    simp [Builder.places]
  exact h.push (places ▸ h.nodup) (fun v hv => .inl (places ▸ hv)) (fun env => by cases kind.symm.trans env)
    (fun _ => ⟨y, shared, slot⟩) (by rw [if_neg notParam, append_nil]) fun param => absurd param notParam

/-- What has just been made has no holder. -/
theorem Apportioned.not_mem {i : InstrId} (new : b.graph.instrs.size ≤ i.index) :
    .result i ∉ b.places given := fun old => by
  obtain ⟨op, found, -⟩ := h.made _ old
  exact Nat.not_lt.mpr new (index_lt_of_op? found)

end

theorem Provided.tends {shapes : List Shape} (h : b.Provided shapes after) (attrs : after.graph.attrs = b.graph.attrs) :
    b.Tends after := by
  have slots := fun i => h.slot_old (i := i)
  obtain ⟨_, _, _, _, rfl⟩ := h.same
  exact ⟨rfl, rfl, rfl, rfl, rfl, rfl, rfl, id, attrs, slots⟩

theorem Adorned.tends (h : b.Adorned [] after) : b.Tends after := (Provided.refl.adorn h).tends h.attrs

theorem Spilled.tends {base : Operand → Prop} {is : List InstrId} (h : b.Spilled base after is) : b.Tends after := by
  have slots : ∀ i, b.graph.Slot i → after.graph.Slot i := fun i ⟨op, found, slot⟩ =>
    ⟨op, (h.op?_old (index_lt_of_op? found)).trans found, slot⟩
  have holdings := h.holdings
  obtain ⟨_, _, _, rfl⟩ := h.same
  exact .of_graph slots id (by rw [holdings]; rfl)

section

variable (h : b.Apportioned target sig given)

include h

/-- A variable is added that owns a new slot. -/
theorem Apportioned.addOwner (k : b.Tends mid) {x : Variable} {i : InstrId}
    (new : b.graph.instrs.size ≤ i.index) (made : mid.graph.Slot i) (slot : x.slot = .result i)
    (own : x.isAlias = false) (kind : x.kind ≠ .param) (first : x.kind = .env → b.env? = none) :
    (mid.withEntered x).Apportioned target sig given := by
  have places : (mid.withEntered x).places given =
      mid.ownSlots ++ .result i :: (mid.paramSlots.drop mid.params.length ++ given.temporaries) := by
    rw [places_push, if_neg kind, own, slot]
    simp
  have free : .result i ∉ mid.places given := k.places given ▸ h.not_mem new
  have kept := h.tends k
  refine kept.push ?_ (fun v hv => ?_) (fun env => (congrArg (·.env?) k.tables).trans (first env)) (fun other => ?_)
    (by rw [if_neg kind, append_nil]) fun param => absurd param kind
  · rw [places, perm_middle.nodup_iff]
    exact nodup_cons.mpr ⟨free, kept.nodup⟩
  · rw [places, mem_append, mem_cons] at hv
    rcases hv with first | rfl | last
    · exact .inl (mem_append_left _ first)
    · exact .inr ⟨i, rfl, made⟩
    · exact .inl (mem_append_right _ last)
  · rw [own] at other
    cases other

/-- A new slot is handed out as a temporary. -/
theorem Apportioned.addTemporary (k : b.Tends mid) {i : InstrId}
    (new : b.graph.instrs.size ≤ i.index) (made : mid.graph.Slot i) :
    mid.Apportioned target sig { given with temporaries := given.temporaries ++ [.result i] } := by
  have kept := h.tends k
  have free : .result i ∉ mid.places given := k.places given ▸ h.not_mem new
  have places : mid.places { given with temporaries := given.temporaries ++ [.result i] } =
      mid.places given ++ [.result i] := by
    simp [Builder.places]
  refine { kept with nodup := ?_, made := fun v hv => ?_, args := fun n hn => ?_ }
  · rw [places, (perm_append_singleton _ _).nodup_iff]
    exact nodup_cons.mpr ⟨free, kept.nodup⟩
  · rw [places, mem_append] at hv
    rcases hv with old | last
    · exact kept.made v old
    · cases mem_singleton.mp last
      exact made
  · rw [places, mem_append] at hn
    rcases hn with old | last
    · exact kept.args n old
    · cases mem_singleton.mp last

theorem Apportioned.size : b.graph.args.size = b.convention.argShapes.length := by
  rw [← length_attrs, h.attrs, length_tell, length_replicate]

theorem Apportioned.lists : b.convention.Lists := (Signature.convention?_spec h.convention).2.2.2.2

theorem Apportioned.chain : b.convention.chainIndex < b.graph.args.size := by
  rw [h.size, h.lists.length]
  omega

theorem Apportioned.inside :
    ∀ p ∈ b.convention.params, p.offset + p.argShapes.length ≤ b.graph.args.size := fun p hp => by
  have below := ((Signature.convention?_spec h.convention).2.1.inside p hp).2
  rwa [← h.lists.length, ← h.size] at below

/-- The storage of the parameters is new, or it is the caller's. -/
theorem Apportioned.outfitted (unready : b.argsReady = false)
    {done rest : List Placement} (split : b.convention.params = done ++ rest)
    (k : b.Outfitted (b.convention.hidden ++ done.flatMap Placement.attrs) done after)
    (last : (∀ p ∈ b.convention.params, p.Fits) → rest = []) : after.Apportioned target sig given := by
  have empty := h.unready unready
  have none : b.params = [] := eq_nil_iff_forall_not_mem.mpr fun v hv => by
    obtain ⟨n, found⟩ := getElem?_of_mem hv
    obtain ⟨x, -, -, -, slot⟩ := h.placed n v found
    rw [empty] at slot
    cases slot
  have nodup := h.nodup
  have made := h.made
  have args := h.args
  have consecutive := (Signature.convention?_spec h.convention).2.1
  have inside := h.inside
  have attrs := k.attrs
  rw [h.attrs, Builder.told, unready] at attrs
  obtain ⟨⟨mid, provided, rfl⟩, fits, -⟩ := k
  have kept := provided.frame.2.2
  have old := fun i => provided.slot_old (i := i)
  have new := fun i => provided.slot_new (i := i)
  obtain ⟨graph, names, pending, late, rfl⟩ := provided.same
  simp only [places, none, empty, length_nil, drop_nil, nil_append, unready] at nodup made args
  rw [empty, nil_append]
  have homes := @Placement.mem_homes b.graph.instrs.size done
  have mem : ∀ v, v ∈ b.ownSlots ++ ((Placement.homes b.graph.instrs.size done).drop b.params.length ++
      given.temporaries) → v ∈ Placement.homes b.graph.instrs.size done ∨ v ∈ b.ownSlots ++ given.temporaries := by
    intro v hv
    rw [none, length_nil, drop_zero, (perm_append_comm_assoc ..).mem_iff] at hv
    exact mem_append.mp hv
  refine ⟨h.signature, h.convention, attrs.trans ?_, h.idle, h.unreturned, by rintro ⟨⟩, fun _ all => ?_,
    fun n p found below => ?_, ?_, fun v hv => ?_, fun n hn => ⟨rfl, ?_⟩, h.owned, h.tabled, h.params, ?_⟩
  · simp [Builder.told, Placement.length_homes, split, tell]
  · simp [Placement.length_homes, split, last all]
  · have found : b.convention.params[n]? = some p := found
    rw [Placement.length_homes] at below
    rw [split, getElem?_append_left below] at found
    exact fits p (mem_of_getElem? found)
  · show (b.ownSlots ++ ((Placement.homes _ done).drop b.params.length ++ _)).Nodup
    rw [none, length_nil, drop_zero, (perm_append_comm_assoc ..).nodup_iff, nodup_append]
    refine ⟨Placement.nodup_homes (split ▸ consecutive).front, nodup, ?_⟩
    rintro v hv _ hw rfl
    rcases homes hv with ⟨p, -, rfl, -⟩ | ⟨i, rfl, unmade, -⟩
    · exact absurd (args _ hw).1 Bool.false_ne_true
    · obtain ⟨op, found, -⟩ := made _ hw
      exact Nat.not_lt.mpr unmade (index_lt_of_op? found)
  · rcases mem _ hv with home | there
    · rcases homes home with ⟨p, -, rfl, -⟩ | ⟨i, rfl, unmade, below⟩
      · trivial
      · exact new i unmade below
    · exact (made v there).mono old
  · show n < graph.args.size
    rw [show graph.args.size = _ from kept]
    rcases mem _ hn with home | there
    · rcases homes home with ⟨p, hp, eq, indirect⟩ | ⟨i, eq, -⟩
      · cases eq
        have below := inside p (split ▸ mem_append_left _ hp)
        have one := Placement.slots_of_isIndirect indirect
        have least := p.slots_le
        omega
      · cases eq
    · exact absurd (args n there).1 Bool.false_ne_true
  · intro n v found
    have found : b.params[n]? = some v := found
    rw [none] at found
    cases found

end

/-! ### Changes of storage -/

inductive Move (b : Builder) : Builder → Prop where
  | adorn {after : Builder} {l : List (Nat × ArgAttr)} (k : b.Adorned l after) : b.Move after
  /-- Something is noted about variables and parameters, all of which are kept in storage. -/
  | note {vars : Array Variable} {tables : VarTables} {paramSlots : List Operand} {argsReady errorSeen : Bool}
      (storage : ∀ v ∈ ({ b with vars, paramSlots } : Builder).roots, v ∈ b.roots ∨ b.graph.Storage v) :
      b.Move { b with vars, tables, paramSlots, argsReady, errorSeen }
  | slot (shape : Shape) (name : Option String) : b.Move (b.withSlot ⟨.alloca shape, .ptr shape, name⟩)
  /-- Instructions that fill a late slot wait behind it. -/
  | fill {mid : Builder} {slot : InstrId} {is : List InstrId} (placed : b.prologPlaced = true)
      (waits : slot ∈ b.lateSlots) (isSlot : b.graph.Slot slot) (k : b.Spilled (· = .result slot) mid is) :
      b.Move { mid with lateSlots := mid.lateSlots ++ is }
  /-- The prolog takes its place: the slots made so far, and the instructions that fill them. -/
  | prolog {mid : Builder} {is : List InstrId} {g : Graph} (unplaced : b.prologPlaced = false)
      (k : b.Spilled b.graph.Storage mid is) (run : mid.graph.insertFront b.entry (b.pendingSlots ++ is) = .ok g) :
      b.Move { mid with graph := g, pendingSlots := [], prologPlaced := true }
  /-- What has waited behind the prolog takes its place in front of it. -/
  | late {g : Graph} (run : b.graph.insertFront b.entry b.lateSlots = .ok g) :
      b.Move { b with graph := g, lateSlots := [] }

inductive Moves (b : Builder) : Builder → Prop where
  | refl : b.Moves b
  | snoc {mid after : Builder} (h : b.Moves mid) (k : mid.Move after) : b.Moves after

/-- What every change of storage keeps is kept by a sequence of them. -/
theorem Moves.keeps {I : Builder → Prop} (step : ∀ {b after : Builder}, b.Move after → I b → I after)
    (h : b.Moves after) (start : I b) : I after := by
  induction h with
  | refl => exact start
  | snoc _ k ih => exact step k ih

theorem Provided.moves {shapes : List Shape} (h : b.Provided shapes after) : b.Moves after := by
  induction h with
  | refl => exact .refl
  | adorn _ k ih => exact ih.snoc (.adorn k)
  | slot _ shape name ih => exact ih.snoc (.slot shape name)

theorem Outfitted.moves {l : List (Nat × ArgAttr)} {ps : List Placement} (h : b.Outfitted l ps after) :
    b.Moves after := by
  obtain ⟨⟨mid, provided, rfl⟩, -⟩ := h
  refine provided.moves.snoc (.note fun v hv => ?_)
  have size := provided.size
  obtain ⟨_, _, _, _, same⟩ := provided.same
  simp only [roots, mem_append] at hv ⊢
  rcases hv with (var | old | home) | returned
  · exact .inl (.inl (.inl var))
  · exact .inl (.inl (.inr (by rw [same]; exact old)))
  · right
    rcases Placement.mem_homes home with ⟨p, -, rfl, -⟩ | ⟨i, rfl, new, below⟩
    · trivial
    · exact provided.slot_new new below
  · exact .inl (.inr returned)

/-- Noting when variables are set. -/
theorem Move.of_holdings {vars : Array Variable} (same : ({ b with vars } : Builder).holdings = b.holdings) :
    b.Move { b with vars } := by
  refine .note fun v hv => .inl ?_
  rw [roots_eq] at hv ⊢
  rwa [same] at hv

theorem Move.push {x : Variable} {enter : VarId → VarTables → VarTables} (storage : b.graph.Storage x.slot) :
    b.Move (b.withVar x enter) :=
  .note fun _ hv => (mem_roots_of_push hv).imp id (by rintro rfl; exact storage)

/-! ### Owners -/

section Owners

variable {slot : Operand}

theorem mem_ownSlots : slot ∈ b.ownSlots ↔ ∃ v x, b.var? v = some x ∧ x.isAlias = false ∧ x.slot = slot := by
  constructor
  · intro h
    obtain ⟨y, hy, rfl⟩ := mem_map.mp h
    obtain ⟨hy, own⟩ := mem_filter.mp hy
    obtain ⟨x, hx, rfl⟩ := mem_map.mp hy
    obtain ⟨n, found⟩ := Array.getElem?_of_mem (Array.mem_toList_iff.mp hx)
    exact ⟨⟨n⟩, x, found, by simpa using own, rfl⟩
  · rintro ⟨v, x, found, own, rfl⟩
    refine mem_map.mpr ⟨{ x with initializer := none },
      mem_filter.mpr ⟨mem_map.mpr ⟨x, ?_, rfl⟩, ?_⟩, rfl⟩
    · exact Array.mem_toList_iff.mpr (Array.mem_of_getElem? found)
    · rw [own]
      rfl

theorem Tabled.length_params (h : b.Tabled) : b.params.length = b.vars.toList.countP (·.kind = .param) := by
  rw [show b.params = _ from h.params, VarKind.length_ids, holdings, countP_map]
  rfl

theorem Tabled.env?_eq_none (h : b.Tabled) (other : ∀ x ∈ b.vars.toList, x.kind ≠ .env) : b.env? = none := by
  have length := congrArg length h.env
  rw [VarKind.length_ids, countP_eq_zero.mpr] at length
  · exact Option.toList_eq_nil_iff.mp (length_eq_zero_iff.mp length)
  · intro y hy
    obtain ⟨x, hx, rfl⟩ := mem_map.mp hy
    simpa using other x hx

theorem Tabled.mem_owners (h : b.Tabled) {w : VarId} :
    (slot, w) ∈ b.tables.owners ↔ ∃ y, b.var? w = some y ∧ y.isAlias = false ∧ y.slot = slot := by
  rw [h.owners, getElem?_holdings]
  constructor
  · rintro ⟨_, held, own, same⟩
    obtain ⟨y, found, rfl⟩ := Option.map_eq_some_iff.mp held
    exact ⟨y, found, own, same⟩
  · rintro ⟨y, found, own, same⟩
    exact ⟨_, congrArg _ found, own, same⟩

/-- An owner is a variable of its own with that slot. -/
theorem Tabled.owner?_spec (h : b.Tabled) {w : VarId} (found : b.owner? slot = some w) :
    ∃ y, b.var? w = some y ∧ y.isAlias = false ∧ y.slot = slot :=
  h.mem_owners.mp (by
    obtain ⟨front, back, split, -⟩ := lookup_eq_some_iff.mp found
    simp [split])

theorem Tabled.exists_owner? (h : b.Tabled) (own : slot ∈ b.ownSlots) : ∃ w, b.owner? slot = some w := by
  obtain ⟨v, there⟩ := mem_ownSlots.mp own
  cases found : b.owner? slot with
  | none => exact absurd (lookup_eq_none_iff.mp found _ (h.mem_owners.mpr there)) (by simp)
  | some w => exact ⟨w, rfl⟩

variable (h : b.Apportioned target sig given)

include h

/-- The slot of every variable has an owner. -/
theorem Apportioned.mem_ownSlots {v : VarId} {x : Variable} (found : b.var? v = some x) : x.slot ∈ b.ownSlots := by
  obtain ⟨y, hy, own, same⟩ := h.owned { x with initializer := none }
    (mem_of_getElem? ((b.getElem?_holdings v.index).trans (congrArg _ found)))
  exact mem_map.mpr ⟨y, mem_filter.mpr ⟨hy, by rw [own]; rfl⟩, same⟩

/-- The closure environment has storage. -/
theorem Apportioned.storage_env {v : VarId} {x : Variable}
    (found : (b.env?.bind fun v => (b.var? v).map (v, ·)) = some (v, x)) : b.graph.Storage x.slot := by
  obtain ⟨w, -, found⟩ := Option.bind_eq_some_iff.mp found
  obtain ⟨y, hy, eq⟩ := Option.map_eq_some_iff.mp found
  cases eq
  exact h.made _ (mem_append_left _ (h.mem_ownSlots hy))

/-- All storage has a holder. -/
theorem Apportioned.mem_places (root : slot ∈ b.roots) : slot ∈ b.places given := by
  have own : ∀ v x, b.var? v = some x → x.slot ∈ b.places given := fun _ _ found =>
    mem_append_left _ (h.mem_ownSlots found)
  rcases mem_append.mp root with root | returned
  · rcases mem_append.mp root with var | param
    · obtain ⟨x, hx, rfl⟩ := mem_map.mp var
      obtain ⟨n, found⟩ := Array.getElem?_of_mem (Array.mem_toList_iff.mp hx)
      exact own ⟨n⟩ x found
    · obtain ⟨k, found⟩ := getElem?_of_mem param
      by_cases registered : k < b.params.length
      · obtain ⟨x, hx, -, -, same⟩ := h.placed k _ (getElem?_eq_getElem registered)
        cases found.symm.trans same
        obtain ⟨y, there, rfl⟩ := Option.map_eq_some_iff.mp ((b.getElem?_holdings _).symm.trans hx)
        exact own _ y there
      · refine mem_append_right _ (mem_append_left _ (mem_of_getElem? (i := k - b.params.length) ?_))
        rw [getElem?_drop, Nat.add_sub_cancel' (Nat.le_of_not_lt registered), found]
  · rw [h.unreturned] at returned
    cases returned

/-- No variable has the slot that is kept for the next parameter. -/
theorem Apportioned.unowned (kept : b.paramSlots[b.params.length]? = some slot) : b.owner? slot = none := by
  cases found : b.owner? slot with
  | none => rfl
  | some w =>
    have own := Builder.mem_ownSlots.mpr ⟨w, h.tabled.owner?_spec found⟩
    refine absurd rfl ((List.nodup_append.mp h.nodup).2.2 slot own slot (List.mem_append_left _ ?_))
    obtain ⟨below, here⟩ := List.getElem?_eq_some_iff.mp kept
    rw [List.drop_eq_getElem_cons below, here]
    exact List.mem_cons_self

end Owners

end Builder

/-! ### Calls -/

/-- The cause is one of those that setting up storage reports. -/
def Cause.isStorage : Cause → Bool
  | .tooManyParameters _ | .parameterTypeMismatch _ | .unregisteredParameters .. | .chainAlreadyRegistered
  | .badAlias _ | .inconsistentChunks _ => true
  | _ => false

/-- The computation stopped for a fault, or it reported an error about storage and left a function of which `P`
holds. -/
def Halt.Stores (P : Prop) : Halt BuildError → Prop
  | .fault _ => True
  | .error e => e.cause.isStorage = true ∧ P

namespace Build

variable {b : Builder} {target : Target} {sig : Signature} {given : Issued}

/-- The operation changes nothing but storage, and the holders stay apart, with those that it adds. -/
def Stores {α : Type} (target : Target) (sig : Signature) (given : Issued) (x : BuildM α) (b s : Builder)
    (issue : α → Issued) : Prop :=
  Ensures x s (fun a after => b.Moves after ∧ after.Apportioned target sig (issue a))
    fun e after => e.Stores (b.Moves after ∧ after.Apportioned target sig given)

/-- Only a parameter that does not fit can be in the way of setting up the arguments. -/
theorem setUpArgs_stores (h : b.Apportioned target sig given) : Ensures setUpArgs b
    (fun _ after => (b.Moves after ∧ after.Apportioned target sig given) ∧ b.Readied after)
    fun e after => e.Stores (b.Moves after ∧ after.Apportioned target sig given) ∧ e.Misfit b.convention.params := by
  cases ready : b.argsReady with
  | true => exact .of_run (setUpArgs_of_ready ready) ⟨⟨.refl, h⟩, _, _, _, _, _, by rw [← ready], rfl⟩
  | false =>
    refine (setUpArgs_outfits ready h.chain h.inside).mono
      (fun _ _ k => ⟨⟨k.moves, h.outfitted ready (append_nil _).symm k fun _ => rfl⟩, ?_⟩) ?_
    · obtain ⟨mid, provided, rfl⟩ := k.provided
      have blocks := provided.frame.2.1
      obtain ⟨_, _, _, _, rfl⟩ := provided.same
      exact ⟨_, _, _, _, _, rfl, blocks⟩
    rintro _ after ⟨done, rest, split, k, err, n, rfl, cause, p, hp, unfit⟩
    exact ⟨⟨by rw [cause]; rfl, k.moves, h.outfitted ready split k fun all => absurd (all p hp) unfit⟩,
      err, n, rfl, cause, p, hp, unfit⟩

theorem ensures_addVar {x : Variable} {enter : VarId → VarTables → VarTables} {Q : VarId → Builder → Prop}
    {E : Halt BuildError → Builder → Prop} :
    Ensures (addVar x enter) b Q E ↔ Q ⟨b.vars.size⟩ (b.withVar x enter) := Iff.rfl

/-- A parameter is registered in the storage that was kept for it, and never because of another variable not. -/
theorem registerParam_stores (h : b.Apportioned target sig given) (name : String) (ty : Ty) (addressTaken : Bool)
    (span : Span) : Stores target sig given (registerParam name ty addressTaken span) b b fun v =>
      { given with params := given.params ++ [v] } := by
  unfold registerParam
  refine Ensures.bind ((setUpArgs_stores h).mono (fun _ _ q => q) fun _ _ he => he.1) fun _ mid ⟨⟨moves, k⟩, _⟩ => ?_
  refine .get ?_
  dsimp only
  rw [show mid.tables.registered = mid.params.length from k.tabled.registered]
  split
  · next p found =>
    refine Ensures.when (P := fun after => mid = after ∧ p.ty = ty) ?_ ?_
    · split
      · exact ⟨rfl, moves, k⟩
      · next same => exact ⟨rfl, Classical.not_not.mp same⟩
    rintro _ ⟨rfl, rfl⟩
    refine ensures_bind.mpr (ensures_checked.mpr ⟨fun slot kept => ?_, fun _ _ => trivial⟩)
    have kept := require_eq_ok_iff.mp kept
    have place : slot ∈ mid.places given :=
      k.mem_places (mem_append_left _ (mem_append_right _ (mem_of_getElem? kept)))
    have storage := k.made slot place
    rw [k.unowned kept, if_neg (by simp)]
    refine Ensures.bind (.of_succeeds (nameParam_adorns ?_ ?_ (k.inside p (mem_of_getElem? found)) name))
      fun _ after adorned => ?_
    · rintro i rfl
      obtain ⟨op, there, -⟩ := storage
      exact index_lt_of_op? there
    · rintro n rfl
      exact (k.args n place).2
    have tends := adorned.tends
    refine ensures_addVar.mpr ⟨(moves.snoc (.adorn adorned)).snoc (.push (storage.mono tends.slots)),
      (k.tends tends).addParam rfl rfl ?_ ?_⟩
    · rw [tends.params, ← (Signature.convention?_spec k.convention).1, getElem?_map, found]
      rfl
    · rw [tends.paramSlots, tends.params, kept]
  · exact ⟨rfl, moves, k⟩

/-- A variable gets a slot of its own. -/
theorem addOwner_stores {mid : Builder} (moves : b.Moves mid) (k : mid.Apportioned target sig given) (shape : Shape)
    (name : Option String) {x : Variable} (slot : x.slot = .result ⟨mid.graph.instrs.size⟩) (own : x.isAlias = false)
    (kind : x.kind ≠ .param) (first : x.kind = .env → mid.env? = none) :
    ∃ s, s = mid.withSlot ⟨.alloca shape, .ptr shape, name⟩ ∧ s.graph.Slot ⟨mid.graph.instrs.size⟩ ∧
      b.Moves (s.withEntered x) ∧ (s.withEntered x).Apportioned target sig given := by
  have provided := (Builder.Provided.refl (b := mid)).slot shape name
  have made : (mid.withSlot _).graph.Slot ⟨mid.graph.instrs.size⟩ :=
    provided.slot_new (Nat.le_refl _) (Nat.lt_succ_self _)
  refine ⟨_, rfl, made, (moves.snoc (.slot shape name)).snoc (.push ?_), ?_⟩
  · rw [slot]
    exact made
  · exact k.addOwner (provided.tends (by rw [mid.graph_withSlot]; rfl)) (Nat.le_refl _) made slot own kind first

section

variable (h : b.Apportioned target sig given)

include h

theorem registerEnv_stores (name : String) (ty : Ty) (span : Span) :
    Stores target sig given (registerEnv name ty span) b b fun _ => given := by
  unfold registerEnv
  refine Ensures.bind ((setUpArgs_stores h).mono (fun _ _ q => q) fun _ _ he => he.1) fun _ mid ⟨⟨moves, k⟩, _⟩ => ?_
  refine .get ?_
  refine Ensures.when (P := fun after => mid = after ∧ mid.env? = none) ?_ ?_
  · split
    · exact ⟨rfl, moves, k⟩
    · next unnamed => exact ⟨rfl, by simpa using unnamed⟩
  rintro _ ⟨rfl, unnamed⟩
  obtain ⟨s, eq, made, moves, k⟩ := addOwner_stores moves k ty.shape (some (name ++ ".addr"))
    (x := { name, ty, kind := .env, slot := .result ⟨mid.graph.instrs.size⟩, span, addressTaken := true })
    rfl rfl (by rintro ⟨⟩) fun _ => unnamed
  have late := mid.mem_lateSlots_withSlot ⟨.alloca ty.shape, .ptr ty.shape, some (name ++ ".addr")⟩
  have placed := (mid.extends_withSlot ⟨.alloca ty.shape, .ptr ty.shape, some (name ++ ".addr")⟩).placed
  refine .after (newSlot_eq mid _ _) ?_
  rw [← eq] at late placed ⊢
  refine ensures_bind.mpr (ensures_addVar.mpr (.get ?_))
  dsimp only
  split
  · next isPlaced =>
    refine Ensures.bind (.of_succeeds (spillEnv_spills _ _ _ _)) fun is after ⟨spilled, _⟩ =>
      .modify (ensures_pure.mpr ⟨moves.snoc (.fill isPlaced (late ?_) made spilled), ?_⟩)
    · exact placed.symm.trans isPlaced
    · exact (k.tends spilled.tends).tends (.of_graph (fun _ => id) id rfl)
  · exact ⟨moves, k⟩

theorem registerLocal_stores (name : String) (ty : Ty) (aliasOf : Option VarId) (addressTaken : Bool) (span : Span) :
    Stores target sig given (registerLocal name ty aliasOf addressTaken span) b b fun _ => given := by
  unfold registerLocal
  split
  · refine .get ?_
    split
    · next earlier x found =>
      have storage : b.graph.Storage x.slot := h.made _ (mem_append_left _ (h.mem_ownSlots found))
      refine ensures_addVar.mpr ⟨Builder.Moves.refl.snoc (.push storage),
        h.addAlias (y := { x with initializer := none }) ?_ rfl rfl rfl⟩
      exact mem_map.mpr ⟨x, Array.mem_toList_iff.mpr (Array.mem_of_getElem? found), rfl⟩
    · exact ⟨rfl, .refl, h⟩
  · obtain ⟨s, eq, -, moves, k⟩ := addOwner_stores .refl h ty.shape (some name)
      (x := { name, ty, kind := .local, slot := .result ⟨b.graph.instrs.size⟩, span, addressTaken }) rfl rfl
      (by rintro ⟨⟩) (by rintro ⟨⟩)
    refine .after (newSlot_eq b _ _) ?_
    rw [← eq]
    exact ensures_addVar.mpr ⟨moves, k⟩

theorem newTemporary_stores (ty : Ty) (tag : String) :
    Stores target sig given (newTemporary ty tag) b b fun v =>
      { given with temporaries := given.temporaries ++ [v] } := by
  refine Ensures.bind (.of_succeeds (fresh_adorns b tag)) fun name mid adorned => .of_run (newSlot_eq mid _ _) ⟨?_, ?_⟩
  · exact (Builder.Moves.refl.snoc (.adorn adorned)).snoc (.slot ty.shape (some name))
  · have provided := (Builder.Provided.refl (b := mid)).slot ty.shape (some name)
    exact (h.tends adorned.tends).addTemporary (provided.tends (by rw [mid.graph_withSlot]; rfl)) (Nat.le_refl _)
      (provided.slot_new (Nat.le_refl _) (Nat.lt_succ_self _))

end

/-- The prolog is made behind the instructions for the closure environment, and takes its place. -/
theorem insertProlog_stores {s mid : Builder} (moves : b.Moves s) (h : s.Apportioned target sig given)
    (unplaced : s.prologPlaced = false) {env : List InstrId} (first : s.Spilled s.graph.Storage mid env)
    (chain : ∀ v ∈ mid.graph.stored env, v = .arg s.convention.chainIndex) :
    Ensures (do
        let spills ← spillParams 0 s.convention.params
        let prolog := (← get).pendingSlots ++ env ++ spills
        onGraph (·.insertFront s.entry prolog)
        modify ({ · with pendingSlots := [], prologPlaced := true })
        if let some last := prolog.getLast? then
          (← get).params.forM fun v =>
            updateVar v fun x => { x with initializer := x.initializer <|> some last }) mid
      (fun _ after => ((b.Moves after ∧ after.Apportioned target sig given) ∧ after.prologPlaced = true) ∧
        ∃ spills, s.Opens after env spills)
      fun e _ => e.IsFault ∧ ¬ (s.convention.params.length ≤ s.paramSlots.length ∧
        s.entry.index < s.graph.blocks.size) := by
  have same : mid.paramSlots = s.paramSlots ∧ mid.pendingSlots = s.pendingSlots := by
    obtain ⟨_, _, _, rfl⟩ := first.same
    exact ⟨rfl, rfl⟩
  refine Ensures.bind ((spillParams_spills _ mid 0 fun n p found below => ?_).mono (fun _ _ q => q) ?_)
    fun spills last ⟨second, spilled⟩ => ?_
  · rw [same.1, Nat.zero_add] at below
    exact h.fits n p found below
  · rintro _ _ ⟨fault, few⟩
    rw [same.1, Nat.zero_add] at few
    exact ⟨fault, fun enough => Nat.not_lt.mpr enough.1 few⟩
  have whole : s.Spilled s.graph.Storage last (env ++ spills) := first.trans second fun v hv => .inl <| by
    rw [same.1] at hv
    exact h.made v (h.mem_places (mem_append_left _ (mem_append_right _ hv)))
  have pending : last.pendingSlots = s.pendingSlots := by
    obtain ⟨_, _, _, rfl⟩ := second.same
    exact same.2
  have blocks : last.graph.blocks = s.graph.blocks ∧ last.entry = s.entry := by
    obtain ⟨_, _, _, rfl⟩ := whole.same
    exact ⟨rfl, rfl⟩
  refine .get ?_
  dsimp only
  refine ensures_bind.mpr (ensures_onGraph.mpr ⟨fun g run => ?_, fun f run => ⟨⟨f, rfl⟩, fun inside => ?_⟩⟩)
  · rw [pending, append_assoc] at run
    have placed := moves.snoc (.prolog unplaced whole run)
    have inserted : last.Tends { last with graph := g, pendingSlots := [], prologPlaced := true } :=
      .of_graph (fun i ⟨op, found, slot⟩ => ⟨op, (op?_of_updateBlock run i).trans found, slot⟩) id
        (by rw [(eq_of_updateBlock run).2]; rfl)
    have tends := whole.tends.trans inserted
    have does : ∀ i op shape, last.graph.Does i op shape → g.Does i op shape := fun i op shape does => by
      rwa [Graph.Does, instrs_of_updateBlock run]
    have opens : s.Opens { last with graph := g, pendingSlots := [], prologPlaced := true } env spills := by
      refine ⟨blocks.2, ?_, tends.slots, tends.argsReady, fun v hv => chain v ?_, fun enough => ?_⟩
      · show g.body s.entry = _
        rw [body_of_insertFront run, if_pos rfl, body, blocks.1, body]
      · have same : env.map g.op? = env.map mid.graph.op? := map_congr_left fun i hi => by
          rw [op?_of_updateBlock run, second.op?_old ((first.mem i).mp hi).2]
        exact show v ∈ (env.map mid.graph.op?).filterMap _ from same ▸ hv
      · rw [same.1, Nat.zero_add] at spilled
        exact (spilled enough).mono does
    have kept := h.tends tends
    refine .modify ?_
    split
    · next final _ =>
      refine .get ?_
      refine Ensures.forM (I := fun _ after => ((b.Moves after ∧ after.Apportioned target sig given) ∧
        after.prologPlaced = true) ∧ ∃ spills, s.Opens after env spills) ?_ _ _ ⟨⟨⟨placed, kept⟩, rfl⟩, spills, opens⟩
      rintro v _ after ⟨⟨⟨moves, k⟩, isPlaced⟩, spills, opens⟩
      have same := after.holdings_modify v fun x => x.initializer <|> some final
      exact ⟨⟨⟨moves.snoc (.of_holdings same), k.tends (.of_graph (fun _ => id) id (by rw [same]))⟩, isPlaced⟩, spills,
        ⟨opens.entry, opens.body, opens.slots, opens.ready, opens.env, opens.spills⟩⟩
    · exact ⟨⟨⟨placed, kept⟩, rfl⟩, spills, opens⟩
  · have done : last.graph.insertFront s.entry (last.pendingSlots ++ env ++ spills) = .ok _ :=
      if_pos (blocks.1.symm ▸ inside.2)
    cases run.symm.trans done

/-- The prolog takes its place when all parameters fit and are registered. -/
theorem placeProlog_opens (h : b.Apportioned target sig given) : Ensures placeProlog b
    (fun _ after => ((b.Moves after ∧ after.Apportioned target sig given) ∧ after.prologPlaced = true) ∧
      (b.prologPlaced = false → ∃ mid env spills, (b.Moves mid ∧ mid.Apportioned target sig given) ∧ b.Readied mid ∧
        mid.Opens after env spills))
    fun e after => e.Stores (b.Moves after ∧ after.Apportioned target sig given) ∧ ¬ b.Complete := by
  unfold placeProlog
  refine .get ?_
  dsimp only
  split
  · next placed => exact ⟨⟨⟨.refl, h⟩, placed⟩, fun unplaced => absurd (placed.symm.trans unplaced) (by simp)⟩
  next unplaced =>
  refine Ensures.bind ((setUpArgs_stores h).mono (fun _ _ q =>
    q) fun _ _ ⟨stores, _, _, _, _, p, hp, unfit⟩ => ⟨stores, fun complete => unfit (complete.fits p hp)⟩)
    fun _ mid ⟨⟨moves, k⟩, readied⟩ => ?_
  have same : mid.prologPlaced = b.prologPlaced ∧ mid.argsReady = true ∧ mid.convention = b.convention ∧
      mid.params = b.params ∧ mid.entry = b.entry ∧ mid.graph.blocks = b.graph.blocks := by
    obtain ⟨_, _, _, _, _, rfl, blocks⟩ := readied
    exact ⟨rfl, rfl, rfl, rfl, rfl, blocks⟩
  obtain ⟨place, ready, convention, params, entry, blocks⟩ := same
  have unplaced : mid.prologPlaced = false := place.trans (Bool.eq_false_iff.mpr unplaced)
  have done : ∀ {env : List InstrId} {after : Builder}, (∃ spills, mid.Opens after env spills) →
      b.prologPlaced = false → ∃ mid env spills, (b.Moves mid ∧ mid.Apportioned target sig given) ∧ b.Readied mid ∧
        mid.Opens after env spills := fun ⟨spills, opens⟩ _ => ⟨mid, _, spills, ⟨moves, k⟩, readied, opens⟩
  have failed : ∀ {e : Halt BuildError} {P : Prop}, e.IsFault ∧
    ¬ (mid.convention.params.length ≤ mid.paramSlots.length ∧
      mid.entry.index < mid.graph.blocks.size) → e.Stores P ∧ ¬ b.Complete := by
    rintro _ _ ⟨⟨f, rfl⟩, missing⟩
    refine ⟨trivial, fun complete => missing ⟨?_, entry ▸ blocks ▸ complete.entry⟩⟩
    exact Nat.le_of_eq (k.ready ready (convention ▸ complete.fits)).symm
  refine .get ?_
  split
  · next wrong =>
    rw [show mid.tables.registered = mid.params.length from k.tabled.registered, params, convention] at wrong
    exact ⟨⟨rfl, moves, k⟩, fun complete => wrong.1 complete.registered⟩
  split
  · next v x found =>
    refine Ensures.bind (.of_succeeds (spillEnv_spills mid v x.slot x.ty)) fun env last ⟨spilled, chain⟩ =>
      (insertProlog_stores moves k unplaced (spilled.mono ?_) chain).mono (fun _ _ q =>
        ⟨q.1, done q.2⟩) fun _ _ => failed
    rintro _ rfl
    exact k.storage_env found
  · exact (insertProlog_stores moves k unplaced (.refl mid) (by rintro _ ⟨⟩)).mono (fun _ _ q => ⟨q.1, done q.2⟩)
      fun _ _ => failed

theorem placeProlog_stores (h : b.Apportioned target sig given) : Ensures placeProlog b
    (fun _ after => (b.Moves after ∧ after.Apportioned target sig given) ∧ after.prologPlaced = true)
    fun e after => e.Stores (b.Moves after ∧ after.Apportioned target sig given) :=
  (placeProlog_opens h).mono (fun _ _ q => q.1) fun _ _ he => he.1

end Build

/-! ### Labels -/

namespace Builder

def addBlock (b : Builder) (tag : String) : Builder :=
  { b with names := (b.names.fresh tag).2, graph := (b.graph.newBlock (b.names.fresh tag).1).2 }

inductive Relabel (b : Builder) : Builder → Prop where
  | note {labels : LabelTable} (idle : b.labels.Idle → labels.Idle) : b.Relabel { b with labels }
  | block (tag : String) : b.Relabel (b.addBlock tag)
  | attach (x : BlockId) : b.Relabel { b with graph := b.graph.attach x }
  | take {x : BlockId} {g : Graph} (run : b.graph.updateBlock x ({ · with addressTaken := true }) = .ok g) :
      b.Relabel { b with graph := g }
  /-- A placeholder is replaced in an instruction. -/
  | resolve {i : InstrId} {t : Op → Op} {g : Graph} (resolves : ∀ op : Op, op.Resolves (t op))
      (run : b.graph.updateInstr i (fun instr => { instr with op := t instr.op }) = .ok g) :
      b.Relabel { b with graph := g }

inductive Relabels (b : Builder) : Builder → Prop where
  | refl : b.Relabels b
  | snoc {mid after : Builder} (h : b.Relabels mid) (k : mid.Relabel after) : b.Relabels after

variable {b mid after : Builder}

theorem Relabels.trans (h : b.Relabels mid) (k : mid.Relabels after) : b.Relabels after := by
  induction k with
  | refl => exact h
  | snoc _ k ih => exact ih.snoc k

theorem Relabels.layout (h : b.Relabels after) {x : BlockId} (laid : x ∈ b.graph.layout) : x ∈ after.graph.layout := by
  induction h with
  | refl => exact laid
  | snoc _ k ih =>
    cases k with
    | note | block => exact ih
    | attach y => exact mem_layout_attach.mpr (.inl ih)
    | take run =>
      rw [(eq_of_updateBlock run).2]
      exact ih
    | resolve _ run =>
      rw [(eq_of_updateInstr run).2]
      exact ih

theorem Relabel.tends (h : b.Relabel after) : b.Tends after := by
  cases h with
  | note idle => exact .of_graph (fun _ => id) idle rfl
  | block tag => exact .of_graph (fun _ => (Graph.Extends.newBlock _ _).slot) id rfl
  | attach x =>
    exact .of_graph (fun _ => (Graph.Extends.attach _ x).slot) id (by unfold attrs; rw [args_attach]; rfl)
  | take run =>
    refine .of_graph (fun _ => (Graph.Extends.updateBlock run fun _ => rfl).slot) id ?_
    rw [(eq_of_updateBlock run).2]
    rfl
  | resolve resolves run =>
    refine .of_graph (fun _ => (Graph.Extends.updateInstr run fun instr => ⟨resolves instr.op, rfl⟩).slot) id ?_
    rw [(eq_of_updateInstr run).2]
    rfl

/-- Operations on labels give nobody a slot. -/
theorem Relabels.tends (h : b.Relabels after) : b.Tends after := by
  induction h with
  | refl => exact .refl b
  | snoc _ k ih => exact ih.trans k.tends

end Builder

namespace Build

variable {b : Builder} {target : Target} {sig : Signature} {given : Issued} {after : Builder} {call : Call}

/-- The operation changes nothing but labels, also where it reports an error. -/
def Relabels {α : Type} (x : BuildM α) (b : Builder) (Q : α → Builder → Prop) : Prop :=
  Ensures x b (fun a after => b.Relabels after ∧ Q a after) fun _ after => b.Relabels after

namespace Relabels

variable {α β : Type} {Q : α → Builder → Prop}

theorem pure {a : α} (q : Q a b) : Relabels (Pure.pure a) b Q := ⟨.refl, q⟩

theorem bind {R : β → Builder → Prop} {x : BuildM α} {f : α → BuildM β} (first : Relabels x b Q)
    (second : ∀ a mid, b.Relabels mid → Q a mid → Relabels (f a) mid R) : Relabels (x >>= f) b R :=
  Ensures.bind first fun a mid ⟨k, q⟩ => Ensures.mono (second a mid k q) (fun _ _ ⟨k', r⟩ => ⟨k.trans k', r⟩)
    fun _ _ k' => k.trans k'

theorem get {f : Builder → BuildM α} (h : Relabels (f b) b Q) : Relabels (MonadStateOf.get >>= f) b Q := h

theorem fail (span : Span) (cause : Cause) : Relabels (Build.fail span cause : BuildM α) b Q :=
  show b.Relabels b from .refl

/-- The operation is a single change. -/
theorem change {f : Builder → α × Builder} (k : b.Relabel (f b).2) (q : Q (f b).1 (f b).2) :
    Relabels (modifyGet f : BuildM α) b Q := ⟨Builder.Relabels.refl.snoc k, q⟩

theorem onGraph {f : Graph → Checked Graph} (h : ∀ g, f b.graph = .ok g → b.Relabel { b with graph := g }) :
    Relabels (Build.onGraph f) b fun _ _ => True :=
  ensures_onGraph.mpr ⟨fun g run => ⟨Builder.Relabels.refl.snoc (h g run), trivial⟩, fun _ _ => .refl⟩

end Relabels

theorem updateLabel_relabels (l : LabelId) (f : Label → Label) : Relabels (updateLabel l f) b fun _ _ => True :=
  .change (f := fun b => ((), { b with labels := b.labels.update l f })) (.note fun h => ⟨h.users, h.branches⟩) trivial

theorem newLabel_relabels (span : Span) : Relabels (newLabel span) b fun _ _ => True :=
  .change (.note fun h => ⟨h.users, h.branches⟩) trivial

theorem labelBlock_relabels (l : LabelId) (span : Span) : Relabels (labelBlock l span) b fun _ _ => True := by
  refine .get ?_
  split
  · split
    · exact .pure trivial
    · have made : Relabels (newBlock "label") b fun _ _ => True :=
        .of_run rfl ⟨Builder.Relabels.refl.snoc (.block "label"), trivial⟩
      exact made.bind fun _ _ _ _ => (updateLabel_relabels _ _).bind fun _ _ _ _ => .pure trivial
  · exact .fail _ _

theorem takeAddress_relabels (x : BlockId) : Relabels (takeAddress x) b fun _ _ => True :=
  .onGraph fun _ run => .take run

theorem resolveIn_relabels (p : PlaceholderId) (x : BlockId) (i : InstrId) :
    Relabels (resolveIn p x i) b fun _ _ => True := by
  refine .onGraph fun _ run => .resolve (fun op => ⟨fun v =>
    if v = .placeholder p then .blockAddr x else v, fun v => ?_,
    rfl⟩) run
  by_cases hole : v = .placeholder p
  · exact .inr ⟨by rw [hole]; rfl, x, if_pos hole⟩
  · exact .inl (if_neg hole)

theorem resolve_relabels (l : LabelId) (x : BlockId) : Relabels (resolve l x) b fun _ _ => True := by
  have replaces : ∀ (p : PlaceholderId) (uses : List InstrId) (b : Builder),
      Relabels (uses.forM (resolveIn p x)) b fun _ _ => True := fun p uses b =>
    (Ensures.forM (I := fun _ mid => b.Relabels mid) (fun i _ mid first => (resolveIn_relabels p x i).mono
      (fun _ _ k => first.trans k.1) fun _ _ => first.trans) uses b .refl).mono (fun _ _ k =>
        ⟨k, trivial⟩) fun _ _ k => k
  have retires : ∀ b : Builder, Relabels (modifyGet fun b : Builder =>
      ((b.labels.retire l).1, { b with labels := (b.labels.retire l).2 })) b fun _ _ => True := fun b =>
    .change (.note fun h => ⟨fun q j used => h.users q j ((b.labels.users_of_retire l).1 q j used),
      (b.labels.branches_retire l).trans h.branches⟩) trivial
  refine .get ?_
  split
  · refine (takeAddress_relabels x).bind fun _ mid _ _ => (retires mid).bind fun retired mid _ _ => ?_
    cases retired with
    | none => exact .pure trivial
    | some found => exact replaces _ _ _
  · refine (retires b).bind fun retired mid _ _ => ?_
    cases retired with
    | none => exact .pure trivial
    | some found => exact replaces _ _ _

/-- Afterwards the block of the label is laid out. -/
theorem defineLabel_relabels (l : LabelId) (span : Span) :
    Relabels (defineLabel l span) b fun x after => x ∈ after.graph.layout := by
  refine (labelBlock_relabels l span).bind fun x mid _ _ => .get ?_
  dsimp only
  split
  · exact Relabels.bind (Q := fun _ _ => False) (.fail span _) fun _ _ _ never => never.elim
  · refine (updateLabel_relabels _ _).bind fun _ mid _ _ => ?_
    refine Relabels.bind (.change (f := fun b => (PUnit.unit, { b with graph := b.graph.attach x }))
      (Q := fun _ after => x ∈ after.graph.layout) (.attach x)
        (mem_layout_attach.mpr (.inr rfl))) fun _ mid _ laid => ?_
    exact (resolve_relabels l x).bind fun _ _ k _ => .pure (k.layout laid)

theorem addressOfLabel_relabels (l : LabelId) (span : Span) : Relabels (addressOfLabel l span) b fun _ _ => True := by
  refine .get ?_
  split
  · refine (updateLabel_relabels _ _).bind fun _ mid _ _ => ?_
    split
    · exact (takeAddress_relabels _).bind fun _ _ _ _ => .pure trivial
    · exact Relabels.bind (.change (Q := fun _ _ => True) (.note fun h => ⟨fun q j used => h.users q j
        (LabelTable.usedBy_of_placeholderFor used), (LabelTable.branches_placeholderFor _ l).trans h.branches⟩) trivial)
        fun _ _ _ _ => .pure trivial
  · exact .fail _ _

/-! ### Sequences of calls -/

/-- The call is about storage and not about labels. -/
def Call.isStorage : Call → Bool
  | .newLabel _ | .labelBlock .. | .defineLabel .. | .addressOfLabel .. => false
  | _ => true

/-- Placing late slots gives nobody a slot. -/
theorem placeLateSlots_stores (h : b.Apportioned target sig given) : Ensures placeLateSlots b
    (fun _ after => b.Moves after ∧ after.Apportioned target sig given) fun e _ => e.IsFault := by
  refine .get (ensures_bind.mpr (ensures_onGraph.mpr ⟨fun g run =>
    ⟨Builder.Moves.refl.snoc (.late run), h.tends (.of_graph (fun i ⟨op, found, slot⟩ => ?_) id ?_)⟩,
      fun f _ => ⟨f, rfl⟩⟩))
  · exact ⟨op, (op?_of_updateBlock run i).trans found, slot⟩
  · obtain ⟨-, rfl⟩ := eq_of_updateBlock run
    rfl

/-- A call keeps the holders apart, whether it succeeds or reports an error, and adds those that it names. -/
theorem Call.apply_stores (h : b.Apportioned target sig given)
    (storage : call.isStorage = true) (run : call.apply b = .ok after) :
    b.Moves after ∧ after.Apportioned target sig (call.issue b given) := by
  cases call with
  | registerParam name ty addressTaken span =>
    rcases exists_of_apply rfl (registerParam_stores h name ty addressTaken span) run with ⟨v, eq, k⟩ |
      ⟨e, eq, -, k⟩ <;>
    · simp only [issue, eq]
      exact k
  | newTemporary ty tag =>
    rcases exists_of_apply rfl (newTemporary_stores h ty tag) run with ⟨v, eq, k⟩ | ⟨e, eq, -, k⟩ <;>
    · simp only [issue, eq]
      exact k
  | registerEnv name ty span =>
    rcases exists_of_apply rfl (registerEnv_stores h name ty span) run with ⟨_, _, k⟩ | ⟨_, _, -, k⟩ <;> exact k
  | registerLocal name ty aliasOf addressTaken span =>
    rcases exists_of_apply rfl (registerLocal_stores h name ty aliasOf addressTaken span) run with
      ⟨_, _, k⟩ | ⟨_, _, -, k⟩ <;> exact k
  | placeProlog =>
    have performs : perform .placeProlog = (do let _ ← Build.placeProlog) := bind_pure_unit.symm
    rcases exists_of_apply performs (placeProlog_stores h) run with ⟨_, _, k, -⟩ | ⟨_, _, -, k⟩ <;> exact k
  | markError =>
    cases run
    exact ⟨Builder.Moves.refl.snoc (.note fun _ => .inl), h.tends (.of_graph (fun _ => id) id rfl)⟩
  | fresh tag =>
    cases run
    exact ⟨Builder.Moves.refl.snoc (.adorn ⟨_, _, rfl, .fresh _ tag, .refl _⟩),
      h.tends (.of_graph (fun _ => id) id rfl)⟩
  | placeLateSlots =>
    have performs : perform .placeLateSlots = (do let _ ← Build.placeLateSlots) := bind_pure_unit.symm
    rcases exists_of_apply performs (placeLateSlots_stores h) run with ⟨_, _, k⟩ | ⟨_, _, f, fault⟩
    · exact k
    · cases fault
  | newLabel | labelBlock | defineLabel | addressOfLabel => cases storage

/-- A call about labels changes nothing else. -/
theorem Call.apply_relabels (other : call.isStorage = false) (run : call.apply b = .ok after) : b.Relabels after := by
  have drop : ∀ {α : Type} {x : BuildM α} {Q : α → Builder → Prop}, Relabels x b Q → (call.perform = do let _ ← x) →
      b.Relabels after := by
    intro α x Q k performs
    rcases call.exists_of_apply performs k run with ⟨v, -, k, -⟩ | ⟨e, -, k⟩ <;> exact k
  cases call with
  | newLabel span => exact drop (newLabel_relabels span) rfl
  | labelBlock l span => exact drop (labelBlock_relabels l span) rfl
  | defineLabel l span => exact drop (defineLabel_relabels l span) rfl
  | addressOfLabel l span => exact drop (addressOfLabel_relabels l span) rfl
  | registerParam | registerEnv | registerLocal | newTemporary | markError | fresh | placeProlog | placeLateSlots =>
    cases other

theorem Call.apply_apportions (h : b.Apportioned target sig given)
    (run : call.apply b = .ok after) : after.Apportioned target sig (call.issue b given) := by
  cases storage : call.isStorage with
  | true => exact (call.apply_stores h storage run).2
  | false =>
    have kept := h.tends (call.apply_relabels storage run).tends
    cases call <;> first | exact kept | cases storage

/-- Whatever calls there are, the holders stay apart. -/
theorem record_apportions : ∀ {calls : List Call} {b after : Builder} {given issued : Issued},
    b.Apportioned target sig given → record calls b given = .ok (after, issued) → after.Apportioned target sig issued
  | [], _, _, _, _, h, run => by
    cases run
    exact h
  | call :: calls, b, after, given, issued, h, run => by
    obtain ⟨mid, applied, run⟩ := Checked.bind_eq_ok_iff.mp run
    exact record_apportions (call.apply_apportions h applied) run

/-- What changes of storage and calls about labels keep is kept by every sequence of calls. -/
theorem prepare_keeps {I : Builder → Prop} (move : ∀ {b after : Builder}, b.Move after → I b → I after)
    (label : ∀ {call : Call} {b after : Builder}, call.isStorage = false → call.apply b = .ok after → I b → I after)
    {calls : List Call} (h : b.Apportioned target sig given) (start : I b)
    (run : prepare calls b = .ok after) : I after ∧ ∃ issued, after.Apportioned target sig issued := by
  induction calls generalizing b given with
  | nil => cases run; exact ⟨start, given, h⟩
  | cons call calls ih =>
    rw [prepare, foldlM_cons, Checked.bind_eq_ok_iff] at run
    obtain ⟨mid, step, rest⟩ := run
    refine ih (call.apply_apportions h step) ?_ rest
    cases storage : call.isStorage with
    | true => exact (call.apply_stores h storage step).1.keeps move start
    | false => exact label storage step start

theorem prepare_apportions {calls : List Call} (h : b.Apportioned target sig given)
    (run : prepare calls b = .ok after) : ∃ issued, after.Apportioned target sig issued :=
  (prepare_keeps (I := fun _ => True) (fun _ _ => trivial) (fun _ _ _ => trivial) h trivial run).2

end Build

theorem Session.begin_apportioned {s : Session} {name : String} {signature : Signature} {b : Builder}
    (run : s.begin name signature = .ok b) : b.Apportioned s.target signature {} := by
  unfold Session.begin at run
  obtain ⟨convention, found, run⟩ := Checked.bind_eq_ok_iff.mp run
  cases run
  exact ⟨rfl, require_eq_ok_iff.mp found, map_map.trans map_const', ⟨by rintro _ _ ⟨_, ⟨⟩, -⟩, rfl⟩, rfl,
    fun _ => rfl, by rintro ⟨⟩, by rintro _ _ _ ⟨⟩, nodup_nil, by rintro _ ⟨⟩, by rintro _ ⟨⟩,
    by rintro _ ⟨⟩, .empty rfl rfl, rfl, by rintro _ _ ⟨⟩⟩

/-! ### Ownership -/

/-- Who holds what: variables that are no aliases have slots of their own, temporaries have others, the owner
of a variable's slot is the one variable with that slot that is no alias, and the parameters are those that
were registered, each with its type and in its storage. The tables say of each variable what it is, and of each slot
that a variable owns whose it is, and nothing else. -/
structure Builder.Owns (b : Builder) (types : List Ty) (issued : Build.Issued) : Prop where
  apart : ∀ v w x y, b.var? v = some x → b.var? w = some y → x.isAlias = false → y.isAlias = false →
    x.slot = y.slot → v = w
  temporaries : issued.temporaries.Nodup ∧
    ∀ slot ∈ issued.temporaries, ∀ v x, b.var? v = some x → x.slot ≠ slot
  owner : ∀ v x, b.var? v = some x → ∃ w y, b.owner? x.slot = some w ∧ b.var? w = some y ∧
    y.isAlias = false ∧ y.slot = x.slot
  entries : ∀ slot v, b.owner? slot = some v ↔ ∃ x, b.var? v = some x ∧ x.isAlias = false ∧ x.slot = slot
  kinds : ∀ v, (v ∈ b.params ↔ ∃ x, b.var? v = some x ∧ x.kind = .param) ∧
    (v ∈ b.locals ↔ ∃ x, b.var? v = some x ∧ x.kind = .local) ∧
    (b.env? = some v ↔ ∃ x, b.var? v = some x ∧ x.kind = .env)
  registered : b.tables.registered = b.params.length
  params : b.params = issued.params
  placed : ∀ (k : Nat) (v : VarId), b.params[k]? = some v → ∃ x, b.var? v = some x ∧ types[k]? = some x.ty ∧
    b.paramSlots[k]? = some x.slot

namespace Builder

variable {b : Builder} {target : Target} {sig : Signature} {issued : Build.Issued}

/-- Variables that are no aliases have slots of their own. -/
theorem Apportioned.eq_of_slot (h : b.Apportioned target sig issued) {v w : VarId} {x y : Variable}
    (hx : b.var? v = some x) (hy : b.var? w = some y) (ownX : x.isAlias = false) (ownY : y.isAlias = false)
    (same : x.slot = y.slot) : v = w := by
  have held : ∀ {v : VarId} {x : Variable}, b.var? v = some x →
      b.holdings[v.index]? = some { x with initializer := none } := fun found =>
    (b.getElem?_holdings _).trans (congrArg _ found)
  have pairwise := (List.nodup_append.mp h.nodup).1
  unfold ownSlots at pairwise
  rw [List.Nodup, List.pairwise_map, List.pairwise_filter] at pairwise
  have order : ∀ {v w : VarId} {x y : Variable}, b.var? v = some x → b.var? w = some y → x.isAlias = false →
      y.isAlias = false → x.slot = y.slot → ¬ v.index < w.index := by
    intro v w x y hx hy ownX ownY same before
    obtain ⟨hv, eqv⟩ := List.getElem?_eq_some_iff.mp (held hx)
    obtain ⟨hw, eqw⟩ := List.getElem?_eq_some_iff.mp (held hy)
    have apart := List.pairwise_iff_getElem.mp pairwise v.index w.index hv hw before
    rw [eqv, eqw] at apart
    exact apart (by simp [ownX]) (by simp [ownY]) same
  have one := order hx hy ownX ownY same
  have other := order hy hx ownY ownX same.symm
  exact congrArg VarId.mk (Nat.le_antisymm (Nat.not_lt.mp other) (Nat.not_lt.mp one))

theorem mem_ids {kind : VarKind} {v : VarId} : v ∈ kind.ids b.holdings ↔ ∃ x, b.var? v = some x ∧ x.kind = kind := by
  unfold VarKind.ids
  rw [mem_filter, getElem?_holdings, Option.any_map, Option.any_eq_true]
  refine ⟨fun ⟨_, x, found, same⟩ => ⟨x, found, of_decide_eq_true same⟩, fun ⟨x, found, same⟩ =>
    ⟨mem_map.mpr ⟨v.index, mem_range.mpr ?_, rfl⟩, x, found, decide_eq_true same⟩⟩
  rw [b.length_holdings]
  exact (Array.getElem?_eq_some_iff.mp found).1

/-- In an apportioned builder every slot has one owner. -/
theorem Apportioned.owns (h : b.Apportioned target sig issued) : b.Owns sig.params issued where
  apart _ _ _ _ := h.eq_of_slot
  temporaries := by
    obtain ⟨-, rest, apart⟩ := nodup_append.mp h.nodup
    refine ⟨(nodup_append.mp rest).2.1, fun slot hslot v x found same => ?_⟩
    exact apart slot (same ▸ h.mem_ownSlots found) slot (mem_append_right _ hslot) rfl
  owner v x found := by
    obtain ⟨w, owner⟩ := h.tabled.exists_owner? (h.mem_ownSlots found)
    obtain ⟨y, there, own, same⟩ := h.tabled.owner?_spec owner
    exact ⟨w, y, owner, there, own, same⟩
  entries slot v := by
    refine ⟨h.tabled.owner?_spec, fun ⟨x, found, own, same⟩ => ?_⟩
    obtain ⟨w, owner⟩ := h.tabled.exists_owner? (Builder.mem_ownSlots.mpr ⟨v, x, found, own, same⟩)
    obtain ⟨y, there, other, same'⟩ := h.tabled.owner?_spec owner
    rw [owner, h.eq_of_slot there found other own (same'.trans same.symm)]
  kinds v := by
    rw [show b.params = _ from h.tabled.params, show b.locals = _ from h.tabled.locals, mem_ids, mem_ids,
      ← Option.mem_toList, show b.env?.toList = _ from h.tabled.env, mem_ids]
    exact ⟨Iff.rfl, Iff.rfl, Iff.rfl⟩
  registered := h.tabled.registered
  params := h.params
  placed k v found := by
    obtain ⟨y, held, -, ty, slot⟩ := h.placed k v found
    rw [getElem?_holdings] at held
    obtain ⟨x, found, rfl⟩ := Option.map_eq_some_iff.mp held
    exact ⟨x, found, ty, slot⟩

end Builder

namespace Build

/-- Whatever calls have set a function up, successful or not, its slots have one owner each, and a parameter is
never refused because another variable has its slot. -/
theorem slots_owned {s : Session} {name : String} {signature : Signature} {start b : Builder} {calls : List Call}
    {issued : Issued} (begun : s.begin name signature = .ok start) (run : record calls start {} = .ok (b, issued)) :
    b.Owns signature.params issued ∧ ∀ name ty addressTaken span err after,
      registerParam name ty addressTaken span b = .error (.error err) after →
      ∀ other, err.cause ≠ .duplicateParameter other := by
  have h := record_apportions (Session.begin_apportioned begun) run
  refine ⟨h.owns, fun name ty addressTaken span err after failed => ?_⟩
  obtain ⟨storage, -⟩ := Ensures.of_error (registerParam_stores h name ty addressTaken span) failed
  rintro other same
  rw [same] at storage
  cases storage

theorem exists_of_record {s : Session} {name : String} {signature : Signature} {calls : List Call}
    {P : Builder → Issued → Prop} (h : (s.begin name signature >>= fun start => record calls start {}).isOk = true)
    (p : ∀ start b issued, s.begin name signature = .ok start → record calls start {} = .ok (b, issued) → P b issued) :
    ∃ start b issued, s.begin name signature = .ok start ∧ record calls start {} = .ok (b, issued) ∧ P b issued := by
  cases whole : s.begin name signature >>= fun start => record calls start {} with
  | ok result =>
    obtain ⟨start, begun, run⟩ := Checked.bind_eq_ok_iff.mp whole
    exact ⟨start, result.1, result.2, begun, run, p _ _ _ begun run⟩
  | error fault =>
    rw [whole] at h
    cases h

/-- Parameters in a slot and behind a pointer, registered around a mistake, with an alias of an alias and a
temporary between them. -/
theorem slots_owned_interleaved : ∃ start b issued,
    Session.begin {} "f" { params := [.i64, .array .i64 5], result := .void } = .ok start ∧
    record [.registerParam "a" .i32 false {}, .registerParam "a" .i64 false {}, .newTemporary .i64 "t",
      .registerLocal "x" .i64 (some ⟨0⟩) false {}, .registerLocal "y" .i64 (some ⟨1⟩) false {}, .placeProlog,
      .registerParam "b" (.array .i64 5) false {}, .placeProlog, .registerEnv "e" (.ptr .void) {}] start {} =
        .ok (b, issued) ∧ b.Owns [.i64, .array .i64 5] issued := by
  exact exists_of_record (by decide +kernel) fun start b issued begun run => (slots_owned begun run).1

end Build

end FlowIR

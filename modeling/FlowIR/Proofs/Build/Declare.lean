import FlowIR.Proofs.Build.Settle

/-!
Declaring the variables and labels of a function.

Registering the parameters of a signature in their order, then local variables and labels, always
succeeds. Afterwards the function has nothing but slots: one for every parameter that does not stay in
the caller's memory, and one for every local variable, in the order of their declaration
(`Builder.Declared`).
-/

namespace FlowIR

open Placement List

/-! ### Headers -/

structure Decl where
  name : String
  ty : Ty
  addressTaken : Bool := false
  span : Span := {}

structure Header where
  params : List Decl := []
  locals : List Decl := []
  labels : List Span := []

namespace Header

def calls (h : Header) : List Build.Call :=
  h.params.map (fun d => .registerParam d.name d.ty d.addressTaken d.span) ++
    (h.locals.map (fun d => .registerLocal d.name d.ty none d.addressTaken d.span) ++
      h.labels.map .newLabel)

/-- The type of a variable: parameters come first. -/
def typeOf (h : Header) (v : VarId) : Option Ty := (h.params ++ h.locals)[v.index]?.map (·.ty)

end Header

def Decl.param (d : Decl) (slot : Operand) : Variable :=
  { name := d.name, ty := d.ty, kind := .param, slot, span := d.span, addressTaken := d.addressTaken }

def Decl.local (d : Decl) (slot : Operand) : Variable :=
  { name := d.name, ty := d.ty, kind := .local, slot, span := d.span, addressTaken := d.addressTaken }

/-! ### Slots -/

/-- Nothing but slots of the given shapes has been made, and they wait for the prolog. -/
structure Builder.Starting (b : Builder) (shapes : List Shape) : Prop where
  entry : b.entry = ⟨0⟩
  layout : b.graph.layout = [⟨0⟩]
  blocks : ∃ name, b.graph.blocks = #[{ name }]
  kinds : b.graph.kinds = shapes.map fun s => (.alloca s, .ptr s)
  args : b.graph.args.size = b.convention.argShapes.length
  pending : b.pendingSlots = (range shapes.length).map InstrId.mk
  late : b.lateSlots = []
  unplaced : b.prologPlaced = false
  returnSlot : b.returnSlot = none

namespace Builder.Starting

variable {b : Builder} {shapes : List Shape}

variable (h : b.Starting shapes)

include h

theorem size : b.graph.instrs.size = shapes.length := by
  rw [← Graph.length_kinds, h.kinds, length_map]

theorem adorned {after : Builder} {l : List (Nat × ArgAttr)} (k : b.Adorned l after) : after.Starting shapes := by
  obtain ⟨graph, names, rfl, -, alike⟩ := k
  exact
    { h with
      layout := alike.layout.trans h.layout
      blocks := h.blocks.imp fun _ eq => alike.blocks.trans eq
      kinds := alike.kinds.trans h.kinds
      args := alike.args.trans h.args }

/-- More slots are made. -/
theorem provided {after : Builder} {more : List Shape} (k : b.Provided more after) :
    after.Starting (shapes ++ more) := by
  induction k with
  | refl => rwa [append_nil]
  | adorn _ k ih => exact ih.adorned k
  | slot _ shape name ih =>
    have kinds := ih.kinds
    unfold withSlot
    rw [if_neg (by rw [ih.unplaced]; exact Bool.false_ne_true), ← append_assoc]
    refine { ih with kinds := ?_, pending := ?_ }
    · unfold Graph.kinds at kinds ⊢
      simp only [Graph.newInstr, Array.toList_push, map_append, kinds, map_cons, map_nil]
    · dsimp only
      have length : ∀ l : List Shape, (l ++ [shape]).length = l.length + 1 := fun l => length_append
      rw [ih.pending, ih.size, length, range_succ, map_append]
      rfl

end Builder.Starting

/-- Where every parameter fits, the storage of all of them is set up. -/
theorem Build.setUpArgs_succeeds {b : Builder} {shapes : List Shape} {types : List Ty} (h : b.Starting shapes)
    (placed : b.convention.Placed types) (idle : b.argsReady = false) :
    Succeeds setUpArgs b fun _ after => ∃ l, b.Outfitted l b.convention.params after := by
  refine (setUpArgs_outfits idle ?_ fun p hp => h.args ▸ placed.inside p hp).mono (fun _ _ k => ⟨_, k⟩) ?_
  · rw [h.args, placed.lists.length]
    omega
  · rintro _ after ⟨-, -, -, -, -, -, -, -, p, hp, unfit⟩
    exact unfit (placed.chunks p hp)

/-! ### Variables -/

structure Builder.Begun (b : Builder) (types : List Ty) : Prop where
  starting : b.Starting []
  idle : b.argsReady = false
  paramSlots : b.paramSlots = []
  vars : b.vars = #[]
  tabled : b.Tabled
  labels : b.labels = {}
  errorSeen : b.errorSeen = false
  placed : b.convention.Placed types

theorem Session.begin_begun {s : Session} {name : String} {signature : Signature} {b : Builder}
    (target : s.target = {}) (run : s.begin name signature = .ok b) :
    b.Begun signature.params ∧ b.signature = signature ∧ b.options = s.options ∧
      signature.convention? {} = some b.convention := by
  unfold Session.begin at run
  rw [Checked.bind_eq_ok_iff, target] at run
  obtain ⟨convention, found, run⟩ := run
  rw [require_eq_ok_iff] at found
  cases run
  refine ⟨⟨⟨rfl, rfl, ⟨_, rfl⟩, rfl, ?_, rfl, rfl, rfl, rfl⟩, rfl, rfl, rfl, .empty rfl rfl, rfl, rfl,
    (Signature.placed_convention? found).1⟩, rfl, rfl, found⟩
  simp [Graph.new]

/-- The variables, slots and labels that have been declared since the function was begun. -/
structure Builder.Declared (start b : Builder) (vars : List Variable) (locals : List Shape)
    (labels : List Span) : Prop where
  starting : b.Starting (kept start.convention.params ++ locals)
  paramSlots : b.paramSlots = homes 0 start.convention.params
  ready : b.argsReady = false → start.convention.params = []
  vars : b.vars = vars.toArray
  tabled : b.Tabled
  labels : b.labels = { labels := (labels.map fun span => ({ span } : Label)).toArray }
  errorSeen : b.errorSeen = false
  convention : b.convention = start.convention
  signature : b.signature = start.signature
  options : b.options = start.options

namespace Builder

variable {start b : Builder} {vars : List Variable} {locals : List Shape} {labels : List Span}
  {types : List Ty}

theorem Begun.declared (h : start.Begun types) (none : start.convention.params = []) :
    start.Declared start [] [] [] :=
  ⟨by rw [none]; exact h.starting, by rw [none]; exact h.paramSlots, fun _ => none, h.vars, h.tabled, h.labels,
    h.errorSeen, rfl, rfl, rfl⟩

theorem Declared.adorned {after : Builder} {l : List (Nat × ArgAttr)} (h : start.Declared b vars locals labels)
    (k : b.Adorned l after) : start.Declared after vars locals labels := by
  have starting := h.starting.adorned k
  obtain ⟨graph, names, rfl, -⟩ := k
  exact { h with starting }

/-- A place that no variable has has no owner. -/
theorem Tabled.owner?_eq_none (h : b.Tabled) {slot : Operand} (free : ∀ x ∈ b.vars, x.slot ≠ slot) :
    b.owner? slot = none := by
  cases owner : b.owner? slot with
  | none => rfl
  | some w =>
    obtain ⟨x, found, -, same⟩ := h.owner?_spec owner
    exact absurd same (free x (Array.mem_of_getElem? found))

end Builder

theorem Decl.kind_of_mem_params {x : Variable} {ds : List Decl} {slots : List Operand}
    (h : x ∈ zipWith Decl.param ds slots) : x.kind = .param := by
  obtain ⟨k, below, rfl⟩ := getElem_of_mem h
  rw [getElem_zipWith]
  rfl

namespace Build

variable {start b : Builder} {vars : List Variable} {locals : List Shape} {labels : List Span}
  {types : List Ty}

theorem setUpArgs_declared (begun : start.Begun types) (h : start.Declared b vars locals labels) :
    Succeeds setUpArgs b fun _ after => after.argsReady = true ∧ start.Declared after vars locals labels := by
  cases ready : b.argsReady with
  | true =>
    unfold setUpArgs
    refine .get ?_
    rw [if_pos ready]
    exact ⟨ready, h⟩
  | false =>
    have none := h.ready ready
    refine (setUpArgs_succeeds h.starting (h.convention ▸ begun.placed) ready).imp ?_
    rintro _ after ⟨-, ⟨mid, provided, rfl⟩, -⟩
    have params : b.convention.params = [] := h.convention ▸ none
    rw [params] at provided ⊢
    have starting := h.starting.provided provided
    obtain ⟨_, _, _, _, rfl⟩ := provided.same
    refine ⟨rfl, { h with starting := ?_, paramSlots := ?_, ready := fun eq => (nomatch eq) }⟩
    · exact (append_nil (kept start.convention.params ++ locals)) ▸ { starting with }
    · exact (append_nil _).trans h.paramSlots

/-- The storage of the parameters is set up when the first of them is registered. -/
theorem setUpArgs_begun (begun : start.Begun types) :
    Succeeds setUpArgs start fun _ after => after.argsReady = true ∧ start.Declared after [] [] [] := by
  refine (setUpArgs_succeeds begun.starting begun.placed begun.idle).imp ?_
  rintro _ after ⟨-, ⟨mid, provided, rfl⟩, -⟩
  have starting := begun.starting.provided provided
  obtain ⟨_, _, _, _, rfl⟩ := provided.same
  refine ⟨rfl, ?_, ?_, fun eq => (nomatch eq), begun.vars, begun.tabled, begun.labels, begun.errorSeen, rfl, rfl, rfl⟩
  · rw [nil_append] at starting
    rw [append_nil]
    exact { starting with }
  · show start.paramSlots ++ _ = _
    rw [begun.paramSlots, begun.starting.size]
    rfl

theorem zipWith_concat {α β γ : Type} {f : α → β → γ} {a : α} {b : β} : ∀ {as : List α} {bs : List β},
    bs[as.length]? = some b → zipWith f (as ++ [a]) bs = zipWith f as bs ++ [f a b]
  | [], b' :: bs, found => by
    cases found
    cases bs <;> rfl
  | a' :: as, b' :: bs, found => by
    have found : bs[as.length]? = some b := found
    rw [cons_append, zipWith_cons_cons, zipWith_concat found]
    rfl

def Registered (start b : Builder) (done : List Decl) : Prop :=
  (b = start ∧ done = []) ∨
    start.Declared b (zipWith Decl.param done (homes 0 start.convention.params)) [] []

/-- One more parameter of the signature is registered. -/
theorem registerParam_succeeds (begun : start.Begun types) {done rest : List Decl} {d : Decl}
    (all : (done ++ d :: rest).map (·.ty) = types) (h : Registered start b done) :
    Succeeds (registerParam d.name d.ty d.addressTaken d.span) b fun _ after =>
      Registered start after (done ++ [d]) := by
  have typed := begun.placed.types.trans all.symm
  have length : start.convention.params.length = (done ++ d :: rest).length := by
    simpa using congrArg length typed
  have inside : done.length < start.convention.params.length := by simp [length]
  obtain ⟨p, found⟩ : ∃ p, start.convention.params[done.length]? = some p :=
    ⟨_, getElem?_eq_getElem inside⟩
  have ty : p.ty = d.ty := by
    have same := congrArg (·[done.length]?) typed
    simpa [found] using same
  have slots := length_homes 0 start.convention.params
  obtain ⟨slot, home⟩ : ∃ slot, (homes 0 start.convention.params)[done.length]? = some slot :=
    ⟨_, getElem?_eq_getElem (by omega)⟩
  have ready : Succeeds setUpArgs b fun _ after => after.argsReady = true ∧
      start.Declared after (zipWith Decl.param done (homes 0 start.convention.params)) [] [] := by
    rcases h with ⟨rfl, rfl⟩ | h
    · exact setUpArgs_begun begun
    · exact setUpArgs_declared begun h
  unfold registerParam
  refine ready.bind ?_
  rintro _ b ⟨-, h⟩
  have count : b.tables.registered = done.length := by
    rw [show b.tables.registered = b.params.length from h.tabled.registered, h.tabled.length_params, h.vars,
      countP_eq_length.mpr fun x hx => decide_eq_true (Decl.kind_of_mem_params hx), length_zipWith]
    omega
  refine .get ?_
  simp only [count, h.convention, found]
  rw [if_neg (fun ne => ne ty), h.paramSlots, home]
  refine ensures_bind.mpr (Ensures.of_checked (a := slot) rfl ?_)
  have free : b.owner? slot = none := by
    refine h.tabled.owner?_eq_none fun x hx => ?_
    rw [h.vars, mem_toArray] at hx
    obtain ⟨k, below, rfl⟩ := getElem_of_mem hx
    rw [length_zipWith] at below
    rw [getElem_zipWith]
    show (homes 0 start.convention.params)[k] ≠ slot
    intro same
    have position := (getElem_inj (nodup_homes begun.placed.consecutive)).mp
      (same.trans (List.getElem?_eq_some_iff.mp home).2.symm)
    omega
  rw [free, if_neg (by simp)]
  have mem : p ∈ start.convention.params := mem_of_getElem? found
  have room : p.offset + p.argShapes.length ≤ b.graph.args.size := by
    rw [h.starting.args, h.convention]
    exact begun.placed.inside p mem
  refine (nameParam_adorns (fun i eq => ?_) (fun n eq => ?_) room d.name).bind fun _ mid adorned => ?_
  · rw [h.starting.size, append_nil]
    rcases @getElem?_homes 0 _ _ _ found with ⟨-, arg⟩ | ⟨-, k, result, shape⟩
    · rw [home, eq] at arg
      cases arg
    · rw [home, eq] at result
      cases result
      rw [Nat.zero_add]
      exact (List.getElem?_eq_some_iff.mp shape).1
  · rcases @getElem?_homes 0 _ _ _ found with ⟨indirect, arg⟩ | ⟨-, k, result, -⟩
    · rw [home, eq] at arg
      cases arg
      have slots := slots_of_isIndirect indirect
      have least := p.slots_le
      omega
    · rw [home, eq] at result
      cases result
  · have declared := h.adorned adorned
    refine .inr { declared with
      starting := { declared.starting with }
      vars := ?_
      tabled := declared.tabled.push (x := d.param slot) (by rintro ⟨⟩) }
    show mid.vars.push (d.param slot) = _
    rw [zipWith_concat home, declared.vars]
    simp

/-- One more local is registered. -/
theorem registerLocal_succeeds (h : start.Declared b vars locals labels) (d : Decl) :
    Succeeds (registerLocal d.name d.ty none d.addressTaken d.span) b fun _ after =>
      start.Declared after
        (vars ++ [d.local (.result ⟨(kept start.convention.params ++ locals).length⟩)])
        (locals ++ [d.ty.shape]) labels := by
  have provided := Builder.Provided.refl.slot (b := b) d.ty.shape (some d.name)
  have starting := h.starting.provided provided
  refine .after (newSlot_eq b _ _) ?_
  obtain ⟨_, _, _, _, same⟩ := provided.same
  rw [same, nil_append, append_assoc] at starting
  rw [same, h.starting.size]
  refine { h with
    starting := { starting with }
    vars := ?_
    tabled := Builder.Tabled.push (x := d.local (.result ⟨_⟩)) h.tabled (by rintro ⟨⟩) }
  show b.vars.push _ = _
  rw [h.vars]
  simp [Decl.local]

theorem newLabel_succeeds (h : start.Declared b vars locals labels) (span : Span) :
    Succeeds (newLabel span) b fun _ after => start.Declared after vars locals (labels ++ [span]) := by
  refine .of_run rfl { h with starting := { h.starting with }, labels := ?_ }
  dsimp only
  rw [h.labels]
  simp

/-- A call that succeeds. -/
theorem Call.apply_eq_ok {call : Call} {Q : Unit → Builder → Prop} (h : Succeeds call.perform b Q) :
    ∃ after, call.apply b = .ok after ∧ Q () after := by
  obtain ⟨⟨⟩, after, run, q⟩ := h.exists_ok
  refine ⟨after, ?_, q⟩
  unfold Call.apply
  rw [run]

/-- Calls that keep an invariant of what is left succeed. -/
theorem prepare_eq_ok {α : Type} {f : α → Call} {I : List α → Builder → Prop}
    (step : ∀ a rest b, I (a :: rest) b → Succeeds (f a).perform b fun _ after => I rest after) :
    ∀ (l : List α) (b : Builder), I l b → ∃ after, prepare (l.map f) b = .ok after ∧ I [] after
  | [], b, h => ⟨b, rfl, h⟩
  | a :: l, b, h => by
    obtain ⟨mid, run, h⟩ := Call.apply_eq_ok (step a l b h)
    obtain ⟨after, rest, h⟩ := prepare_eq_ok step l mid h
    refine ⟨after, ?_, h⟩
    rw [map_cons, prepare, foldlM_cons, Checked.bind_eq_ok_iff]
    exact ⟨mid, run, rest⟩

end Build

/-- The local variables, the first of which has the slot with number `next`. -/
def Decl.locals : (next : Nat) → List Decl → List Variable
  | _, [] => []
  | next, d :: ds => d.local (.result ⟨next⟩) :: locals (next + 1) ds

theorem Decl.locals_concat (next : Nat) (ds : List Decl) (d : Decl) :
    locals next (ds ++ [d]) = locals next ds ++ [d.local (.result ⟨next + ds.length⟩)] := by
  induction ds generalizing next with
  | nil => rfl
  | cons e ds ih => rw [cons_append, locals, ih, locals, length_cons, Nat.add_right_comm]; rfl

/-- The variables of a function, the parameters first. -/
def Header.vars (h : Header) (c : Convention) : List Variable :=
  zipWith Decl.param h.params (homes 0 c.params) ++
    Decl.locals (kept c.params).length h.locals

/-- Declaring the parameters of the signature, local variables and labels succeeds. -/
theorem Header.prepare_declared {h : Header} {start : Builder} {types : List Ty} (begun : start.Begun types)
    (all : h.params.map (·.ty) = types) : ∃ b, Build.prepare h.calls start = .ok b ∧
      start.Declared b (h.vars start.convention) (h.locals.map (·.ty.shape)) h.labels := by
  let c := start.convention
  -- The parameters, of which the first sets up the storage of all of them.
  obtain ⟨b₁, run₁, registered⟩ := Build.prepare_eq_ok
    (f := fun d => .registerParam d.name d.ty d.addressTaken d.span)
    (I := fun rest b => ∃ done, done ++ rest = h.params ∧ Build.Registered start b done)
    (fun d rest b ⟨done, split, k⟩ => by
      refine (Build.registerParam_succeeds begun (by rw [split]; exact all) k).bind fun _ after k' => ?_
      exact ⟨done ++ [d], by rw [append_assoc]; exact split, k'⟩)
    h.params start ⟨[], rfl, .inl ⟨rfl, rfl⟩⟩
  have declared₁ : start.Declared b₁ (zipWith Decl.param h.params (homes 0 c.params)) [] [] := by
    obtain ⟨done, split, ⟨rfl, rfl⟩ | k⟩ := registered
    · rw [append_nil] at split
      rw [← split] at all ⊢
      exact begun.declared (map_eq_nil_iff.mp (begun.placed.types.trans all.symm))
    · rw [append_nil] at split
      exact split ▸ k
  obtain ⟨b₂, run₂, declared₂⟩ := Build.prepare_eq_ok
    (f := fun d => .registerLocal d.name d.ty none d.addressTaken d.span)
    (I := fun rest b => ∃ done, done ++ rest = h.locals ∧
      start.Declared b (zipWith Decl.param h.params (homes 0 c.params) ++
        Decl.locals (kept c.params).length done) (done.map (·.ty.shape)) [])
    (fun d rest b ⟨done, split, k⟩ => by
      refine (Build.registerLocal_succeeds k d).bind fun _ after k' => ?_
      refine ⟨done ++ [d], by rw [append_assoc]; exact split, ?_⟩
      rw [Decl.locals_concat, map_append, ← append_assoc]
      simpa using k')
    h.locals b₁ ⟨[], rfl, by simpa [Decl.locals] using declared₁⟩
  obtain ⟨done, split, declared₂⟩ := declared₂
  rw [append_nil] at split
  subst split
  obtain ⟨b₃, run₃, declared₃⟩ := Build.prepare_eq_ok (f := .newLabel)
    (I := fun rest b => ∃ done, done ++ rest = h.labels ∧
      start.Declared b (h.vars c) (h.locals.map (·.ty.shape)) done)
    (fun span rest b ⟨done, split, k⟩ => by
      refine (Build.newLabel_succeeds k span).bind fun _ after k' => ?_
      exact ⟨done ++ [span], by rw [append_assoc]; exact split, k'⟩)
    h.labels b₂ ⟨[], rfl, declared₂⟩
  obtain ⟨done, split, declared₃⟩ := declared₃
  rw [append_nil] at split
  subst split
  refine ⟨b₃, ?_, declared₃⟩
  unfold Header.calls Build.prepare
  rw [foldlM_append, Checked.bind_eq_ok_iff]
  refine ⟨b₁, run₁, ?_⟩
  rw [foldlM_append, Checked.bind_eq_ok_iff]
  exact ⟨b₂, run₂, run₃⟩

end FlowIR

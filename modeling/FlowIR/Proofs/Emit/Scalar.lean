import FlowIR.Proofs.Emit.Entry
import FlowIR.Proofs.Emit.Function
import FlowIR.Proofs.Emit.Value

/-!
Functions over integers.

Where all parameters are integers, each of them travels whole in one argument and has a slot of its own,
so that the slot of a variable has the number of the variable. A run comes to the body with the
parameters in their slots and with zero in all others (`Scene.Arrived`).
-/

namespace FlowIR

open Machine Placement Header List

/-! ### Signatures of integers -/

/-- Every parameter travels whole, in one argument. -/
def Convention.Simple (c : Convention) : Prop := ∀ p ∈ c.params, ∃ ext, p.passing = .direct [p.ty.shape] ext

def Convention.Returns (c : Convention) (t : Ty) : Prop :=
  c.result.ty = t ∧ ((t.isInteger = true ∧ ∃ ext, c.result.passing = .direct [t.shape] ext) ∨
    (t = .void ∧ c.result.passing = .ignored))

namespace Convention

theorem passParam?_of_isInteger (internal : Bool) {t : Ty} (integer : t.isInteger = true) (budget : Budget) :
    ∃ ext left, passParam? {} internal t budget = some (.direct [t.shape] ext, left) := by
  cases t with
  | bool => cases internal <;> exact ⟨_, _, rfl⟩
  | int sign width => cases internal <;> cases sign <;> cases width <;> exact ⟨_, _, rfl⟩
  | _ => cases integer

theorem passResult?_of_isInteger {sig : Signature} (integer : sig.result.isInteger = true) :
    ∃ ext, passResult? {} sig = some (.direct [sig.result.shape] ext) := by
  obtain ⟨params, t, internal⟩ := sig
  cases t with
  | bool => cases internal <;> exact ⟨_, rfl⟩
  | int sign width => cases internal <;> cases sign <;> cases width <;> exact ⟨_, rfl⟩
  | _ => cases integer

/-- Integers are passed directly, whatever registers are left. -/
theorem placeParams?_of_isInteger (internal : Bool) : ∀ {ts : List Ty}, (∀ t ∈ ts, t.isInteger = true) →
    ∀ (budget : Budget) (offset : Nat) (front : List Shape), ∃ ps all,
      placeParams? {} internal ts budget offset front = some (ps, all) ∧
      ∀ p ∈ ps, ∃ ext, p.passing = .direct [p.ty.shape] ext
  | [], _, _, _, front => ⟨[], front, rfl, nofun⟩
  | t :: ts, integers, budget, offset, front => by
    obtain ⟨integer, integers⟩ := forall_mem_cons.mp integers
    obtain ⟨ext, left, passed⟩ := passParam?_of_isInteger internal integer budget
    obtain ⟨ps, all, placed, simple⟩ :=
      placeParams?_of_isInteger internal integers left (offset + 1) (front ++ [t.shape])
    refine ⟨⟨.direct [t.shape] ext, t, offset⟩ :: ps, all, ?_, forall_mem_cons.mpr ⟨⟨ext, rfl⟩, simple⟩⟩
    rw [placeParams?_step offset ts front passed]
    exact Option.map_eq_some_iff.mpr ⟨_, placed, rfl⟩

end Convention

/-- The convention of a signature over integers. -/
theorem Signature.exists_convention {sig : Signature} (params : ∀ t ∈ sig.params, t.isInteger = true)
    (result : sig.result.isInteger = true ∨ sig.result = .void) : ∃ c, sig.convention? {} = some c ∧
      c.Simple ∧ c.chainIndex = 0 ∧ c.Returns sig.result := by
  obtain ⟨ps, all, placed, simple⟩ := Convention.placeParams?_of_isInteger sig.internal params ⟨6, 8⟩ 1 [.bytePtr]
  rcases result with integer | isVoid
  · obtain ⟨ext, passed⟩ := Convention.passResult?_of_isInteger integer
    refine ⟨⟨ps, ⟨.direct [sig.result.shape] ext, sig.result, 0⟩, all⟩, ?_, simple, rfl, rfl, .inl ⟨integer, ext, rfl⟩⟩
    unfold Signature.convention?
    rw [passed]
    exact Option.bind_eq_some_iff.mpr ⟨_, rfl, Option.bind_eq_some_iff.mpr ⟨_, placed, rfl⟩⟩
  · have passed : Convention.passResult? {} sig = some .ignored := by
      unfold Convention.passResult?
      rw [isVoid]
      rfl
    exact ⟨_, Signature.convention?_of_ignored passed placed, simple, rfl, rfl, .inr ⟨isVoid, rfl⟩⟩

/-! ### Slots by number -/

namespace Placement

variable {ps : List Placement}

/-- Parameters that travel whole take one slot each. -/
theorem homes_of_simple {next : Nat} (simple : ∀ p ∈ ps, ∃ ext, p.passing = .direct [p.ty.shape] ext) :
    homes next ps = (range' next ps.length).map fun k => .result ⟨k⟩ := by
  induction ps generalizing next with
  | nil => rfl
  | cons p ps ih =>
    obtain ⟨⟨ext, passing⟩, simple⟩ := forall_mem_cons.mp simple
    rw [homes, passing, if_neg (by exact Bool.false_ne_true), ih simple]
    rfl

theorem kept_of_simple (simple : ∀ p ∈ ps, ∃ ext, p.passing = .direct [p.ty.shape] ext) :
    kept ps = ps.map (·.ty.shape) := by
  unfold kept
  rw [filter_eq_self.mpr]
  intro p hp
  obtain ⟨ext, passing⟩ := simple p hp
  rw [passing]
  rfl

theorem offset_of_simple {offset k : Nat} {p : Placement}
    (simple : ∀ p ∈ ps, ∃ ext, p.passing = .direct [p.ty.shape] ext) (consecutive : Consecutive offset ps)
    (found : ps[k]? = some p) : p.offset = offset + k := by
  induction ps generalizing offset k with
  | nil => cases found
  | cons q ps ih =>
    obtain ⟨⟨ext, passing⟩, simple⟩ := forall_mem_cons.mp simple
    cases k with
    | zero =>
      cases found
      exact consecutive.1
    | succ k =>
      have slots : q.slots = 1 := by
        unfold slots
        rw [passing]
        rfl
      rw [ih simple consecutive.2 found, slots]
      omega

end Placement

theorem Decl.getElem?_locals (next : Nat) (ds : List Decl) (k : Nat) :
    (Decl.locals next ds)[k]? = ds[k]?.map fun d => d.local (.result ⟨next + k⟩) := by
  induction ds generalizing next k with
  | nil => rfl
  | cons d ds ih =>
    cases k with
    | zero => rfl
    | succ k =>
      rw [Decl.locals, getElem?_cons_succ, getElem?_cons_succ, ih, Nat.add_right_comm, Nat.add_assoc]

namespace Header

/-- Whether the parameters are integers, and the local variables integers or untyped pointers. -/
def isPlain (h : Header) : Bool :=
  h.params.all (·.ty.isInteger) && h.locals.all fun d => d.ty.isInteger || d.ty = .ptr .void

def scalars (h : Header) (v : VarId) : Option Ty := (h.typeOf v).filter (·.isInteger)

/-- What the variables hold at first: the parameters what has been passed, the others zero. -/
def contents (actuals : List Int) (v : VarId) : Int := actuals[v.index]?.getD 0

/-- The arguments as they are passed, behind the closure environment. -/
def physical (h : Header) (env : Bytes) (actuals : List Int) : Array Bytes :=
  (env :: zipWith (fun d a => d.ty.encode a) h.params actuals).toArray

variable {h : Header} {c : Convention}

theorem isInteger_of_param (plain : h.isPlain = true) : ∀ d ∈ h.params, d.ty.isInteger = true := by
  unfold isPlain at plain
  rw [Bool.and_eq_true, all_eq_true] at plain
  exact plain.1

theorem isInteger_of_local (plain : h.isPlain = true) :
    ∀ d ∈ h.locals, d.ty.isInteger = true ∨ d.ty = .ptr .void := by
  unfold isPlain at plain
  rw [Bool.and_eq_true, all_eq_true, all_eq_true] at plain
  intro d hd
  have either := plain.2 d hd
  rwa [Bool.or_eq_true, decide_eq_true_eq] at either

/-- The slot of a variable has the number of the variable. -/
theorem getElem?_vars (simple : c.Simple) (types : c.params.map (·.ty) = h.params.map (·.ty)) {k : Nat}
    {d : Decl} (found : (h.params ++ h.locals)[k]? = some d) :
    ∃ x, (h.vars c)[k]? = some x ∧ x.slot = .result ⟨k⟩ ∧ x.ty = d.ty := by
  have length : c.params.length = h.params.length := by simpa using congrArg length types
  have width : (zipWith Decl.param h.params (homes 0 c.params)).length = h.params.length := by
    rw [length_zipWith, length_homes]
    omega
  unfold vars
  rw [getElem?_append] at found ⊢
  rw [width]
  split
  · next param =>
    rw [if_pos param] at found
    refine ⟨d.param (.result ⟨k⟩), ?_, rfl, rfl⟩
    have home : (homes 0 c.params)[k]? = some (.result ⟨k⟩) := by
      rw [homes_of_simple simple, getElem?_map, getElem?_range' (by omega)]
      simp
    rw [getElem?_zipWith, found, home]
  · next loc =>
    rw [if_neg loc] at found
    refine ⟨d.local (.result ⟨k⟩), ?_, rfl, rfl⟩
    rw [Decl.getElem?_locals, found, kept_of_simple simple, length_map, length]
    simp only [Option.map_some, Option.some.injEq]
    congr 3
    omega

/-- The slots are those of the variables, in order. -/
theorem kept_append (simple : c.Simple) (types : c.params.map (·.ty) = h.params.map (·.ty)) :
    kept c.params ++ h.locals.map (·.ty.shape) = (h.params ++ h.locals).map (·.ty.shape) := by
  have shapes : c.params.map (·.ty.shape) = h.params.map (·.ty.shape) := by
    have both := congrArg (map Ty.shape) types
    rwa [map_map, map_map] at both
  rw [kept_of_simple simple, shapes, map_append]

end Header

/-- The variables have the slots of their numbers. -/
theorem Builder.Opened.declares {start b : Builder} {h : Header} {labels : List Span} {spills : List InstrId}
    (opened : start.Opened b (h.vars start.convention) (h.locals.map (·.ty.shape)) labels spills)
    (simple : start.convention.Simple) (types : start.convention.params.map (·.ty) = h.params.map (·.ty)) :
    b.cursor.Declares h.typeOf fun v => ⟨v.index⟩ := by
  intro v t known
  obtain ⟨d, found, rfl⟩ := Option.map_eq_some_iff.mp known
  obtain ⟨x, var, slot, -⟩ := getElem?_vars simple types found
  obtain ⟨x', var', slot', -⟩ := opened.vars v.index x var
  refine ⟨(opened.slots v.index d.ty.shape ?_).op?, x', var', slot'.trans slot⟩
  rw [kept_append simple types, getElem?_map, found]
  rfl

/-! ### The run up to the body -/

/-- The state in which a run comes to the body of a function over integers, whose code the function
`last` has. -/
structure Scene.Arrived (S : Scene) (h : Header) (last : Builder) (actuals : List Int) (world : World)
    (m : Machine) : Prop where
  inside : ∀ c : Cursor, c.builder = last → c.In S
  front : S.front = last.lateSlots
  ready : S.Ready m
  holds : S.Holds h.scalars (fun v => ⟨v.index⟩) (contents actuals) m
  world : m.world = world

theorem Header.getElem?_physical (h : Header) (env : Bytes) {actuals : List Int} {k : Nat} {d : Decl} {a : Int}
    (decl : h.params[k]? = some d) (actual : actuals[k]? = some a) :
    (h.physical env actuals)[k + 1]? = some (d.ty.encode a) := by
  unfold physical
  rw [getElem?_toArray, getElem?_cons_succ, getElem?_zipWith, decl, actual]

theorem Header.sizeOf_of_isPlain {h : Header} (plain : h.isPlain = true) {d : Decl}
    (hd : d ∈ h.params ++ h.locals) : ∃ n, Machine.sizeOf d.ty.shape = .ok n := by
  rcases mem_append.mp hd with param | loc
  · exact ⟨_, Ty.sizeOf_shape (isInteger_of_param plain d param)⟩
  · rcases isInteger_of_local plain d loc with integer | pointer
    · exact ⟨_, Ty.sizeOf_shape integer⟩
    · rw [pointer]
      exact ⟨8, rfl⟩

theorem Header.scalars_eq_some_iff {h : Header} {v : VarId} {t : Ty} :
    h.scalars v = some t ↔ h.typeOf v = some t ∧ t.isInteger = true :=
  Option.filter_eq_some_iff

/-- What a slot of an integer holds once its parameter has been put into it. -/
theorem Placement.Spilled.eq_encode {p : Placement} {args : Array Bytes} {cell after : Bytes} {a : Int}
    {ext : Extension} (spilled : p.Spilled args cell after) (passing : p.passing = .direct [p.ty.shape] ext)
    (arg : args[p.offset]? = some (p.ty.encode a)) (size : cell.size = p.ty.bits / 8) : after = p.ty.encode a := by
  cases spilled with
  | nothing indirect => rw [passing] at indirect; cases indirect
  | single _ arg' =>
    cases arg.symm.trans arg'
    exact Bytes.splice_all ((Ty.size_encode _ _).trans size.symm)
  | double passing' => rw [passing] at passing'; cases passing'

section Body

variable {start b₁ b₂ : Builder} {h : Header} {labels : List Span} {spills : List InstrId} {env : Bytes}
  {actuals : List Int} (opened : start.Opened b₁ (h.vars start.convention) (h.locals.map (·.ty.shape)) labels
    spills) (simple : start.convention.Simple) (placed : start.convention.Placed (h.params.map (·.ty)))

include placed in
/-- A placed parameter, its type and its argument. -/
theorem Header.exists_actual (env : Bytes) (simple : start.convention.Simple) (first : start.convention.chainIndex = 0)
    (length : actuals.length = h.params.length) {k : Nat} {p : Placement}
    (found : start.convention.params[k]? = some p) : ∃ a, h.typeOf ⟨k⟩ = some p.ty ∧
      contents actuals ⟨k⟩ = a ∧ (h.physical env actuals)[p.offset]? = some (p.ty.encode a) := by
  have count : start.convention.params.length = h.params.length := by
    simpa using congrArg List.length placed.types
  have below : k < h.params.length := count ▸ (List.getElem?_eq_some_iff.mp found).1
  have decl : h.params[k]? = some h.params[k] := getElem?_eq_getElem below
  have ty : p.ty = h.params[k].ty := by
    have types := congrArg (·[k]?) placed.types
    simpa [found, decl] using types
  have passed : k < actuals.length := length ▸ below
  have actual : actuals[k]? = some actuals[k] := getElem?_eq_getElem passed
  refine ⟨actuals[k], ?_, ?_, ?_⟩
  · unfold typeOf
    rw [getElem?_append_left below, decl, ty]
    rfl
  · unfold contents
    rw [actual]
    rfl
  · rw [offset_of_simple simple placed.consecutive found, first, Nat.add_comm, ty]
    exact h.getElem?_physical env decl actual

include opened simple placed in
/-- The slots of the variables once they have been made, and once the parameters have been put into
them. -/
theorem Scene.Filled.holds {S : Scene} {m m' : Machine} (inside : b₁.cursor.In S)
    (filled : S.Filled start.convention.params (Placement.homes 0 start.convention.params) m m')
    (first : start.convention.chainIndex = 0) (length : actuals.length = h.params.length)
    (args : S.args = h.physical env actuals)
    (zeros : ∀ v t, h.scalars v = some t → S.cell m ⟨v.index⟩ = Bytes.zeros (t.bits / 8)) :
    S.Holds h.scalars (fun v => ⟨v.index⟩) (contents actuals) m' := by
  intro v t known
  obtain ⟨typed, integer⟩ := scalars_eq_some_iff.mp known
  have homes : Placement.homes 0 start.convention.params = _ := Placement.homes_of_simple simple
  by_cases isParam : v.index < start.convention.params.length
  · have found := getElem?_eq_getElem isParam
    obtain ⟨a, typed', contents, arg⟩ := exists_actual placed env simple first length found
    cases typed.symm.trans typed'
    obtain ⟨ext, passing⟩ := simple _ (getElem_mem isParam)
    have home : (Placement.homes 0 start.convention.params)[v.index]? = some (.result ⟨v.index⟩) := by
      rw [homes, getElem?_map, getElem?_range' isParam]
      simp
    have size : (S.cell m ⟨v.index⟩).size = start.convention.params[v.index].ty.bits / 8 := by
      rw [zeros v _ known, Bytes.size_zeros]
    show _ = start.convention.params[v.index].ty.encode (Header.contents actuals ⟨v.index⟩)
    rw [contents]
    exact (filled.spilled v.index _ _ found home).eq_encode passing (args ▸ arg) size
  · have count : start.convention.params.length = h.params.length := by
      simpa using congrArg List.length placed.types
    have contents : contents actuals v = 0 := by
      unfold contents
      rw [getElem?_eq_none (by omega)]
      rfl
    have fresh : Operand.result ⟨v.index⟩ ∉ Placement.homes 0 start.convention.params := fun mem => by
      rw [homes] at mem
      obtain ⟨k, below, eq⟩ := mem_map.mp mem
      cases eq
      have bound := mem_range'.mp below
      omega
    obtain ⟨hop, -⟩ := opened.declares simple placed.types v t typed
    rw [contents, filled.others _ ⟨_, inside.slot hop, rfl⟩ fresh, zeros v t known]
    exact (Bytes.ofNat_zero _).symm

include opened simple placed in
/-- A run of a function over integers comes to its body, with the arguments in their slots. -/
theorem Machine.leads_body {g : Graph} {world : World} {P : Config → Prop}
    (first : start.convention.chainIndex = 0) (plain : h.isPlain = true) (grows : b₁.Extends b₂)
    (stocks : b₁.Stocks b₂) (finishes : b₂.Finishes g) (length : actuals.length = h.params.length)
    (later : ∀ (S : Scene) left m, left ≤ stepLimit → S.graph = g → S.args = h.physical env actuals →
      S.Arrived h b₂ actuals world m → S.Leads left (b₁.cursor.spot S m) P) :
    Leads g (h.physical env actuals) stepLimit (.before ⟨0⟩ (g.body ⟨0⟩) (Machine.start g {} world)) P := by
  refine leads_entry opened grows stocks.stores finishes.toCompletes (by decide) ?_ ?_
  · intro i shape f hop failed
    obtain ⟨n, sized⟩ := opened.sizeOf_slot grows stocks finishes.toCompletes (fun shape mem => by
      rw [kept_append simple placed.types] at mem
      obtain ⟨d, hd, rfl⟩ := mem_map.mp mem
      exact sizeOf_of_isPlain plain hd) hop
    cases sized.symm.trans failed
  rintro S left m fewer rfl args entered
  have inside : b₁.cursor.In S := (entered.inside ⟨b₂, b₂.entry, [], [], []⟩ rfl).extends grows
  have zeros : ∀ v t, h.scalars v = some t → S.cell m ⟨v.index⟩ = Bytes.zeros (t.bits / 8) := by
    intro v t known
    obtain ⟨typed, integer⟩ := scalars_eq_some_iff.mp known
    obtain ⟨hop, -⟩ := opened.declares simple placed.types v t typed
    obtain ⟨n, sized, zeros⟩ := entered.zeros _ t.shape (inside.slot hop)
    cases (Ty.sizeOf_shape integer).symm.trans sized
    have pos := Ty.bits_pos integer
    rw [zeros, Nat.max_eq_left pos]
  refine Scene.leads_spills entered.ready (opened.spilled.mono fun _ _ _ => opened.does inside)
    (nodup_homes placed.consecutive) ?_ ?_
  · intro k p slot found home
    obtain ⟨a, typed, -, arg⟩ := exists_actual placed env simple first length found
    obtain ⟨ext, passing⟩ := simple p (mem_of_getElem? found)
    have below : k < start.convention.params.length := (List.getElem?_eq_some_iff.mp found).1
    rw [homes_of_simple simple, getElem?_map, getElem?_range' below] at home
    simp only [Nat.one_mul, Nat.zero_add, Option.map_some, Option.some.injEq] at home
    have integer : p.ty.isInteger = true := by
      have mem : p.ty ∈ start.convention.params.map (·.ty) :=
        mem_map_of_mem (mem_of_getElem? found)
      rw [placed.types] at mem
      obtain ⟨d, hd, eq⟩ := mem_map.mp mem
      exact eq ▸ isInteger_of_param plain d hd
    have isSlot : S.IsSlot ⟨k⟩ p.ty.shape := by
      refine opened.does inside (opened.slots k p.ty.shape ?_)
      rw [getElem?_append_left, kept_of_simple simple, getElem?_map, found]
      · rfl
      · rwa [kept_of_simple simple, length_map]
    refine .inr ⟨⟨k⟩, _, _, home.symm, isSlot, .single passing (args ▸ arg) (Nat.le_of_eq ?_)⟩
    rw [zeros ⟨k⟩ p.ty (scalars_eq_some_iff.mpr ⟨typed, integer⟩), Bytes.size_zeros, Ty.size_encode]
  · intro left' m' fewer' filled
    have spot : Config.before ⟨0⟩ (b₁.cursor.rest S) m' = b₁.cursor.spot S m' := by
      unfold Cursor.spot
      rw [show b₁.cursor.current = ⟨0⟩ from opened.entry]
    rw [spot]
    exact later S left' m' (Nat.le_trans fewer' fewer) rfl args
      { inside := entered.inside
        front := entered.front
        ready := filled.ready
        holds := filled.holds opened simple placed inside first length args zeros
        world := filled.world.trans entered.world }

end Body

end FlowIR

import FlowIR.Proofs.Emit.Passed

/-!
Returning an aggregate loses nothing.

An aggregate is returned from where it lies: it is copied to the storage of the caller, or the struct of its chunks is
loaded from its first bytes (`Cursor.Hands`). Whatever code comes before the return of a local variable, a run that
comes to the return then ends with the bytes of the variable (`Session.compiled_result_returned`), unless the struct of
two chunks is larger than the value or puts the second chunk elsewhere.
-/

namespace FlowIR

open Machine List

/-! ### The code of a return -/

/-- Code has been added that hands over the aggregate at an address, with the operand to return. -/
inductive Cursor.Hands (c : Cursor) (p : Placement) (v : Operand) : Option Operand → Cursor → Prop where
  | nothing (ignored : p.passing = .ignored) : Hands c p v none c
  | copy {size align : Nat} {i : InstrId} {after : Cursor} (indirect : p.passing = .indirect)
      (sized : p.ty.size? = some size)
      (pushed : c.Pushed ⟨.memcpy (.arg 0) v size align, .void, none⟩ i after) : Hands c p v none after
  | load {chunks : List Shape} {ext : Extension} {i j : InstrId} {mid after : Cursor} {name name' : Option String}
      (direct : p.passing = .direct chunks ext)
      (cast : c.Pushed ⟨.cast .bitcast v (.ptr p.regShape), .ptr p.regShape, name⟩ i mid)
      (load : mid.Pushed ⟨.load (.result i), p.regShape, name'⟩ j after) : Hands c p v (some (.result j)) after

namespace Cursor.Hands

variable {c after : Cursor} {p : Placement} {v : Operand} {o : Option Operand}

theorem able (h : c.Hands p v o after) (able : c.Able) : after.Able := by
  cases h with
  | nothing => exact able
  | copy _ _ pushed => exact pushed.able
  | load _ _ load => exact load.able

theorem whole (h : c.Hands p v o after) : (Op.ret o).Whole := by
  intro u hu
  cases h with
  | nothing => cases hu
  | copy => cases hu
  | load =>
    cases mem_singleton.mp hu
    rfl

end Cursor.Hands

namespace Emit

variable {c : Cursor} {v : Operand}

/-- A conversion of a pointer and a load through it. -/
theorem loadThrough_pushes (able : c.Able) (isOpen : c.Open) (whole : v.isPlaceholder = false) (shape : Shape) :
    Succeeds (liftM (Build.loadThrough c.current v shape) : EmitM Operand) c fun o after =>
      ∃ i j mid name name', o = .result j ∧
        c.Pushed ⟨.cast .bitcast v (.ptr shape), .ptr shape, name⟩ i mid ∧
        mid.Pushed ⟨.load (.result i), shape, name'⟩ j after := by
  refine ensures_lift.mpr ?_
  unfold Build.loadThrough Build.newCast
  obtain ⟨name, names, made⟩ : ∃ name names, Build.fresh "cast" c.builder = .ok name { c.builder with names } :=
    ⟨_, _, rfl⟩
  have renamed : c.Renamed { c with builder := { c.builder with names } } := ⟨_, rfl⟩
  obtain ⟨b₁, listed₁, pushed₁⟩ := @Cursor.Able.exists_append _
    ⟨.cast .bitcast v (.ptr shape), .ptr shape, some name⟩ (renamed.able able) isOpen
      (forall_mem_singleton.mpr whole) rfl
  refine ensures_bind.mpr (.after made (ensures_modifyGet.mpr ?_))
  refine .after listed₁ ?_
  obtain ⟨name', names', made'⟩ : ∃ name names, Build.fresh "ld" b₁ = .ok name { b₁ with names } := ⟨_, _, rfl⟩
  refine .after made' ?_
  have renamed' : Cursor.Renamed { c with builder := b₁ } { c with builder := { b₁ with names := names' } } := ⟨_, rfl⟩
  have loads : (Op.load (.result ⟨c.graph.instrs.size⟩)).Whole := forall_mem_singleton.mpr rfl
  obtain ⟨b₂, listed₂, pushed₂⟩ := @Cursor.Able.exists_append _
    ⟨.load (.result ⟨c.graph.instrs.size⟩), shape, some name'⟩ (renamed'.able pushed₁.able)
    (pushed₁.open_iff.mpr rfl) loads rfl
  refine .after (newTracked_of_whole loads _) (.after listed₂ ?_)
  exact ⟨_, _, _, _, _, rfl, renamed.pushed pushed₁, renamed'.pushed pushed₂⟩

/-- What has to come before the return of an aggregate. -/
theorem prepareReturn_hands (able : c.Able) (isOpen : c.Open) (whole : v.isPlaceholder = false)
    (aggregate : c.builder.convention.result.ty.isAggregate = true) (span : Span) :
    Ensures (liftM (Build.prepareReturn c.current (some v) span) : EmitM (Option Operand)) c
      (fun o after => c.Hands c.builder.convention.result v o after) fun _ _ => True := by
  have loads := loadThrough_pushes able isOpen whole c.builder.convention.result.regShape
  rw [Succeeds, ensures_lift] at loads
  refine ensures_lift.mpr ?_
  unfold Build.prepareReturn
  refine .get ?_
  dsimp only
  split
  · next ignored => exact .nothing ignored
  · next src indirect same =>
    cases same
    refine ensures_bind.mpr (ensures_checked.mpr ⟨fun size sized => ?_, fun _ _ => trivial⟩)
    refine ensures_bind.mpr (ensures_checked.mpr ⟨fun align _ => ?_, fun _ _ => trivial⟩)
    have copies : (Op.memcpy (.arg 0) v size align).Whole :=
      forall_mem_cons.mpr ⟨rfl, forall_mem_singleton.mpr whole⟩
    obtain ⟨b, listed, pushed⟩ := @Cursor.Able.exists_append _
      ⟨.memcpy (.arg 0) v size align, .void, none⟩ able isOpen copies rfl
    refine .after (newTracked_of_whole copies _) (.after listed ?_)
    exact .copy indirect (require_eq_ok_iff.mp sized) pushed
  · next value direct same =>
    cases same
    rw [aggregate, Bool.or_true, if_pos rfl]
    refine ensures_bind.mpr (loads.mono ?_ fun _ _ he => he.elim)
    rintro _ after ⟨i, j, mid, name, name', rfl, cast, load⟩
    exact .load direct cast load
  · next none _ => cases none

/-- The code of the return of an aggregate variable, outside any region with a cleanup. -/
theorem returnValues_hands (able : c.Able) (outside : c.cleanups = []) {node : Node} {var : VarId} {x : Variable}
    (known : c.builder.var? var = some x) (whole : x.slot.isPlaceholder = false)
    (aggregate : node.ty.isAggregate = true) (signature : c.builder.signature.result = node.ty)
    (convention : c.builder.convention.result.ty = node.ty) (span : Span) :
    Ensures (returnValues [.var node var] span) c (fun _ after => ∃ start mid o i,
      ensureOpen c = .ok () start ∧ c.Opens start ∧ start.Hands c.builder.convention.result x.slot o mid ∧
      mid.Pushed ⟨.ret o, .void, none⟩ i after) fun _ _ => True := by
  have arity : returnArity node.ty 1 = 1 := by
    cases ty : node.ty <;> rw [ty] at aggregate <;> first | rfl | cases aggregate
  have evaluated : Succeeds (returnOperand [.var node var] span) c fun r after =>
    r = some (some x.slot) ∧ c = after := by
    unfold returnOperand
    refine ensures_bind.mpr (.get (ensures_pure.mpr ?_))
    rw [signature]
    dsimp only
    rw [length_singleton, arity, if_neg (fun ne => ne rfl)]
    unfold expr loadValue
    refine ensures_bind.mpr (.after (lookupVar_of_known known node.span) ?_)
    rw [if_pos aggregate]
    exact ⟨rfl, rfl⟩
  unfold returnValues
  refine Ensures.bind (evaluated.mono (fun _ _ q => q) fun _ _ he => he.elim) ?_
  rintro _ _ ⟨rfl, rfl⟩
  refine .get ?_
  rw [outside]
  dsimp only [head?_nil]
  unfold leaveWith
  obtain ⟨⟨⟩, start, opened, opens⟩ := (ensureOpen_succeeds able).exists_ok
  refine .after opened (.get ?_)
  have same : start.builder.convention = c.builder.convention := opens.adds.builder.convention
  refine (prepareReturn_hands opens.able opens.isOpen whole (by rw [same, convention]; exact aggregate) span).bind ?_
  intro o mid hands
  have pushes := perform_succeeds (hands.able opens.able) hands.whole rfl
  refine Ensures.bind (pushes.mono (fun _ _ pushed => pushed) fun _ _ he => he.elim) fun i after pushed => ?_
  exact ⟨start, mid, o, i, opened, opens, same ▸ hands, pushed⟩

end Emit

/-! ### Executing it -/

namespace Machine

variable {g : Graph} {args : Array Bytes} {m : Machine} {i : InstrId} {shape : Shape} {name : Option String}
  {data : Bytes}

theorem step_bitcast {v : Operand} {dst target : Shape}
    (found : g.instr i = .ok ⟨.cast .bitcast v dst, shape, name⟩) (known : g.shapeOf v = .ok (.ptr target))
    (value : m.eval args v = .ok data) : step g args m i = .ok (.next, m.keep i data) := by
  simp only [step, found, bind, Except.bind, value, known]
  rfl

theorem step_load {ptr : Operand} {address n : Nat} (found : g.instr i = .ok ⟨.load ptr, shape, name⟩)
    (pointer : m.evalWord args ptr = .ok address) (size : sizeOf shape = .ok n)
    (read : m.memory.read address n = .ok data) : step g args m i = .ok (.next, m.keep i data) := by
  simp only [step, found, bind, Except.bind, pointer, size, read]
  rfl

theorem step_memcpy {dst src : Operand} {size align out ptr : Nat} {memory : Memory}
    (found : g.instr i = .ok ⟨.memcpy dst src size align, shape, name⟩) (target : m.evalWord args dst = .ok out)
    (source : m.evalWord args src = .ok ptr) (read : m.memory.read ptr size = .ok data)
    (write : m.memory.write out data = .ok memory) : step g args m i = .ok (.next, { m with memory }) := by
  simp only [step, found, bind, Except.bind, target, source, read, write]
  rfl

theorem step_ret_none (found : g.instr i = .ok ⟨.ret none, shape, name⟩) :
    step g args m i = .ok (.done (.returned none), m) := by
  simp only [step, found, bind, Except.bind]
  rfl

theorem step_ret_some {v : Operand} (found : g.instr i = .ok ⟨.ret (some v), shape, name⟩)
    (value : m.eval args v = .ok data) : step g args m i = .ok (.done (.returned (some data)), m) := by
  simp only [step, found, bind, Except.bind, value]
  rfl

/-- The result of an instruction. -/
theorem eval_keep (inside : i.index < m.results.size) (data : Bytes) :
    (m.keep i data).eval args (.result i) = .ok data := by
  simp [eval, keep, require, inside]

end Machine

/-- What has been handed over when a function ends: nothing, the bytes in the caller's storage, or the chunks. -/
def Placement.Delivers (p : Placement) (args : Array Bytes) (image : Bytes) (o : Outcome) (m : Machine) : Prop :=
  match p.passing with
  | .ignored => o = .returned none
  | .indirect => o = .returned none ∧
      ∃ out, m.evalWord args (.arg 0) = .ok out ∧ m.memory.read out image.size = .ok image
  | .direct _ _ => ∃ data, o = .returned (some data) ∧ p.Returns image data

/-- The value that a run stands ready to return: the bytes at an address, and room for them at the caller. -/
structure Machine.Presents (g : Graph) (args : Array Bytes) (p : Placement) (v : Operand) (image : Bytes)
    (m : Machine) :
    Prop where
  results : m.results.size = g.instrs.size
  sized : sizeOf p.ty.shape = .ok image.size
  value : ∃ ptr, m.evalWord args v = .ok ptr ∧ m.memory.read ptr image.size = .ok image
  room : p.passing = .indirect → ∃ out old, m.evalWord args (.arg 0) = .ok out ∧ m.memory.read out image.size = .ok old

def Placement.Chunked (p : Placement) : Prop :=
  ∀ chunks ext n, p.passing = .direct chunks ext → p.ty.size? = some n → (chunks.length = 1 ∨ chunks.length = 2) ∧
    ∀ k chunk, chunks[k]? = some chunk → ∃ len, chunk.size? = some len ∧ 8 * k + len ≤ n

theorem Signature.chunked {sig : Signature} {c : Convention} (found : sig.convention? {} = some c) :
    c.result.Chunked := by
  intro chunks ext n direct sized
  obtain ⟨ty, passed⟩ := sig.result_of_convention? found
  rw [direct] at passed
  rw [ty] at sized
  obtain ⟨_, sized', pos, ⟨-, rfl⟩ | ⟨-, small, cut, hcut, rfl⟩⟩ := Convention.passResult?_direct passed <;>
    cases sized.symm.trans sized'
  · refine ⟨.inl rfl, fun k chunk there => ?_⟩
    obtain rfl : k = 0 := by
      have below := (List.getElem?_eq_some_iff.mp there).1
      simpa using below
    cases there
    exact ⟨n, sized, by omega⟩
  · have length : 1 ≤ cut.length ∧ cut.length ≤ 2 := Ty.length_of_small sized pos small hcut
    refine ⟨by rw [List.length_map]; omega, fun k chunk there => ?_⟩
    obtain ⟨len, size, -, bound⟩ := (Ty.cut_of_chunks? sized pos hcut).inside k chunk there
    exact ⟨len, size, bound⟩

theorem Machine.sizeOf_eq_ok_iff {shape : Shape} {n : Nat} :
    sizeOf shape = .ok n ↔ shape.size? = some n ∧ n ≤ Size.capacity := by
  unfold sizeOf fitting
  rw [Checked.bind_eq_ok_iff]
  constructor
  · rintro ⟨size, sized, fits⟩
    split at fits
    · next le =>
      cases fits
      exact ⟨require_eq_ok_iff.mp sized, le⟩
    · cases fits
  · rintro ⟨sized, le⟩
    exact ⟨n, require_eq_ok_iff.mpr sized, if_pos le⟩

/-- What can be read can be overwritten. -/
theorem Memory.exists_write {m : Memory} {ptr : Nat} {old data : Bytes} (read : m.read ptr data.size = .ok old) :
    ∃ after, m.write ptr data = .ok after := by
  unfold Memory.read at read
  unfold Memory.write
  obtain ⟨⟨index, a⟩, located, -⟩ := Checked.bind_eq_ok_iff.mp read
  rw [located]
  exact ⟨_, rfl⟩

section Placed

variable {c after : Cursor} {instr : Instr} {i : InstrId} {g : Graph} {entry : BlockId} {front : List InstrId}

/-- An instruction that has been added, in the complete function. -/
theorem Cursor.Pushed.exists_instr (h : c.Pushed instr i after) (becomes : after.graph.Becomes entry front g)
    (direct : instr.op.isIndirect = false) :
    i.index < g.instrs.size ∧ ∃ name, g.instr i = .ok ⟨instr.op, instr.shape, name⟩ := by
  obtain ⟨_, found, -⟩ := becomes.instr _ _ h.found
  refine ⟨(Array.getElem?_eq_some_iff.mp found).1, becomes.exists_instr h.found ?_ direct⟩
  exact h.adds.whole i.index instr (Nat.le_of_eq h.index.symm) h.found

/-- The block goes on with the instruction. -/
theorem Cursor.Pushed.body_eq (h : c.Pushed instr i after) (isOpen : c.Open) {code : List InstrId}
    (split : g.body after.current = Graph.lead entry front after.current ++ after.graph.body after.current ++ code) :
    g.body c.current = Graph.lead entry front c.current ++ c.graph.body c.current ++ i :: code := by
  obtain ⟨same, listed⟩ := h.listed isOpen
  rw [same, listed] at split
  rw [split, append_assoc, append_assoc, append_assoc, singleton_append]

end Placed

namespace Cursor.Hands

variable {c mid after : Cursor} {p : Placement} {v : Operand} {o : Option Operand} {k : InstrId} {g : Graph}
  {entry : BlockId} {front : List InstrId} {target : Shape}

/-- The code of a return hands over the bytes at the address. -/
theorem leads (hands : c.Hands p v o mid) (last : mid.Pushed ⟨.ret o, .void, none⟩ k after) (isOpen : c.Open)
    (becomes : after.graph.Becomes entry front g) (known : g.shapeOf v = .ok (.ptr target)) (chunked : p.Chunked)
    (snug : p.isSnug = true) :
    ∃ code, g.body c.current = Graph.lead entry front c.current ++ c.graph.body c.current ++ code ∧
      ∀ args image m fuel, Machine.Presents g args p v image m → Leads g args fuel (.before c.current code m)
        fun t => ∃ o m', t = .over (.ok (o, m')) ∧ p.Delivers args image o m' := by
  obtain ⟨code, split⟩ := becomes.body after.current
  obtain ⟨-, _, ret⟩ := last.exists_instr becomes rfl
  have becomes' := last.adds.builder.graph.becomes becomes
  cases hands with
  | nothing ignored =>
    refine ⟨k :: code, last.body_eq isOpen split.symm, fun args image m fuel holds => ?_⟩
    refine Leads.done (step_ret_none ret) ⟨_, _, rfl, ?_⟩
    rw [Placement.Delivers, ignored]
  | @copy size align i mid indirect sized pushed =>
    obtain ⟨-, _, copy⟩ := pushed.exists_instr becomes' rfl
    refine ⟨i :: k :: code, pushed.body_eq isOpen (last.body_eq (pushed.open_iff.mpr rfl) split.symm),
      fun args image m fuel holds => ?_⟩
    obtain ⟨ptr, source, read⟩ := holds.value
    obtain ⟨out, old, room, readable⟩ := holds.room indirect
    obtain ⟨memory, written⟩ := Memory.exists_write readable
    cases sized.symm.trans (sizeOf_eq_ok_iff.mp holds.sized).1
    refine Leads.next (step_memcpy copy room source read written) fun left _ _ => ?_
    refine Leads.done (step_ret_none ret) ⟨_, _, rfl, ?_⟩
    rw [Placement.Delivers, indirect]
    exact ⟨rfl, out, room, Memory.read_of_write written⟩
  | @load chunks ext i j mid₁ mid name name' direct cast load =>
    have opened := cast.open_iff.mpr rfl
    obtain ⟨within, _, casts⟩ := cast.exists_instr (load.adds.builder.graph.becomes becomes') rfl
    obtain ⟨within', _, loads⟩ := load.exists_instr becomes' rfl
    refine ⟨i :: j :: k :: code, cast.body_eq isOpen (load.body_eq opened
      (last.body_eq (load.open_iff.mpr rfl) split.symm)), fun args image m fuel holds => ?_⟩
    obtain ⟨ptr, source, read⟩ := holds.value
    obtain ⟨data, value, word⟩ := Checked.bind_eq_ok_iff.mp source
    obtain ⟨sized, fits⟩ := sizeOf_eq_ok_iff.mp holds.sized
    obtain ⟨length, inside⟩ := chunked chunks ext _ direct sized
    obtain ⟨n, size, le, returns⟩ := Placement.exists_returns direct length inside sized snug
    refine Leads.next (step_bitcast casts known value) fun left _ _ => ?_
    have pointer : (m.keep i data).evalWord args (.result i) = .ok ptr := by
      rw [evalWord, eval_keep (holds.results.symm ▸ within)]
      exact word
    refine Leads.next (step_load loads pointer (sizeOf_eq_ok_iff.mpr ⟨size, Nat.le_trans le fits⟩)
      (Memory.read_of_le read le)) fun left _ _ => ?_
    refine Leads.done (step_ret_some ret (eval_keep ?_ _)) ⟨_, _, rfl, ?_⟩
    · rw [size_keep, holds.results]
      exact within'
    · rw [Placement.Delivers, direct]
      exact ⟨_, rfl, returns⟩

end Cursor.Hands

/-! ### Functions that return a variable -/

section Function

variable {s : Session} {name : String} {signature : Signature} {h : Header} {start b : Builder}
  {spills : List InstrId} {g : Graph}

/-- The slot of a local variable. -/
theorem Session.Prepares.local_slot (p : s.Prepares signature h start b spills) {k : Nat} {d : Decl}
    (decl : h.locals[k]? = some d) : ∃ i x, b.var? ⟨h.params.length + k⟩ = some x ∧ x.slot = .result i ∧
      b.graph.Does i (.alloca d.ty.shape) (.ptr d.ty.shape) := by
  have types := congrArg length p.placed.types
  rw [length_map, length_map] at types
  have var : (h.vars start.convention)[h.params.length + k]? =
      some (d.local (.result ⟨(Placement.kept start.convention.params).length + k⟩)) := by
    have length : (zipWith Decl.param h.params (Placement.homes 0 start.convention.params)).length =
        h.params.length := by
      rw [length_zipWith, Placement.length_homes, types, Nat.min_self]
    unfold Header.vars
    rw [getElem?_append_right (by rw [length]; exact Nat.le_add_right _ _), length, Nat.add_sub_cancel_left,
      Decl.getElem?_locals, decl]
    rfl
  obtain ⟨x, hx, slot, -⟩ := p.opened.vars _ _ var
  refine ⟨⟨(Placement.kept start.convention.params).length + k⟩, x, hx, slot, p.opened.slots _ _ ?_⟩
  rw [getElem?_append_right (Nat.le_add_right _ _), Nat.add_sub_cancel_left, getElem?_map, decl]
  rfl

/-- Code can be added behind any code that has been emitted, outside any region. -/
theorem Session.Prepares.able_of_ok (p : s.Prepares signature h start b spills) {pre : Stmt} {c : Cursor}
    (run : Emit.stmt pre b.cursor = .ok () c) : c.Able ∧ c.cleanups = [] := by
  obtain ⟨_, sound⟩ := p.sound_cursor
  obtain ⟨_, grows, sound', -⟩ := (Emit.stmt_emittable pre sound).of_ok run
  obtain ⟨-, -, ops, path, -⟩ := (Emit.stmt_counts (i := true) pre sound sound.current).of_ok run
  obtain ⟨new, late, -, made, -⟩ : b.Stores c.builder := path.stores p.opened.placed
  have outside : c.cleanups = [] := map_eq_nil_iff.mp grows.cleanups
  have pads : c.pads = [] := grows.pads
  have formed := sound'.builder.formed
  refine ⟨⟨sound'.placed, formed.placed _ formed.entry_mem, formed.placed _ sound'.current, fun {x i} hi => ?_,
    fun i hi => ?_, ?_, ?_⟩, outside⟩
  · obtain ⟨op, hop⟩ := Option.isSome_iff_exists.mp (formed.listed x i hi)
    exact Graph.index_lt_of_op? hop
  · rw [late, p.opened.late, nil_append] at hi
    exact (made i hi).2
  · rw [pads]
    exact forall_mem_nil _
  · rw [outside]
    exact forall_mem_nil _

/-- Whatever code comes before the return of a local variable of an aggregate type: the complete function has the code
of the return behind it. Where a run comes to that code and the variable holds the bytes `image`, the run goes on to the
end of the function without a fault, and has handed the bytes over as the convention asks. If they travel in two
registers, the struct of the registers must be no larger than the value, and have its second field at offset eight. -/
theorem Session.compiled_result_returned {c : Convention} {pre : Stmt} {span : Span} {node : Node} {k : Nat} {d : Decl}
    (target : s.target = {}) (params : h.params.map (·.ty) = signature.params)
    (found : signature.convention? {} = some c) (snug : c.result.isSnug = true)
    (aggregate : signature.result.isAggregate = true) (decl : h.locals[k]? = some d)
    (typed : node.ty = signature.result)
    (compiled : s.compile name signature h (.block [pre, .ret span [.var node ⟨h.params.length + k⟩]]) = .ok g) :
    ∃ b₀ b opened x reached first slots code, s.begin name signature = .ok b₀ ∧ Build.prepare h.calls b₀ = .ok b ∧
      Build.placeProlog b = .ok () opened ∧ opened.var? ⟨h.params.length + k⟩ = some x ∧
      Emit.stmt pre opened.cursor = .ok () reached ∧ Emit.ensureOpen reached = .ok () first ∧
      g.body first.current = slots ++ first.graph.body first.current ++ code ∧ (∀ i ∈ slots, g.Slot i) ∧
      ∀ args image m fuel, Machine.Presents g args c.result x.slot image m →
        Leads g args fuel (.before first.current code m)
          fun t => ∃ o m', t = .over (.ok (o, m')) ∧ c.result.Delivers args image o m' := by
  obtain ⟨b₀, b, last, begun, prepared, run⟩ := Session.exists_of_compile compiled
  obtain ⟨opened, spills, placed, p⟩ := Session.exists_prepares target params begun prepared
  obtain ⟨-, -, -, same⟩ := Session.begin_begun target begun
  cases found.symm.trans same
  rw [Emit.function_of_placed placed] at run
  cases emitted : Emit.stmt (.block [pre, .ret span [.var node ⟨h.params.length + k⟩]]) opened.cursor with
  | error e c => rw [emitted] at run; cases run
  | ok _ c =>
    rw [emitted] at run
    obtain ⟨final, grows, more, stores, completes⟩ := p.exists_completes emitted run
    obtain ⟨⟨⟩, reached, before, emitted⟩ := exists_of_bind emitted
    obtain ⟨⟨⟩, _, emitted, done⟩ := exists_of_bind emitted
    cases done
    -- What is known of the variable and of the cursor behind the first statement.
    obtain ⟨i, x, known, slot, does⟩ := p.local_slot decl
    obtain ⟨able, outside⟩ := p.able_of_ok before
    obtain ⟨_, sound⟩ := p.sound_cursor
    obtain ⟨_, grown, -⟩ := (Emit.stmt_emittable pre sound).of_ok before
    obtain ⟨x', known', slot', -⟩ := grown.builder.vars _ x known
    obtain ⟨result, -⟩ := signature.result_of_convention? found
    have conv : reached.builder.convention = b₀.convention := grown.builder.convention.trans p.opened.convention
    have sig : reached.builder.signature = signature := grown.builder.signature.trans p.signature
    have whole : x'.slot.isPlaceholder = false := by rw [slot', slot]; rfl
    obtain ⟨first, mid, o, j, opens, opened', hands, pushed⟩ := (Emit.returnValues_hands able outside known' whole
      (typed ▸ aggregate) (by rw [sig, typed]) (by rw [conv, typed, result]) span).of_ok emitted
    have becomes := more.graph.becomes completes.becomes
    have shape : g.shapeOf x'.slot = .ok (.ptr d.ty.shape) := by
      obtain ⟨name, there⟩ := does
      obtain ⟨_, found⟩ := (grows.graph.becomes becomes).exists_instr there
        (by rintro _ ⟨⟩) rfl
      rw [slot', slot, Graph.shapeOf, found]
      rfl
    rw [conv, slot'] at hands
    obtain ⟨code, split, runs⟩ := hands.leads pushed opened'.isOpen becomes (slot' ▸ shape)
      (signature.chunked found) snug
    refine ⟨b₀, b, opened, x, reached, first, _, code, begun, prepared, placed, known, before, opens, split,
      fun i hi => ?_, runs⟩
    unfold Graph.lead at hi
    split at hi
    · exact completes.slot_of_late stores p.opened.late hi
    · cases hi

end Function

/-- A pair of words that has been assigned word by word. -/
theorem Session.compiled_result_returned_pair :
    let pair : Ty := .struct [.i64, .i64]
    let sig : Signature := { params := [], result := pair }
    let h : Header := { locals := [⟨"x", pair, false, {}⟩] }
    let word : Nat → Expr := fun k => .field { ty := .i64 } (.var { ty := pair } ⟨0⟩) k
    let pre : Stmt := .block [.assign (word 0) (Typed.int .i64 7), .assign (word 1) (Typed.int .i64 9)]
    ∃ (c : Convention) (g : Graph) (opened : Builder) (x : Variable) (first : Cursor) (code : List InstrId),
      sig.convention? {} = some c ∧ c.result.isSnug = true ∧
      Session.compile {} "f" sig h (.block [pre, .ret {} [.var { ty := pair } ⟨0⟩]]) = .ok g ∧
      (∃ m, execute g #[Bytes.zeros 8] (Machine.start g {} {}) =
        .ok (.returned (some (Bytes.ofNat 8 7 ++ Bytes.ofNat 8 9)), m)) ∧
      opened.var? ⟨0⟩ = some x ∧ ∀ args image m fuel, Machine.Presents g args c.result x.slot image m →
        Leads g args fuel (.before first.current code m)
          fun t => ∃ o m', t = .over (.ok (o, m')) ∧ c.result.Delivers args image o m' := by
  intro pair sig h word pre
  have passed : (sig.convention? {}).any (fun c => c.result.isSnug) = true := by decide +kernel
  obtain ⟨c, found, snug⟩ := (Option.any_eq_true _ _).mp passed
  obtain ⟨g, compiled, ran⟩ : ∃ g, Session.compile {} "f" sig h (.block [pre, .ret {} [.var { ty := pair } ⟨0⟩]]) =
      .ok g ∧ ∃ m, execute g #[Bytes.zeros 8] (Machine.start g {} {}) =
        .ok (.returned (some (Bytes.ofNat 8 7 ++ Bytes.ofNat 8 9)), m) := Session.exists_returned (by decide +kernel)
  obtain ⟨-, -, opened, x, -, first, -, code, -, -, -, known, -, -, -, -, runs⟩ :=
    Session.compiled_result_returned (h := h) (k := 0) rfl rfl found snug rfl rfl rfl compiled
  exact ⟨c, g, opened, x, first, code, found, snug, compiled, ran, known, runs⟩

/-- Nine bytes are returned as the struct of a word and a byte, which has sixteen. It is loaded from a slot of nine. -/
theorem Session.nine_bytes_fault :
    let sig : Signature := { params := [], result := .array .u8 9 }
    let h : Header := { locals := [⟨"x", .array .u8 9, false, {}⟩] }
    ∃ g f, Session.compile {} "f" sig h (.ret {} [.var { ty := .array .u8 9 } ⟨0⟩]) = .ok g ∧
      execute g #[Bytes.zeros 8] (Machine.start g {} {}) = .error f :=
  Session.exists_fault (by decide +kernel)

end FlowIR

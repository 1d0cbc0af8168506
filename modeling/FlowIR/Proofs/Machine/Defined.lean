import FlowIR.Proofs.Emit.Function
import FlowIR.Proofs.Machine.Reaches

/-!
Definition before use over whole runs.

In a closed and ordered graph, whatever is available at a point of a run has been executed before
(`Reaches.available`), and an instruction only uses what is available. So no run of an emitted function
fails for a result that was never computed.
-/

namespace FlowIR

open List

namespace Machine

variable {g : Graph} {args : Array Bytes} {m₀ m after : Machine} {history done rest : List InstrId}
  {entry x t : BlockId} {su : Supply} {i j : InstrId}

/-- What is available after `done` in a block. In the entry block this is what `done` has computed; in
any other block the slots and what the block is supplied with are there as well. -/
def Available (g : Graph) (su : Supply) (entry x : BlockId) (done : List InstrId) (j : InstrId) : Prop :=
  if x = entry then j ∈ done ∧ g.Kept j else g.Ready su x done j

theorem Available.of_done (mem : j ∈ done) (kept : g.Kept j) : Available g su entry x done j := by
  unfold Available
  split
  · exact ⟨mem, kept⟩
  · exact .inr (.inr ⟨mem, kept⟩)

/-- One more instruction makes its own result available. -/
theorem Available.of_concat (h : Available g su entry x (done ++ [i]) j) :
    Available g su entry x done j ∨ (j = i ∧ g.Kept i) := by
  have split : j ∈ done ++ [i] → g.Kept j → j ∈ done ∧ g.Kept j ∨ (j = i ∧ g.Kept i) := by
    intro mem kept
    rcases mem_append.mp mem with old | new
    · exact .inl ⟨old, kept⟩
    · cases mem_singleton.mp new
      exact .inr ⟨rfl, kept⟩
  unfold Available at h ⊢
  by_cases first : x = entry
  · rw [if_pos first] at h ⊢
    exact split h.1 h.2
  · rw [if_neg first] at h ⊢
    rcases h with slot | given | ⟨mem, kept⟩
    · exact .inl (.inl slot)
    · exact .inl (.inr (.inl given))
    · exact (split mem kept).imp (fun old => .inr (.inr old)) id

/-- An instruction uses only what is available. -/
theorem available_of_use (h : g.Ordered su entry) (split : g.body x = done ++ i :: rest) {op : Op}
    (hop : g.op? i = some op) (hj : .result j ∈ op.operands) : Available g su entry x done j := by
  have here : (g.body x)[done.length]? = some i := by rw [split]; simp
  have before : (g.body x).take done.length = done := by rw [split, take_left]
  unfold Available
  by_cases first : x = entry
  · subst first
    have used := h.first done.length i here op hop j hj
    rw [before] at used
    rwa [if_pos rfl]
  · have used := (h.uses x done.length i here op hop).1 j hj
    rw [before] at used
    rwa [if_neg first]

/-- At the end of a block all slots are available. -/
theorem available_of_slot (h : g.Ordered su entry) (split : g.body x = done ++ [i]) {op : Op}
    (hop : g.op? i = some op) (hterm : op.isTerminator = true) (slot : g.Slot j) : Available g su entry x done j := by
  by_cases first : x = entry
  · subst first
    have mem := h.slots j slot
    rw [split, mem_append, mem_singleton] at mem
    rcases mem with early | rfl
    · exact .of_done early slot.kept
    · obtain ⟨op', hop', alloca⟩ := slot
      cases hop.symm.trans hop'
      cases op <;> simp [Op.isAlloca, Op.isTerminator] at alloca hterm
  · unfold Available
    rw [if_neg first]
    exact .inl slot

/-- What a block is supplied with is available where control goes to it, unless it is the result of the
call that control comes from. -/
theorem available_of_edge (h : g.Ordered su entry) (split : g.body x = done ++ [i]) {op : Op}
    (hop : g.op? i = some op) (ht : t ∈ op.successors) (hj : su t j) :
    Available g su entry x done j ∨ (j = i ∧ op.normal? = some t) := by
  have hterm := Op.isTerminator_of_successor ht
  rcases h.edges x i (by rw [split]; simp) op hop t ht j hj with (slot | given | ⟨mem, kept⟩) | normal
  · exact .inl (available_of_slot h split hop hterm slot)
  · refine .inl ?_
    by_cases first : x = entry
    · exact absurd (first ▸ given) (h.unsupplied.1 j)
    · unfold Available
      rw [if_neg first]
      exact .inr (.inl given)
  · rw [split, mem_append, mem_singleton] at mem
    rcases mem with early | rfl
    · exact .inl (.of_done early kept)
    · obtain ⟨op', hop', yields⟩ := kept
      cases hop.symm.trans hop'
      rw [Op.successors_eq_nil_of_yields yields] at ht
      cases ht
  · exact .inr normal

/-- What holds at every point of a run: what is available has been executed, and its result is there. Where
exceptions arrive there is one. -/
structure Point (g : Graph) (su : Supply) (entry : BlockId) (history : List InstrId) (x : BlockId)
    (rest : List InstrId) (m : Machine) : Prop where
  laid : x ∈ g.layout
  size : m.results.size = g.instrs.size
  reached : ∃ done, g.body x = done ++ rest ∧ (done = [] → su.lands x → m.inFlight ≠ none) ∧
    ∀ j, Available g su entry x done j → j ∈ history ∧ m.Has j

section

variable (closed : g.Closed entry) (ordered : g.Ordered su entry) (start : m₀.results.size = g.instrs.size)

include closed ordered start

/-- Every point of a run in a closed and ordered graph is such a point. -/
theorem Reaches.point (h : Reaches g args m₀ history x rest m) : Point g su entry history x rest m := by
  induction h with
  | start first hb =>
    cases closed.entry_first.symm.trans first
    refine ⟨closed.entry_mem, start, [], Graph.body_of_block hb, fun _ lands => absurd lands ordered.unsupplied.2,
      fun j hj => ?_⟩
    unfold Available at hj
    rw [if_pos rfl] at hj
    exact absurd hj.1 not_mem_nil
  | @next history x i rest m after _ run ih =>
    obtain ⟨laid, size, done, split, -, there⟩ := ih
    obtain ⟨op, hop, grows, -, result⟩ := step_spec run
    have inside : i.index < after.results.size := by
      rw [grows.size, size]
      exact Graph.index_lt_of_op? hop
    refine ⟨laid, grows.size.trans size, done ++ [i], by rw [split]; simp, fun none => absurd none (by simp),
      fun j hj => ?_⟩
    rcases hj.of_concat with old | ⟨rfl, op', hop', yields⟩
    · exact ⟨mem_cons_of_mem i (there j old).1, grows.has j (there j old).2⟩
    · cases hop.symm.trans hop'
      exact ⟨mem_cons_self .., result yields inside⟩
  | @jump history x t i rest m after b _ run hb ih =>
    obtain ⟨laid, size, done, split, -, there⟩ := ih
    obtain ⟨op, hop, grows, target, result, flies⟩ := step_spec run
    have hterm := Op.isTerminator_of_successor target
    have inside : i.index < after.results.size := by
      rw [grows.size, size]
      exact Graph.index_lt_of_op? hop
    -- Control leaves a block only from its last instruction.
    have last : rest = [] := by
      cases rest with
      | nil => rfl
      | cons k rest =>
        have early : i ∈ (g.body x).dropLast := by
          rw [split, dropLast_append_of_ne_nil (cons_ne_nil _ _)]
          simp
        exact absurd (closed.endsOnce x i early op hop) (by simp [hterm])
    subst last
    obtain ⟨laid', ne⟩ := closed.targets x laid i (by rw [split]; simp) op hop t target
    refine ⟨laid', grows.size.trans size, [], Graph.body_of_block hb, fun _ lands => ?_, fun j hj => ?_⟩
    · obtain ⟨-, -, apart, sends⟩ := ordered.uses x done.length i (by rw [split]; simp) op hop
      have unwinds := (sends t target).mpr lands
      exact flies unwinds (apart (by simp [unwinds]))
    have old : Available g su entry x done j → j ∈ i :: history ∧ after.Has j := fun a =>
      ⟨mem_cons_of_mem i (there j a).1, grows.has j (there j a).2⟩
    unfold Available at hj
    rw [if_neg ne] at hj
    rcases hj with slot | given | ⟨none, -⟩
    · exact old (available_of_slot ordered split hop hterm slot)
    · rcases available_of_edge ordered split hop target given with a | ⟨rfl, normal⟩
      · exact old a
      · exact ⟨mem_cons_self .., result normal inside⟩
    · cases none

/-- The results that an instruction uses have been computed when it is executed. -/
theorem Reaches.computed (h : Reaches g args m₀ history x (i :: rest) m) {op : Op}
    (hop : g.op? i = some op) (hj : .result j ∈ op.operands) : j ∈ history ∧ m.Has j := by
  obtain ⟨-, -, done, split, -, there⟩ := h.point closed ordered start
  exact there j (available_of_use ordered split hop hj)

/-- No run fails for a result that was never computed. -/
theorem execute_computed (j : InstrId) : execute g args m₀ ≠ .error (.unset j) := by
  intro failed
  refine execute_blames (P := fun f => ∀ j, f ≠ .unset j) (fun h op hop v hv f unset missing => ?_)
    _ failed rfl j rfl
  rcases eval_missing unset missing with ⟨k, rfl, -, absent⟩ | ⟨p, -, rfl⟩
  · exact absurd (h.computed closed ordered start hop hv).2 absent
  · rintro _ ⟨⟩

end

/-- In every run of an emitted function, an instruction whose result is used has been executed before,
and its result is there. So no run fails for a result that was never computed. -/
theorem emitted_defined_before_use {s : Session} {name : String} {signature : Signature}
    {b₀ b last : Builder} {calls : List Build.Call} (begun : s.begin name signature = .ok b₀)
    (prepared : Build.prepare calls b₀ = .ok b) {body : Stmt}
    (emitted : Emit.function body b = .ok g last) (args : Array Bytes) (memory : Memory) (world : World) :
    (∀ history x i rest m, Reaches g args (start g memory world) history x (i :: rest) m →
      ∀ op, g.op? i = some op → ∀ j, .result j ∈ op.operands →
        j ∈ history ∧ ∃ v, m.results[j.index]? = some (some v)) ∧
    ∀ j, execute g args (start g memory world) ≠ .error (.unset j) := by
  have apportioned := Session.begin_apportioned begun
  obtain ⟨issued, kept⟩ := Build.prepare_apportions apportioned prepared
  have sound := Build.prepare_sound (Session.begin_sound begun) apportioned prepared
  obtain ⟨closed, su, ordered⟩ := (Emit.function_ensures sound kept body).of_ok emitted
  have size : (start g memory world).results.size = g.instrs.size := by simp [start]
  exact ⟨fun _ _ _ _ _ h _ hop _ hj => h.computed closed ordered size hop hj,
    execute_computed closed ordered size⟩

/-- A function in which code jumps into a region that has a cleanup, past where a variable is set. -/
theorem emitted_defined_before_use_goto : ∃ b₀ b g last,
    Session.begin {} "f" { params := [], result := .i64 } = .ok b₀ ∧
    Build.prepare [.newLabel {}, .registerLocal "x" .i64 none false {}] b₀ = .ok b ∧
    Emit.function (.block [.goto {} ⟨0⟩, .attempt (.block [
      .init {} ⟨0⟩ (some (.call { ty := .i64 } "f" [.call { ty := .i64 } "g" []])), .label {} ⟨0⟩,
      .ret {} [.var { ty := .i64 } ⟨0⟩]]) none (some (.eval (.call { ty := .void } "h" [])))]) b =
        .ok g last ∧
    ∀ args world j, execute g args (start g {} world) ≠ .error (.unset j) :=
  Emit.exists_of_completes (t := fun _ => true) (by decide +kernel) fun _ _ _ _ begun prepared emitted _ args world =>
    (emitted_defined_before_use begun prepared emitted args {} world).2

end Machine

end FlowIR

import FlowIR.Proofs.Build.Finish
import FlowIR.Proofs.Emit.Stmt

/-!
Whole functions: whatever has been set up before and whatever the body is, emitting it gives a closed
and ordered graph, or an error that is not about the blocks and branches of the graph.
-/

namespace FlowIR

variable {owed : BlockId → Prop} {su : Supply} {b : Builder}

theorem Cursor.Sound.entry (h : b.Sound owed su) (placed : b.prologPlaced = true) :
    Cursor.Sound owed su { builder := b, current := b.entry } :=
  ⟨h, placed, h.formed.entry_mem, by simp, by simp, by simp⟩

namespace Emit

/-- Emitting code from the entry block on keeps a function sound. -/
theorem fromEntry_ensures {code : EmitM Unit} (hcode : Emittable code) (h : b.Sound owed su)
    (placed : b.prologPlaced = true) :
    Ensures (fromEntry code) b
      (fun _ after => (∃ su', after.Sound owed su') ∧ after.prologPlaced = true ∧ after.entry = b.entry)
      fun e _ => e.NotVerify := by
  have spec := hcode (.entry h placed)
  unfold Ensures fromEntry
  cases run : code { builder := b, current := b.entry } with
  | ok a after =>
    obtain ⟨su', grows, sound, -⟩ := Ensures.of_ok spec run
    exact ⟨⟨su', sound.builder⟩, sound.placed, grows.builder.entry⟩
  | error e after =>
    have failed := Ensures.of_error spec run
    exact failed

/-- Completing a function gives a closed and ordered graph, or an error that is not about its blocks and
branches. -/
theorem function_ensures {target : Target} {sig : Signature} {given : Build.Issued}
    (h : b.Sound (fun _ => False) su) (k : b.Apportioned target sig given) (body : Stmt) :
    Ensures (function body) b (fun g _ => g.Closed b.entry ∧ ∃ su', g.Ordered su' b.entry)
      fun e _ => e.OnlyPlaceholders := by
  unfold function
  refine Ensures.bind ((Build.placeProlog_sound h k).mono (fun _ _ q => q)
    fun _ _ he => he.onlyPlaceholders) fun _ b₁ ⟨sound₁, placed₁, entry₁⟩ => ?_
  refine Ensures.bind ((fromEntry_ensures (stmt_emittable body) sound₁ placed₁).mono (fun _ _ q => q)
    fun _ _ he => he.onlyPlaceholders) fun _ b₂ ⟨⟨su₂, sound₂⟩, placed₂, entry₂⟩ => ?_
  refine (Build.finish_ensures sound₂ placed₂).imp fun g _ ⟨closed, ordered⟩ => ?_
  rw [entry₂, entry₁] at closed ordered
  exact ⟨closed, su₂, ordered⟩

/-- Whether a function can be set up by calls and then completed, and passes a test. -/
def completes (s : Session) (name : String) (signature : Signature) (calls : List Build.Call)
    (body : Stmt) (test : Graph → Bool := fun _ => true) : Bool :=
  match s.begin name signature with
  | .error _ => false
  | .ok b₀ =>
    match Build.prepare calls b₀ with
    | .error _ => false
    | .ok b =>
      match function body b with
      | .ok g _ => test g
      | .error _ _ => false

/-- What holds of every complete run holds of the one that is computed. -/
theorem exists_of_completes {s : Session} {name : String} {signature : Signature} {calls : List Build.Call}
    {body : Stmt} {t : Graph → Bool} {P : Builder → Builder → Graph → Builder → Prop}
    (h : completes s name signature calls body t = true)
    (holds : ∀ b₀ b g last, s.begin name signature = .ok b₀ → Build.prepare calls b₀ = .ok b →
      function body b = .ok g last → t g = true → P b₀ b g last) :
    ∃ b₀ b g last, s.begin name signature = .ok b₀ ∧ Build.prepare calls b₀ = .ok b ∧
      function body b = .ok g last ∧ P b₀ b g last := by
  unfold completes at h
  split at h
  · cases h
  · next b₀ begun =>
    split at h
    · cases h
    · next b prepared =>
      split at h
      · next g last emitted =>
        exact ⟨b₀, b, g, last, begun, prepared, emitted, holds b₀ b g last begun prepared emitted h⟩
      · cases h

/-- Whatever calls have set a function up and whatever its body is, completing it is never refused for
the shape of its graph, and the graph starts with the entry block, lists no block twice and never goes
back to the entry block. -/
theorem function_well_structured {s : Session} {name : String} {signature : Signature} {b₀ b : Builder}
    {calls : List Build.Call} (begun : s.begin name signature = .ok b₀)
    (prepared : Build.prepare calls b₀ = .ok b) (body : Stmt) :
    (∀ e after, function body b = .error (.error e) after → ∀ v, e.cause = .verify v →
      (∀ f, v ≠ .noBlocks f) ∧ (∀ f x, v ≠ .missingTerminator f x) ∧
      (∀ f x, v ≠ .terminatorNotLast f x) ∧ ∀ f x t, v ≠ .danglingSuccessor f x t) ∧
    ∀ g after, function body b = .ok g after → g.entry? = some b.entry ∧ g.layout.Nodup ∧
      ∀ x ∈ g.layout, ∃ succs, g.successors x = .ok succs ∧ b.entry ∉ succs := by
  have apportioned := Session.begin_apportioned begun
  obtain ⟨issued, kept⟩ := Build.prepare_apportions apportioned prepared
  have spec := function_ensures (Build.prepare_sound (Session.begin_sound begun) apportioned prepared) kept body
  constructor
  · intro e after run v hv
    obtain ⟨f, x, rfl⟩ := Ensures.of_error spec run v hv
    simp
  · intro g after run
    obtain ⟨closed, -⟩ := Ensures.of_ok spec run
    refine ⟨closed.entry_first, closed.nodup, fun x hx => ?_⟩
    obtain ⟨succs, hs⟩ := closed.exists_successors hx
    exact ⟨succs, hs, fun back => (closed.successor_mem hx hs back).2 rfl⟩

/-- A function with a local, a temporary and a label whose address was taken before it has a place, in
which code jumps into a region that has a cleanup. -/
theorem function_well_structured_label : ∃ b₀ b g last,
    Session.begin {} "f" { params := [], result := .void } = .ok b₀ ∧
    Build.prepare [.newLabel {}, .registerLocal "x" .i64 none false {}, .addressOfLabel ⟨0⟩ {},
      .newTemporary .i64 "t", .labelBlock ⟨0⟩ {}] b₀ = .ok b ∧
    function (.block [.goto {} ⟨0⟩, .attempt (.block [.label {} ⟨0⟩, .ret {} []]) none
      (some (.eval (.call { ty := .void } "h" [])))]) b = .ok g last ∧
    g.entry? = some b.entry ∧ g.layout.Nodup ∧
      ∀ x ∈ g.layout, ∃ succs, g.successors x = .ok succs ∧ b.entry ∉ succs :=
  exists_of_completes (t := fun _ => true) (by decide +kernel) fun _ _ g last begun prepared emitted _ =>
    (function_well_structured begun prepared _).2 g last emitted

end Emit

end FlowIR

import FlowIR.Convention.Basic

/-!
Where parameters are placed.

The parameters of a signature take their physical arguments one behind the other, behind the hidden
ones, and each that travels in registers takes one or two of them.
-/

namespace FlowIR

open Convention Signature List

/-- A loop with a result has as many results as elements. -/
theorem length_of_mapM {α β : Type} {f : α → Option β} :
    ∀ {l : List α} {r : List β}, l.mapM f = some r → r.length = l.length
  | [], r, run => by cases run; rfl
  | a :: l, r, run => by
    rw [mapM_cons] at run
    obtain ⟨b, -, run⟩ := Option.bind_eq_some_iff.mp run
    obtain ⟨bs, hbs, run⟩ := Option.bind_eq_some_iff.mp run
    cases run
    exact congrArg (· + 1) (length_of_mapM hbs)

/-- A value is cut into as many chunks as it has words. -/
theorem Ty.length_chunks? {t : Ty} {chunks : List Chunk} {n word : Nat} (sized : t.size? = some n)
    (pos : n ≠ 0) (word_pos : word ≠ 0) (cut : t.chunks? word = some chunks) :
    chunks.length = (n + word - 1) / word := by
  unfold Ty.chunks? at cut
  rw [sized] at cut
  simp only [Option.bind_eq_bind, Option.bind_some] at cut
  rw [if_neg (by omega)] at cut
  split at cut
  · cases cut
  · obtain ⟨leaves, -, cut⟩ := Option.bind_eq_some_iff.mp cut
    obtain ⟨spans, -, cut⟩ := Option.bind_eq_some_iff.mp cut
    rw [length_of_mapM cut, length_range]

namespace Convention

variable {target : Target} {internal : Bool} {t : Ty} {budget left : Budget} {passing : Passing}

theorem isLarge?_eq {n : Nat} {large : Bool} (sized : t.size? = some n) (run : isLarge? target t = some large) :
    large = true ↔ target.maxChunks * target.wordSize < n := by
  obtain ⟨product, hproduct, run⟩ := Option.bind_eq_some_iff.mp run
  obtain ⟨size, sized', run⟩ := Option.bind_eq_some_iff.mp run
  cases sized.symm.trans sized'
  cases run
  have same : product = target.maxChunks * target.wordSize := by
    unfold Size.mul Size.check at hproduct
    split at hproduct
    · exact (Option.some.inj hproduct).symm
    · cases hproduct
  rw [decide_eq_true_eq, same]

/-- How a parameter travels if `budget` is left, and what is left after it. -/
inductive Allots (target : Target) (internal : Bool) (t : Ty) (budget : Budget) : Passing → Budget → Prop where
  | ignored : t.size? = some 0 → Allots target internal t budget .ignored budget
  | whole {n : Nat} {ext : Extension} : internal = true → t.size? = some n → n ≠ 0 →
    Allots target internal t budget (.direct [t.shape] ext) budget
  | large {n : Nat} : internal = false → t.size? = some n → target.maxChunks * target.wordSize < n →
    Allots target internal t budget .indirect (budget.take 1 0)
  | short {n : Nat} {cut : List Chunk} {need : Nat × Nat} : internal = false → t.size? = some n →
    t.chunks? target.wordSize = some cut → registers? cut = some need → t.isAggregate = true →
    ¬ (need.1 ≤ budget.int ∧ need.2 ≤ budget.sse) → Allots target internal t budget .indirect (budget.take 1 0)
  | cut {n : Nat} {cut : List Chunk} {ext : Extension} {need : Nat × Nat} : internal = false → t.size? = some n →
    n ≠ 0 → n ≤ target.maxChunks * target.wordSize → t.chunks? target.wordSize = some cut →
    registers? cut = some need → (t.isAggregate = true → need.1 ≤ budget.int ∧ need.2 ≤ budget.sse) →
    Allots target internal t budget (.direct (cut.map (·.shape)) ext) (budget.take need.1 need.2)

/-- How a parameter is passed, and the registers that are left. -/
theorem allots_of_passParam? (run : passParam? target internal t budget = some (passing, left)) :
    Allots target internal t budget passing left := by
  unfold passParam? at run
  obtain ⟨zero, hzero, run⟩ := Option.bind_eq_some_iff.mp run
  obtain ⟨n, sized, isZero⟩ := Option.bind_eq_some_iff.mp hzero
  cases isZero
  split at run
  · next none =>
    cases run
    exact .ignored (by rw [sized, beq_iff_eq.mp none])
  next nonzero =>
  have pos : n ≠ 0 := by simpa using nonzero
  split at run
  · next inner =>
    obtain ⟨p, hp, run⟩ := Option.bind_eq_some_iff.mp run
    obtain ⟨e, -, hp⟩ := Option.bind_eq_some_iff.mp hp
    cases hp
    cases run
    exact .whole inner sized pos
  next outer =>
  have external : internal = false := by simpa using outer
  obtain ⟨large, hlarge, run⟩ := Option.bind_eq_some_iff.mp run
  have large_iff := isLarge?_eq sized hlarge
  split at run
  · next above =>
    cases run
    exact .large external sized (large_iff.mp above)
  next small =>
  obtain ⟨cut, hcut, run⟩ := Option.bind_eq_some_iff.mp run
  obtain ⟨need, needed, run⟩ := Option.bind_eq_some_iff.mp run
  dsimp only at run
  split at run
  · next few =>
    cases run
    simp only [Bool.and_eq_true, Bool.or_eq_true, decide_eq_true_eq] at few
    exact .short external sized hcut needed few.1 (by omega)
  · next enough =>
    obtain ⟨p, hp, run⟩ := Option.bind_eq_some_iff.mp run
    obtain ⟨e, -, hp⟩ := Option.bind_eq_some_iff.mp hp
    cases hp
    cases run
    refine .cut external sized pos (Nat.le_of_not_lt fun above => small (large_iff.mpr above)) hcut needed
      fun aggregate => ?_
    simp only [aggregate, Bool.true_and, Bool.or_eq_true, decide_eq_true_eq, not_or, Nat.not_lt] at enough
    exact enough

/-- What a result that travels in registers is cut into. -/
theorem passResult?_direct {sig : Signature} {chunks : List Shape} {ext : Extension}
    (run : passResult? target sig = some (.direct chunks ext)) :
    ∃ n, sig.result.size? = some n ∧ n ≠ 0 ∧ ((sig.internal = true ∧ chunks = [sig.result.shape]) ∨
      sig.internal = false ∧ n ≤ target.maxChunks * target.wordSize ∧
        ∃ cut, sig.result.chunks? target.wordSize = some cut ∧ chunks = cut.map (·.shape)) := by
  unfold passResult? at run
  obtain ⟨zero, hzero, run⟩ := Option.bind_eq_some_iff.mp run
  obtain ⟨n, sized, isZero⟩ := Option.bind_eq_some_iff.mp hzero
  cases isZero
  split at run
  · cases run
  next nonzero =>
  refine ⟨n, sized, by simpa using nonzero, ?_⟩
  split at run
  · next inner =>
    obtain ⟨e, -, run⟩ := Option.bind_eq_some_iff.mp run
    cases run
    exact .inl ⟨inner, rfl⟩
  next outer =>
  obtain ⟨large, hlarge, run⟩ := Option.bind_eq_some_iff.mp run
  split at run
  · cases run
  next small =>
  obtain ⟨cut, hcut, run⟩ := Option.bind_eq_some_iff.mp run
  obtain ⟨e, -, run⟩ := Option.bind_eq_some_iff.mp run
  cases run
  exact .inr ⟨by simpa using outer, Nat.le_of_not_lt fun above => small ((isLarge?_eq sized hlarge).mpr above), cut,
    hcut, rfl⟩

end Convention

/-- As many words hold a value as it takes, at least one. -/
theorem Ty.length_of_small {t : Ty} {chunks : List Chunk} {n word most : Nat} (sized : t.size? = some n) (pos : n ≠ 0)
    (small : n ≤ most * word) (cut : t.chunks? word = some chunks) : 1 ≤ chunks.length ∧ chunks.length ≤ most := by
  have word_pos : 0 < word := Nat.pos_of_ne_zero fun none => by
    rw [none, Nat.mul_zero] at small
    omega
  rw [Ty.length_chunks? sized pos (by omega) cut, Nat.le_div_iff_mul_le word_pos]
  exact ⟨by omega, Nat.le_of_lt_succ ((Nat.div_lt_iff_lt_mul word_pos).mpr (by rw [Nat.succ_mul]; omega))⟩

/-- The parameters take physical arguments one behind the other, from `offset` on. -/
def Placement.Consecutive : (offset : Nat) → List Placement → Prop
  | _, [] => True
  | offset, p :: ps => p.offset = offset ∧ Consecutive (offset + p.slots) ps

namespace Placement

theorem Consecutive.inside : ∀ {ps : List Placement} {offset : Nat}, Consecutive offset ps →
    ∀ p ∈ ps, offset ≤ p.offset ∧ p.offset + p.argShapes.length ≤ offset + (ps.flatMap (·.argShapes)).length
  | q :: ps, offset, h, p, hp => by
    rw [flatMap_cons, length_append]
    have least := q.slots_le
    rcases mem_cons.mp hp with rfl | later
    · have start := h.1
      omega
    · have rest := h.2.inside p later
      omega

theorem Consecutive.front : ∀ {ps qs : List Placement} {offset : Nat}, Consecutive offset (ps ++ qs) →
    Consecutive offset ps
  | [], _, _, _ => trivial
  | _ :: _, _, _, h => ⟨h.1, h.2.front⟩

end Placement

namespace Convention

/-- A parameter that can be passed is placed in front of the rest. -/
theorem placeParams?_step {target : Target} {internal : Bool} {t : Ty} {budget left : Budget} {passing : Passing}
    (offset : Nat) (ts : List Ty) (front : List Shape)
    (passed : passParam? target internal t budget = some (passing, left)) :
    placeParams? target internal (t :: ts) budget offset front =
      (placeParams? target internal ts left (offset + (⟨passing, t, offset⟩ : Placement).slots)
        (front ++ (⟨passing, t, offset⟩ : Placement).argShapes)).map fun r => (⟨passing, t, offset⟩ :: r.1, r.2) := by
  rw [placeParams?, passed, Option.bind_eq_bind, Option.bind_some]
  dsimp only
  cases placeParams? target internal ts left _ _ <;> rfl

/-- One step of the placement. -/
theorem placeParams?_cons {target : Target} {internal : Bool} {t : Ty} {ts : List Ty} {budget : Budget} {offset : Nat}
    {front all : List Shape} {ps : List Placement}
    (run : placeParams? target internal (t :: ts) budget offset front = some (ps, all)) :
    ∃ passing left later, passParam? target internal t budget = some (passing, left) ∧
      ps = ⟨passing, t, offset⟩ :: later ∧
      placeParams? target internal ts left (offset + (⟨passing, t, offset⟩ : Placement).slots)
        (front ++ (⟨passing, t, offset⟩ : Placement).argShapes) = some (later, all) := by
  unfold placeParams? at run
  obtain ⟨⟨passing, left⟩, passed, run⟩ := Option.bind_eq_some_iff.mp run
  obtain ⟨⟨later, all⟩, rest, run⟩ := Option.bind_eq_some_iff.mp run
  cases run
  exact ⟨passing, left, later, passed, rfl, rest⟩

theorem placeParams?_spec {target : Target} {internal : Bool} : ∀ {ts : List Ty} {budget : Budget} {offset : Nat}
    {front all : List Shape} {ps : List Placement},
    placeParams? target internal ts budget offset front = some (ps, all) →
    ps.map (·.ty) = ts ∧ Placement.Consecutive offset ps ∧ all = front ++ ps.flatMap (·.argShapes) ∧
      ∀ p ∈ ps, ∃ budget left, passParam? target internal p.ty budget = some (p.passing, left)
  | [], _, _, front, all, ps, run => by
    cases run
    exact ⟨rfl, trivial, (append_nil front).symm, nofun⟩
  | t :: ts, budget, offset, front, all, ps, run => by
    obtain ⟨passing, left, later, passed, rfl, rest⟩ := placeParams?_cons run
    obtain ⟨types, consecutive, shapes, passes⟩ := placeParams?_spec rest
    refine ⟨congrArg (t :: ·) types, ⟨rfl, consecutive⟩, ?_, ?_⟩
    · rw [shapes, flatMap_cons, append_assoc]
    · exact forall_mem_cons.mpr ⟨⟨budget, left, passed⟩, passes⟩

/-- The shapes of the physical arguments in front of the parameters. -/
def hiddenShapes (c : Convention) : List Shape :=
  (if c.result.passing.isIndirect then [.ptr c.result.ty.shape] else []) ++ [.bytePtr]

theorem length_hiddenShapes (c : Convention) : c.hiddenShapes.length = c.chainIndex + 1 := by
  unfold hiddenShapes chainIndex
  split <;> rfl

/-- The physical arguments are the hidden ones and then those of the parameters. -/
def Lists (c : Convention) : Prop := c.argShapes = c.hiddenShapes ++ c.params.flatMap (·.argShapes)

/-- How the parameters of a convention lie among its physical arguments. -/
structure Placed (c : Convention) (types : List Ty) : Prop where
  lists : c.Lists
  types : c.params.map (·.ty) = types
  consecutive : Placement.Consecutive (c.chainIndex + 1) c.params
  chunks : ∀ p ∈ c.params, ∀ cs ext, p.passing = .direct cs ext → cs.length = 1 ∨ cs.length = 2

theorem Lists.length {c : Convention} (h : c.Lists) :
    c.argShapes.length = c.chainIndex + 1 + (c.params.flatMap (·.argShapes)).length := by
  rw [h, length_append, length_hiddenShapes]

theorem Placed.inside {c : Convention} {types : List Ty} (h : c.Placed types) :
    ∀ p ∈ c.params, p.offset + p.argShapes.length ≤ c.argShapes.length := fun p hp => by
  rw [h.lists.length]
  exact (h.consecutive.inside p hp).2

end Convention

/-- How the result travels. -/
theorem Signature.result_of_convention? {sig : Signature} {target : Target} {c : Convention}
    (found : sig.convention? target = some c) :
    c.result.ty = sig.result ∧ passResult? target sig = some c.result.passing := by
  unfold convention? at found
  obtain ⟨passing, passed, found⟩ := Option.bind_eq_some_iff.mp found
  cases passing <;>
  · obtain ⟨params, -, found⟩ := Option.bind_eq_some_iff.mp found
    cases found
    exact ⟨rfl, passed⟩

theorem Signature.convention?_of_ignored {sig : Signature} {target : Target} {placed : List Placement × List Shape}
    (passed : passResult? target sig = some .ignored)
    (run : placeParams? target sig.internal sig.params ⟨target.intRegs, target.sseRegs⟩ 1 [.bytePtr] =
      some placed) : sig.convention? target = some ⟨placed.1, ⟨.ignored, sig.result, 0⟩, placed.2⟩ := by
  unfold convention?
  rw [passed]
  simp only [Option.bind_eq_bind, Option.bind_some]
  rw [run]
  rfl

/-- The convention of a signature takes its parameters one by one. -/
theorem Signature.convention?_spec {sig : Signature} {target : Target} {c : Convention}
    (h : sig.convention? target = some c) : c.params.map (·.ty) = sig.params ∧
      Placement.Consecutive (c.chainIndex + 1) c.params ∧ c.result.ty = sig.result ∧
      (∀ p ∈ c.params, ∃ budget left, passParam? target sig.internal p.ty budget = some (p.passing, left)) ∧
      c.Lists := by
  unfold convention? at h
  obtain ⟨passing, -, h⟩ := Option.bind_eq_some_iff.mp h
  cases passing <;>
  · obtain ⟨⟨params, all⟩, hparams, h⟩ := Option.bind_eq_some_iff.mp h
    cases h
    obtain ⟨types, consecutive, shapes, passes⟩ := placeParams?_spec hparams
    exact ⟨types, consecutive, rfl, passes, shapes⟩

/-- On a machine where a value may travel in two words at most, what travels in registers takes one or two. -/
theorem Signature.chunks_of_convention? {sig : Signature} {target : Target} {c : Convention}
    (few : target.maxChunks ≤ 2) (h : sig.convention? target = some c) :
    ∀ p ∈ c.params, ∀ cs ext, p.passing = .direct cs ext → cs.length = 1 ∨ cs.length = 2 :=
      fun p hp chunks ext passing => by
  obtain ⟨budget, left, passed⟩ := (convention?_spec h).2.2.2.1 p hp
  rw [passing] at passed
  cases allots_of_passParam? passed with
  | whole => exact .inl rfl
  | cut _ sized pos small hcut =>
    have length := Ty.length_of_small sized pos small hcut
    rw [length_map]
    omega

/-- The convention of a signature on the default machine. -/
theorem Signature.placed_convention? {sig : Signature} {c : Convention}
    (h : sig.convention? {} = some c) : c.Placed sig.params ∧ c.result.ty = sig.result := by
  obtain ⟨types, consecutive, result, -, lists⟩ := convention?_spec h
  exact ⟨⟨lists, types, consecutive, chunks_of_convention? (Nat.le_refl 2) h⟩, result⟩

end FlowIR

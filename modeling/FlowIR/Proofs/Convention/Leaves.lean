import FlowIR.Shape.Leaf
import FlowIR.Ty.Basic

/-!
Where the scalars of a value lie.

Every scalar of a source type takes one, two, four or eight bytes and is aligned to its size. Padding ends at a
multiple of the alignment that it is for, and is shorter than that. So if a value is cut into words of one of these
sizes, a word starts inside a scalar or holds no part of any (`Shape.tiles`).
-/

namespace FlowIR

/-! ### Alignments -/

namespace Size

def IsAlign (a : Nat) : Prop := a = 1 ∨ a = 2 ∨ a = 4 ∨ a = 8

theorem IsAlign.max {a b : Nat} (ha : IsAlign a) (hb : IsAlign b) :
    IsAlign (max a b) ∧ a ∣ max a b ∧ b ∣ max a b := by
  rcases ha with rfl | rfl | rfl | rfl <;> rcases hb with rfl | rfl | rfl | rfl <;>
    exact ⟨by simp [IsAlign], by decide, by decide⟩

theorem IsAlign.dvd {a b : Nat} (ha : IsAlign a) (hb : IsAlign b) (le : a ≤ b) : a ∣ b := by
  rcases ha with rfl | rfl | rfl | rfl <;> rcases hb with rfl | rfl | rfl | rfl <;> omega

theorem IsAlign.le {a : Nat} (ha : IsAlign a) : a ≤ 8 := by
  unfold IsAlign at ha
  omega

theorem IsAlign.pos {a : Nat} (ha : IsAlign a) : 0 < a := by
  unfold IsAlign at ha
  omega

theorem add_of_lt {a b : Nat} (h : a + b < limit) : add a b = some (a + b) := if_pos h

theorem mul_of_lt {a b : Nat} (h : a * b < limit) : mul a b = some (a * b) := if_pos h

theorem add_eq_some {a b n : Nat} (h : add a b = some n) : n = a + b := by
  unfold add check at h
  split at h
  · exact (Option.some.inj h).symm
  · cases h

theorem mul_eq_some {a b n : Nat} (h : mul a b = some n) : n = a * b := by
  unfold mul check at h
  split at h
  · exact (Option.some.inj h).symm
  · cases h

/-- The least multiple of an alignment that is not below an offset. -/
theorem alignUp_eq_some {offset a n : Nat} (align : IsAlign a) (h : alignUp offset a = some n) :
    offset ≤ n ∧ a ∣ n ∧ ∀ w, a ∣ w → offset ≤ w → n ≤ w := by
  unfold alignUp at h
  obtain ⟨top, sum, h⟩ := Option.bind_eq_some_iff.mp h
  cases add_eq_some sum
  cases h
  rw [Nat.max_eq_left align.pos]
  rcases align with rfl | rfl | rfl | rfl <;> exact ⟨by omega, by omega, fun w _ _ => by omega⟩

/-- Whatever the alignment is. -/
theorem le_alignUp {offset a n : Nat} (h : alignUp offset a = some n) : offset ≤ n := by
  unfold alignUp at h
  obtain ⟨top, sum, h⟩ := Option.bind_eq_some_iff.mp h
  cases add_eq_some sum
  cases h
  have near := Nat.lt_div_mul_add (a := offset + max a 1 - 1) (b := max a 1) (by omega)
  omega

theorem alignUp_zero {a n : Nat} (h : alignUp 0 a = some n) : n = 0 := by
  unfold alignUp at h
  obtain ⟨top, sum, h⟩ := Option.bind_eq_some_iff.mp h
  cases add_eq_some sum
  cases h
  rw [Nat.zero_add, Nat.div_eq_of_lt (by omega), Nat.zero_mul]

end Size

/-! ### Natural shapes -/

namespace Shape

mutual
/-- Whether a shape is made of scalars of one, two, four or eight bytes. -/
def isNatural : Shape → Bool
  | .int bits => bits = 8 || bits = 16 || bits = 32 || bits = 64
  | .struct fields => areNatural fields
  | .array elem _ => elem.isNatural
  | .vector _ _ => false
  | .void | .f32 | .f64 | .ptr _ => true

def areNatural : List Shape → Bool
  | [] => true
  | f :: fs => f.isNatural && areNatural fs
end

mutual
theorem isNatural_shape : ∀ t : Ty, t.shape.isNatural = true
  | .void | .bool | .f32 | .f64 => rfl
  | .int _ width => by cases width <;> rfl
  | .ptr target => by cases target <;> rfl
  | .struct fields => areNatural_shapes fields
  | .tuple fields => areNatural_shapes fields
  | .array elem _ => isNatural_shape elem

theorem areNatural_shapes : ∀ ts : List Ty, areNatural (Ty.shapes ts) = true
  | [] => rfl
  | t :: ts => by simp [Ty.shapes, areNatural, isNatural_shape t, areNatural_shapes ts]
end

/-- The scalars have sizes, and are aligned to them. -/
theorem int_room {bits : Nat} (natural : (Shape.int bits).isNatural = true) :
    Size.IsAlign (intSize bits) ∧ max (intSize bits) 1 = intSize bits := by
  simp only [isNatural, Bool.or_eq_true, decide_eq_true_eq] at natural
  rcases natural with ((rfl | rfl) | rfl) | rfl <;> exact ⟨by simp [Size.IsAlign, intSize], rfl⟩

mutual
/-- The size of a natural shape is a multiple of its alignment. -/
theorem isAlign_of_align? : ∀ {s : Shape} {a : Nat}, s.isNatural = true → s.align? = some a →
    Size.IsAlign a ∧ ∀ n, s.size? = some n → a ∣ n
  | .void, a, _, align => by
    cases align
    exact ⟨.inl rfl, fun n _ => Nat.one_dvd n⟩
  | .int bits, a, natural, align => by
    obtain ⟨isAlign, same⟩ := int_room natural
    cases align
    rw [same]
    refine ⟨isAlign, fun n size => ?_⟩
    cases size
    exact Nat.dvd_refl _
  | .f32, a, _, align => by
    cases align
    exact ⟨.inr (.inr (.inl rfl)), fun n size => by cases size; exact Nat.dvd_refl _⟩
  | .f64, a, _, align => by
    cases align
    exact ⟨.inr (.inr (.inr rfl)), fun n size => by cases size; exact Nat.dvd_refl _⟩
  | .ptr _, a, _, align => by
    cases align
    exact ⟨.inr (.inr (.inr rfl)), fun n size => by cases size; exact Nat.dvd_refl _⟩
  | .struct fields, a, natural, align => by
    rw [align?_struct] at align
    have isAlign := isAlign_of_fieldsAlign? natural align
    refine ⟨isAlign, fun n size => ?_⟩
    rw [size?_struct, align] at size
    obtain ⟨extent, -, size⟩ := Option.bind_eq_some_iff.mp size
    exact (Size.alignUp_eq_some isAlign size).2.1
  | .array elem len, a, natural, align => by
    rw [align?_array] at align
    obtain ⟨isAlign, divides⟩ := isAlign_of_align? (s := elem) natural align
    refine ⟨isAlign, fun n size => ?_⟩
    rw [size?_array] at size
    obtain ⟨each, sized, size⟩ := Option.bind_eq_some_iff.mp size
    cases Size.mul_eq_some size
    exact Nat.dvd_mul_right_of_dvd (divides each sized) len

theorem isAlign_of_fieldsAlign? : ∀ {fs : List Shape} {a : Nat}, areNatural fs = true →
    fieldsAlign? fs = some a → Size.IsAlign a
  | [], a, _, align => by
    cases align
    exact .inl rfl
  | f :: fs, a, natural, align => by
    simp only [areNatural, Bool.and_eq_true] at natural
    obtain ⟨first, hfirst, align⟩ := Option.bind_eq_some_iff.mp align
    obtain ⟨rest, hrest, align⟩ := Option.bind_eq_some_iff.mp align
    cases align
    exact ((isAlign_of_align? natural.1 hfirst).1.max (isAlign_of_fieldsAlign? natural.2 hrest)).1
end

/-! ### Leaves -/

mutual
/-- A value without scalars takes no bytes. -/
theorem size_of_leaves_nil : ∀ {s : Shape} {base n : Nat}, s.isNatural = true → s.leaves? base = some [] →
    s.size? = some n → n = 0
  | .void, _, n, _, _, size => by
    cases size
    rfl
  | .struct fields, base, n, natural, leaves, size => by
    rw [leaves?] at leaves
    rw [size?_struct] at size
    obtain ⟨extent, hextent, size⟩ := Option.bind_eq_some_iff.mp size
    obtain ⟨a, -, size⟩ := Option.bind_eq_some_iff.mp size
    rw [extent_of_fieldLeaves_nil natural leaves hextent] at size
    exact Size.alignUp_zero size
  | .array elem 0, _, n, _, _, size => by
    rw [size?_array] at size
    obtain ⟨each, -, size⟩ := Option.bind_eq_some_iff.mp size
    exact Size.mul_eq_some size
  | .array elem (len + 1), base, n, natural, leaves, size => by
    rw [leaves?] at leaves
    rw [size?_array] at size
    obtain ⟨each, sized, size⟩ := Option.bind_eq_some_iff.mp size
    obtain ⟨each', -, leaves⟩ := Option.bind_eq_some_iff.mp leaves
    obtain ⟨first, hfirst, leaves⟩ := Option.bind_eq_some_iff.mp leaves
    have none : first = [] := by
      split at leaves
      · next empty => exact List.isEmpty_iff.mp empty
      · obtain ⟨others, -, leaves⟩ := Option.bind_eq_some_iff.mp leaves
        exact (List.append_eq_nil_iff.mp (Option.some.inj leaves)).1
    subst none
    rw [size_of_leaves_nil (s := elem) natural hfirst sized] at size
    rw [Size.mul_eq_some size, Nat.zero_mul]
  | .int _, _, _, _, leaves, _ | .f32, _, _, _, leaves, _ | .f64, _, _, _, leaves, _
  | .ptr _, _, _, _, leaves, _ | .vector _ _, _, _, _, leaves, _ => by cases leaves

theorem extent_of_fieldLeaves_nil : ∀ {fs : List Shape} {base extent : Nat}, areNatural fs = true →
    fieldLeaves? fs 0 base = some [] → extent? 0 fs = some extent → extent = 0
  | [], _, extent, _, _, hextent => by
    cases hextent
    rfl
  | f :: fs, base, extent, natural, leaves, hextent => by
    simp only [areNatural, Bool.and_eq_true] at natural
    rw [fieldLeaves?] at leaves
    rw [extent?] at hextent
    simp only [Option.bind_eq_bind, Option.bind_eq_some_iff] at leaves hextent
    obtain ⟨a, align, start, hstart, place, -, here, hhere, n, size, next, hnext, rest, hrest, leaves⟩ := leaves
    obtain ⟨a', align', start', hstart', n', size', next', hnext', hextent⟩ := hextent
    obtain ⟨rfl, rfl⟩ := List.append_eq_nil_iff.mp (Option.some.inj leaves)
    cases align.symm.trans align'
    cases size.symm.trans size'
    cases hstart.symm.trans hstart'
    cases hnext.symm.trans hnext'
    cases Size.alignUp_zero hstart
    cases size_of_leaves_nil natural.1 hhere size
    cases Size.add_eq_some hnext
    exact extent_of_fieldLeaves_nil natural.2 hrest hextent
end

end Shape

/-- A leaf of one, two, four or eight bytes, aligned to its size, lies between two offsets. -/
def Leaf.Lies (start stop : Nat) (l : Leaf) : Prop :=
  ∃ k, l.shape.size? = some k ∧ Size.IsAlign k ∧ k ∣ l.offset ∧ start ≤ l.offset ∧ l.offset + k ≤ stop

def Leaf.Holds (l : Leaf) (x : Nat) : Prop := ∃ k, l.shape.size? = some k ∧ l.offset ≤ x ∧ x < l.offset + k

/-- No leaf holds a byte of the word, which is shorter than eight bytes. -/
structure Leaf.Spares (ls : List Leaf) (stop x word : Nat) : Prop where
  short : word < 8
  below : x + word ≤ stop
  free : ∀ l ∈ ls, ∀ y, x ≤ y → y < x + word → ¬ l.Holds y

/-- The leaves lie between two offsets, one behind the other, and each word between them starts in a leaf or is
spared. -/
structure Leaf.Tiles (ls : List Leaf) (start stop : Nat) : Prop where
  lies : ∀ l ∈ ls, l.Lies start stop
  scalar : ∀ l ∈ ls, l.shape.isVector = false
  aligned : ∀ l ∈ ls, l.shape.align? = l.shape.size?
  ordered : ls.Pairwise fun l l' => ∀ k, l.shape.size? = some k → l.offset + k ≤ l'.offset
  words : ∀ word x, Size.IsAlign word → word ∣ x → start ≤ x → x < stop →
    (∃ l ∈ ls, l.Holds x) ∨ Leaf.Spares ls stop x word

namespace Leaf

variable {start mid stop : Nat} {l : Leaf} {ls ms : List Leaf}

theorem Lies.not_holds (h : l.Lies start stop) {x : Nat} (out : x < start ∨ stop ≤ x) : ¬ l.Holds x := by
  obtain ⟨k, size, -, -, first, last⟩ := h
  rintro ⟨k', size', above, below⟩
  cases size.symm.trans size'
  omega

theorem Lies.mono (h : l.Lies start stop) {low high : Nat} (below : low ≤ start) (above : stop ≤ high) :
    l.Lies low high := by
  obtain ⟨k, size, align, divides, first, last⟩ := h
  exact ⟨k, size, align, divides, Nat.le_trans below first, Nat.le_trans last above⟩

namespace Tiles

/-- One leaf, at a multiple of its size. -/
theorem single {k : Nat} (size : l.shape.size? = some k) (align : Size.IsAlign k) (divides : k ∣ l.offset)
    (scalar : l.shape.isVector = false) (aligned : l.shape.align? = some k) : Tiles [l] l.offset (l.offset + k) where
  scalar := List.forall_mem_singleton.mpr scalar
  aligned := List.forall_mem_singleton.mpr (aligned.trans size.symm)
  lies := fun l' mem => by
    cases List.mem_singleton.mp mem
    exact ⟨k, size, align, divides, Nat.le_refl _, Nat.le_refl _⟩
  ordered := List.pairwise_singleton _ l
  words := fun _ x _ _ first last => .inl ⟨l, List.mem_singleton_self l, k, size, first, last⟩

theorem nil (start : Nat) : Tiles [] start start where
  lies := nofun
  scalar := nofun
  aligned := nofun
  ordered := .nil
  words := fun _ _ _ _ first last => absurd last (Nat.not_lt.mpr first)

theorem append (h : Tiles ls start mid) (k : Tiles ms mid stop) (le : start ≤ mid) (le' : mid ≤ stop) :
    Tiles (ls ++ ms) start stop where
  lies := fun l mem => by
    rcases List.mem_append.mp mem with first | second
    · exact (h.lies l first).mono (Nat.le_refl _) le'
    · exact (k.lies l second).mono le (Nat.le_refl _)
  scalar := List.forall_mem_append.mpr ⟨h.scalar, k.scalar⟩
  aligned := List.forall_mem_append.mpr ⟨h.aligned, k.aligned⟩
  ordered := by
    refine List.pairwise_append.mpr ⟨h.ordered, k.ordered, fun l hl l' hl' size sized => ?_⟩
    obtain ⟨_, sized', -, -, -, last⟩ := h.lies l hl
    obtain ⟨_, -, -, -, first, -⟩ := k.lies l' hl'
    cases sized.symm.trans sized'
    exact Nat.le_trans last first
  words := fun word x align divides first last => by
    by_cases early : x < mid
    · refine (h.words word x align divides first early).imp (fun ⟨l, mem, holds⟩ =>
        ⟨l, List.mem_append_left _ mem, holds⟩) fun spares => ⟨spares.short, Nat.le_trans spares.below le', ?_⟩
      refine List.forall_mem_append.mpr ⟨spares.free, fun l mem y _ below => ?_⟩
      exact (k.lies l mem).not_holds (.inl (Nat.lt_of_lt_of_le below spares.below))
    · refine (k.words word x align divides (Nat.le_of_not_lt early) last).imp (fun ⟨l, mem, holds⟩ =>
        ⟨l, List.mem_append_right _ mem, holds⟩) fun spares => ⟨spares.short, spares.below, ?_⟩
      refine List.forall_mem_append.mpr ⟨fun l mem y above _ => ?_, spares.free⟩
      exact (h.lies l mem).not_holds (.inr (Nat.le_trans (Nat.le_of_not_lt early) above))

/-- A word in the padding of an alignment lies there as a whole. -/
theorem word_in_padding {a word x : Nat} (aligned : Size.IsAlign a) (align : Size.IsAlign word) (divides : word ∣ x)
    (stops : a ∣ stop) (least : ∀ y, a ∣ y → mid ≤ y → stop ≤ y) (first : mid ≤ x) (last : x < stop) :
    word < 8 ∧ x + word ≤ stop := by
  have less : word < a := Nat.lt_of_not_le fun le =>
    absurd (least x (Nat.dvd_trans (aligned.dvd align le) divides) first) (Nat.not_le.mpr last)
  obtain ⟨m, rfl⟩ := Nat.dvd_trans (align.dvd aligned (Nat.le_of_lt less)) stops
  obtain ⟨k, rfl⟩ := divides
  refine ⟨Nat.lt_of_lt_of_le less aligned.le, ?_⟩
  rw [← Nat.mul_succ]
  exact Nat.mul_le_mul_left word (Nat.lt_of_mul_lt_mul_left last)

/-- Padding can be added in front. -/
theorem pad_front (h : Tiles ls start stop) {low a : Nat} (le : low ≤ start) (le' : start ≤ stop)
    (aligned : Size.IsAlign a)
    (starts : a ∣ start) (least : ∀ y, a ∣ y → low ≤ y → start ≤ y) : Tiles ls low stop where
  lies := fun l mem => (h.lies l mem).mono le (Nat.le_refl _)
  scalar := h.scalar
  aligned := h.aligned
  ordered := h.ordered
  words := fun word x align divides first last => by
    by_cases early : x < start
    · obtain ⟨short, below⟩ := word_in_padding aligned align divides starts least first early
      exact .inr ⟨short, Nat.le_trans below le', fun l mem y _ above =>
        (h.lies l mem).not_holds (.inl (Nat.lt_of_lt_of_le above below))⟩
    · exact h.words word x align divides (Nat.le_of_not_lt early) last

/-- Padding can be added behind. -/
theorem pad_back (h : Tiles ls start mid) {a : Nat} (le : mid ≤ stop) (aligned : Size.IsAlign a) (stops : a ∣ stop)
    (least : ∀ y, a ∣ y → mid ≤ y → stop ≤ y) : Tiles ls start stop where
  lies := fun l mem => (h.lies l mem).mono (Nat.le_refl _) le
  scalar := h.scalar
  aligned := h.aligned
  ordered := h.ordered
  words := fun word x align divides first last => by
    by_cases early : x < mid
    · exact (h.words word x align divides first early).imp id fun spares =>
        ⟨spares.short, Nat.le_trans spares.below le, spares.free⟩
    · obtain ⟨short, below⟩ := word_in_padding aligned align divides stops least (Nat.le_of_not_lt early) last
      exact .inr ⟨short, below, fun l mem y above _ =>
        (h.lies l mem).not_holds (.inr (Nat.le_trans (Nat.le_of_not_lt early) above))⟩

end Tiles

end Leaf

namespace Shape

open Leaf Size

/-- The least multiple of an alignment, counted from a multiple of it. -/
theorem least_from {base offset n a : Nat} (divides : a ∣ base) (least : ∀ y, a ∣ y → offset ≤ y → n ≤ y) :
    ∀ y, a ∣ y → base + offset ≤ y → base + n ≤ y := by
  intro y multiple late
  have inside := least (y - base) (Nat.dvd_sub multiple divides) (by omega)
  omega

/-- Elements of an array one behind the other. -/
theorem tiles_elems {elem : Shape} {size base : Nat} (each : ∀ i ls, elem.leaves? (base + (i + 1) * size) = some ls →
      Tiles ls (base + (i + 1) * size) (base + (i + 1) * size + size)) :
    ∀ {len : Nat} {others : List (List Leaf)},
      ((List.range len).mapM fun i => do
        elem.leaves? (← add base (← mul (i + 1) size))) = some others →
      Tiles others.flatten (base + size) (base + size + len * size) := by
  intro len
  induction len with
  | zero =>
    intro others run
    cases run
    rw [Nat.zero_mul]
    exact .nil _
  | succ len ih =>
    intro others run
    rw [List.range_succ, List.mapM_append] at run
    simp only [Option.bind_eq_bind, Option.bind_eq_some_iff] at run
    obtain ⟨before, hbefore, after, hlast, run⟩ := run
    cases run
    rw [List.mapM_cons, List.mapM_nil] at hlast
    simp only [Option.bind_eq_bind, Option.bind_eq_some_iff] at hlast
    obtain ⟨last, ⟨product, hproduct, sum, hsum, leaves⟩, none, hnone, hlast⟩ := hlast
    cases hnone
    cases hlast
    cases mul_eq_some hproduct
    cases add_eq_some hsum
    have rest := each len last leaves
    have next : base + (len + 1) * size = base + size + len * size := by rw [Nat.succ_mul]; omega
    have stop : base + size + (len + 1) * size = base + size + len * size + size := by rw [Nat.succ_mul]; omega
    rw [next] at rest
    rw [stop, List.flatten_append, List.flatten_cons, List.flatten_nil, List.append_nil]
    exact (ih hbefore).append rest (by omega) (by omega)

mutual
/-- The leaves of a value of a natural shape that starts at a multiple of its alignment. -/
theorem tiles : ∀ {s : Shape} {base n a : Nat} {ls : List Leaf}, s.isNatural = true → s.size? = some n →
    s.align? = some a → s.leaves? base = some ls → a ∣ base → Tiles ls base (base + n)
  | .void, base, n, a, ls, _, size, _, leaves, _ => by
    cases size
    cases leaves
    exact .nil base
  | .int bits, base, n, a, ls, natural, size, align, leaves, divides => by
    obtain ⟨isAlign, same⟩ := int_room natural
    cases size
    cases align
    cases leaves
    rw [same] at divides
    exact Tiles.single (l := ⟨.int bits, base⟩) rfl isAlign divides rfl (congrArg some same)
  | .f32, base, n, a, ls, _, size, align, leaves, divides => by
    cases size
    cases align
    cases leaves
    exact Tiles.single (l := ⟨.f32, base⟩) rfl (.inr (.inr (.inl rfl))) divides rfl rfl
  | .f64, base, n, a, ls, _, size, align, leaves, divides => by
    cases size
    cases align
    cases leaves
    exact Tiles.single (l := ⟨.f64, base⟩) rfl (.inr (.inr (.inr rfl))) divides rfl rfl
  | .ptr target, base, n, a, ls, _, size, align, leaves, divides => by
    cases size
    cases align
    cases leaves
    exact Tiles.single (l := ⟨.ptr target, base⟩) rfl (.inr (.inr (.inr rfl))) divides rfl rfl
  | .struct fields, base, n, a, ls, natural, size, align, leaves, divides => by
    rw [align?_struct] at align
    rw [size?_struct, align] at size
    obtain ⟨extent, hextent, size⟩ := Option.bind_eq_some_iff.mp size
    have isAlign := isAlign_of_fieldsAlign? natural align
    obtain ⟨le, multiple, least⟩ := alignUp_eq_some isAlign size
    exact (tiles_fields natural hextent align leaves divides).2.pad_back (by omega) isAlign
      (Nat.dvd_add divides multiple) (least_from divides least)
  | .array elem 0, base, n, a, ls, _, size, _, leaves, _ => by
    rw [size?_array] at size
    obtain ⟨each, -, size⟩ := Option.bind_eq_some_iff.mp size
    cases mul_eq_some size
    cases leaves
    exact .nil base
  | .array elem (len + 1), base, n, a, ls, natural, size, align, leaves, divides => by
    rw [size?_array] at size
    rw [align?_array] at align
    rw [leaves?] at leaves
    obtain ⟨each, sized, size⟩ := Option.bind_eq_some_iff.mp size
    obtain ⟨each', sized', leaves⟩ := Option.bind_eq_some_iff.mp leaves
    obtain ⟨first, hfirst, leaves⟩ := Option.bind_eq_some_iff.mp leaves
    cases sized.symm.trans sized'
    cases mul_eq_some size
    have natural : elem.isNatural = true := natural
    have multiple := (isAlign_of_align? natural align).2 each sized
    split at leaves
    · next empty =>
      -- A first element without leaves takes no bytes, and neither does the array.
      have none : first = [] := List.isEmpty_iff.mp empty
      subst none
      cases leaves
      cases size_of_leaves_nil natural hfirst sized
      rw [Nat.zero_mul]
      exact .nil base
    · obtain ⟨others, hothers, leaves⟩ := Option.bind_eq_some_iff.mp leaves
      cases leaves
      have front : Tiles first base (base + each) := tiles natural sized align hfirst divides
      have back : Tiles others.flatten (base + each) (base + each + len * each) :=
        tiles_elems (fun i ls leaves => tiles natural sized align leaves
          (Nat.dvd_add divides (Nat.dvd_mul_left_of_dvd multiple (i + 1)))) hothers
      have stop : base + each * (len + 1) = base + each + len * each := by
        rw [Nat.mul_succ, Nat.mul_comm]
        omega
      rw [stop]
      exact front.append back (by omega) (by omega)

/-- The leaves of fields of a struct that starts at a multiple of its alignment. -/
theorem tiles_fields : ∀ {fs : List Shape} {offset base extent a : Nat} {ls : List Leaf},
    areNatural fs = true → extent? offset fs = some extent → fieldsAlign? fs = some a →
    fieldLeaves? fs offset base = some ls → a ∣ base → offset ≤ extent ∧ Tiles ls (base + offset) (base + extent)
  | [], offset, base, extent, a, ls, _, hextent, _, leaves, _ => by
    cases hextent
    cases leaves
    exact ⟨Nat.le_refl _, .nil _⟩
  | f :: fs, offset, base, extent, a, ls, natural, hextent, align, leaves, divides => by
    simp only [areNatural, Bool.and_eq_true] at natural
    rw [fieldLeaves?] at leaves
    rw [extent?] at hextent
    rw [fieldsAlign?] at align
    simp only [Option.bind_eq_bind, Option.bind_eq_some_iff] at leaves hextent align
    obtain ⟨a₁, align₁, start, hstart, place, hplace, here, hhere, n, size, next, hnext, rest, hrest, leaves⟩ :=
      leaves
    obtain ⟨a₁', align₁', start', hstart', n', size', next', hnext', hextent⟩ := hextent
    obtain ⟨a₁'', align₁'', a₂, align₂, align⟩ := align
    cases align₁.symm.trans align₁'
    cases align₁.symm.trans align₁''
    cases hstart.symm.trans hstart'
    cases size.symm.trans size'
    cases hnext.symm.trans hnext'
    cases leaves
    cases align
    cases add_eq_some hplace
    cases add_eq_some hnext
    have isAlign := (isAlign_of_align? natural.1 align₁).1
    obtain ⟨-, first, second⟩ := isAlign.max (isAlign_of_fieldsAlign? natural.2 align₂)
    have divides₁ : a₁ ∣ base := Nat.dvd_trans first divides
    obtain ⟨le, multiple, least⟩ := alignUp_eq_some isAlign hstart
    have front : Tiles here (base + start) (base + start + n) :=
      tiles natural.1 size align₁ hhere (Nat.dvd_add divides₁ multiple)
    obtain ⟨le', back⟩ := tiles_fields natural.2 hextent align₂ hrest (Nat.dvd_trans second divides)
    rw [← Nat.add_assoc] at back
    refine ⟨by omega, Tiles.append ?_ back (by omega) (by omega)⟩
    exact front.pad_front (by omega) (by omega) isAlign (Nat.dvd_add divides₁ multiple) (least_from divides₁ least)
end

/-! ### Offsets that are sizes -/

/-- A loop without errors has a result. -/
theorem exists_mapM {α β : Type} {f : α → Option β} : ∀ {l : List α}, (∀ a ∈ l, ∃ b, f a = some b) →
    ∃ bs, l.mapM f = some bs
  | [], _ => ⟨[], rfl⟩
  | a :: l, each => by
    obtain ⟨b, first⟩ := each a List.mem_cons_self
    obtain ⟨bs, rest⟩ := exists_mapM fun a mem => each a (List.mem_cons_of_mem _ mem)
    exact ⟨b :: bs, by rw [List.mapM_cons, first, rest]; rfl⟩

mutual
/-- The offsets inside a value that has a size are sizes themselves. -/
theorem exists_leaves? : ∀ {s : Shape} {base n : Nat}, s.size? = some n → base + n < limit →
    ∃ ls, s.leaves? base = some ls
  | .void, _, _, _, _ | .int _, _, _, _, _ | .f32, _, _, _, _ | .f64, _, _, _, _ | .ptr _, _, _, _, _
  | .vector _ _, _, _, _, _ | .array _ 0, _, _, _, _ => ⟨_, rfl⟩
  | .struct fields, base, n, size, room => by
    rw [size?_struct] at size
    obtain ⟨extent, hextent, size⟩ := Option.bind_eq_some_iff.mp size
    obtain ⟨a, -, size⟩ := Option.bind_eq_some_iff.mp size
    have le := le_alignUp size
    exact (exists_fieldLeaves? hextent (by omega)).2
  | .array elem (len + 1), base, n, size, room => by
    rw [size?_array] at size
    obtain ⟨each, sized, size⟩ := Option.bind_eq_some_iff.mp size
    cases mul_eq_some size
    have inside : ∀ i ≤ len, base + i * each + each < limit := fun i le => by
      have le : each * (i + 1) ≤ each * (len + 1) := Nat.mul_le_mul_left each (Nat.succ_le_succ le)
      rw [Nat.mul_succ each i, Nat.mul_comm each i] at le
      omega
    obtain ⟨first, hfirst⟩ := @exists_leaves? elem base _ sized (by have := inside 0 (Nat.zero_le _); omega)
    obtain ⟨others, hothers⟩ : ∃ others, ((List.range len).mapM fun i => do
        elem.leaves? (← add base (← mul (i + 1) each))) = some others := by
      refine exists_mapM fun i hi => ?_
      have fits := inside (i + 1) (List.mem_range.mp hi)
      obtain ⟨ls, leaves⟩ := exists_leaves? (s := elem) sized fits
      have product : mul (i + 1) each = some ((i + 1) * each) := mul_of_lt (by omega)
      have sum : add base ((i + 1) * each) = some (base + (i + 1) * each) := add_of_lt (by omega)
      exact ⟨ls, by simp only [product, sum, Option.bind_eq_bind, Option.bind_some, leaves]⟩
    refine ⟨if first.isEmpty then [] else first ++ others.flatten, ?_⟩
    simp only [Option.bind_eq_bind] at hothers
    simp only [leaves?, sized, hfirst, hothers, Option.bind_eq_bind, Option.bind_some]
    cases first <;> rfl

/-- A struct that ends below the limit has leaves. -/
theorem exists_fieldLeaves? : ∀ {fs : List Shape} {offset base extent : Nat}, extent? offset fs = some extent →
    base + extent < limit → offset ≤ extent ∧ ∃ ls, fieldLeaves? fs offset base = some ls
  | [], _, _, _, hextent, _ => by
    cases hextent
    exact ⟨Nat.le_refl _, [], rfl⟩
  | f :: fs, offset, base, extent, hextent, room => by
    rw [extent?] at hextent
    simp only [Option.bind_eq_bind, Option.bind_eq_some_iff] at hextent
    obtain ⟨a, align, start, hstart, n, size, next, hnext, hextent⟩ := hextent
    obtain ⟨le, rest, hrest⟩ := exists_fieldLeaves? hextent room
    cases add_eq_some hnext
    have le' := le_alignUp hstart
    obtain ⟨here, hhere⟩ := @exists_leaves? f (base + start) _ size (by omega)
    refine ⟨by omega, here ++ rest, ?_⟩
    have place : add base start = some (base + start) := add_of_lt (by omega)
    simp only [fieldLeaves?, align, hstart, place, hhere, size, hnext, hrest, Option.bind_eq_bind, Option.bind_some]
    rfl
end

end Shape

end FlowIR

import FlowIR.Proofs.Convention.Leaves
import FlowIR.Ty.Chunk

/-!
Layouts are sound.

Fields lie one behind the other, each at a multiple of its alignment, and end before their struct does; the
alignments may be any positive numbers. The scalars of a source type are laid out in this way too, at every depth of
nesting (`Shape.layout_sound`). There the alignments have to divide each other: a nested struct is placed for its
strictest field only.
-/

namespace FlowIR

open Shape

/-- Whatever the alignment is. -/
theorem Size.dvd_alignUp {offset a n : Nat} (pos : 0 < a) (h : alignUp offset a = some n) : a ∣ n := by
  unfold alignUp at h
  obtain ⟨top, -, h⟩ := Option.bind_eq_some_iff.mp h
  cases h
  rw [Nat.max_eq_left pos]
  exact Nat.dvd_mul_left a _

theorem Size.alignUp_lt {offset a n : Nat} (h : alignUp offset a = some n) : n < limit := by
  unfold alignUp add check at h
  obtain ⟨top, sum, h⟩ := Option.bind_eq_some_iff.mp h
  cases h
  split at sum
  · next small =>
    cases sum
    have le := Nat.div_mul_le_self (offset + max a 1 - 1) (max a 1)
    omega
  · cases sum

theorem Size.mul_lt {a b n : Nat} (h : mul a b = some n) : n < limit := by
  unfold mul check at h
  split at h
  · next small =>
    cases h
    exact small
  · cases h

namespace Shape

/-- A natural shape takes less bytes than there are sizes. -/
theorem size_lt {s : Shape} {n : Nat} (natural : s.isNatural = true) (sized : s.size? = some n) : n < Size.limit := by
  cases s with
  | struct fields =>
    rw [size?_struct] at sized
    obtain ⟨extent, -, sized⟩ := Option.bind_eq_some_iff.mp sized
    obtain ⟨a, -, aligned⟩ := Option.bind_eq_some_iff.mp sized
    exact Size.alignUp_lt aligned
  | array elem len =>
    rw [size?_array] at sized
    obtain ⟨each, -, product⟩ := Option.bind_eq_some_iff.mp sized
    exact Size.mul_lt product
  | int bits =>
    cases sized
    exact Nat.lt_of_le_of_lt (int_room natural).1.le (by decide)
  | vector elem lanes => cases natural
  | void | f32 | f64 | ptr target =>
    cases sized
    decide

mutual
theorem pos_of_align? : ∀ {s : Shape} {a : Nat}, s.align? = some a → 0 < a
  | .void, a, align | .f32, a, align | .f64, a, align | .ptr _, a, align => by
    cases align
    decide
  | .int bits, a, align => by
    cases align
    exact Nat.lt_of_lt_of_le Nat.one_pos (Nat.le_max_right _ 1)
  | .struct fields, a, align => pos_of_fieldsAlign? (align?_struct fields ▸ align)
  | .array elem len, a, align => pos_of_align? (s := elem) (align?_array elem len ▸ align)
  | .vector elem lanes, a, align => by
    obtain ⟨size, -, align⟩ := Option.bind_eq_some_iff.mp align
    cases align
    exact Nat.lt_of_lt_of_le Nat.one_pos (Nat.le_max_right _ 1)

theorem pos_of_fieldsAlign? : ∀ {fs : List Shape} {a : Nat}, fieldsAlign? fs = some a → 0 < a
  | [], a, align => by
    cases align
    exact Nat.one_pos
  | f :: fs, a, align => by
    obtain ⟨first, hfirst, align⟩ := Option.bind_eq_some_iff.mp align
    obtain ⟨rest, -, align⟩ := Option.bind_eq_some_iff.mp align
    cases align
    exact Nat.lt_of_lt_of_le (pos_of_align? hfirst) (Nat.le_max_left _ _)
end

mutual
/-- Alignments of natural shapes are no large numbers. -/
theorem exists_align? : ∀ {s : Shape}, s.isNatural = true → ∃ a, s.align? = some a
  | .void, _ | .f32, _ | .f64, _ | .ptr _, _ | .int _, _ => ⟨_, rfl⟩
  | .struct fields, natural => by
    rw [align?_struct]
    exact exists_fieldsAlign? natural
  | .array elem len, natural => by
    rw [align?_array]
    exact exists_align? (s := elem) natural

theorem exists_fieldsAlign? : ∀ {fs : List Shape}, areNatural fs = true → ∃ a, fieldsAlign? fs = some a
  | [], _ => ⟨1, rfl⟩
  | f :: fs, natural => by
    simp only [areNatural, Bool.and_eq_true] at natural
    obtain ⟨a, first⟩ := exists_align? natural.1
    obtain ⟨b, rest⟩ := exists_fieldsAlign? natural.2
    exact ⟨max a b, by rw [fieldsAlign?, first, rest]; rfl⟩
end

/-! ### Fields -/

theorem le_start? : ∀ {fs : List Shape} {offset index start : Nat}, start? offset fs index = some start → offset ≤ start
  | [], _, _, _, h => by
    rw [start?] at h
    cases h
  | f :: fs, offset, 0, start, h => by
    obtain ⟨a, -, h⟩ := Option.bind_eq_some_iff.mp h
    exact Size.le_alignUp h
  | f :: fs, offset, index + 1, start, h => by
    simp only [start?, Option.bind_eq_bind, Option.bind_eq_some_iff] at h
    obtain ⟨a, -, first, aligned, n, -, next, sum, h⟩ := h
    have le := Size.le_alignUp aligned
    have later := le_start? h
    cases Size.add_eq_some sum
    omega

/-- The first field of several, and where the others start. -/
theorem extent?_cons {f : Shape} {fs : List Shape} {offset extent : Nat} (h : extent? offset (f :: fs) = some extent) :
    ∃ start len a, f.size? = some len ∧ f.align? = some a ∧ a ∣ start ∧ offset ≤ start ∧
      extent? (start + len) fs = some extent ∧ start? offset (f :: fs) 0 = some start ∧
      ∀ index, start? offset (f :: fs) (index + 1) = start? (start + len) fs index := by
  simp only [extent?, Option.bind_eq_bind, Option.bind_eq_some_iff] at h
  obtain ⟨a, align, start, aligned, len, size, next, sum, rest⟩ := h
  cases Size.add_eq_some sum
  refine ⟨start, len, a, size, align, Size.dvd_alignUp (pos_of_align? align) aligned, Size.le_alignUp aligned,
    rest, ?_, ?_⟩
  · rw [start?, align]
    exact aligned
  · intro index
    simp only [start?, align, aligned, size, sum, Option.bind_eq_bind, Option.bind_some]

/-- A field has a size and starts at a multiple of its alignment, and the later fields are behind it. -/
theorem exists_start? : ∀ {fs : List Shape} {offset extent : Nat}, extent? offset fs = some extent →
    offset ≤ extent ∧ ∀ (index : Nat) (f : Shape), fs[index]? = some f → ∃ start len a,
      start? offset fs index = some start ∧ f.size? = some len ∧ f.align? = some a ∧ a ∣ start ∧ start + len ≤ extent ∧
      ∀ later start', index < later → start? offset fs later = some start' → start + len ≤ start'
  | [], offset, extent, h => ⟨Nat.le_of_eq (Option.some.inj h), fun _ _ found => by cases found⟩
  | f :: fs, offset, extent, h => by
    obtain ⟨start, len, a, size, align, divides, le, rest, first, others⟩ := extent?_cons h
    obtain ⟨below, behind⟩ := exists_start? rest
    refine ⟨by omega, fun index g found => ?_⟩
    cases index with
    | zero =>
      cases found
      refine ⟨start, len, a, first, size, align, divides, below, fun later start' order there => ?_⟩
      cases later with
      | zero => exact absurd order (Nat.lt_irrefl 0)
      | succ later => exact le_start? (others later ▸ there)
    | succ index =>
      obtain ⟨start', len', a', there, size', align', divides', inside, order⟩ := behind index g found
      refine ⟨start', len', a', (others index).trans there, size', align', divides', inside,
        fun later s hl found' => ?_⟩
      cases later with
      | zero => exact absurd hl (Nat.not_lt_zero _)
      | succ later => exact order later s (Nat.lt_of_succ_lt_succ hl) (others later ▸ found')

/-- A field lies inside its struct. -/
theorem fieldOffset?_add_le {fs : List Shape} {index start len size : Nat} {f : Shape}
    (offset : (struct fs).fieldOffset? index = some start) (found : fs[index]? = some f)
    (width : f.size? = some len) (sized : (struct fs).size? = some size) : start + len ≤ size := by
  rw [size?_struct] at sized
  obtain ⟨extent, hextent, sized⟩ := Option.bind_eq_some_iff.mp sized
  obtain ⟨a, -, aligned⟩ := Option.bind_eq_some_iff.mp sized
  obtain ⟨start', len', _, there, size', -, -, inside, -⟩ := (exists_start? hextent).2 index f found
  cases offset.symm.trans there
  cases width.symm.trans size'
  exact Nat.le_trans inside (Size.le_alignUp aligned)

end Shape

/-- The leaves of a source type. -/
theorem Ty.tiles {t : Ty} {n : Nat} {ls : List Leaf} (sized : t.size? = some n) (leaves : t.leaves? = some ls) :
    Leaf.Tiles ls 0 n := by
  obtain ⟨a, align⟩ := Shape.exists_align? (Shape.isNatural_shape t)
  have tiles := Shape.tiles (Shape.isNatural_shape t) sized align leaves (Nat.dvd_zero a)
  rwa [Nat.zero_add] at tiles

/-! ### Sound layouts -/

/-- The leaves lie inside `n` bytes, in the order of their offsets and apart from each other, each at a multiple of its
alignment. -/
structure Leaf.LaidOut (ls : List Leaf) (n : Nat) : Prop where
  inside : ∀ l ∈ ls, ∃ k a, l.shape.size? = some k ∧ l.shape.align? = some a ∧ a ∣ l.offset ∧ l.offset + k ≤ n
  increasing : ls.Pairwise fun l l' => l.offset < l'.offset
  disjoint : ls.Pairwise fun l l' => ∀ x, l.Holds x → ¬ l'.Holds x

structure Shape.FieldsLaidOut (fs : List Shape) (n : Nat) : Prop where
  inside : ∀ (i : Nat) (f : Shape), fs[i]? = some f → ∃ start k a, (struct fs).fieldOffset? i = some start ∧
    (struct fs).field? i = some f ∧ f.size? = some k ∧ f.align? = some a ∧ a ∣ start ∧ start + k ≤ n
  ordered : ∀ (i j : Nat) (f : Shape) (start k start' : Nat), i < j → fs[i]? = some f → f.size? = some k →
    (struct fs).fieldOffset? i = some start → (struct fs).fieldOffset? j = some start' → start + k ≤ start'

theorem Leaf.Tiles.laidOut {ls : List Leaf} {n : Nat} (h : Leaf.Tiles ls 0 n) : Leaf.LaidOut ls n where
  inside := fun l mem => by
    obtain ⟨k, size, -, divides, -, last⟩ := h.lies l mem
    exact ⟨k, k, size, (h.aligned l mem).trans size, divides, last⟩
  increasing := h.ordered.imp_of_mem fun {l l'} hl _ apart => by
    obtain ⟨k, size, align, -⟩ := h.lies l hl
    exact Nat.lt_of_lt_of_le (Nat.lt_add_of_pos_right align.pos) (apart k size)
  disjoint := h.ordered.imp fun apart x holds holds' => by
    obtain ⟨k, size, -, last⟩ := holds
    obtain ⟨-, -, first, -⟩ := holds'
    exact absurd (Nat.le_trans (apart k size) first) (Nat.not_le.mpr last)

theorem Shape.fieldsLaidOut {fs : List Shape} {n : Nat} (sized : (struct fs).size? = some n) :
    FieldsLaidOut fs n := by
  have whole := sized
  rw [size?_struct] at whole
  obtain ⟨extent, hextent, -⟩ := Option.bind_eq_some_iff.mp whole
  constructor
  · intro i f found
    obtain ⟨start, k, a, there, size, align, divides, -, -⟩ := (exists_start? hextent).2 i f found
    exact ⟨start, k, a, there, found, size, align, divides, fieldOffset?_add_le there found size sized⟩
  · intro i j f start k start' lt found size there there'
    obtain ⟨_, _, _, found', size', -, -, -, order⟩ := (exists_start? hextent).2 i f found
    cases there.symm.trans found'
    cases size.symm.trans size'
    exact order j start' lt there'

/-- Every type that has a size has leaves, which are laid out inside it, and the size is a multiple of the alignment;
every struct that has a size, of fields of any shape, has its fields laid out inside it. -/
theorem Shape.layout_sound :
    (∀ (t : Ty) (n : Nat), t.size? = some n →
      ∃ a ls, t.align? = some a ∧ a ∣ n ∧ t.leaves? = some ls ∧ Leaf.LaidOut ls n) ∧
    ∀ (fs : List Shape) (n : Nat), (struct fs).size? = some n → FieldsLaidOut fs n := by
  refine ⟨fun t n sized => ?_, fun fs n sized => fieldsLaidOut sized⟩
  have small := size_lt (isNatural_shape t) sized
  obtain ⟨a, align⟩ := exists_align? (isNatural_shape t)
  obtain ⟨ls, leaves⟩ : ∃ ls, t.leaves? = some ls := exists_leaves? sized (by omega)
  exact ⟨a, ls, align, (isAlign_of_align? (isNatural_shape t) align).2 n sized, leaves, (Ty.tiles sized leaves).laidOut⟩

/-- Padding, an array without elements and a nested tuple; then an integer of three bytes in front of a vector. -/
theorem Shape.layout_sound_padded :
    (Ty.struct [.u8, .array .u64 0, .tuple [.f32, .u16], .f64]).size? = some 24 ∧
    (∃ a ls, (Ty.struct [.u8, .array .u64 0, .tuple [.f32, .u16], .f64]).align? = some a ∧ a ∣ 24 ∧
      (Ty.struct [.u8, .array .u64 0, .tuple [.f32, .u16], .f64]).leaves? = some ls ∧ Leaf.LaidOut ls 24) ∧
    (struct [.int 24, .vector .f32 3, .struct [.i8, .i1]]).size? = some 36 ∧
    FieldsLaidOut [.int 24, .vector .f32 3, .struct [.i8, .i1]] 36 := by
  have sized : (Ty.struct [.u8, .array .u64 0, .tuple [.f32, .u16], .f64]).size? = some 24 := by decide
  have sized' : (struct [.int 24, .vector .f32 3, .struct [.i8, .i1]]).size? = some 36 := by decide
  exact ⟨sized, layout_sound.1 _ _ sized, sized', layout_sound.2 _ _ sized'⟩

end FlowIR

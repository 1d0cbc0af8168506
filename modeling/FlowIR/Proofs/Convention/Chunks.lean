import FlowIR.Proofs.Convention.Layout
import FlowIR.Proofs.Convention.Placed

/-!
What the chunks of a value hold.

A value that travels in registers is cut into words. A chunk is as long as the part of the word that it stands
for needs: the bytes of all scalars that lie in a word are in its chunk, and the chunk lies inside the value
(`Ty.chunks_carry_scalars`). No scalar of a source type crosses a multiple of eight, so words of eight bytes
hold their scalars whole (`Ty.Cut`). This says nothing about the struct of the chunks: its fields need not lie
where the chunks were cut.
-/

namespace FlowIR

open Size List

/-- The chunks lie inside a value of `n` bytes, at the multiples of eight, and every scalar of it is in one. -/
structure Ty.Cut (t : Ty) (n : Nat) (chunks : List Shape) : Prop where
  inside : ∀ w chunk, chunks[w]? = some chunk → ∃ len, chunk.size? = some len ∧ len ≤ 8 ∧ 8 * w + len ≤ n
  covers : ∀ ls, t.leaves? = some ls → ∀ l ∈ ls, ∃ w chunk len k, chunks[w]? = some chunk ∧
    chunk.size? = some len ∧ l.shape.size? = some k ∧ 8 * w ≤ l.offset ∧ l.offset + k ≤ 8 * w + len

namespace Leaf

/-- A leaf touches the words that it holds bytes of. -/
theorem Lies.span? {l : Leaf} {start stop word : Nat} {s : Leaf.Span} (h : l.Lies start stop)
    (pos : 0 < word) (run : l.span? word = some s) :
    s.leaf = l ∧ l.shape.size? = some s.size ∧
      ∀ w, s.touches w = true ↔ l.offset < w * word + word ∧ w * word < l.offset + s.size := by
  obtain ⟨k, sized, aligned, -, -, -⟩ := h
  unfold Leaf.span? at run
  obtain ⟨size, sized', run⟩ := Option.bind_eq_some_iff.mp run
  obtain ⟨top, sum, run⟩ := Option.bind_eq_some_iff.mp run
  cases sized.symm.trans sized'
  cases add_eq_some sum
  cases run
  have some := aligned.pos
  refine ⟨rfl, sized, fun w => ?_⟩
  simp only [Span.touches, Bool.and_eq_true, decide_eq_true_eq]
  rw [← Nat.lt_succ_iff, Nat.div_lt_iff_lt_mul pos, Nat.le_div_iff_mul_le pos, Nat.succ_mul]
  omega

/-- The words that leaves touch are counted without overflow. -/
theorem Tiles.exists_spans {ls : List Leaf} {n : Nat} (tiles : Tiles ls 0 n) (word : Nat) (small : n < limit) :
    ∃ spans, ls.mapM (·.span? word) = some spans := by
  refine Shape.exists_mapM fun l hl => ?_
  obtain ⟨k, size, aligned, -, -, last⟩ := tiles.lies l hl
  have pos := aligned.pos
  have top : add l.offset (max k 1) = some (l.offset + max k 1) := add_of_lt (by omega)
  exact ⟨_, by rw [Leaf.span?, size, Option.bind_eq_bind, Option.bind_some, top]; rfl⟩

/-- The spans of leaves, one for each. -/
theorem spans_of_mapM {word : Nat} : ∀ {ls : List Leaf} {spans : List Leaf.Span},
    ls.mapM (·.span? word) = some spans → spans.map (·.leaf) = ls ∧ ∀ s ∈ spans, s.leaf.span? word = some s
  | [], spans, run => by
    cases run
    exact ⟨rfl, nofun⟩
  | l :: ls, spans, run => by
    rw [mapM_cons] at run
    obtain ⟨s, first, run⟩ := Option.bind_eq_some_iff.mp run
    obtain ⟨rest, others, run⟩ := Option.bind_eq_some_iff.mp run
    cases run
    have same : s.leaf = l := by
      unfold Leaf.span? at first
      obtain ⟨size, -, first⟩ := Option.bind_eq_some_iff.mp first
      obtain ⟨top, -, first⟩ := Option.bind_eq_some_iff.mp first
      cases first
      rfl
    obtain ⟨leaves, spanned⟩ := spans_of_mapM others
    refine ⟨?_, forall_mem_cons.mpr ⟨same.symm ▸ first, spanned⟩⟩
    rw [map_cons, same, leaves]

end Leaf

/-- A loop with a result has a result for each element. -/
theorem getElem?_of_mapM {α β : Type} {f : α → Option β} : ∀ {l : List α} {r : List β}, l.mapM f = some r →
    ∀ {k : Nat} {b : β}, r[k]? = some b → ∃ a, l[k]? = some a ∧ f a = some b
  | [], r, run, k, b, found => by
    cases run
    cases found
  | a :: l, r, run, k, b, found => by
    rw [mapM_cons] at run
    obtain ⟨first, hfirst, run⟩ := Option.bind_eq_some_iff.mp run
    obtain ⟨rest, hrest, run⟩ := Option.bind_eq_some_iff.mp run
    cases run
    cases k with
    | zero =>
      cases found
      exact ⟨a, rfl, hfirst⟩
    | succ k => exact getElem?_of_mapM hrest found

/-! ### One word -/

section Word

variable {n word w : Nat} {ls : List Leaf} {spans inside : List Leaf.Span}

/-- What is known of the leaves that have bytes in a word of a value of `n` bytes. -/
structure Leaf.Inside (ls : List Leaf) (n word w : Nat) (inside : List Leaf.Span) : Prop where
  leaf : ∀ s ∈ inside, s.leaf ∈ ls
  sized : ∀ s ∈ inside, s.leaf.shape.size? = some s.size ∧ 0 < s.size ∧ s.size ∣ s.leaf.offset
  scalar : ∀ s ∈ inside, s.leaf.shape.isVector = false
  below : ∀ s ∈ inside, s.leaf.offset + s.size ≤ n
  touch : ∀ s ∈ inside, s.leaf.offset < w * word + word ∧ w * word < s.leaf.offset + s.size
  ordered : inside.Pairwise fun s s' => s.leaf.offset + s.size ≤ s'.leaf.offset

/-- In words of one, two, four or eight bytes a leaf comes first. -/
structure Leaf.InWord (ls : List Leaf) (n word w : Nat) (inside : List Leaf.Span) : Prop
    extends Leaf.Inside ls n word w inside where
  first : inside = [] ∨ ∃ s ∈ inside, s.leaf.offset ≤ w * word

namespace Leaf.Tiles

variable (tiles : Leaf.Tiles ls 0 n) (run : ls.mapM (·.span? word) = some spans)

include tiles run

/-- The bytes and the words of a leaf. -/
theorem span (pos : 0 < word) {s : Leaf.Span} (hs : s ∈ spans) : s.leaf ∈ ls ∧
    (s.leaf.shape.size? = some s.size ∧ 0 < s.size ∧ s.size ∣ s.leaf.offset) ∧ s.leaf.offset + s.size ≤ n ∧
      ∀ w, s.touches w = true ↔ s.leaf.offset < w * word + word ∧ w * word < s.leaf.offset + s.size := by
  obtain ⟨leaves, spanned⟩ := Leaf.spans_of_mapM run
  have mem : s.leaf ∈ ls := leaves ▸ mem_map_of_mem hs
  have lies := tiles.lies s.leaf mem
  obtain ⟨-, sized, touches⟩ := lies.span? pos (spanned s hs)
  obtain ⟨k, sized', aligned, divides, -, last⟩ := lies
  cases sized.symm.trans sized'
  exact ⟨mem, ⟨sized, aligned.pos, divides⟩, last, touches⟩

theorem touching (pos : 0 < word) (w : Nat) : Leaf.Inside ls n word w (spans.filter (·.touches w)) := by
  have known : ∀ s ∈ spans.filter (·.touches w), _ := fun s hs => tiles.span run pos (mem_filter.mp hs).1
  refine ⟨fun s hs => (known s hs).1, fun s hs => (known s hs).2.1, fun s hs => tiles.scalar s.leaf (known s hs).1,
    fun s hs => (known s hs).2.2.1, fun s hs => ((known s hs).2.2.2 w).mp (mem_filter.mp hs).2, ?_⟩
  have ordered : (spans.map (·.leaf)).Pairwise fun l l' =>
      ∀ k, l.shape.size? = some k → l.offset + k ≤ l'.offset := (Leaf.spans_of_mapM run).1 ▸ tiles.ordered
  rw [pairwise_map] at ordered
  exact (ordered.imp_of_mem fun {s s'} hs _ apart => apart s.size (tiles.span run pos hs).2.1.1).filter _

theorem inWord (align : Size.IsAlign word) (below : w * word < n) :
    Leaf.InWord ls n word w (spans.filter (·.touches w)) := by
  have pos := align.pos
  refine ⟨tiles.touching run pos w, ?_⟩
  -- The word starts in a leaf, or no leaf touches it.
  rcases tiles.words word (w * word) align (Nat.dvd_mul_left word w) (Nat.zero_le _) below with holds | spares
  · obtain ⟨l, mem, k, size, above, last⟩ := holds
    rw [← (Leaf.spans_of_mapM run).1] at mem
    obtain ⟨s, hs, rfl⟩ := mem_map.mp mem
    obtain ⟨-, ⟨sized, -⟩, -, touches⟩ := tiles.span run pos hs
    cases size.symm.trans sized
    exact .inr ⟨s, mem_filter.mpr ⟨hs, (touches w).mpr ⟨by omega, last⟩⟩, above⟩
  · refine .inl (filter_eq_nil_iff.mpr fun s hs here => ?_)
    obtain ⟨mem, ⟨sized, some, -⟩, last, touches⟩ := tiles.span run pos hs
    obtain ⟨left, right⟩ := (touches w).mp here
    exact spares.free s.leaf mem (max s.leaf.offset (w * word)) (by omega)
      (by omega) ⟨s.size, sized, by omega, by omega⟩

end Leaf.Tiles

/-- A float takes four or eight bytes. -/
theorem Shape.size_of_isFloat {s : Shape} {k : Nat} (float : s.isFloat = true) (size : s.size? = some k) :
    s = .f32 ∧ k = 4 ∨ s = .f64 ∧ k = 8 := by
  cases s with
  | f32 =>
    cases size
    exact .inl ⟨rfl, rfl⟩
  | f64 =>
    cases size
    exact .inr ⟨rfl, rfl⟩
  | _ => cases float

/-- Where all leaves of a word are floats that lie in it, it holds one, or it has two halves. -/
theorem Leaf.InWord.floats (h : Leaf.InWord ls n word w inside) (short : word ≤ 8)
    (sse : Ty.chunkClass inside (w * word) (w * word + word) = .sse) :
    (∃ s, inside = [s] ∧ s.within (w * word) (w * word + word) = true ∧ s.leaf.shape.isFloat = true) ∨
      ∃ a b, inside = [a, b] ∧ a.leaf.shape = .f32 ∧ b.leaf.shape = .f32 := by
  unfold Ty.chunkClass at sse
  split at sse
  · next floats =>
    simp only [Bool.and_eq_true, all_eq_true] at floats
    have each : ∀ s ∈ inside, (s.leaf.shape = .f32 ∧ s.size = 4 ∨ s.leaf.shape = .f64 ∧ s.size = 8) ∧
        w * word ≤ s.leaf.offset ∧ s.leaf.offset + s.size ≤ w * word + word := fun s hs => by
      obtain ⟨float, within⟩ := floats.2 s hs
      simp only [Span.within, Bool.and_eq_true, decide_eq_true_eq] at within
      exact ⟨Shape.size_of_isFloat float (h.sized s hs).1, within⟩
    have ordered := h.ordered
    rcases inside with _ | ⟨a, _ | ⟨b, _ | ⟨c, rest⟩⟩⟩
    · exact absurd floats.1 (by simp)
    · exact .inl ⟨a, rfl, (floats.2 a mem_cons_self).symm⟩
    · have one := each a mem_cons_self
      have two := each b (mem_cons_of_mem _ mem_cons_self)
      have order := (pairwise_cons.mp ordered).1 b mem_cons_self
      refine .inr ⟨a, b, rfl, one.1.elim (·.1) fun wide => ?_, two.1.elim (·.1) fun wide => ?_⟩ <;> omega
    · have one := each a mem_cons_self
      have two := each b (mem_cons_of_mem _ mem_cons_self)
      have three := each c (mem_cons_of_mem _ (mem_cons_of_mem _ mem_cons_self))
      have order := (pairwise_cons.mp ordered).1 b mem_cons_self
      have order' := (pairwise_cons.mp (pairwise_cons.mp ordered).2).1 c mem_cons_self
      omega
  · cases sse

/-- A shape of `len` bytes can stand for the word at `w` of a value of `n` bytes: it lies inside the value and has all
bytes of the leaves there. -/
structure Leaf.Fills (n word w : Nat) (inside : List Leaf.Span) (shape : Shape) (len : Nat) : Prop where
  size : shape.size? = some len
  pos : 1 ≤ len
  short : len ≤ word
  below : w * word + len ≤ n
  bytes : ∀ s ∈ inside, ∀ y < s.leaf.offset + s.size, y < w * word + word → y < w * word + len
  cls : Ty.chunkClass inside (w * word) (w * word + word) = .sse ↔
    shape = .f32 ∨ shape = .f64 ∨ shape.isVector = true

/-- Two floats stand one behind the other. -/
theorem Leaf.Inside.pair {a b : Leaf.Span} (h : Leaf.Inside ls n word w [a, b]) (one : a.leaf.shape = .f32)
    (two : b.leaf.shape = .f32) :
    (a.size = 4 ∧ 4 ∣ a.leaf.offset ∧ a.leaf.offset < w * word + word ∧ w * word < a.leaf.offset + 4) ∧
    (b.size = 4 ∧ 4 ∣ b.leaf.offset ∧ b.leaf.offset < w * word + word ∧ w * word < b.leaf.offset + 4) ∧
    a.leaf.offset + 4 ≤ b.leaf.offset := by
  have float : ∀ s ∈ [a, b], s.leaf.shape = .f32 → s.size = 4 ∧ 4 ∣ s.leaf.offset ∧
      s.leaf.offset < w * word + word ∧ w * word < s.leaf.offset + 4 := by
    intro s hs shape
    obtain ⟨size, -, divides⟩ := h.sized s hs
    rw [shape] at size
    have four : s.size = 4 := (Option.some.inj size).symm
    exact ⟨four, four ▸ divides, four ▸ h.touch s hs⟩
  have first := float a mem_cons_self one
  refine ⟨first, float b (mem_cons_of_mem _ mem_cons_self) two, ?_⟩
  rw [← first.1]
  exact (pairwise_cons.mp h.ordered).1 b mem_cons_self

namespace Leaf.InWord

/-- An integer covers all bytes of the value in the word. -/
theorem fills_int (h : Leaf.InWord ls n word w inside) (align : Size.IsAlign word) (below : w * word < n)
    (int : ¬ Ty.chunkClass inside (w * word) (w * word + word) = .sse) :
    ∃ shape, Ty.coveringInt? (min (n - w * word) word) = some shape ∧
      Leaf.Fills n word w inside shape (min (n - w * word) word) := by
  have pos := align.pos
  have short := align.le
  have product : mul (min (n - w * word) word) 8 = some (min (n - w * word) word * 8) :=
    mul_of_lt (by unfold limit; omega)
  refine ⟨.int (min (n - w * word) word * 8 % 0x100000000), by rw [Ty.coveringInt?, product]; rfl, congrArg some ?_,
    by omega, by omega, by omega, fun s hs y last top => ?_, fun sse => absurd sse int, by rintro (⟨⟨⟩⟩ | ⟨⟨⟩⟩ | ⟨⟨⟩⟩)⟩
  · show Shape.intSize _ = _
    unfold Shape.intSize
    omega
  · have bound := h.below s hs
    omega

/-- The only leaf of a word starts it. -/
theorem fills_single {s : Leaf.Span} (h : Leaf.InWord ls n word w [s])
    (within : s.within (w * word) (w * word + word) = true) : Leaf.Fills n word w [s] s.leaf.shape s.size := by
  have mem := mem_singleton_self s
  obtain ⟨size, pos, -⟩ := h.sized s mem
  have bound := h.below s mem
  have first : s.leaf.offset ≤ w * word := by
    rcases h.first with none | ⟨s', hs', first⟩
    · cases none
    · exact mem_singleton.mp hs' ▸ first
  have class_iff : Ty.chunkClass [s] (w * word) (w * word + word) = .sse ↔ s.leaf.shape.isFloat = true := by
    cases float : s.leaf.shape.isFloat <;> simp [Ty.chunkClass, within, float]
  simp only [Span.within, Bool.and_eq_true, decide_eq_true_eq] at within
  refine ⟨size, pos, by omega, by omega, forall_mem_singleton.mpr fun y last _ => by omega, class_iff.trans ?_⟩
  have scalar := h.scalar s mem
  cases shape : s.leaf.shape <;> simp_all [Shape.isFloat, Shape.isVector]

/-- Two halves of a word are a vector. -/
theorem fills_pair {a b : Leaf.Span} (h : Leaf.InWord ls n word w [a, b]) (align : Size.IsAlign word)
    (one : a.leaf.shape = .f32) (two : b.leaf.shape = .f32) : Leaf.Fills n word w [a, b] (.vector .f32 2) 8 := by
  obtain ⟨⟨four, dividesA, touchA⟩, ⟨four', dividesB, touchB⟩, order⟩ := h.pair one two
  have bound := h.below b (mem_cons_of_mem _ mem_cons_self)
  -- Only words of eight bytes have room for two.
  have places : word = 8 ∧ a.leaf.offset = w * word ∧ b.leaf.offset = w * word + 4 := by
    rcases align with rfl | rfl | rfl | rfl <;> omega
  obtain ⟨rfl, placeA, placeB⟩ := places
  refine ⟨rfl, by omega, Nat.le_refl 8, by omega, fun s hs y _ top => top, fun _ => .inr (.inr rfl), fun _ => ?_⟩
  simp [Ty.chunkClass, Span.within, one, two, Shape.isFloat, placeA, placeB, four, four']

/-- Every word has a shape. -/
theorem exists_fills (h : Leaf.InWord ls n word w inside) (align : Size.IsAlign word) (below : w * word < n) :
    ∃ shape len, Ty.chunkShape? inside (w * word) (w * word + word) (min (n - w * word) word) = some shape ∧
      Leaf.Fills n word w inside shape len := by
  have covering : Ty.chunkShape? inside (w * word) (w * word + word) (min (n - w * word) word) =
      Ty.coveringInt? (min (n - w * word) word) →
      (∀ s, inside = [s] → s.within (w * word) (w * word + word) = false) →
      (∀ a b, inside = [a, b] → a.leaf.shape = .f32 → b.leaf.shape = .f32 → False) →
      ∃ shape len, Ty.chunkShape? inside (w * word) (w * word + word) (min (n - w * word) word) = some shape ∧
        Leaf.Fills n word w inside shape len := by
    intro eq single pair
    rw [eq]
    obtain ⟨shape, shaped, fills⟩ := h.fills_int align below fun sse => by
      rcases h.floats align.le sse with ⟨s, eq, within, -⟩ | ⟨a, b, eq, one, two⟩
      · exact Bool.false_ne_true ((single s eq).symm.trans within)
      · exact pair a b eq one two
    exact ⟨shape, _, shaped, fills⟩
  rcases inside with _ | ⟨a, _ | ⟨b, _ | ⟨c, rest⟩⟩⟩
  · exact covering rfl (by simp) (by simp)
  · cases within : a.within (w * word) (w * word + word) with
    | false =>
      refine covering (if_neg (Bool.eq_false_iff.mp within)) (fun s eq => ?_) (by simp)
      cases eq
      exact within
    | true => exact ⟨_, _, if_pos within, h.fills_single within⟩
  · by_cases floats : a.leaf.shape = .f32 ∧ b.leaf.shape = .f32
    · exact ⟨_, _, if_pos floats, h.fills_pair align floats.1 floats.2⟩
    · refine covering (if_neg floats) (by simp) fun a' b' eq one two => ?_
      cases eq
      exact floats ⟨one, two⟩
  · exact covering rfl (by simp) (by simp)

end Leaf.InWord

end Word

/-! ### Whole values -/

/-- The chunk has `len` bytes of the word at `w` of a value of `n` bytes with these leaves, and all bytes of the leaves
that lie there. It travels with the floats exactly if it is a float or a vector. -/
structure Chunk.Carries (ls : List Leaf) (n word w : Nat) (chunk : Chunk) (len : Nat) : Prop where
  size : chunk.shape.size? = some len
  pos : 1 ≤ len
  short : len ≤ word
  below : w * word + len ≤ n
  bytes : ∀ l ∈ ls, ∀ y, l.Holds y → y / word = w → y < w * word + len
  cls : chunk.cls = .sse ↔ chunk.shape = .f32 ∨ chunk.shape = .f64 ∨ chunk.shape.isVector = true

namespace Ty

variable {t : Ty} {n word : Nat}

/-- A word that a leaf has bytes in has a chunk with all of them. -/
theorem exists_chunkAt? {ls : List Leaf} {spans : List Leaf.Span} {w : Nat} (tiles : Leaf.Tiles ls 0 n)
    (align : Size.IsAlign word) (spanned : ls.mapM (·.span? word) = some spans) (below : w * word < n)
    (room : w * word + word < limit) :
    ∃ chunk len, chunkAt? n word (spans.filter (·.touches w)) w = some chunk ∧ chunk.Carries ls n word w len := by
  obtain ⟨shape, len, shaped, fills⟩ := (tiles.inWord spanned align below).exists_fills align below
  refine ⟨⟨shape, _⟩, len, ?_, fills.size, fills.pos, fills.short, fills.below, fun l hl y holds there => ?_, fills.cls⟩
  · rw [chunkAt?, add_of_lt room, Option.bind_eq_bind, Option.bind_some, shaped]
    rfl
  · rw [← (Leaf.spans_of_mapM spanned).1] at hl
    obtain ⟨s, hs, rfl⟩ := mem_map.mp hl
    obtain ⟨-, ⟨size, -⟩, -, touches⟩ := tiles.span spanned align.pos hs
    obtain ⟨k, size', above, last⟩ := holds
    cases size.symm.trans size'
    have low := Nat.div_mul_le_self y word
    have top := Nat.lt_div_mul_add (a := y) align.pos
    rw [there] at low top
    exact fills.bytes s (mem_filter.mpr ⟨hs, (touches w).mpr ⟨by omega, by omega⟩⟩) y last top

/-- The chunks of a value, at their words. -/
theorem chunks?_at {chunks : List Chunk} (sized : t.size? = some n) (pos : n ≠ 0) (word_pos : word ≠ 0)
    (run : t.chunks? word = some chunks) : ∃ ls spans, t.leaves? = some ls ∧ ls.mapM (·.span? word) = some spans ∧
      ∀ (k : Nat) (chunk : Chunk), chunks[k]? = some chunk →
        chunkAt? n word (spans.filter (·.touches k)) k = some chunk := by
  unfold chunks? at run
  rw [sized] at run
  simp only [Option.bind_eq_bind, Option.bind_some] at run
  rw [if_neg (by omega)] at run
  split at run
  · cases run
  · obtain ⟨ls, leaves, run⟩ := Option.bind_eq_some_iff.mp run
    obtain ⟨spans, spanned, run⟩ := Option.bind_eq_some_iff.mp run
    refine ⟨ls, spans, leaves, spanned, fun k chunk there => ?_⟩
    obtain ⟨w, hw, cut⟩ := getElem?_of_mapM run there
    have below : k < (n + word - 1) / word := by
      have below := (List.getElem?_eq_some_iff.mp hw).1
      rwa [length_range] at below
    rw [getElem?_range below] at hw
    cases hw
    rwa [Array.getD_eq_getD_getElem?, Leaf.getElem?_wordTable spans below] at cut

theorem mul_lt_of_lt_words {w : Nat} (pos : word ≠ 0) (h : w < (n + word - 1) / word) : w * word < n := by
  have le := Nat.mul_le_mul_right word (Nat.succ_le_of_lt h)
  have top := Nat.div_mul_le_self (n + word - 1) word
  rw [Nat.succ_mul] at le
  omega

/-- Where each word has a chunk, and they are not too many, the value is cut. -/
theorem chunks?_of_each {ls : List Leaf} {spans : List Leaf.Span} (sized : t.size? = some n) (pos : n ≠ 0)
    (word_pos : word ≠ 0) (fits : (n + word - 1) / word ≤ maxWords) (leaves : t.leaves? = some ls)
    (spanned : ls.mapM (·.span? word) = some spans) (each : ∀ w, w * word < n →
      ∃ chunk, chunkAt? n word (spans.filter (·.touches w)) w = some chunk) : ∃ chunks, t.chunks? word =
        some chunks := by
  obtain ⟨chunks, run⟩ := Shape.exists_mapM (l := range ((n + word - 1) / word)) (f := fun w =>
      chunkAt? n word ((Leaf.wordTable ((n + word - 1) / word) spans).getD w []) w) fun w hw => by
    have below := mem_range.mp hw
    rw [Array.getD_eq_getD_getElem?, Leaf.getElem?_wordTable spans below]
    exact each w (mul_lt_of_lt_words word_pos below)
  refine ⟨chunks, ?_⟩
  rw [chunks?, sized, Option.bind_eq_bind, Option.bind_some, if_neg (by omega)]
  dsimp only
  rw [if_neg (by omega), leaves, Option.bind_eq_bind, Option.bind_some, spanned, Option.bind_eq_bind,
    Option.bind_some, run]

/-- A value is cut into as many chunks as it has words, and they carry all its scalars. -/
theorem exists_chunks? (sized : t.size? = some n) (align : Size.IsAlign word)
    (fits : (n + word - 1) / word ≤ maxWords) :
    ∃ ls chunks, t.leaves? = some ls ∧ t.chunks? word = some chunks ∧ chunks.length = (n + word - 1) / word ∧
      ∀ (k : Nat) (chunk : Chunk), chunks[k]? = some chunk → ∃ len, chunk.Carries ls n word k len := by
  have pos := align.pos
  have short := align.le
  have most : n ≤ maxWords * word := by
    have top := Nat.lt_div_mul_add (a := n + word - 1) pos
    have le := Nat.mul_le_mul_right word fits
    omega
  have room : n + word < limit := by
    have le := Nat.mul_le_mul_left maxWords short
    have small : maxWords * 8 + 8 < limit := by decide
    omega
  obtain ⟨ls, leaves⟩ : ∃ ls, t.leaves? = some ls := Shape.exists_leaves? sized (by omega)
  have tiles := Ty.tiles sized leaves
  by_cases none : n = 0
  · refine ⟨ls, [], leaves, ?_, ?_, by simp⟩
    · rw [chunks?, sized, Option.bind_eq_bind, Option.bind_some, if_pos (.inl none)]
      rfl
    · rw [none, Nat.div_eq_of_lt (by omega)]
      rfl
  obtain ⟨spans, spanned⟩ := tiles.exists_spans word (by omega)
  have each := fun w below => exists_chunkAt? tiles align spanned (w := w) below (by omega)
  obtain ⟨chunks, run⟩ := chunks?_of_each sized none (by omega) fits leaves spanned fun w below =>
    (each w below).imp fun _ ⟨_, found, _⟩ => found
  have length := length_chunks? sized none (by omega) run
  obtain ⟨ls', spans', leaves', spanned', cut⟩ := chunks?_at sized none (by omega) run
  cases leaves.symm.trans leaves'
  cases spanned.symm.trans spanned'
  refine ⟨ls, chunks, leaves, run, length, fun k chunk found => ?_⟩
  have bound := (List.getElem?_eq_some_iff.mp found).1
  obtain ⟨chunk', len, cut', carries⟩ := each k (mul_lt_of_lt_words (by omega) (length ▸ bound))
  cases (cut k chunk found).symm.trans cut'
  exact ⟨len, carries⟩

/-- Words of one, two, four or eight bytes carry every byte of every scalar, whatever padding, nesting and
fields without bytes there are. Only a table of words that is larger than any allocation keeps a value from
being cut. -/
theorem chunks_carry_scalars (sized : t.size? = some n) (align : Size.IsAlign word) :
    ((n + word - 1) / word ≤ maxWords → ∃ ls chunks, t.leaves? = some ls ∧ t.chunks? word = some chunks ∧
      chunks.length = (n + word - 1) / word ∧
      ∀ (k : Nat) (chunk : Chunk), chunks[k]? = some chunk → ∃ len, chunk.Carries ls n word k len) ∧
    (maxWords < (n + word - 1) / word → t.chunks? word = none) := by
  refine ⟨exists_chunks? sized align, fun large => ?_⟩
  have pos := align.pos
  have some : n ≠ 0 := fun none => by
    rw [none, Nat.div_eq_of_lt (by omega)] at large
    exact absurd large (Nat.not_lt_zero _)
  rw [chunks?, sized, Option.bind_eq_bind, Option.bind_some, if_neg (by omega)]
  dsimp only
  rw [if_pos large]
  rfl

/-- A float behind a field without bytes, and another beside a smaller integer, in words of four bytes. -/
theorem chunks_carry_scalars_nested :
    (struct [.u8, .array .u64 0, .tuple [.f32, .u16], .f64]).size? = some 24 ∧ Size.IsAlign 4 ∧ 6 ≤ maxWords ∧
    ∃ ls chunks, (struct [.u8, .array .u64 0, .tuple [.f32, .u16], .f64]).leaves? = some ls ∧
      (struct [.u8, .array .u64 0, .tuple [.f32, .u16], .f64]).chunks? 4 = some chunks ∧ chunks.length = 6 ∧
      ∀ (k : Nat) (chunk : Chunk), chunks[k]? = some chunk → ∃ len, chunk.Carries ls 24 4 k len := by
  have sized : (struct [.u8, .array .u64 0, .tuple [.f32, .u16], .f64]).size? = some 24 := by decide
  have align : Size.IsAlign 4 := .inr (.inr (.inl rfl))
  exact ⟨sized, align, by decide, (chunks_carry_scalars sized align).1 (by decide)⟩

/-- So many words that no table holds them. -/
theorem chunks_too_many : (array .u8 0x4000000000000000).size? = some 0x4000000000000000 ∧ Size.IsAlign 1 ∧
    (array .u8 0x4000000000000000).chunks? 1 = none :=
  ⟨rfl, .inl rfl, rfl⟩

/-- A value is cut into chunks that lie inside of it and hold its scalars. -/
theorem cut_of_chunks? {chunks : List Chunk} (sized : t.size? = some n) (pos : n ≠ 0)
    (run : t.chunks? 8 = some chunks) : t.Cut n (chunks.map (·.shape)) := by
  have fits : (n + 8 - 1) / 8 ≤ maxWords := by
    unfold chunks? at run
    rw [sized] at run
    simp only [Option.bind_eq_bind, Option.bind_some] at run
    rw [if_neg (by omega)] at run
    split at run
    · cases run
    · omega
  obtain ⟨ls, chunks', leaves, run', length, each⟩ := exists_chunks? sized (.inr (.inr (.inr rfl))) fits
  cases run.symm.trans run'
  refine ⟨fun w shape found => ?_, fun ls' leaves' l hl => ?_⟩
  · rw [getElem?_map] at found
    obtain ⟨chunk, there, rfl⟩ := Option.map_eq_some_iff.mp found
    obtain ⟨len, carries⟩ := each w chunk there
    have below := carries.below
    exact ⟨len, carries.size, carries.short, by omega⟩
  · cases leaves.symm.trans leaves'
    obtain ⟨k, size, align, divides, -, last⟩ := (Ty.tiles sized leaves).lies l hl
    have some := align.pos
    have bound : l.offset / 8 < chunks.length := by omega
    obtain ⟨len, carries⟩ := each _ _ (getElem?_eq_getElem bound)
    have within : (l.offset + k - 1) / 8 = l.offset / 8 := by rcases align with rfl | rfl | rfl | rfl <;> omega
    have reach := carries.bytes l hl (l.offset + k - 1) ⟨k, size, by omega, by omega⟩ within
    refine ⟨l.offset / 8, chunks[l.offset / 8].shape, len, k, ?_, carries.size, size, by omega, by omega⟩
    rw [getElem?_map, getElem?_eq_getElem bound]
    rfl

end Ty

/-! ### Signatures -/

/-- The parameters of an external function that travel in registers are cut into chunks. -/
theorem Signature.cut_of_convention? {sig : Signature} {c : Convention} (found : sig.convention? {} = some c)
    (external : sig.internal = false) {p : Placement} (hp : p ∈ c.params) {chunks : List Shape} {ext : Extension}
    (direct : p.passing = .direct chunks ext) : ∃ n, p.ty.size? = some n ∧ n ≠ 0 ∧ n ≤ 16 ∧ p.ty.Cut n chunks := by
  obtain ⟨budget, left, run⟩ := (Signature.convention?_spec found).2.2.2.1 p hp
  rw [direct] at run
  cases Convention.allots_of_passParam? run with
  | whole internal => cases external.symm.trans internal
  | cut _ sized pos small cut => exact ⟨_, sized, pos, small, Ty.cut_of_chunks? sized pos cut⟩

end FlowIR

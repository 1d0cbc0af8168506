import FlowIR.Proofs.Convention.Chunks
import FlowIR.Proofs.Machine.Spill

/-!
Values that travel in chunks.

A caller passes the bytes of a value chunk by chunk, cut at the multiples of eight. The callee puts the chunks
into the fields of a struct of them. Where the second field lies at offset eight (`Placement.isStraight`), every
scalar of the value is then found in the slot (`Placement.Spilled.slice_leaf`). An integer of 3, 5, 6 or 7 bytes
is aligned to its size, and its field lies elsewhere.

A result is returned by loading the struct of its chunks from where the value lies. This gives all of them if the
struct is straight and no larger than the value (`Placement.exists_returns`).
-/

namespace FlowIR

open Bytes List

namespace Bytes

/-- A part of a part. -/
theorem slice_slice (bs : Bytes) {start len offset count : Nat} (inside : offset + count ≤ len) :
    (bs.slice start len).slice offset count = bs.slice (start + offset) count := by
  ext1
  simp only [slice, toList_take, toList_drop]
  rw [drop_take, drop_drop, take_take, Nat.min_eq_left (by omega)]

theorem size_slice (bs : Bytes) {start len : Nat} (inside : start + len ≤ bs.size) :
    (bs.slice start len).size = len := by
  simp only [slice, size_take, size_drop]
  omega

/-- A part of what has been put into a string. -/
theorem slice_splice_inside {bs data : Bytes} {start offset count : Nat} (room : start + data.size ≤ bs.size)
    (above : start ≤ offset) (inside : offset + count ≤ start + data.size) :
    (bs.splice start data).slice offset count = data.slice (offset - start) count := by
  have whole := congrArg (·.slice (offset - start) count) (slice_splice_self room)
  rwa [slice_slice _ (by omega), Nat.add_sub_cancel' above] at whole

/-- What lies in front of the new bytes is as it was. -/
theorem slice_splice_before {bs data : Bytes} {start offset count : Nat} (room : start + data.size ≤ bs.size)
    (before : offset + count ≤ start) : (bs.splice start data).slice offset count = bs.slice offset count := by
  have front : (bs.toList.take start).length = start := by
    rw [length_take, length_toList]
    omega
  ext1
  simp only [slice, splice, toList_take, toList_drop, toList_append]
  rw [drop_append_of_le_length (by omega), take_append_of_le_length (by rw [length_drop]; omega),
    drop_take, take_take, Nat.min_eq_left (by omega)]

end Bytes

namespace Placement

/-- Whether a value in two chunks is put where it belongs: the second field of the struct of its chunks lies at
offset eight. -/
def isStraight (p : Placement) : Bool :=
  match p.passing with
  | .direct [_, _] _ => p.regShape.fieldOffset? 1 = some 8
  | _ => true

/-- The arguments of a parameter that travels in registers hold the bytes of a value, cut at the multiples of
eight. -/
def Passes (p : Placement) (args : Array Bytes) (image : Bytes) : Prop :=
  ∀ k chunk len, p.argShapes[k]? = some chunk → chunk.size? = some len →
    args[p.offset + k]? = some (image.slice (8 * k) len)

instance (p : Placement) (args : Array Bytes) (image : Bytes) : Decidable (p.Passes args image) :=
  decidable_of_iff (∀ q ∈ p.argShapes.zipIdx, ∀ len ∈ q.1.size?,
    args[p.offset + q.2]? = some (image.slice (8 * q.2) len))
    ⟨fun h k chunk len found sized => h (chunk, k) (mem_zipIdx_iff_getElem?.mpr found) len sized,
      fun h q hq len sized => h q.2 q.1 len (mem_zipIdx_iff_getElem?.mp hq) sized⟩

variable {p : Placement} {args : Array Bytes} {image cell data : Bytes} {first second : Shape} {ext : Extension}
  {chunks : List Shape} {n : Nat}

/-- The first field of a straight struct of two chunks starts it. -/
theorem fieldOffset?_of_isStraight (direct : p.passing = .direct [first, second] ext)
    (straight : p.isStraight = true) : p.regShape.fieldOffset? 0 = some 0 ∧ p.regShape.fieldOffset? 1 = some 8 := by
  have high : p.regShape.fieldOffset? 1 = some 8 := by
    unfold isStraight at straight
    rw [direct] at straight
    simpa using straight
  have shape : p.regShape = .struct [first, second] := by
    unfold regShape
    rw [direct]
  refine ⟨?_, high⟩
  rw [shape] at high ⊢
  simp only [Shape.fieldOffset?, Shape.start?, Option.bind_eq_bind, Option.bind_eq_some_iff] at high ⊢
  obtain ⟨a, align, low, aligned, -⟩ := high
  exact ⟨a, align, Size.alignUp_zero aligned ▸ aligned⟩

/-- The argument of a chunk. -/
theorem Passes.arg (passes : p.Passes args image) (direct : p.passing = .direct chunks ext)
    (cut : p.ty.Cut image.size chunks) {k : Nat} {chunk : Shape} (found : chunks[k]? = some chunk) :
    ∃ len, chunk.size? = some len ∧ args[p.offset + k]? = some (image.slice (8 * k) len) ∧
      8 * k + (image.slice (8 * k) len).size ≤ image.size := by
  obtain ⟨len, sized, -, bound⟩ := cut.inside k chunk found
  have there : p.argShapes[k]? = some chunk := by
    unfold argShapes
    rw [direct]
    exact found
  refine ⟨len, sized, passes k chunk len there sized, ?_⟩
  rw [size_slice image bound]
  exact bound

/-- What has been passed can be put into a slot of its size. -/
theorem exists_spilled (passes : p.Passes args image) (direct : p.passing = .direct chunks ext)
    (cut : p.ty.Cut image.size chunks) (length : chunks.length = 1 ∨ chunks.length = 2)
    (straight : p.isStraight = true) (fits : cell.size = image.size) : ∃ data, p.Spilled args cell data := by
  rcases length with one | two
  · obtain ⟨chunk, rfl⟩ := length_eq_one_iff.mp one
    obtain ⟨len, -, arg, inside⟩ := passes.arg direct cut (k := 0) rfl
    exact ⟨_, .single direct arg (by omega)⟩
  · obtain ⟨first, rest, rfl⟩ := exists_cons_of_length_eq_add_one two
    obtain ⟨second, rfl⟩ := length_eq_one_iff.mp (Nat.succ.inj two)
    obtain ⟨low, high⟩ := fieldOffset?_of_isStraight direct straight
    obtain ⟨_, -, arg₀, inside₀⟩ := passes.arg direct cut (k := 0) rfl
    obtain ⟨_, -, arg₁, inside₁⟩ := passes.arg direct cut (k := 1) rfl
    exact ⟨_, .double direct low high (by decide) (by decide) arg₀ arg₁ (by omega) (by omega)⟩

/-- A slot into which a parameter has been put holds the scalars of the value. -/
theorem Spilled.slice_leaf (spilled : p.Spilled args cell data) (passes : p.Passes args image)
    (direct : p.passing = .direct chunks ext) (cut : p.ty.Cut image.size chunks) (straight : p.isStraight = true)
    (fits : cell.size = image.size) {ls : List Leaf} (leaves : p.ty.leaves? = some ls) {l : Leaf}
    (hl : l ∈ ls) {k : Nat} (size : l.shape.size? = some k) :
    data.size = image.size ∧ l.offset + k ≤ image.size ∧ data.slice l.offset k = image.slice l.offset k := by
  obtain ⟨w, chunk, len, k', found, sized, size', above, below⟩ := cut.covers ls leaves l hl
  cases size.symm.trans size'
  obtain ⟨len', sized', arg, inside⟩ := passes.arg direct cut found
  cases sized.symm.trans sized'
  obtain ⟨_, sized', word, bound⟩ := cut.inside w chunk found
  cases sized.symm.trans sized'
  have width := size_slice image bound
  -- The scalar lies in the chunk, and the chunk has been put where it was cut.
  have part : (image.slice (8 * w) len).slice (l.offset - 8 * w) k = image.slice l.offset k := by
    rw [slice_slice image (by omega), Nat.add_sub_cancel' above]
  cases spilled with
  | nothing other => rw [direct] at other; cases other
  | single passing arg' room =>
    cases direct.symm.trans passing
    obtain rfl : w = 0 := by
      have := (List.getElem?_eq_some_iff.mp found).1
      simpa using this
    cases arg.symm.trans arg'
    refine ⟨?_, by omega, ?_⟩
    · rw [size_splice (by omega), fits]
    · rw [slice_splice_inside (by omega) (Nat.zero_le _) (by omega)]
      exact part
  | double passing field₀ field₁ near₀ near₁ arg₀ arg₁ room₀ room₁ =>
    cases direct.symm.trans passing
    obtain ⟨low, high⟩ := fieldOffset?_of_isStraight direct straight
    cases low.symm.trans field₀
    cases high.symm.trans field₁
    have grown := size_splice room₀
    refine ⟨?_, by omega, ?_⟩
    · rw [size_splice (by omega), grown, fits]
    · have either : w = 0 ∨ w = 1 := by
        have := (List.getElem?_eq_some_iff.mp found).1
        simp only [List.length_cons, List.length_nil] at this
        omega
      rcases either with rfl | rfl
      · cases arg.symm.trans arg₀
        rw [slice_splice_before (by omega) (by omega),
          slice_splice_inside room₀ (Nat.zero_le _) (by omega)]
        exact part
      · cases arg.symm.trans arg₁
        rw [slice_splice_inside (grown.symm ▸ room₁) above (by omega)]
        exact part

end Placement

/-! ### Results -/

namespace Placement

variable {p : Placement} {image : Bytes} {chunks : List Shape} {ext : Extension}

/-- Whether a result in two chunks can be loaded from where the value lies: the second field of the struct of the
chunks lies at offset eight, and the struct is no larger than the value. -/
def isSnug (p : Placement) : Bool :=
  p.isStraight && match p.passing with
    | .direct [_, _] _ => p.regShape.size?.any fun k => p.ty.size?.any fun n => k ≤ n
    | _ => true

/-- Where a chunk lies in what is returned: a single one is all of it. -/
def chunkOffset? (p : Placement) (k : Nat) : Option Nat :=
  match p.passing with
  | .direct [_] _ => if k = 0 then some 0 else none
  | .direct _ _ => p.regShape.fieldOffset? k
  | _ => none

/-- Each chunk of the returned bytes is the part of the value that was cut there. -/
def Returns (p : Placement) (image data : Bytes) : Prop :=
  ∀ k chunk, p.argShapes[k]? = some chunk → ∃ len offset, chunk.size? = some len ∧
    p.chunkOffset? k = some offset ∧ data.slice offset len = image.slice (8 * k) len

/-- The first bytes of a value, as many as a register or the struct of the registers takes, hold all its chunks. -/
theorem exists_returns (direct : p.passing = .direct chunks ext) (length : chunks.length = 1 ∨ chunks.length = 2)
    (inside : ∀ k chunk, chunks[k]? = some chunk → ∃ len, chunk.size? = some len ∧ 8 * k + len ≤ image.size)
    (sized : p.ty.size? = some image.size) (snug : p.isSnug = true) :
    ∃ n, p.regShape.size? = some n ∧ n ≤ image.size ∧ p.Returns image (image.slice 0 n) := by
  have args : p.argShapes = chunks := by
    unfold argShapes
    rw [direct]
  rcases length with one | two
  · obtain ⟨chunk, rfl⟩ := List.length_eq_one_iff.mp one
    obtain ⟨len, size, bound⟩ := inside 0 chunk rfl
    have shape : p.regShape = chunk := by
      unfold regShape
      rw [direct]
    refine ⟨len, shape ▸ size, by omega, fun k chunk' found => ?_⟩
    rw [args] at found
    obtain rfl : k = 0 := by
      have below := (List.getElem?_eq_some_iff.mp found).1
      simpa using below
    cases found
    refine ⟨len, 0, size, ?_, slice_slice image (by omega)⟩
    unfold chunkOffset?
    rw [direct]
    rfl
  · obtain ⟨first, rest, rfl⟩ := List.exists_cons_of_length_eq_add_one two
    obtain ⟨second, rfl⟩ := List.length_eq_one_iff.mp (Nat.succ.inj two)
    have shape : p.regShape = .struct [first, second] := by
      unfold regShape
      rw [direct]
    unfold isSnug at snug
    rw [direct, Bool.and_eq_true] at snug
    obtain ⟨straight, snug⟩ := snug
    obtain ⟨n, size, snug⟩ := (Option.any_eq_true _ _).mp snug
    obtain ⟨_, sized', fits⟩ := (Option.any_eq_true _ _).mp snug
    cases sized.symm.trans sized'
    obtain ⟨low, high⟩ := fieldOffset?_of_isStraight direct straight
    have offsets : ∀ k, p.chunkOffset? k = p.regShape.fieldOffset? k := fun k => by
      unfold chunkOffset?
      rw [direct]
    refine ⟨n, size, of_decide_eq_true fits, fun k chunk found => ?_⟩
    rw [args] at found
    obtain ⟨len, width, -⟩ := inside k chunk found
    rw [shape] at low high size
    have either : k = 0 ∨ k = 1 := by
      have below := (List.getElem?_eq_some_iff.mp found).1
      simp only [List.length_cons, List.length_nil] at below
      omega
    rcases either with rfl | rfl
    · have bound := Shape.fieldOffset?_add_le low found width size
      exact ⟨len, 0, width, (offsets 0).trans (shape ▸ low), slice_slice image bound⟩
    · have bound := Shape.fieldOffset?_add_le high found width size
      refine ⟨len, 8, width, (offsets 1).trans (shape ▸ high), ?_⟩
      rw [slice_slice image bound]

end Placement

/-- What lies at an address starts with any smaller part of it. -/
theorem Memory.read_of_le {m : Memory} {ptr size n : Nat} {data : Bytes} (read : m.read ptr size = .ok data)
    (le : n ≤ size) : m.read ptr n = .ok (data.slice 0 n) := by
  unfold Memory.read at read ⊢
  rw [Checked.bind_eq_ok_iff] at read ⊢
  obtain ⟨⟨index, a⟩, located, read⟩ := read
  cases read
  obtain ⟨number, found, inside⟩ := locate_eq_ok_iff.mp located
  refine ⟨(index, a), locate_eq_ok_iff.mpr ⟨number, found, by omega⟩, congrArg Except.ok ?_⟩
  rw [slice_slice a (by omega), Nat.add_zero]

end FlowIR

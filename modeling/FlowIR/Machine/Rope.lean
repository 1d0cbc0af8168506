/-!
Trees of bytes. A rope stands for the list of its bytes, `toList`. Joining two ropes and cutting one
touch a number of nodes that grows with the height only, and the rotations of `balance` keep that
height logarithmic; parts that are not touched are shared. The laws say what each operation does to
the list, and that a node always knows its size (`Sized`).
-/

namespace FlowIR

/-- A byte string in pieces. A node keeps its size and its height. -/
inductive Rope where
  /-- One byte, again and again. -/
  | fill (byte : UInt8) (count : Nat)
  | leaf (bytes : List UInt8)
  | node (size height : Nat) (left right : Rope)

namespace Rope

def toList : Rope → List UInt8
  | .fill byte count => List.replicate count byte
  | .leaf bytes => bytes
  | .node _ _ left right => left.toList ++ right.toList

def size : Rope → Nat
  | .fill _ count => count
  | .leaf bytes => bytes.length
  | .node size _ _ _ => size

def height : Rope → Nat
  | .node _ height _ _ => height
  | _ => 0

def Sized : Rope → Prop
  | .node size _ left right => size = left.size + right.size ∧ left.Sized ∧ right.Sized
  | _ => True

/-! ### Joining -/

def join (left right : Rope) : Rope :=
  .node (left.size + right.size) (max left.height right.height + 1) left right

/-- Joins two ropes whose heights differ by two at most; a rotation makes up for the difference. -/
def balance (left right : Rope) : Rope :=
  if right.height + 1 < left.height then
    match left with
    | .node _ _ outer inner =>
      if inner.height ≤ outer.height then
        join outer (join inner right)
      else
        match inner with
        | .node _ _ a b => join (join outer a) (join b right)
        | _ => join left right
    | _ => join left right
  else if left.height + 1 < right.height then
    match right with
    | .node _ _ inner outer =>
      if inner.height ≤ outer.height then
        join (join left inner) outer
      else
        match inner with
        | .node _ _ a b => join (join left a) (join b outer)
        | _ => join left right
    | _ => join left right
  else
    join left right

/-- Joins a rope to the right edge of one that is not lower. -/
def joinRight : (left right : Rope) → Rope
  | .node size height a b, right =>
    if height ≤ right.height + 1 then join (.node size height a b) right
    else balance a (joinRight b right)
  | left, right => join left right

/-- Joins a rope to the left edge of one that is not lower. -/
def joinLeft (left : Rope) : (right : Rope) → Rope
  | .node size height a b =>
    if height ≤ left.height + 1 then join left (.node size height a b)
    else balance (joinLeft left a) b
  | right => join left right

/-- The bytes of one rope and then those of another. -/
def append (left right : Rope) : Rope :=
  if left.size = 0 then right
  else if right.size = 0 then left
  else if right.height ≤ left.height then joinRight left right
  else joinLeft left right

/-! ### Cutting -/

def take : Rope → (count : Nat) → Rope
  | .fill byte size, count => .fill byte (min count size)
  | .leaf bytes, count => .leaf (bytes.take count)
  | .node size height left right, count =>
    if size ≤ count then .node size height left right
    else if count ≤ left.size then left.take count
    else left.append (right.take (count - left.size))

def drop : Rope → (count : Nat) → Rope
  | .fill byte size, count => .fill byte (size - count)
  | .leaf bytes, count => .leaf (bytes.drop count)
  | .node size height left right, count =>
    if count = 0 then .node size height left right
    else if left.size ≤ count then right.drop (count - left.size)
    else (left.drop count).append right

def halve : (depth : Nat) → List UInt8 → Rope
  | 0, bytes => .leaf bytes
  | depth + 1, bytes =>
    let half := bytes.length / 2
    (halve depth (bytes.take half)).append (halve depth (bytes.drop half))

/-- The rope of a list, with leaves of less than 64 bytes. -/
def ofList (bytes : List UInt8) : Rope :=
  halve (bytes.length / 32).log2 bytes

/-! ### Laws -/

theorem length_toList {r : Rope} (h : r.Sized) : r.toList.length = r.size := by
  induction r with
  | fill byte count => exact List.length_replicate
  | leaf bytes => rfl
  | node size height left right ihl ihr =>
    obtain ⟨hsize, hl, hr⟩ := h
    rw [toList, List.length_append, ihl hl, ihr hr]
    exact hsize.symm

@[simp] theorem toList_join (l r : Rope) : (join l r).toList = l.toList ++ r.toList := rfl

theorem sized_join {l r : Rope} (hl : l.Sized) (hr : r.Sized) : (join l r).Sized :=
  ⟨rfl, hl, hr⟩

@[simp] theorem toList_balance (l r : Rope) : (balance l r).toList = l.toList ++ r.toList := by
  unfold balance
  repeat' split
  all_goals simp [toList]

theorem sized_balance {l r : Rope} (hl : l.Sized) (hr : r.Sized) : (balance l r).Sized := by
  unfold balance
  repeat' split
  all_goals simp_all [Sized, join, size]

@[simp] theorem toList_joinRight (l r : Rope) :
    (joinRight l r).toList = l.toList ++ r.toList := by
  induction l with
  | fill | leaf => rfl
  | node size height a b _ ih =>
    unfold joinRight
    split
    · rfl
    · rw [toList_balance, ih, toList, List.append_assoc]

theorem sized_joinRight {l r : Rope} (hl : l.Sized) (hr : r.Sized) : (joinRight l r).Sized := by
  induction l with
  | fill | leaf => exact sized_join hl hr
  | node size height a b _ ih =>
    unfold joinRight
    split
    · exact sized_join hl hr
    · exact sized_balance hl.2.1 (ih hl.2.2)

@[simp] theorem toList_joinLeft (l r : Rope) : (joinLeft l r).toList = l.toList ++ r.toList := by
  induction r with
  | fill | leaf => rfl
  | node size height a b ih _ =>
    unfold joinLeft
    split
    · rfl
    · rw [toList_balance, ih, toList, List.append_assoc]

theorem sized_joinLeft {l r : Rope} (hl : l.Sized) (hr : r.Sized) : (joinLeft l r).Sized := by
  induction r with
  | fill | leaf => exact sized_join hl hr
  | node size height a b ih _ =>
    unfold joinLeft
    split
    · exact sized_join hl hr
    · exact sized_balance (ih hr.2.1) hr.2.2

/-- A sized rope of size zero is empty. -/
theorem toList_eq_nil {r : Rope} (h : r.Sized) (empty : r.size = 0) : r.toList = [] :=
  List.eq_nil_of_length_eq_zero ((length_toList h).trans empty)

theorem toList_append {l r : Rope} (hl : l.Sized) (hr : r.Sized) :
    (l.append r).toList = l.toList ++ r.toList := by
  unfold append
  split
  · next empty => rw [toList_eq_nil hl empty, List.nil_append]
  · split
    · next empty => rw [toList_eq_nil hr empty, List.append_nil]
    · split <;> simp

theorem sized_append {l r : Rope} (hl : l.Sized) (hr : r.Sized) : (l.append r).Sized := by
  unfold append
  split
  · exact hr
  · split
    · exact hl
    · split
      · exact sized_joinRight hl hr
      · exact sized_joinLeft hl hr

theorem sized_take {r : Rope} (h : r.Sized) (count : Nat) : (r.take count).Sized := by
  induction r generalizing count with
  | fill | leaf => trivial
  | node size height left right ihl ihr =>
    obtain ⟨_, hl, hr⟩ := id h
    unfold take
    split
    · exact h
    · split
      · exact ihl hl count
      · exact sized_append hl (ihr hr _)

theorem toList_take {r : Rope} (h : r.Sized) (count : Nat) :
    (r.take count).toList = r.toList.take count := by
  induction r generalizing count with
  | fill byte size => exact List.take_replicate.symm
  | leaf bytes => rfl
  | node size height left right ihl ihr =>
    have whole := length_toList h
    obtain ⟨_, hl, hr⟩ := id h
    have known := length_toList hl
    unfold take
    split
    · next enough => exact (List.take_of_length_le (whole ▸ enough)).symm
    · rw [toList, List.take_append, known]
      split
      · next early => rw [ihl hl, Nat.sub_eq_zero_of_le early, List.take_zero, List.append_nil]
      · next late =>
        rw [toList_append hl (sized_take hr _), ihr hr,
          List.take_of_length_le (by omega : left.toList.length ≤ count)]

theorem sized_drop {r : Rope} (h : r.Sized) (count : Nat) : (r.drop count).Sized := by
  induction r generalizing count with
  | fill | leaf => trivial
  | node size height left right ihl ihr =>
    obtain ⟨_, hl, hr⟩ := id h
    unfold drop
    split
    · exact h
    · split
      · exact ihr hr _
      · exact sized_append (ihl hl count) hr

theorem toList_drop {r : Rope} (h : r.Sized) (count : Nat) :
    (r.drop count).toList = r.toList.drop count := by
  induction r generalizing count with
  | fill byte size => exact List.drop_replicate.symm
  | leaf bytes => rfl
  | node size height left right ihl ihr =>
    obtain ⟨_, hl, hr⟩ := id h
    have known := length_toList hl
    unfold drop
    split
    · next none => rw [none, List.drop_zero]
    · rw [toList, List.drop_append, known]
      split
      · next late =>
        rw [ihr hr, List.drop_of_length_le (by omega : left.toList.length ≤ count), List.nil_append]
      · next early =>
        rw [toList_append (sized_drop hl _) hr, ihl hl, Nat.sub_eq_zero_of_le (by omega),
          List.drop_zero]

theorem sized_halve (depth : Nat) (bytes : List UInt8) : (halve depth bytes).Sized := by
  induction depth generalizing bytes with
  | zero => trivial
  | succ depth ih => exact sized_append (ih _) (ih _)

@[simp] theorem toList_halve (depth : Nat) (bytes : List UInt8) :
    (halve depth bytes).toList = bytes := by
  induction depth generalizing bytes with
  | zero => rfl
  | succ depth ih =>
    rw [halve, toList_append (sized_halve _ _) (sized_halve _ _), ih, ih, List.take_append_drop]

end Rope

end FlowIR

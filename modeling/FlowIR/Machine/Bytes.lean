import FlowIR.Machine.Rope

/-!
Byte strings: the values and the allocations of the machine. A byte string is a rope of which only
the bytes count, so two of them are equal as soon as their lists are (`ext`), and each operation is
known by what it does to the list.

Integers stand with the least significant byte first. They are read and written as 64-bit words: a
value beyond eight bytes is read by its first eight, and written with zeros behind them.
-/

namespace FlowIR

/-- The number of different 64-bit words: `2 ^ 64`. -/
def wordCount : Nat := 0x10000000000000000

/-- The 64-bit word of an integer, in two's complement. -/
def wordOf (value : Int) : Nat :=
  (value % wordCount).toNat

/-- The integer of which `word` holds the lowest bits, as a signed number of that many bits. Zero
bits, or more than 64, count as 64. -/
def signedOf (bits word : Nat) : Int :=
  (word : Int).bmod (Nat.pow 2 (if bits = 0 ∨ 64 ≤ bits then 64 else bits))

def digits : (count value : Nat) → List UInt8
  | 0, _ => []
  | count + 1, value => UInt8.ofNat value :: digits count (value / 256)

def ofDigits : List UInt8 → Nat
  | [] => 0
  | b :: bs => b.toNat + 256 * ofDigits bs

@[simp] theorem length_digits (count value : Nat) : (digits count value).length = count := by
  induction count generalizing value with
  | zero => rfl
  | succ count ih => simp [digits, ih]

/-- The lowest bytes of a number spell its remainder. -/
theorem ofDigits_digits (count n : Nat) : ofDigits (digits count n) = n % Nat.pow 256 count := by
  induction count generalizing n with
  | zero => exact (Nat.mod_one n).symm
  | succ count ih =>
    have step : n % Nat.pow 256 (count + 1) = n % 256 + 256 * (n / 256 % Nat.pow 256 count) := by
      rw [show Nat.pow 256 (count + 1) = 256 * Nat.pow 256 count from Nat.mul_comm _ _]
      exact Nat.mod_mul
    rw [digits, ofDigits, ih, step, UInt8.toNat_ofNat']

def Rope.sameBytes : Setoid { r : Rope // r.Sized } where
  r a b := a.val.toList = b.val.toList
  iseqv := ⟨fun _ => rfl, Eq.symm, Eq.trans⟩

def Bytes := Quotient Rope.sameBytes

namespace Bytes

def ofRope (r : Rope) (h : r.Sized) : Bytes :=
  Quotient.mk Rope.sameBytes ⟨r, h⟩

theorem ofRope_eq {r s : Rope} {hr : r.Sized} {hs : s.Sized} (same : r.toList = s.toList) :
    ofRope r hr = ofRope s hs :=
  Quotient.sound same

def toList : Bytes → List UInt8 :=
  Quotient.lift (fun r => r.val.toList) fun _ _ same => same

def size : Bytes → Nat :=
  Quotient.lift (fun r => r.val.size) fun a b same =>
    (Rope.length_toList a.property).symm.trans
      ((congrArg List.length same).trans (Rope.length_toList b.property))

def ofList (bytes : List UInt8) : Bytes :=
  ofRope (Rope.ofList bytes) (Rope.sized_halve _ _)

def zeros (count : Nat) : Bytes :=
  ofRope (.fill 0 count) trivial

/-- The bytes of one string and then those of another. -/
def append : Bytes → Bytes → Bytes :=
  Quotient.lift₂ (fun a b => ofRope (a.val.append b.val) (Rope.sized_append a.property b.property))
    fun a b c d left right => ofRope_eq <| by
      rw [Rope.toList_append a.property b.property, Rope.toList_append c.property d.property]
      exact congr (congrArg List.append left) right

instance : Append Bytes := ⟨append⟩

def take (bs : Bytes) (count : Nat) : Bytes :=
  Quotient.liftOn bs (fun r => ofRope (r.val.take count) (Rope.sized_take r.property count))
    fun a b same => ofRope_eq <| by
      rw [Rope.toList_take a.property, Rope.toList_take b.property]
      exact congrArg (List.take count) same

def drop (bs : Bytes) (count : Nat) : Bytes :=
  Quotient.liftOn bs (fun r => ofRope (r.val.drop count) (Rope.sized_drop r.property count))
    fun a b same => ofRope_eq <| by
      rw [Rope.toList_drop a.property, Rope.toList_drop b.property]
      exact congrArg (List.drop count) same

def slice (bs : Bytes) (offset count : Nat) : Bytes :=
  (bs.drop offset).take count

/-- Puts other bytes in place of those from an offset on. -/
def splice (bs : Bytes) (offset : Nat) (data : Bytes) : Bytes :=
  bs.take offset ++ (data ++ bs.drop (offset + data.size))

/-! ### Integers -/

/-- The lowest bytes of a word, and zeros behind its eight. -/
def ofNat (size value : Nat) : Bytes :=
  ofList (digits (min size 8) value) ++ zeros (size - 8)

def word (bs : Bytes) : Nat :=
  ofDigits (bs.take 8).toList

def ofInt (size : Nat) (value : Int) : Bytes :=
  ofNat size (wordOf value)

def int (bs : Bytes) : Int :=
  signedOf 64 bs.word

/-! ### Laws -/

/-- A byte string is known by its bytes. -/
@[ext] theorem ext {a b : Bytes} (h : a.toList = b.toList) : a = b :=
  Quotient.inductionOn₂ a b (fun _ _ same => Quotient.sound same) h

instance : DecidableEq Bytes := fun _ _ =>
  decidable_of_iff _ ⟨ext, congrArg toList⟩

instance : Repr Bytes := ⟨fun bs => reprPrec bs.toList⟩

@[simp] theorem length_toList (bs : Bytes) : bs.toList.length = bs.size :=
  Quotient.inductionOn bs fun r => Rope.length_toList r.property

@[simp] theorem toList_ofList (bytes : List UInt8) : (ofList bytes).toList = bytes :=
  Rope.toList_halve _ bytes

@[simp] theorem toList_zeros (count : Nat) : (zeros count).toList = List.replicate count 0 := rfl

@[simp] theorem toList_append (a b : Bytes) : (a ++ b).toList = a.toList ++ b.toList :=
  Quotient.inductionOn₂ a b fun r s => Rope.toList_append r.property s.property

@[simp] theorem toList_take (bs : Bytes) (count : Nat) :
    (bs.take count).toList = bs.toList.take count :=
  Quotient.inductionOn bs fun r => Rope.toList_take r.property count

@[simp] theorem toList_drop (bs : Bytes) (count : Nat) :
    (bs.drop count).toList = bs.toList.drop count :=
  Quotient.inductionOn bs fun r => Rope.toList_drop r.property count

@[simp] theorem size_zeros (count : Nat) : (zeros count).size = count := rfl

@[simp] theorem size_append (a b : Bytes) : (a ++ b).size = a.size + b.size := by
  simp [← length_toList]

@[simp] theorem size_take (bs : Bytes) (count : Nat) :
    (bs.take count).size = min count bs.size := by
  simp [← length_toList]

@[simp] theorem size_drop (bs : Bytes) (count : Nat) :
    (bs.drop count).size = bs.size - count := by
  simp [← length_toList]

/-- Replacing bytes inside a string keeps its size. -/
theorem size_splice {bs data : Bytes} {offset : Nat} (h : offset + data.size ≤ bs.size) :
    (bs.splice offset data).size = bs.size := by
  simp only [splice, size_append, size_take, size_drop]
  omega

/-- What has been put into a string is found there. -/
theorem slice_splice_self {bs data : Bytes} {offset : Nat} (h : offset + data.size ≤ bs.size) :
    (bs.splice offset data).slice offset data.size = data := by
  have front : (bs.toList.take offset).length = offset := by
    rw [List.length_take, length_toList]
    omega
  ext1
  simp only [slice, splice, toList_take, toList_drop, toList_append]
  rw [List.drop_left' front, List.take_left' (length_toList data)]

@[simp] theorem size_ofNat (size value : Nat) : (ofNat size value).size = size := by
  simp only [ofNat, size_append, size_zeros, ← length_toList (ofList _), toList_ofList,
    length_digits]
  omega

/-- The word of a value that an integer was written to. -/
theorem word_ofNat (size n : Nat) : (ofNat size n).word = n % Nat.pow 256 (min size 8) := by
  rw [← ofDigits_digits, word, ofNat, toList_take, toList_append, toList_ofList, toList_zeros]
  congr 1
  by_cases small : size ≤ 8
  · rw [Nat.sub_eq_zero_of_le small, List.replicate_zero, List.append_nil,
      List.take_of_length_le (by rw [length_digits]; omega)]
  · exact List.take_left' (by rw [length_digits]; omega)

end Bytes

end FlowIR

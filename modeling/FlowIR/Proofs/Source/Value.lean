import FlowIR.Emit.Operator
import FlowIR.Machine.Arith

/-!
Integers of the source language.

A value of an integer type is an integer in the range of the type; `bool` counts as an unsigned integer
of eight bits. `Ty.wrap` brings any integer into the range, `Ty.encode` gives the bytes of a value, and
`BinaryOp.apply` says what the operators compute. The machine computes the same on the bytes
(`arith_encode`, `compare_encode`).
-/

namespace FlowIR

open Bytes Ty

/-! ### Words -/

/-- The lowest bytes of a number depend on its remainder only. -/
theorem digits_mod (count n : Nat) : digits count (n % Nat.pow 256 count) = digits count n := by
  induction count generalizing n with
  | zero => rfl
  | succ count ih =>
    have split : n % Nat.pow 256 (count + 1) = n % 256 + 256 * (n / 256 % Nat.pow 256 count) := by
      rw [show Nat.pow 256 (count + 1) = 256 * Nat.pow 256 count from Nat.mul_comm _ _]
      exact Nat.mod_mul
    have low : UInt8.ofNat (n % Nat.pow 256 (count + 1)) = UInt8.ofNat n := by
      apply UInt8.toNat_inj.mp
      rw [UInt8.toNat_ofNat', UInt8.toNat_ofNat', split]
      omega
    have high : n % Nat.pow 256 (count + 1) / 256 = n / 256 % Nat.pow 256 count := by
      rw [split]
      omega
    rw [digits, digits, low, high, ih]

theorem Bytes.ofNat_congr {size m n : Nat} (h : m % Nat.pow 256 (min size 8) = n % Nat.pow 256 (min size 8)) :
    ofNat size m = ofNat size n := by
  rw [ofNat, ofNat, ← digits_mod _ m, h, digits_mod]

theorem digits_zero (count : Nat) : digits count 0 = List.replicate count 0 := by
  induction count with
  | zero => rfl
  | succ count ih => exact congrArg (0 :: ·) ih

/-- The bytes of zero are zeros. -/
theorem Bytes.ofNat_zero (size : Nat) : ofNat size 0 = zeros size := by
  ext1
  rw [ofNat, toList_append, toList_ofList, digits_zero, toList_zeros,
    toList_zeros, List.replicate_append_replicate]
  congr 1
  omega

namespace Ty

variable {t : Ty}

/-! ### Ranges -/

def bits : Ty → Nat
  | .bool => 8
  | .int _ width => width.bits
  | _ => 0

def modulus (t : Ty) : Nat := Nat.pow 2 t.bits

/-- The value of the type that an integer wraps to. -/
def wrap (t : Ty) (v : Int) : Int := if t.isSigned then v.bmod t.modulus else v % t.modulus

def Fits (t : Ty) (v : Int) : Prop := t.wrap v = v

def encode (t : Ty) (v : Int) : Bytes := ofInt (t.bits / 8) v

def word (t : Ty) (v : Int) : Nat := (v % t.modulus).toNat

def decode (t : Ty) (bs : Bytes) : Int := t.wrap bs.word

section

variable (h : t.isInteger = true)

include h

/-- The integer types are of four widths. -/
theorem bits_of_isInteger : t.bits = 8 ∨ t.bits = 16 ∨ t.bits = 32 ∨ t.bits = 64 := by
  cases t with
  | bool => exact .inl rfl
  | int sign width => cases width <;> simp [bits, Width.bits]
  | _ => cases h

theorem shape_of_isInteger : t.shape = .int t.bits := by
  cases t with
  | bool => rfl
  | int sign width => rfl
  | _ => cases h

theorem isFloat_of_isInteger : t.isFloat = false := by
  cases t <;> first | rfl | cases h

theorem isAggregate_of_isInteger : t.isAggregate = false := by
  cases t <;> first | rfl | cases h

theorem isVoid_of_isInteger : t.isVoid = false := by
  cases t <;> first | rfl | cases h

theorem sizeOf_shape : Machine.sizeOf t.shape = .ok (t.bits / 8) := by
  rw [shape_of_isInteger h]
  rcases bits_of_isInteger h with eq | eq | eq | eq <;> rw [eq] <;> rfl

theorem bitsOf_shape : Machine.bitsOf t.shape = .ok t.bits := by
  rw [shape_of_isInteger h]
  rcases bits_of_isInteger h with eq | eq | eq | eq <;> rw [eq] <;> rfl

theorem isZeroSized?_of_isInteger : t.isZeroSized? = some false := by
  rw [isZeroSized?, size?, shape_of_isInteger h]
  rcases bits_of_isInteger h with eq | eq | eq | eq <;> rw [eq] <;> rfl

theorem bits_pos : 1 ≤ t.bits / 8 := by
  rcases bits_of_isInteger h with eq | eq | eq | eq <;> rw [eq] <;> decide

theorem modulus_of_isInteger : Nat.pow 256 (min (t.bits / 8) 8) = t.modulus := by
  rw [modulus]
  rcases bits_of_isInteger h with eq | eq | eq | eq <;> rw [eq] <;> rfl

theorem modulus_dvd : (t.modulus : Int) ∣ (wordCount : Int) := by
  rw [modulus]
  rcases bits_of_isInteger h with eq | eq | eq | eq <;> rw [eq] <;> decide

end

theorem modulus_pos (t : Ty) : 0 < t.modulus := Nat.pow_pos (by decide)

@[simp] theorem size_encode (t : Ty) (v : Int) : (t.encode v).size = t.bits / 8 := size_ofNat _ _

/-! ### Bytes of values -/

theorem cast_word (t : Ty) (v : Int) : (t.word v : Int) = v % t.modulus :=
  Int.toNat_of_nonneg (Int.emod_nonneg v (by have := modulus_pos t; omega))

/-- The lowest bits of a word. -/
theorem wordOf_mod (h : t.isInteger = true) (v : Int) : wordOf v % t.modulus = t.word v := by
  have pos := modulus_pos t
  apply Int.ofNat.inj
  show ((wordOf v % t.modulus : Nat) : Int) = (t.word v : Int)
  rw [Int.natCast_emod, wordOf, Int.toNat_of_nonneg (Int.emod_nonneg v (by decide)), cast_word,
    Int.emod_emod_of_dvd v (modulus_dvd h)]

theorem word_encode (h : t.isInteger = true) (v : Int) : (t.encode v).word = t.word v := by
  rw [encode, ofInt, word_ofNat, modulus_of_isInteger h, wordOf_mod h]

/-- Integers that differ by whole rounds have the same bytes. -/
theorem encode_congr (h : t.isInteger = true) {v w : Int} (same : v % t.modulus = w % t.modulus) :
    t.encode v = t.encode w := by
  refine ofNat_congr ?_
  rw [modulus_of_isInteger h, wordOf_mod h, wordOf_mod h, word, word, same]

theorem wrap_mod (t : Ty) (v : Int) : t.wrap v % t.modulus = v % t.modulus := by
  unfold wrap
  split
  · exact Int.bmod_emod
  · exact Int.emod_emod_of_dvd v (Int.dvd_refl _)

@[simp] theorem encode_wrap (h : t.isInteger = true) (v : Int) : t.encode (t.wrap v) = t.encode v :=
  encode_congr h (wrap_mod t v)

theorem wrap_congr {v w : Int} (same : v % t.modulus = w % t.modulus) : t.wrap v = t.wrap w := by
  unfold wrap
  split
  · rw [← Int.emod_bmod, same, Int.emod_bmod]
  · exact same

@[simp] theorem wrap_wrap (t : Ty) (v : Int) : t.wrap (t.wrap v) = t.wrap v := wrap_congr (wrap_mod t v)

theorem fits_wrap (t : Ty) (v : Int) : t.Fits (t.wrap v) := wrap_wrap t v

section

variable (h : t.isInteger = true)

include h

/-- The bytes of a value hold the value. -/
theorem decode_encode (v : Int) : t.decode (t.encode v) = t.wrap v := by
  rw [decode, word_encode h]
  refine wrap_congr ?_
  rw [cast_word]
  exact Int.emod_emod_of_dvd v (Int.dvd_refl _)

/-- Bytes of the right number are those of the value that they hold. -/
theorem encode_decode (v : Int) : t.encode (t.decode (ofInt (t.bits / 8) v)) = ofInt (t.bits / 8) v := by
  show t.encode (t.decode (t.encode v)) = t.encode v
  rw [decode_encode h, encode_wrap h]

/-- The bits of a value, read as a signed number. -/
theorem signedOf_word_eq_bmod (v : Int) : signedOf t.bits (t.word v) = v.bmod t.modulus := by
  have width : Nat.pow 2 (if t.bits = 0 ∨ 64 ≤ t.bits then 64 else t.bits) = t.modulus := by
    rw [modulus]
    rcases bits_of_isInteger h with eq | eq | eq | eq <;> rw [eq] <;> rfl
  rw [signedOf, width, cast_word, Int.emod_bmod]

/-- The bits of a value of a signed type, read as a signed number, give the value. -/
theorem signedOf_word (signed : t.isSigned = true) {v : Int} (fits : t.Fits v) : signedOf t.bits (t.word v) = v := by
  rw [Fits, wrap, if_pos signed] at fits
  rw [signedOf_word_eq_bmod h]
  exact fits

end

/-- The values of an unsigned type. -/
theorem Fits.bounds (unsigned : t.isSigned = false) {v : Int} (fits : t.Fits v) : 0 ≤ v ∧ v < t.modulus := by
  rw [Fits, wrap, unsigned] at fits
  have pos := modulus_pos t
  have rem : v % t.modulus = v := fits
  have low := Int.emod_nonneg v (b := t.modulus) (by omega)
  have high := Int.emod_lt_of_pos v (b := t.modulus) (by omega)
  omega

/-- The bits of a value of an unsigned type, read as a signed number, give the value if it is in the lower half
of the type. -/
theorem signedOf_word_of_unsigned (h : t.isInteger = true) (unsigned : t.isSigned = false) {v : Int}
    (fits : t.Fits v) : signedOf t.bits (t.word v) = if 2 * v < t.modulus then v else v - t.modulus := by
  have even : t.modulus % 2 = 0 := by
    rw [modulus]
    rcases bits_of_isInteger h with eq | eq | eq | eq <;> rw [eq]
  obtain ⟨low, high⟩ := fits.bounds unsigned
  rw [signedOf_word_eq_bmod h, Int.bmod_def, Int.emod_eq_of_lt low high]
  by_cases lower : 2 * v < t.modulus
  · rw [if_pos lower, if_pos (by omega)]
  · rw [if_neg lower, if_neg (by omega)]

/-- The bits of a value of an unsigned type spell the value. -/
theorem word_of_fits (unsigned : t.isSigned = false) {v : Int} (fits : t.Fits v) : (t.word v : Int) = v := by
  rw [Fits, wrap, unsigned] at fits
  rw [cast_word]
  exact fits

theorem word_inj {v w : Int} (fv : t.Fits v) (fw : t.Fits w) (same : t.word v = t.word w) : v = w := by
  have rem : v % t.modulus = w % t.modulus := by rw [← cast_word, ← cast_word, same]
  exact fv.symm.trans ((wrap_congr rem).trans fw)

end Ty

/-! ### Operators -/

/-- What an operator gives for two values of a type. Arithmetic wraps, division goes toward zero, and
the bitwise operators work on the bits. There is no result if the second value is a zero to divide by. -/
def BinaryOp.apply (op : BinaryOp) (t : Ty) (a b : Int) : Option Int :=
  match op with
  | .add => some (t.wrap (a + b))
  | .sub => some (t.wrap (a - b))
  | .mul => some (t.wrap (a * b))
  | .div => if b = 0 then none else some (t.wrap (a.tdiv b))
  | .rem => if b = 0 then none else some (t.wrap (a.tmod b))
  | .and => some (t.wrap (t.word a &&& t.word b : Nat))
  | .or => some (t.wrap (t.word a ||| t.word b : Nat))
  | .xor => some (t.wrap (t.word a ^^^ t.word b : Nat))
  | .eq => some (decide (a = b)).toInt
  | .ne => some (decide (a ≠ b)).toInt
  | .lt => some (decide (a < b)).toInt
  | .le => some (decide (a ≤ b)).toInt
  | .gt => some (decide (b < a)).toInt
  | .ge => some (decide (b ≤ a)).toInt

def BinaryOp.resultTy (op : BinaryOp) (t : Ty) : Ty := if op.isComparison then .bool else t

theorem BinaryOp.fits_apply {op : BinaryOp} {t : Ty} {a b v : Int} (h : op.apply t a b = some v) :
    (op.resultTy t).Fits v := by
  have truth : ∀ p : Bool, bool.Fits p.toInt := fun p => by cases p <;> rfl
  cases op with
  | add | sub | mul | and | or | xor =>
    cases h
    exact fits_wrap t _
  | div | rem =>
    simp only [apply] at h
    split at h
    · cases h
    · cases h
      exact fits_wrap t _
  | eq | ne | lt | le | gt | ge =>
    cases h
    exact truth _

namespace Machine

variable {t : Ty} {a b : Int}

/-- An operation on words is the same operation on the values that have them. -/
theorem arith_of_words (h : t.isInteger = true) {op : ArithOp} {r : Checked Nat}
    (words : intArith op t.bits (t.word a) (t.word b) = r) :
    arith op t.shape (t.encode a) (t.encode b) = r.map (ofNat (t.bits / 8)) := by
  have plain : t.shape.isFloat = false := by rw [shape_of_isInteger h]; rfl
  simp only [arith, sizeOf_shape h, bitsOf_shape h, word_encode h, plain, bind, Except.bind, words]
  cases r <;> rfl

private theorem ofNat_words (h : t.isInteger = true) {n : Nat} {v : Int}
    (same : (n : Int) % t.modulus = v % t.modulus) : ofNat (t.bits / 8) n = t.encode (t.wrap v) := by
  rw [encode_wrap h, ← encode_congr h same]
  refine ofNat_congr ?_
  rw [modulus_of_isInteger h, wordOf_mod h]
  apply Int.ofNat.inj
  show ((n % t.modulus : Nat) : Int) = (t.word n : Int)
  rw [Int.natCast_emod, cast_word]

private theorem wordOf_words (h : t.isInteger = true) {u v : Int}
    (same : u % t.modulus = v % t.modulus) :
    ofNat (t.bits / 8) (wordOf u) = t.encode (t.wrap v) := by
  rw [encode_wrap h, ← encode_congr h same]
  rfl

/-- What comes of an operator, as a checked result. -/
def applied (t : Ty) (v : Option Int) : Checked Bytes :=
  match v with
  | some v => .ok (t.encode v)
  | none => .error .divisionByZero

variable (h : t.isInteger = true) {op : BinaryOp}

include h

/-- The machine divides as the operator does. -/
private theorem arith_division {aop : ArithOp}
    (isDivision : op = .div ∨ op = .rem) (means : op.intArith? t.isSigned = some aop) (fa : t.Fits a)
    (fb : t.Fits b) :
    arith aop t.shape (t.encode a) (t.encode b) = applied t (op.apply t a b) := by
  cases signed : t.isSigned with
  | true =>
    have wa := signedOf_word h signed fa
    have wb := signedOf_word h signed fb
    rw [signed] at means
    by_cases zero : b = 0
    · rcases isDivision with rfl | rfl <;> cases means <;>
        rw [arith_of_words h (r := .error .divisionByZero) (by simp [intArith, wb.trans zero])] <;>
        simp [BinaryOp.apply, zero, applied, Except.map]
    · rcases isDivision with rfl | rfl <;> cases means
      · rw [arith_of_words h (r := .ok (wordOf (a.tdiv b))) (by simp [intArith, wa, wb, zero])]
        simp only [BinaryOp.apply, zero, if_false, applied, Except.map]
        rw [wordOf_words h (v := a.tdiv b) rfl]
      · rw [arith_of_words h (r := .ok (wordOf (a.tmod b))) (by simp [intArith, wa, wb, zero])]
        simp only [BinaryOp.apply, zero, if_false, applied, Except.map]
        rw [wordOf_words h (v := a.tmod b) rfl]
  | false =>
    have wa := word_of_fits signed fa
    have wb := word_of_fits signed fb
    rw [signed] at means
    by_cases zero : b = 0
    · have word : t.word b = 0 := by omega
      rcases isDivision with rfl | rfl <;> cases means <;>
        rw [arith_of_words h (r := .error .divisionByZero) (by simp [intArith, word])] <;>
        simp [BinaryOp.apply, zero, applied, Except.map]
    · have word : t.word b ≠ 0 := by omega
      rcases isDivision with rfl | rfl <;> cases means
      · rw [arith_of_words h (r := .ok (t.word a / t.word b)) (by simp [intArith, word])]
        simp only [BinaryOp.apply, zero, if_false, applied, Except.map]
        refine congrArg Except.ok (ofNat_words h ?_)
        rw [← wa, ← wb, Int.ofNat_tdiv]
        simp only [wa, wb]
      · rw [arith_of_words h (r := .ok (t.word a % t.word b)) (by simp [intArith, word])]
        simp only [BinaryOp.apply, zero, if_false, applied, Except.map]
        refine congrArg Except.ok (ofNat_words h ?_)
        rw [← wa, ← wb, Int.ofNat_tmod]
        simp only [wa, wb]

/-- The machine computes on the bytes what the operator gives for the values. -/
theorem arith_encode {aop : ArithOp} (means : op.arith? t = some aop) (fa : t.Fits a) (fb : t.Fits b) :
    arith aop t.shape (t.encode a) (t.encode b) = applied t (op.apply t a b) := by
  have ca := cast_word t a
  have cb := cast_word t b
  rw [BinaryOp.arith?, isFloat_of_isInteger h, isAggregate_of_isInteger h,
    isVoid_of_isInteger h] at means
  cases op with
  | add =>
    cases means
    rw [arith_of_words h rfl]
    refine congrArg Except.ok (wordOf_words h ?_)
    rw [ca, cb, ← Int.add_emod]
  | sub =>
    cases means
    rw [arith_of_words h rfl]
    refine congrArg Except.ok (wordOf_words h ?_)
    rw [ca, cb, ← Int.sub_emod]
  | mul =>
    cases means
    rw [arith_of_words h rfl]
    refine congrArg Except.ok (wordOf_words h ?_)
    rw [ca, cb, ← Int.mul_emod]
  | div => exact arith_division h (.inl rfl) means fa fb
  | rem => exact arith_division h (.inr rfl) means fa fb
  | and =>
    cases means
    rw [arith_of_words h (r := .ok (t.word a &&& t.word b)) rfl]
    simp only [BinaryOp.apply, applied, Except.map]
    rw [ofNat_words h (v := (t.word a &&& t.word b : Nat)) rfl]
  | or =>
    cases means
    rw [arith_of_words h (r := .ok (t.word a ||| t.word b)) rfl]
    simp only [BinaryOp.apply, applied, Except.map]
    rw [ofNat_words h (v := (t.word a ||| t.word b : Nat)) rfl]
  | xor =>
    cases means
    rw [arith_of_words h (r := .ok (t.word a ^^^ t.word b)) rfl]
    simp only [BinaryOp.apply, applied, Except.map]
    rw [ofNat_words h (v := (t.word a ^^^ t.word b : Nat)) rfl]
  | eq | ne | lt | le | gt | ge => cases means

/-- The machine compares the bytes as the operator compares the values. -/
theorem compare_encode (isComparison : op.isComparison = true) (fa : t.Fits a) (fb : t.Fits b) :
    ∃ truth, compare (op.pred t) t.shape (t.encode a) (t.encode b) = .ok truth ∧
      op.apply t a b = some truth.toInt := by
  have plain := isFloat_of_isInteger h
  have equal : (t.word a == t.word b) = decide (a = b) := by
    rw [Bool.eq_iff_iff, beq_iff_eq, decide_eq_true_iff]
    exact ⟨word_inj fa fb, fun eq => eq ▸ rfl⟩
  have words : ∀ p : Pred, p.isFloat = false →
      compare p t.shape (t.encode a) (t.encode b) = .ok (compareInts p t.bits (t.word a) (t.word b)) := by
    intro p hp
    simp only [compare, hp, bitsOf_shape h, word_encode h, bind, Except.bind]
    rfl
  cases signed : t.isSigned with
  | true =>
    have wa := signedOf_word h signed fa
    have wb := signedOf_word h signed fb
    cases op <;> first
      | cases isComparison; done
      | (simp only [BinaryOp.pred, plain, signed]
         refine ⟨_, words _ rfl, ?_⟩
         simp [BinaryOp.apply, compareInts, bne, wa, wb, equal])
  | false =>
    have wa := word_of_fits signed fa
    have wb := word_of_fits signed fb
    have lt : t.word a < t.word b ↔ a < b := by omega
    have le : t.word a ≤ t.word b ↔ a ≤ b := by omega
    have gt : t.word b < t.word a ↔ b < a := by omega
    have ge : t.word b ≤ t.word a ↔ b ≤ a := by omega
    cases op <;> first
      | cases isComparison; done
      | (simp only [BinaryOp.pred, plain, signed]
         refine ⟨_, words _ rfl, ?_⟩
         simp [BinaryOp.apply, compareInts, bne, equal, lt, le, gt, ge])

end Machine

end FlowIR

import Mathlib.Algebra.Order.Field.Rat
import Mathlib.Data.Rat.Cast.Order
import Mathlib.Tactic.Ring
import TaggedSum.Proofs.Wire.Slot

namespace TaggedSum

namespace Binary64

variable {x : Binary64} {i : Int}

def toRat (x : Binary64) : ℚ := (if x.negative then -1 else 1) * x.significand * 2 ^ x.exponent

/-- The numerator of the double, with its sign. -/
def signedNum (x : Binary64) : Int := if x.negative then -x.num else x.num

theorem den_pos (x : Binary64) : 0 < x.den := Nat.pow_pos (by decide)

/-- A power of two has its factors above or below the line. -/
theorem zpow_eq_div (e : Int) : (2 : ℚ) ^ e = (pow2 e.toNat : ℚ) / (pow2 (-e).toNat : ℚ) := by
  have hpow (k : Nat) : (pow2 k : ℚ) = 2 ^ k := Nat.cast_pow 2 k
  rw [hpow, hpow]
  cases e with
  | ofNat k => simp
  | negSucc k => simp [zpow_negSucc, Int.neg_negSucc]

theorem toRat_eq (x : Binary64) : x.toRat = x.signedNum / x.den := by
  rw [toRat, zpow_eq_div, signedNum, den, num]
  split <;> push_cast <;> ring

theorem toRat_eq_intCast_iff : x.toRat = i ↔ x.signedNum = i * x.den := by
  have hden : (x.den : ℚ) ≠ 0 := Nat.cast_ne_zero.mpr x.den_pos.ne'
  rw [toRat_eq, div_eq_iff hden]
  exact_mod_cast Iff.rfl

theorem natAbs_signedNum (x : Binary64) : x.signedNum.natAbs = x.num := by
  rw [signedNum]
  split <;> simp

/-- The double has no fraction. -/
theorem mod_eq_zero_iff : x.num % x.den = 0 ↔ ∃ i : Int, x.signedNum = i * x.den := by
  rw [← Nat.dvd_iff_mod_eq_zero, ← natAbs_signedNum, ← Int.natCast_dvd]
  exact exists_congr fun i => by rw [Int.mul_comm]

theorem toInt?_eq_some_iff : x.toInt? = some i ↔ x.signedNum = i * x.den := by
  have hden : (x.den : Int) ≠ 0 := Int.natCast_ne_zero.mpr x.den_pos.ne'
  by_cases h : x.num % x.den = 0
  · have hnum : ((x.num / x.den : Nat) : Int) * x.den = x.num := by
      exact_mod_cast Nat.div_mul_cancel (Nat.dvd_of_mod_eq_zero h)
    have hint : (if x.negative then -((x.num / x.den : Nat) : Int) else (x.num / x.den : Nat)) *
        x.den = x.signedNum := by
      rw [signedNum, ← hnum]
      split <;> ring
    rw [toInt?, if_pos h, ← hint, Int.mul_eq_mul_right_iff hden, Option.some.injEq]
  · have hno : ¬x.signedNum = i * x.den := fun hi => h (mod_eq_zero_iff.mpr ⟨i, hi⟩)
    simp [toInt?, h, hno]

end Binary64

namespace Number

def toRat : Number → ℚ
  | integer n => n
  | double x => x.toRat

theorem toInt?_eq_some_iff {n : Number} {i : Int} : n.toInt? = some i ↔ n.toRat = i := by
  cases n with
  | integer m => simp [toInt?, toRat]
  | double x => exact Binary64.toInt?_eq_some_iff.trans Binary64.toRat_eq_intCast_iff.symm

end Number

/-- An integer of 64 bits, signed or not. -/
inductive Word where
  | signed (n : Int64)
  | unsigned (n : UInt64)

def Word.toInt : Word → Int
  | signed n => n.toInt
  | unsigned n => n.toNat

namespace Binary64

variable {x : Binary64} {i : Int}

/-- The double is at least `lower`, and less than `upper`. -/
def within (lower upper : Int) (x : Binary64) : Bool :=
  lower * x.den ≤ x.signedNum && x.signedNum < upper * x.den

/-- The double without its fraction. -/
def truncated (x : Binary64) : Int := x.signedNum.tdiv x.den

/-- A double without a fraction, in the signed format if it lies within its bounds, else in the
unsigned one. What lies beyond the bounds of a format is converted to the nearer of them. -/
def word? (x : Binary64) : Option Word :=
  if x.num % x.den ≠ 0 then none
  else if x.within (-2 ^ 63) (2 ^ 63) then some (.signed (.ofIntClamp x.truncated))
  else if x.within 0 (2 ^ 64) then some (.unsigned (.ofNatClamp x.truncated.toNat))
  else none

end Binary64

/-- An integer in the first format that holds it, and a double if it converts to one. -/
def Number.word? : Number → Option Word
  | integer n =>
    if -2 ^ 63 ≤ n ∧ n < 2 ^ 63 then some (.signed (.ofInt n))
    else if 0 ≤ n ∧ n < 2 ^ 64 then some (.unsigned (.ofNat n.toNat))
    else none
  | double x => x.word?

theorem Binary64.within_iff {x : Binary64} {i lower upper : Int} (h : x.signedNum = i * x.den) :
    x.within lower upper ↔ lower ≤ i ∧ i < upper := by
  have hden : (0 : Int) < x.den := Int.natCast_pos.mpr x.den_pos
  simp only [within, h, Bool.and_eq_true, decide_eq_true_eq, Int.mul_le_mul_right hden,
    Int.mul_lt_mul_right hden]

/-- The integers that one of the formats holds. -/
def Word.holds (i : Int) : Bool := -2 ^ 63 ≤ i && i < 2 ^ 64

namespace Number

variable {n : Number} {i : Int}

theorem toInt_word?_integer (i : Int) :
    (integer i).word?.map Word.toInt = if Word.holds i then some i else none := by
  have hholds : Word.holds i ↔ -2 ^ 63 ≤ i ∧ i < 2 ^ 64 := by simp [Word.holds]
  rw [word?]
  by_cases hs : -2 ^ 63 ≤ i ∧ i < 2 ^ 63
  · rw [if_pos hs, if_pos (hholds.mpr ⟨hs.1, by omega⟩)]
    exact congrArg some (Int64.toInt_ofInt_of_le hs.1 hs.2)
  rw [if_neg hs]
  by_cases hu : 0 ≤ i ∧ i < 2 ^ 64
  · rw [if_pos hu, if_pos (hholds.mpr ⟨by omega, hu.2⟩)]
    have hn : i.toNat < UInt64.size := show i.toNat < 2 ^ 64 by omega
    have : ((UInt64.ofNat i.toNat).toNat : Int) = i := by
      rw [UInt64.toNat_ofNat_of_lt' hn, Int.toNat_of_nonneg hu.1]
    exact congrArg some this
  · rw [if_neg hu, if_neg (fun h => by have := hholds.mp h; omega)]
    rfl

/-- The conversion of a double without a fraction is that of the integer. -/
theorem word?_double {x : Binary64} (h : x.toInt? = some i) :
    (double x).word?.map Word.toInt = (integer i).word?.map Word.toInt := by
  have hi := Binary64.toInt?_eq_some_iff.mp h
  have hden : (x.den : Int) ≠ 0 := Int.natCast_ne_zero.mpr x.den_pos.ne'
  have ht : x.truncated = i := by rw [Binary64.truncated, hi, Int.mul_tdiv_cancel _ hden]
  have hmod : ¬x.num % x.den ≠ 0 := not_not.mpr (Binary64.mod_eq_zero_iff.mpr ⟨i, hi⟩)
  simp only [word?, Binary64.word?, if_neg hmod, Binary64.within_iff hi, ht]
  by_cases hs : -2 ^ 63 ≤ i ∧ i < 2 ^ 63
  · rw [if_pos hs, if_pos hs]
    have hmin : Int64.minValue.toInt ≤ i := hs.1
    have hmax : i ≤ Int64.maxValue.toInt := Int.le_sub_one_of_lt hs.2
    have hclamp : (Int64.ofIntClamp i).toInt = (Int64.ofInt i).toInt := by
      rw [Int64.toInt_ofIntClamp hmin hmax, Int64.toInt_ofInt_of_le hs.1 hs.2]
    exact congrArg some hclamp
  rw [if_neg hs, if_neg hs]
  by_cases hu : 0 ≤ i ∧ i < 2 ^ 64
  · rw [if_pos hu, if_pos hu]
    have hn : i.toNat < UInt64.size := show i.toNat < 2 ^ 64 by omega
    rw [UInt64.ofNatClamp_eq_ofNat _ hn]
  · rw [if_neg hu, if_neg hu]

/-- A number is held by a format exactly if it denotes one of its integers, which is kept. -/
theorem toInt_word? (n : Number) : n.word?.map Word.toInt = n.toInt?.filter Word.holds := by
  cases n with
  | integer i => rw [toInt_word?_integer, toInt?, Option.filter_some]
  | double x =>
    rw [toInt?]
    cases h : x.toInt? with
    | none =>
      have hmod : x.num % x.den ≠ 0 := by
        intro hmod
        obtain ⟨i, hi⟩ := Binary64.mod_eq_zero_iff.mp hmod
        rw [Binary64.toInt?_eq_some_iff.mpr hi] at h
        cases h
      rw [word?, Binary64.word?, if_pos hmod]
      rfl
    | some i => rw [word?_double h, toInt_word?_integer, Option.filter_some]

end Number

namespace Slot

variable {fits : Int → Bool} {expected : Expected}

/-- The integer of a slot, narrowed from the format of 64 bits that holds the number. -/
def narrowed (fits : Int → Bool) (expected : Expected) (j : Json) (place : Location) :
    Except DecodeError Int :=
  match j with
  | .number n =>
    match n.word? with
    | some w => if fits w.toInt then .ok w.toInt else mismatch place expected
    | none => mismatch place expected
  | _ => mismatch place expected

/-- Narrowing loses nothing of what fits the slot. -/
theorem narrowed_eq_integer (hfits : ∀ i, fits i → Word.holds i) (j : Json) (place : Location) :
    narrowed fits expected j place = integer fits expected j place := by
  cases j with
  | number n =>
    have hn := n.toInt_word?
    simp only [narrowed, integer]
    cases hw : n.word? with
    | none =>
      rw [hw] at hn
      cases hi : n.toInt? with
      | none => rfl
      | some i =>
        rw [hi, Option.filter_some] at hn
        have hno : ¬fits i := fun hf => by simp [hfits i hf] at hn
        exact (if_neg hno).symm
    | some w =>
      rw [hw] at hn
      rw [(Option.filter_eq_some_iff.mp hn.symm).1]
  | _ => rfl

theorem holds_of_fitsSigned {w : IntWidth} {i : Int} (h : w.fitsSigned i) : Word.holds i := by
  rw [IntWidth.fitsSigned_iff] at h
  cases w <;> simp only [IntWidth.bits] at h <;> simp [Word.holds] <;> omega

theorem holds_of_fitsUnsigned {w : IntWidth} {i : Int} (h : w.fitsUnsigned i) : Word.holds i := by
  rw [IntWidth.fitsUnsigned_iff] at h
  cases w <;> simp only [IntWidth.bits] at h <;> simp [Word.holds] <;> omega

end Slot

/-- The document is a number, and the number is the integer. -/
def Json.Denotes (j : Json) (i : Int) : Prop := ∃ n, j = .number n ∧ n.toRat = i

namespace Slot

variable {α : Type} {fits : Int → Bool} {expected : Expected} {lower upper : Int}

/-- A slot of the integers from `lower` to `upper`: it gives the one that the document denotes, and
refuses every document that denotes none of them, at its place. -/
structure Exact (value : α → Int) (lower upper : Int) (expected : Expected)
    (read : Json → Location → Except DecodeError α) : Prop where
  ok_iff : ∀ j place a,
    read j place = .ok a ↔ j.Denotes (value a) ∧ lower ≤ value a ∧ value a ≤ upper
  error_iff : ∀ j place e, read j place = .error e ↔
    (∀ i, j.Denotes i → ¬(lower ≤ i ∧ i ≤ upper)) ∧ e = .typeMismatch place expected

theorem exact_integer (h : ∀ i, fits i ↔ lower ≤ i ∧ i ≤ upper) :
    Exact id lower upper expected (integer fits expected) := by
  have hok (j place i) : integer fits expected j place = .ok i ↔
      j.Denotes i ∧ lower ≤ i ∧ i ≤ upper := by
    simp only [integer_eq_ok_iff, Number.toInt?_eq_some_iff, h, Json.Denotes, ← exists_and_right,
      and_assoc]
  refine ⟨hok, fun j place e => ⟨fun he => ⟨fun i hi hb => ?_, (integer_eq_error he).2⟩, ?_⟩⟩
  · cases he.symm.trans ((hok j place i).mpr ⟨hi, hb⟩)
  · rintro ⟨hno, rfl⟩
    cases hr : integer fits expected j place with
    | ok i =>
      obtain ⟨hi, hb⟩ := (hok j place i).mp hr
      exact absurd hb (hno i hi)
    | error e => rw [(integer_eq_error hr).2]

/-- A slot of integers from zero on, read as natural numbers. -/
theorem Exact.natural {read : Json → Location → Except DecodeError Int}
    (h : Exact id 0 upper expected read) :
    Exact Int.ofNat 0 upper expected fun j place => (read j place).map Int.toNat where
  ok_iff j place n := by
    rw [Outcome.map_eq_ok]
    constructor
    · rintro ⟨i, hi, rfl⟩
      obtain ⟨hd, hl, hu⟩ := (h.ok_iff j place i).mp hi
      have hn : Int.ofNat i.toNat = i := Int.toNat_of_nonneg hl
      rw [hn]
      exact ⟨hd, hl, hu⟩
    · intro hn
      exact ⟨n, (h.ok_iff j place n).mpr hn, Int.toNat_natCast n⟩
  error_iff j place e := by rw [Outcome.map_eq_error, h.error_iff]

/-- Each slot of a width reads exactly the integers of its range, from whichever number denotes
them, also by way of the formats of 64 bits. -/
theorem integers_exact (w : IntWidth) :
    Exact id (-2 ^ (w.bits - 1)) (2 ^ (w.bits - 1) - 1) (.signed w.bits) (signed w) ∧
    Exact Int.ofNat 0 (2 ^ w.bits - 1) (.unsigned w.bits) (unsigned w) ∧
    ∀ j place, signed w j place = narrowed w.fitsSigned (.signed w.bits) j place ∧
      unsigned w j place = (narrowed w.fitsUnsigned (.unsigned w.bits) j place).map Int.toNat := by
  refine ⟨exact_integer fun i => ?signed, (exact_integer fun i => ?unsigned).natural,
    fun j place => ⟨?signedWords, ?unsignedWords⟩⟩
  case signed => rw [IntWidth.fitsSigned_iff, Int.le_sub_one_iff]
  case unsigned => rw [IntWidth.fitsUnsigned_iff, Int.le_sub_one_iff]
  case signedWords => rw [narrowed_eq_integer fun _ => holds_of_fitsSigned, signed]
  case unsignedWords => rw [narrowed_eq_integer fun _ => holds_of_fitsUnsigned, unsigned]

/-- `2 ^ 63` is just beyond the signed integers and `-2 ^ 63` is not; minus zero is zero. -/
example : signed .w64 (.number (.double ⟨false, pow2 52, 11⟩)) .payload =
      .error (.typeMismatch .payload (.signed 64)) ∧
    signed .w64 (.number (.double ⟨true, pow2 52, 11⟩)) .payload = .ok (-2 ^ 63) ∧
    unsigned .w64 (.number (.double ⟨false, pow2 52, 11⟩)) .payload = .ok (2 ^ 63) ∧
    unsigned .w8 (.number (.double (.zero true))) .payload = .ok 0 := by decide +kernel

end Slot

end TaggedSum

import MoonGen.Lib.Rounding

/-! # Words and integers

Arithmetic on signed words, and on unsigned ones that are read as signed, is exact as
long as the result has a sign and 63 bits. A negative integer does not fit an unsigned
word, and neither does a negative number once its fraction is cut off.
-/

namespace MoonGen

theorem toInt_sub_toInt64 {a b : UInt64} (hlow : -2 ^ 63 ≤ (a.toNat : Int) - b.toNat)
    (hhigh : (a.toNat : Int) - b.toNat < 2 ^ 63) :
    (a - b).toInt64.toInt = (a.toNat : Int) - b.toNat := by
  have ha := a.toNat_lt
  have hb := b.toNat_lt
  have hbits : (a - b).toInt64.toInt = (a - b).toBitVec.toInt := rfl
  rw [hbits, BitVec.toInt_eq_toNat_bmod, UInt64.toNat_toBitVec, UInt64.toNat_sub, Int.bmod_def]
  push_cast
  omega

theorem bmod_of_signed {z : Int} (hlow : -2 ^ 63 ≤ z) (hhigh : z < 2 ^ 63) :
    z.bmod (2 ^ 64) = z := by
  apply Int.bmod_eq_of_le
  · push_cast
    omega
  · push_cast
    omega

theorem toInt_toInt64 {a : UInt64} (h : a.toNat < 2 ^ 63) : a.toInt64.toInt = a.toNat := by
  have hbits : a.toInt64.toInt = a.toBitVec.toInt := rfl
  rw [hbits, BitVec.toInt_eq_toNat_bmod, UInt64.toNat_toBitVec]
  exact bmod_of_signed (by omega) (by omega)

/-! ## Integers stored in an unsigned word -/

theorem toNat_ofInt_uint64 (z : Int) : ((UInt64.ofInt z).toNat : Int) = z % 2 ^ 64 := by
  rw [UInt64.ofInt, UInt64.toNat_ofNat']
  omega

theorem toNat_ofInt_of_neg {z : Int} (hneg : z < 0) (hlow : -2 ^ 64 ≤ z) :
    ((UInt64.ofInt z).toNat : Int) = 2 ^ 64 + z := by
  rw [toNat_ofInt_uint64]
  omega

theorem toNat_ofInt_le {z : Int} (hz : 0 ≤ z) : ((UInt64.ofInt z).toNat : Int) ≤ z := by
  rw [toNat_ofInt_uint64]
  omega

/-! ## Numbers stored in an unsigned word -/

section Numbers

variable {R : Type u} [CommRing R] [LinearOrder R] [FloorRing R]

/-- A number with a sign and a fraction, given where an unsigned word is expected. -/
def numberToUint64 (x : R) : UInt64 := UInt64.ofInt (towardZero x)

theorem toNat_numberToUint64 {x : R} (hnonneg : 0 ≤ x) (hlt : x < 2 ^ 64) :
    ((numberToUint64 x).toNat : Int) = ⌊x⌋ := by
  have hlow : 0 ≤ ⌊x⌋ := Int.floor_nonneg.mpr hnonneg
  have hhigh : ⌊x⌋ < 2 ^ 64 := Int.floor_lt.mpr (by exact_mod_cast hlt)
  rw [numberToUint64, toNat_ofInt_uint64, towardZero, if_pos hnonneg]
  exact Int.emod_eq_of_lt hlow hhigh

variable [IsStrictOrderedRing R]

theorem numberToUint64_le_max {x : R} (h : -1 < x) : ((numberToUint64 x).toNat : R) ≤ max 0 x := by
  have hle : ((numberToUint64 x).toNat : Int) ≤ towardZero x := toNat_ofInt_le (towardZero_nonneg h)
  have hcast : ((numberToUint64 x).toNat : R) ≤ towardZero x := by exact_mod_cast hle
  exact hcast.trans (towardZero_le_max x)

theorem numberToUint64_ne_zero {x : R} (h : x ≤ -1) (hlow : -2 ^ 64 < x) : numberToUint64 x ≠ 0 := by
  rcases towardZero_of_le_neg_one h with ⟨hneg, hle⟩
  have hbound : ((-2 ^ 64 : Int) : R) = -2 ^ 64 := by norm_num
  have hlow : -2 ^ 64 < towardZero x := Int.cast_lt.mp (hbound.trans_lt (hlow.trans_le hle))
  have hword : ((numberToUint64 x).toNat : Int) = 2 ^ 64 + towardZero x :=
    toNat_ofInt_of_neg (by omega) hlow.le
  intro hzero
  rw [hzero, UInt64.toNat_zero] at hword
  omega

end Numbers

end MoonGen

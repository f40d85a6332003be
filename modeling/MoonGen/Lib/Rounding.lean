import Mathlib.Algebra.Order.Floor.Ring
import Mathlib.Algebra.Order.Group.Abs
import Mathlib.Algebra.Order.Ring.Int

/-! # Rounding towards zero

A conversion to an integer cuts off the fraction. To round to a multiple by a truncating
division, half of the step is added to a positive number and taken from a negative one,
and the division does the rest.
-/

namespace MoonGen

def roundAway (s v : Int) : Int :=
  (if 0 < v then v + s / 2 else if v < 0 then v - s / 2 else v).tdiv s * s

theorem dvd_roundAway (s v : Int) : s ∣ roundAway s v := Int.dvd_mul_left _ _

theorem roundAway_of_nonneg {s : Int} (hs : 0 < s) {v : Int} (hv : 0 ≤ v) :
    roundAway s v = (v + s / 2) / s * s := by
  unfold roundAway
  by_cases hpos : 0 < v
  · rw [if_pos hpos, Int.tdiv_eq_ediv_of_nonneg (by omega)]
  · have hzero : v = 0 := by omega
    rw [hzero, if_neg (by omega), if_neg (by omega), Int.zero_tdiv, Int.zero_add,
      Int.ediv_eq_zero_of_lt (by omega) (by omega)]

theorem roundAway_neg (s v : Int) : roundAway s (-v) = -roundAway s v := by
  unfold roundAway
  rw [← Int.neg_mul, ← Int.neg_tdiv]
  congr 2
  by_cases hpos : 0 < v
  · rw [if_pos hpos, if_neg (by omega), if_pos (by omega)]
    omega
  · by_cases hneg : v < 0
    · rw [if_pos (by omega), if_neg hpos, if_pos hneg]
      omega
    · rw [if_neg (by omega), if_neg (by omega), if_neg hpos, if_neg hneg]

theorem roundAway_nonneg {s : Int} (hs : 0 < s) {v : Int} (hv : 0 ≤ v) : 0 ≤ roundAway s v := by
  rw [roundAway_of_nonneg hs hv]
  exact Int.mul_nonneg (Int.ediv_nonneg (by omega) hs.le) hs.le

/-- Half of a step is rounded down here, so an odd step needs no fraction. -/
theorem abs_sub_roundAway_le {s : Int} (hs : 0 < s) (v : Int) : |v - roundAway s v| ≤ s / 2 := by
  have hnonneg (w : Int) (hw : 0 ≤ w) : |w - roundAway s w| ≤ s / 2 := by
    have hdiv := Int.ediv_mul_add_emod (w + s / 2) s
    have hlow := Int.emod_nonneg (w + s / 2) hs.ne'
    have hhigh := Int.emod_lt_of_pos (w + s / 2) hs
    rw [roundAway_of_nonneg hs hw, abs_le]
    omega
  rcases Int.le_total 0 v with hv | hv
  · exact hnonneg v hv
  · have hminus := hnonneg (-v) (by omega)
    rw [roundAway_neg, neg_sub_neg, abs_sub_comm] at hminus
    exact hminus

theorem roundAway_mono {s : Int} (hs : 0 < s) {v w : Int} (h : v ≤ w) :
    roundAway s v ≤ roundAway s w := by
  have hnonneg {v w : Int} (hv : 0 ≤ v) (h : v ≤ w) : roundAway s v ≤ roundAway s w := by
    rw [roundAway_of_nonneg hs hv, roundAway_of_nonneg hs (hv.trans h)]
    apply Int.mul_le_mul_of_nonneg_right _ hs.le
    exact Int.ediv_le_ediv hs (by omega)
  rcases Int.le_total 0 v with hv | hv
  · exact hnonneg hv h
  · rcases Int.le_total 0 w with hw | hw
    · have hleft := roundAway_nonneg hs (show 0 ≤ -v by omega)
      have hright := roundAway_nonneg hs hw
      rw [roundAway_neg] at hleft
      omega
    · have hminus := hnonneg (show 0 ≤ -w by omega) (show -w ≤ -v by omega)
      rw [roundAway_neg, roundAway_neg] at hminus
      omega

/-! ## The fraction of a number -/

section TowardZero

variable {R : Type u} [CommRing R] [LinearOrder R] [FloorRing R]

def towardZero (x : R) : Int := if 0 ≤ x then ⌊x⌋ else ⌈x⌉

theorem towardZero_nonneg {x : R} (h : -1 < x) : 0 ≤ towardZero x := by
  unfold towardZero
  split
  · exact Int.floor_nonneg.mpr ‹_›
  · exact Int.ceil_nonneg_of_neg_one_lt h

variable [IsStrictOrderedRing R]

theorem towardZero_le_max (x : R) : (towardZero x : R) ≤ max 0 x := by
  unfold towardZero
  split
  · exact (Int.floor_le x).trans (le_max_right 0 x)
  · rename_i hneg
    have hceil : ⌈x⌉ ≤ 0 := Int.ceil_le.mpr (by simpa using (not_le.mp hneg).le)
    exact (Int.cast_nonpos.mpr hceil).trans (le_max_left 0 x)

theorem towardZero_of_le_neg_one {x : R} (h : x ≤ -1) : towardZero x ≤ -1 ∧ x ≤ towardZero x := by
  have hneg : ¬ 0 ≤ x := not_le.mpr (h.trans_lt neg_one_lt_zero)
  rw [towardZero, if_neg hneg]
  exact ⟨Int.ceil_le.mpr (by simpa using h), Int.le_ceil x⟩

end TowardZero

end MoonGen

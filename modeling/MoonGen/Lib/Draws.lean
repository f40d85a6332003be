import Mathlib.Order.Interval.Finset.Nat

/-! # Counting the draws of a decision

A decision made by comparing one uniform draw below `N` with cumulative
thresholds. The number of draws behind each outcome is its probability times `N`.
-/

namespace MoonGen.Draws

variable {τ : Type*} [DecidableEq τ]

def count (N : ℕ) (f : ℕ → τ) (t : τ) : ℕ := ((Finset.range N).filter fun n => f n = t).card

/-- Three outcomes, separated by two thresholds that need not be in order. -/
def bands (s m : ℕ) (u v w : τ) (n : ℕ) : τ := if n < s then u else if n < m then v else w

theorem count_congr {N : ℕ} {f g : ℕ → τ} (h : ∀ n < N, f n = g n) (t : τ) :
    count N f t = count N g t := by
  unfold count
  congr 1
  apply Finset.filter_congr
  intro n hn
  rw [h n (Finset.mem_range.mp hn)]

theorem count_eq_sub {N a b : ℕ} {f : ℕ → τ} {t : τ} (hb : b ≤ N)
    (h : ∀ n < N, f n = t ↔ a ≤ n ∧ n < b) : count N f t = b - a := by
  rw [← Nat.card_Ico a b, count]
  congr 1
  ext n
  rw [Finset.mem_filter, Finset.mem_range, Finset.mem_Ico]
  constructor
  · rintro ⟨hn, ht⟩
    exact (h n hn).mp ht
  · intro hn
    have hlt : n < N := by omega
    exact ⟨hlt, (h n hlt).mpr hn⟩

section Bands

variable {N s m : ℕ} {u v w : τ}

theorem count_bands_second (hm : m ≤ N) (huv : u ≠ v) (hwv : w ≠ v) :
    count N (bands s m u v w) v = m - s := by
  apply count_eq_sub hm
  intro n _
  unfold bands
  by_cases hs : n < s
  · simp only [if_pos hs, huv, false_iff]
    omega
  · by_cases hlt : n < m
    · simp only [if_neg hs, if_pos hlt, true_iff]
      omega
    · simp only [if_neg hs, if_neg hlt, hwv, false_iff]
      omega

theorem count_bands_third (huw : u ≠ w) (hvw : v ≠ w) :
    count N (bands s m u v w) w = N - max s m := by
  apply count_eq_sub (Nat.le_refl N)
  intro n hn
  unfold bands
  by_cases hs : n < s
  · simp only [if_pos hs, huw, false_iff]
    omega
  · by_cases hlt : n < m
    · simp only [if_neg hs, if_pos hlt, hvw, false_iff]
      omega
    · simp only [if_neg hs, if_neg hlt, true_iff]
      omega

theorem count_bands_other {t : τ} (hu : u ≠ t) (hv : v ≠ t) (hw : w ≠ t) :
    count N (bands s m u v w) t = 0 := by
  apply count_eq_sub (a := 0) (Nat.zero_le N)
  intro n _
  unfold bands
  by_cases hs : n < s
  · simp [if_pos hs, hu]
  · by_cases hlt : n < m
    · simp [if_neg hs, if_pos hlt, hv]
    · simp [if_neg hs, if_neg hlt, hw]

/-- The upper threshold is a sum kept in a word of `N` values: when the sum
reaches `N` it falls below the lower threshold and the middle band is empty. -/
theorem count_bands_wrapped {keep : ℕ} (hs : s < N) (hk : keep < N)
    (huv : u ≠ v) (huw : u ≠ w) (hvw : v ≠ w) :
    (s + keep < N ∧ count N (bands s ((s + keep) % N) u v w) v = keep ∧
        count N (bands s ((s + keep) % N) u v w) w = N - s - keep) ∨
      (N ≤ s + keep ∧ count N (bands s ((s + keep) % N) u v w) v = 0 ∧
        count N (bands s ((s + keep) % N) u v w) w = N - s) := by
  have hm : (s + keep) % N < N := Nat.mod_lt _ (by omega)
  rw [count_bands_second hm.le huv hvw.symm, count_bands_third huw hvw]
  by_cases hsum : s + keep < N
  · left
    rw [Nat.mod_eq_of_lt hsum]
    omega
  · right
    have hwrap : (s + keep) % N = s + keep - N := by
      rw [Nat.mod_eq_sub_mod (by omega), Nat.mod_eq_of_lt (by omega)]
    rw [hwrap]
    omega

end Bands

end MoonGen.Draws

import Mathlib.Algebra.Order.Ring.Nat

/-! # Events that keep a distance

Of events that come no faster than one in a period, counted from a start, only so many fit
before a given time.
-/

namespace MoonGen

def NoFaster (start period : Nat) (times : List Nat) : Prop :=
  ∀ i t, times[i]? = some t → start + i * period ≤ t

namespace NoFaster

variable {start period : Nat} {times : List Nat}

theorem nil (start period : Nat) : NoFaster start period [] := by
  intro i t h
  simp at h

theorem snoc (h : NoFaster start period times) {t : Nat}
    (ht : start + times.length * period ≤ t) : NoFaster start period (times ++ [t]) := by
  intro i t' hi
  by_cases hlt : i < times.length
  · rw [List.getElem?_append_left hlt] at hi
    exact h i t' hi
  · rw [List.getElem?_append_right (Nat.not_lt.mp hlt), List.getElem?_singleton] at hi
    split at hi
    · rename_i hzero
      have hlast : i = times.length := by omega
      rw [← Option.some.inj hi, hlast]
      exact ht
    · cases hi

/-- At most one event in a period, and one more. -/
theorem countP_le (h : NoFaster start period times) (hperiod : 0 < period) (t : Nat) :
    times.countP (fun time => time ≤ t) ≤ (t - start) / period + 1 := by
  let n := (t - start) / period + 1
  have hlate : (times.drop n).countP (fun time => time ≤ t) = 0 := by
    rw [List.countP_eq_zero]
    intro time hmem
    rcases List.mem_iff_getElem?.mp hmem with ⟨i, hi⟩
    rw [List.getElem?_drop] at hi
    have hearliest := h (n + i) time hi
    have hperiods : t - start < n * period := by
      have hdiv := Nat.div_add_mod (t - start) period
      have hmod := Nat.mod_lt (t - start) hperiod
      rw [Nat.mul_comm] at hdiv
      rw [Nat.succ_mul]
      omega
    have hmore : n * period ≤ (n + i) * period := Nat.mul_le_mul_right _ (Nat.le_add_right n i)
    simp only [decide_eq_true_eq]
    omega
  have hsplit : times.countP (fun time => time ≤ t) =
      (times.take n).countP (fun time => time ≤ t) +
        (times.drop n).countP (fun time => time ≤ t) := by
    rw [← List.countP_append, List.take_append_drop]
  have htake := List.countP_le_length (p := fun time => decide (time ≤ t)) (l := times.take n)
  rw [List.length_take] at htake
  rw [hsplit, hlate]
  exact htake.trans (Nat.min_le_left _ _)

end NoFaster

end MoonGen

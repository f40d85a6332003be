import Mathlib.Algebra.Order.Ring.Nat
import Mathlib.Data.Nat.ModEq
import Mathlib.Logic.Function.Iterate

/-! # Functions with hidden state

A closure returns a value and changes the variables that it has captured. `nth` is what its
`n`-th call returns. Many closures run through a cycle of states; the rule for them asks
what a call does in each phase of the cycle, and says in which phase a later call is.
-/

namespace MoonGen.Closure

variable {σ : Type u} {α : Type v}

def after (call : σ → α × σ) (s : σ) (n : Nat) : σ := (fun s => (call s).2)^[n] s

/-- What the `n`-th call returns; the first one has number 1. -/
def nth (call : σ → α × σ) (s : σ) (n : Nat) : α := (call (after call s (n - 1))).1

theorem after_succ (call : σ → α × σ) (s : σ) (n : Nat) :
    after call s (n + 1) = (call (after call s n)).2 :=
  Function.iterate_succ_apply' _ _ _

/-- A closure whose calls go through the phases `0, …, period - 1` in turn is in phase
`n % period` after `n` calls. -/
theorem after_phase {call : σ → α × σ} {period : Nat} {phase : Nat → σ → Prop}
    (hpos : 0 < period)
    (hstep : ∀ r s, r < period → phase r s → phase ((r + 1) % period) (call s).2) {s : σ}
    (h : phase 0 s) (n : Nat) : phase (n % period) (after call s n) := by
  induction n with
  | zero =>
      rw [Nat.zero_mod]
      exact h
  | succ n ih =>
      rw [after_succ, ← Nat.mod_add_mod]
      exact hstep _ _ (Nat.mod_lt n hpos) ih

/-- A cycle that is one longer shows the same phase only in its laps number `0, k, 2k, …`,
and there not at its last place. -/
theorem mod_succ_eq_mod_iff {k : Nat} (hk : 0 < k) (m : Nat) :
    m % (k + 1) = m % k ↔ m % (k + 1) ≠ k ∧ k ∣ m / (k + 1) := by
  have hm : m % k = (m / (k + 1) + m % (k + 1)) % k := by
    conv_lhs => rw [← Nat.div_add_mod m (k + 1)]
    rw [Nat.succ_mul, Nat.add_assoc, Nat.mul_add_mod]
  have hlt : m % (k + 1) < k + 1 := Nat.mod_lt m (Nat.succ_pos k)
  by_cases hlast : m % (k + 1) = k
  · have hother := Nat.mod_lt m hk
    omega
  · have hphase : m % (k + 1) % k = m % (k + 1) := Nat.mod_eq_of_lt (by omega)
    constructor
    · intro heq
      refine ⟨hlast, ?_⟩
      have hmod : 0 + m % (k + 1) ≡ m / (k + 1) + m % (k + 1) [MOD k] := by
        rw [Nat.zero_add, Nat.ModEq, ← hm, hphase, heq]
      exact (Nat.modEq_zero_iff_dvd).mp (Nat.ModEq.add_right_cancel' _ hmod).symm
    · rintro ⟨_, hdvd⟩
      rw [hm, Nat.add_mod, Nat.mod_eq_zero_of_dvd hdvd, Nat.zero_add, hphase, hphase]

end MoonGen.Closure

import Mathlib.Algebra.BigOperators.Group.List.Basic
import Mathlib.Algebra.CharZero.Defs
import Mathlib.Algebra.Field.Basic
import Mathlib.Data.Nat.Cast.Field
import Mathlib.Tactic.FieldSimp
import Mathlib.Tactic.Ring

/-! # Online mean and variance

`Moments.push` takes one more sample into a running count, mean and sum of
squared deviations. In exact arithmetic the three are those of the list of
samples seen so far, whatever their order.
-/

namespace MoonGen

structure Moments (K : Type u) where
  count : Nat
  mean : K
  m2 : K
deriving Repr, DecidableEq

namespace Moments

variable {K : Type u} [Field K]

def zero : Moments K := ⟨0, 0, 0⟩

def push (m : Moments K) (x : K) : Moments K :=
  let count := m.count + 1
  let delta := x - m.mean
  let mean := m.mean + delta / count
  let delta2 := x - mean
  ⟨count, mean, m.m2 + delta * delta2⟩

def sqDev (a : K) (xs : List K) : K := (xs.map fun x => (x - a) ^ 2).sum

structure Of (xs : List K) (m : Moments K) : Prop where
  count_eq : m.count = xs.length
  sum_eq : (m.count : K) * m.mean = xs.sum
  m2_eq : m.m2 = sqDev m.mean xs

theorem of_zero : Of ([] : List K) zero := by
  refine ⟨rfl, ?_, rfl⟩
  simp [zero]

theorem sqDev_shift (a b : K) (xs : List K) :
    sqDev a xs = sqDev b xs + 2 * (b - a) * (xs.sum - xs.length * b) + xs.length * (b - a) ^ 2 := by
  induction xs with
  | nil => simp [sqDev]
  | cons x rest ih =>
      simp only [sqDev, List.map_cons, List.sum_cons, List.length_cons] at ih ⊢
      rw [ih]
      push_cast
      ring

theorem sqDev_append (a : K) (xs ys : List K) : sqDev a (xs ++ ys) = sqDev a xs + sqDev a ys := by
  simp [sqDev]

theorem Of.push [CharZero K] {xs : List K} {m : Moments K} (h : Of xs m) (x : K) :
    Of (xs ++ [x]) (m.push x) := by
  have hne : (m.count : K) + 1 ≠ 0 := Nat.cast_add_one_ne_zero m.count
  have hmean : ((m.count : K) + 1) * (m.push x).mean = xs.sum + x := by
    rw [← h.sum_eq]
    simp only [Moments.push]
    push_cast
    field_simp
    ring
  refine ⟨?_, ?_, ?_⟩
  · simp [Moments.push, h.count_eq]
  · rw [List.sum_append, List.sum_singleton, ← hmean]
    simp [Moments.push]
  · -- deviations from the new mean, through those from the old one
    rw [sqDev_append, sqDev_shift _ m.mean xs, ← h.m2_eq, ← h.sum_eq, ← h.count_eq]
    simp only [sqDev, Moments.push, List.map_cons, List.map_nil, List.sum_singleton]
    push_cast
    field_simp
    ring

theorem of_foldl [CharZero K] (xs : List K) : Of xs (xs.foldl Moments.push zero) := by
  suffices h : ∀ (seen : List K) (m : Moments K), Of seen m →
      Of (seen ++ xs) (xs.foldl Moments.push m) from h [] zero of_zero
  induction xs with
  | nil =>
      intro seen m h
      simpa using h
  | cons x rest ih =>
      intro seen m h
      have hrest := ih (seen ++ [x]) (m.push x) (h.push x)
      rwa [List.append_assoc, List.singleton_append] at hrest

/-! ## Mean and variance of a list -/

def average (xs : List K) : K := xs.sum / xs.length

def sampleVariance (xs : List K) : K := sqDev (average xs) xs / (xs.length - 1)

theorem Of.mean_eq [CharZero K] {xs : List K} {m : Moments K} (h : Of xs m) (hne : xs ≠ []) :
    m.mean = average xs := by
  have hlength : (xs.length : K) ≠ 0 := by
    rw [Nat.cast_ne_zero]
    exact List.length_eq_zero_iff.not.mpr hne
  rw [average, ← h.sum_eq, h.count_eq, mul_div_cancel_left₀ _ hlength]

theorem sqDev_perm (a : K) {xs ys : List K} (h : xs.Perm ys) : sqDev a xs = sqDev a ys :=
  (h.map _).sum_eq

theorem average_perm {xs ys : List K} (h : xs.Perm ys) : average xs = average ys := by
  rw [average, average, h.sum_eq, h.length_eq]

theorem sampleVariance_perm {xs ys : List K} (h : xs.Perm ys) :
    sampleVariance xs = sampleVariance ys := by
  rw [sampleVariance, sampleVariance, average_perm h, sqDev_perm _ h, h.length_eq]

end Moments

end MoonGen

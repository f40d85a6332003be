import Mathlib.Algebra.Order.Ring.Int
import MoonGen.Lib.Closure

/-! # The value generators of a flow configuration

The embedding of `configenv/range.lua`: the closures that `range` and `list` return, which
a dynamic field of a packet calls for its next value. Both run through a cycle. `list` tests
its index after it has moved on; `range` tests its value before, and so each of its laps has
one value more than the range.
-/

namespace MoonGen.Interface.Env

open Closure

structure Range where
  start : Int
  limit : Option Int
  step : Int
  v : Int
deriving Repr, DecidableEq

def range (start : Int) (limit step : Option Int) : Range :=
  let step := step.getD 1
  ⟨start, limit, step, start - step⟩

namespace Range

def call (r : Range) : Int × Range :=
  match r.limit with
  | none =>
      let v := r.v + r.step
      (v, { r with v := v })
  | some limit =>
      let v := if r.v > limit then r.start else r.v + r.step
      (v, { r with v := v })

def size (start limit step : Int) : Nat := ((limit - start) / step).toNat + 1

@[simp] theorem call_snd (r : Range) : r.call.2 = { r with v := r.call.1 } := by
  rcases r with ⟨start, limit, step, v⟩
  cases limit with
  | none => rfl
  | some limit => rfl

section Limited

variable {start limit step : Int}

theorem size_le_iff (hle : start ≤ limit) (hstep : 1 ≤ step) (r : Nat) :
    size start limit step ≤ r ↔ limit < start + r * step := by
  have hdiv : 0 ≤ (limit - start) / step := Int.ediv_nonneg (by omega) (by omega)
  have hmul : (r : Int) ≤ (limit - start) / step ↔ r * step ≤ limit - start :=
    Int.le_ediv_iff_mul_le (by omega)
  unfold size
  omega

/-- The closure is about to return the value at position `r` of its lap. -/
structure At (start : Int) (limit : Option Int) (step : Int) (r : Nat) (s : Range) : Prop where
  start_eq : s.start = start
  limit_eq : s.limit = limit
  step_eq : s.step = step
  value : s.call.1 = start + r * step

theorem At.call {r : Nat} {s : Range} (hle : start ≤ limit) (hstep : 1 ≤ step)
    (hr : r < size start limit step + 1) (h : At start (some limit) step r s) :
    At start (some limit) step ((r + 1) % (size start limit step + 1)) s.call.2 := by
  rcases h with ⟨hstart, hlimit, hs, hvalue⟩
  refine ⟨?_, ?_, ?_, ?_⟩
  · rw [call_snd]
    exact hstart
  · rw [call_snd]
    exact hlimit
  · rw [call_snd]
    exact hs
  · rw [call_snd, hvalue]
    simp only [Range.call, hlimit, hstart, hs]
    have hover := size_le_iff hle hstep r
    by_cases hlast : limit < start + r * step
    · have hr' : r = size start limit step := by
        have := hover.mpr hlast
        omega
      rw [if_pos hlast, hr', Nat.mod_self]
      simp
    · have hr' : r + 1 < size start limit step + 1 := by
        have := fun h => hlast (hover.mp h)
        omega
      rw [if_neg hlast, Nat.mod_eq_of_lt hr']
      push_cast
      rw [Int.add_mul, Int.one_mul, Int.add_assoc]

/-- A lap of `range` goes one step beyond the limit. -/
theorem nth_range_limit (hle : start ≤ limit) (hstep : 1 ≤ step) (n : Nat) :
    nth call (range start (some limit) (some step)) n =
      start + ((n - 1) % (size start limit step + 1) : Nat) * step := by
  have hfirst : At start (some limit) step 0 (range start (some limit) (some step)) := by
    refine ⟨rfl, rfl, rfl, ?_⟩
    have hv : ¬ start - step > limit := by omega
    simp [range, Range.call, hv]
  exact (after_phase (Nat.succ_pos _) (fun r s hr h => At.call hle hstep hr h) hfirst (n - 1)).value

theorem nth_range_unlimited (start step : Int) (n : Nat) :
    nth call (range start none (some step)) n = start + (n - 1 : Nat) * step := by
  have hstate : ∀ m : Nat, after call (range start none (some step)) m =
      ⟨start, none, step, start + m * step - step⟩ := by
    intro m
    induction m with
    | zero => simp [after, range]
    | succ m ih =>
        rw [after_succ, ih]
        simp only [Range.call, Range.mk.injEq, true_and]
        push_cast
        rw [Int.add_mul, Int.one_mul]
        omega
  rw [nth, hstate]
  simp [Range.call]

end Limited

/-- What the closure is meant to return at its `n`-th call. -/
def Cycles (start limit step : Int) (n : Nat) : Prop :=
  nth call (range start (some limit) (some step)) n =
      start + ((n - 1) % size start limit step : Nat) * step ∧
    start ≤ nth call (range start (some limit) (some step)) n ∧
    nth call (range start (some limit) (some step)) n ≤ limit

instance (start limit step : Int) (n : Nat) : Decidable (Cycles start limit step n) :=
  inferInstanceAs (Decidable (_ ∧ _ ∧ _))

theorem cycles_iff {start limit step : Int} (hle : start ≤ limit) (hstep : 1 ≤ step) (n : Nat) :
    Cycles start limit step n ↔
      (n - 1) % (size start limit step + 1) ≠ size start limit step ∧
        size start limit step ∣ (n - 1) / (size start limit step + 1) := by
  have hpos : 0 < size start limit step := Nat.succ_pos _
  rw [← mod_succ_eq_mod_iff hpos]
  simp only [Cycles, nth_range_limit hle hstep]
  constructor
  · rintro ⟨hvalue, _⟩
    have hmul := Int.add_left_cancel hvalue
    exact_mod_cast Int.eq_of_mul_eq_mul_right (by omega) hmul
  · intro hphase
    rw [hphase]
    have hlt := Nat.mod_lt (n - 1) hpos
    have hin := (size_le_iff hle hstep ((n - 1) % size start limit step)).not.mp (by omega)
    have hnonneg : 0 ≤ ((n - 1) % size start limit step : Nat) * step :=
      Int.mul_nonneg (Int.natCast_nonneg _) (by omega)
    exact ⟨rfl, by omega, by omega⟩

/-- `range` keeps to its cycle only where a lap of one value more shows the same position:
in the first lap, not at its end, and again in every lap whose number the size divides.
Without a limit it counts up. -/
theorem range_cycles_iff (start step : Int) (n : Nat) (hstep : 1 ≤ step) (hn : 1 ≤ n) :
    (∀ limit, start ≤ limit →
        (Cycles start limit step n ↔
          (n - 1) % (size start limit step + 1) ≠ size start limit step ∧
            size start limit step ∣ (n - 1) / (size start limit step + 1))) ∧
      nth call (range start none (some step)) n = start + ((n : Int) - 1) * step := by
  refine ⟨fun limit hle => cycles_iff hle hstep n, ?_⟩
  rw [nth_range_unlimited, Int.natCast_sub hn, Nat.cast_one]

theorem range_cycles_first_lap :
    Cycles 100 200 1 101 ∧ nth call (range 100 none (some 1)) 101 = 200 :=
  have h := range_cycles_iff 100 1 101 (by decide) (by decide)
  ⟨(h.1 200 (by decide)).mpr (by decide), h.2⟩

/-- The fourth value of `range(1, 3)` is 4. -/
theorem range_beyond_limit :
    nth call (range 1 (some 3) none) 4 = 4 ∧ ¬ Cycles 1 3 1 4 := by
  decide

end Range

structure ListOf (α : Type) where
  tbl : List α
  index : Nat

/-- `env.list(tbl)`; an array starts at 1. -/
def list {α : Type} (tbl : List α) : ListOf α := ⟨tbl, 1⟩

namespace ListOf

variable {α : Type}

def call (s : ListOf α) : Option α × ListOf α :=
  let v := s.tbl[s.index - 1]?
  let index := s.index + 1
  (v, { s with index := if index > s.tbl.length then 1 else index })

/-- `list` does what `range` is meant to do. -/
theorem nth_list (tbl : List α) (hne : tbl ≠ []) (n : Nat) :
    nth call (list tbl) n = tbl[(n - 1) % tbl.length]? := by
  have hpos : 0 < tbl.length := List.length_pos_iff.mpr hne
  have hstep : ∀ (r : Nat) (s : ListOf α), r < tbl.length → s = ⟨tbl, r + 1⟩ →
      s.call.2 = ⟨tbl, (r + 1) % tbl.length + 1⟩ := by
    intro r s hr hs
    subst hs
    simp only [call, ListOf.mk.injEq, true_and]
    by_cases hlast : r + 1 = tbl.length
    · rw [if_pos (by omega), hlast, Nat.mod_self]
    · rw [if_neg (by omega), Nat.mod_eq_of_lt (by omega)]
  have hstate : after call (list tbl) (n - 1) = ⟨tbl, (n - 1) % tbl.length + 1⟩ :=
    after_phase hpos hstep rfl (n - 1)
  rw [nth, hstate]
  rfl

end ListOf

end MoonGen.Interface.Env

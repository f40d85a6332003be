import Mathlib.Data.Rat.Floor
import MoonGen.Lib.Bisection
import MoonGen.Lib.Loop

/-! # The binary search of the RFC 2544 benchmarks

The embedding of `binarySearch` in `rfc2544/utils/utils.lua`, and the loop in which
both benchmarks use it: probe a value, keep it if the probe passes, ask for the
next. Limits and probed values are integers, since `math.ceil` makes every value
after the first one an integer; the threshold is any number.
-/

namespace MoonGen.Rfc2544

open Bisection Loop

/-- The answers of `dpdk.running` when nobody stops the script. -/
def Uninterrupted (running : Nat → Bool) : Prop := ∀ n, running n = true

structure BinarySearch where
  lowerLimit : Int
  upperLimit : Int
deriving Repr, DecidableEq

structure Proposal where
  value : Int
  finished : Bool
deriving Repr, DecidableEq

/-- The global variable `lowerLimit`, which nothing assigns. `next` compares with it where
it means the field of the same name. -/
def globalLowerLimit : Option Int := none

def ceilHalf (n : Int) : Int := (n + 1) / 2

namespace BinarySearch

def propose (s : BinarySearch) (curr : Int) (threshold : Rat) : Proposal :=
  let nextVal := ceilHalf (s.lowerLimit + s.upperLimit)
  if ((nextVal - curr).natAbs : Rat) < threshold then ⟨curr, true⟩ else ⟨nextVal, false⟩

def next (s : BinarySearch) (curr : Int) (top : Bool) (threshold : Rat) :
    Proposal × BinarySearch :=
  if top then
    if curr = s.upperLimit then (⟨curr, true⟩, s)
    else
      let s := { s with lowerLimit := curr }
      (s.propose curr threshold, s)
  else if some curr = globalLowerLimit then (⟨curr, true⟩, s)
  else
    let s := { s with upperLimit := curr }
    (s.propose curr threshold, s)

theorem next_top {s : BinarySearch} {curr : Int} (threshold : Rat) (h : curr ≠ s.upperLimit) :
    s.next curr true threshold =
      ((⟨curr, s.upperLimit⟩ : BinarySearch).propose curr threshold, ⟨curr, s.upperLimit⟩) := by
  simp [next, h]

theorem next_top_upper (s : BinarySearch) (threshold : Rat) :
    s.next s.upperLimit true threshold = (⟨s.upperLimit, true⟩, s) := by
  simp [next]

theorem next_not_top (s : BinarySearch) (curr : Int) (threshold : Rat) :
    s.next curr false threshold =
      ((⟨s.lowerLimit, curr⟩ : BinarySearch).propose curr threshold, ⟨s.lowerLimit, curr⟩) := by
  simp [next, globalLowerLimit]

theorem propose_of_finished {s : BinarySearch} {curr : Int} {threshold : Rat}
    (h : (s.propose curr threshold).finished = true) : (s.propose curr threshold).value = curr := by
  simp only [propose] at h ⊢
  by_cases hnear : ((ceilHalf (s.lowerLimit + s.upperLimit) - curr).natAbs : Rat) < threshold
  · rw [if_pos hnear]
  · rw [if_neg hnear] at h
    cases h

theorem next_of_finished {s : BinarySearch} {curr : Int} {top : Bool} {threshold : Rat}
    (h : (s.next curr top threshold).1.finished = true) :
    (s.next curr top threshold).1.value = curr := by
  cases top with
  | true =>
      by_cases hupper : curr = s.upperLimit
      · rw [hupper, next_top_upper]
      · rw [next_top threshold hupper] at h ⊢
        exact propose_of_finished h
  | false =>
      rw [next_not_top] at h ⊢
      exact propose_of_finished h

end BinarySearch

theorem one_le_ceil {t : Rat} (ht : 1 ≤ t) : 1 ≤ ⌈t⌉₊ :=
  Nat.one_le_ceil_iff.mpr (lt_of_lt_of_le one_pos ht)

def endOf (l : Int) (w : Nat) : Side → Int
  | .lower => l
  | .upper => l + w

/-- `next` stops when the middle is within reach, with the threshold rounded up. -/
theorem propose_eq (l : Int) (w : Nat) (side : Side) (threshold : Rat) :
    (⟨l, l + w⟩ : BinarySearch).propose (endOf l w side) threshold =
      if reach side w < ⌈threshold⌉₊ then ⟨endOf l w side, true⟩
      else ⟨l + ((w + 1) / 2 : Nat), false⟩ := by
  have hmid : ceilHalf (l + (l + w)) = l + ((w + 1) / 2 : Nat) := by
    unfold ceilHalf
    omega
  have hdist : (l + ((w + 1) / 2 : Nat) - endOf l w side).natAbs = reach side w := by
    cases side with
    | lower =>
        simp only [endOf, reach]
        omega
    | upper =>
        simp only [endOf, reach]
        omega
  simp only [BinarySearch.propose, hmid, hdist, Nat.lt_ceil]

/-! ## The search loop -/

/-- The variables of a search: the value to probe next, and the last that passed. -/
structure Search where
  binSearch : BinarySearch
  curr : Int
  best : Int
  finished : Bool
deriving Repr, DecidableEq

namespace Search

def start (upper : Nat) : Search := ⟨⟨0, upper⟩, upper, 0, false⟩

def round (threshold : Rat) (pass : Int → Bool) (s : Search) : Search :=
  let top := pass s.curr
  let (proposal, binSearch) := s.binSearch.next s.curr top threshold
  ⟨binSearch, proposal.value, if top then s.curr else s.best, proposal.finished⟩

def running (s : Search) : Bool := !s.finished

def loop (threshold : Rat) (pass : Int → Bool) (fuel : Nat) (s : Search) : Option Search :=
  whileFuel running (round threshold pass) fuel s

/-- The variables after a probe of `probed`, with the limits already moved. -/
def after (threshold : Rat) (binSearch : BinarySearch) (probed best : Int) : Search :=
  ⟨binSearch, (binSearch.propose probed threshold).value, best,
    (binSearch.propose probed threshold).finished⟩

def probed (threshold : Rat) (side : Side) (l : Int) (w : Nat) : Search :=
  after threshold ⟨l, l + w⟩ (endOf l w side) l

variable {threshold : Rat} {pass : Int → Bool} {side : Side} {l : Int} {w : Nat} {s : Search}

theorem round_of_pass (h : pass s.curr = true) (hne : s.curr ≠ s.binSearch.upperLimit) :
    round threshold pass s = after threshold ⟨s.curr, s.binSearch.upperLimit⟩ s.curr s.curr := by
  simp only [round, h, BinarySearch.next_top threshold hne, if_true, after]

theorem round_of_fail (h : pass s.curr = false) :
    round threshold pass s = after threshold ⟨s.binSearch.lowerLimit, s.curr⟩ s.curr s.best := by
  simp only [round, h, BinarySearch.next_not_top, Bool.false_eq_true, if_false, after]

theorem probed_of_lt (h : reach side w < ⌈threshold⌉₊) :
    (probed threshold side l w).finished = true := by
  simp only [probed, after, propose_eq, if_pos h]

theorem probed_of_le (h : ⌈threshold⌉₊ ≤ reach side w) :
    (probed threshold side l w).curr = l + ((w + 1) / 2 : Nat) ∧
      (probed threshold side l w).finished = false := by
  simp only [probed, after, propose_eq, if_neg (Nat.not_lt.mpr h), and_self]

theorem round_right (h : ⌈threshold⌉₊ ≤ reach side w)
    (hpass : pass (l + ((w + 1) / 2 : Nat)) = true) (hupper : pass (l + w) = false) :
    round threshold pass (probed threshold side l w) =
      probed threshold .lower (l + ((w + 1) / 2 : Nat)) (w / 2) := by
  obtain ⟨hcurr, _⟩ := probed_of_le (l := l) h
  have hne : l + ((w + 1) / 2 : Nat) ≠ l + w := by
    intro heq
    rw [heq, hupper] at hpass
    cases hpass
  have hright : probed threshold .lower (l + ((w + 1) / 2 : Nat)) (w / 2) =
      after threshold ⟨l + ((w + 1) / 2 : Nat), l + w⟩ (l + ((w + 1) / 2 : Nat))
        (l + ((w + 1) / 2 : Nat)) := by
    rw [probed, upper_end]
    rfl
  rw [round_of_pass (by rw [hcurr]; exact hpass) (by rw [hcurr]; exact hne), hcurr, hright]
  rfl

theorem round_left (h : ⌈threshold⌉₊ ≤ reach side w)
    (hfail : pass (l + ((w + 1) / 2 : Nat)) = false) :
    round threshold pass (probed threshold side l w) =
      probed threshold .upper l ((w + 1) / 2) := by
  obtain ⟨hcurr, _⟩ := probed_of_le (l := l) h
  rw [round_of_fail (by rw [hcurr]; exact hfail), hcurr]
  rfl

/-- The loop follows the abstract search to the interval in which that stops. -/
theorem loop_of_ends {l' : Int} {v : Nat}
    (h : Ends ⌈threshold⌉₊ (fun r => pass r = true) side l w l' v) (hupper : pass (l + w) = false) :
    ∃ fuel t, loop threshold pass fuel (probed threshold side l w) = some t ∧ t.best = l' := by
  induction h with
  | @here side l w hlt =>
      have hdone : running (probed threshold side l w) = false := by
        simp [running, probed_of_lt hlt]
      exact ⟨0, _, whileFuel_exit 0 hdone, rfl⟩
  | @right side l l' w v hle hpass _ ih =>
      have hgo : running (probed threshold side l w) = true := by
        simp [running, (probed_of_le hle).2]
      obtain ⟨fuel, t, hloop, hbest⟩ := ih (by rw [upper_end]; exact hupper)
      refine ⟨fuel + 1, t, ?_, hbest⟩
      rw [loop, whileFuel_succ fuel hgo, round_right hle hpass hupper]
      exact hloop
  | @left side l l' w v hle hfail _ ih =>
      have hgo : running (probed threshold side l w) = true := by
        simp [running, (probed_of_le hle).2]
      have hfail : pass (l + ((w + 1) / 2 : Nat)) = false := by simpa using hfail
      obtain ⟨fuel, t, hloop, hbest⟩ := ih hfail
      refine ⟨fuel + 1, t, ?_, hbest⟩
      rw [loop, whileFuel_succ fuel hgo, round_left hle hfail]
      exact hloop

theorem loop_of_pass {upper : Nat} (h : pass upper = true) :
    ∃ fuel t, loop threshold pass fuel (start upper) = some t ∧ t.best = upper := by
  have hround : round threshold pass (start upper) = ⟨⟨0, upper⟩, upper, upper, true⟩ := by
    have hnext := BinarySearch.next_top_upper ⟨0, upper⟩ threshold
    simp only [round, start, h, hnext, if_true]
  refine ⟨1, ⟨⟨0, upper⟩, upper, upper, true⟩, ?_, rfl⟩
  rw [loop, whileFuel_succ 0 rfl, hround]
  rfl

theorem loop_of_fail {upper : Nat} {l' : Int} {v : Nat} (h : pass upper = false)
    (hends : Ends ⌈threshold⌉₊ (fun r => pass r = true) .upper 0 upper l' v) :
    ∃ fuel t, loop threshold pass fuel (start upper) = some t ∧ t.best = l' := by
  have hround : round threshold pass (start upper) = probed threshold .upper 0 upper := by
    rw [round_of_fail h, probed, endOf, zero_add]
    rfl
  obtain ⟨fuel, t, hloop, hbest⟩ := loop_of_ends hends (by rw [zero_add]; exact h)
  refine ⟨fuel + 1, t, ?_, hbest⟩
  rw [loop, whileFuel_succ fuel rfl, hround]
  exact hloop

end Search

end MoonGen.Rfc2544

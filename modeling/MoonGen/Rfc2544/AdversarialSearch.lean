import MoonGen.Rfc2544.BinarySearch

/-! # The binary search under arbitrary outcomes

A device may pass a probe and fail a smaller one. Whatever the outcomes are, the limits of
the search only move towards each other, and every round after the first one moves one of
them until the limits are neighbours. The threshold then ends the search, also where the
comparison with the lower limit does not.
-/

namespace MoonGen.Rfc2544

structure Probing where
  binSearch : BinarySearch
  proposal : Proposal
deriving Repr, DecidableEq

namespace Probing

def init (lower upper : Int) : Probing := ⟨⟨lower, upper⟩, ⟨upper, false⟩⟩

/-- `next` is not called again after it has said that it is finished. -/
def step (threshold : Rat) (s : Probing) (top : Bool) : Probing :=
  if s.proposal.finished then s
  else
    let (proposal, binSearch) := s.binSearch.next s.proposal.value top threshold
    ⟨binSearch, proposal⟩

def after (threshold : Rat) (lower upper : Int) (outcomes : Nat → Bool) : Nat → Probing
  | 0 => init lower upper
  | n + 1 => step threshold (after threshold lower upper outcomes n) (outcomes n)

/-- The proposed value lies between the limits, above the lower one as long as it has still
to be probed. -/
structure Within (s : Probing) : Prop where
  lower_le : s.binSearch.lowerLimit ≤ s.proposal.value
  le_upper : s.proposal.value ≤ s.binSearch.upperLimit
  lower_lt : s.proposal.finished = false → s.binSearch.lowerLimit < s.proposal.value

def Inside (t s : Probing) : Prop :=
  s.binSearch.lowerLimit ≤ t.binSearch.lowerLimit ∧
    t.binSearch.upperLimit ≤ s.binSearch.upperLimit

def width (s : Probing) : Int := s.binSearch.upperLimit - s.binSearch.lowerLimit

theorem ceilHalf_bounds {l u : Int} (h : l < u) :
    l < ceilHalf (l + u) ∧ ceilHalf (l + u) ≤ u ∧ (l + 1 < u → ceilHalf (l + u) < u) := by
  unfold ceilHalf
  omega

theorem propose_cases (l u curr : Int) {threshold : Rat} (ht : 1 ≤ threshold) :
    (⟨l, u⟩ : BinarySearch).propose curr threshold = ⟨curr, true⟩ ∨
      ((⟨l, u⟩ : BinarySearch).propose curr threshold = ⟨ceilHalf (l + u), false⟩ ∧
        ceilHalf (l + u) ≠ curr) := by
  simp only [BinarySearch.propose]
  by_cases hnear : ((ceilHalf (l + u) - curr).natAbs : Rat) < threshold
  · rw [if_pos hnear]
    exact .inl rfl
  · rw [if_neg hnear]
    refine .inr ⟨rfl, ?_⟩
    intro heq
    apply hnear
    simp only [heq, Int.sub_self, Int.natAbs_zero, Nat.cast_zero]
    exact lt_of_lt_of_le one_pos ht

/-- What a round can do: it ends the search, or it takes the probed value as a limit and
proposes the middle of what is left. -/
theorem step_cases {threshold : Rat} (ht : 1 ≤ threshold) {s : Probing} (h : s.Within)
    (hopen : s.proposal.finished = false) (top : Bool) :
    ((s.step threshold top).proposal = ⟨s.proposal.value, true⟩ ∧
        (s.step threshold top).Inside s ∧
        (s.step threshold top).binSearch.lowerLimit ≤ s.proposal.value ∧
        s.proposal.value ≤ (s.step threshold top).binSearch.upperLimit) ∨
      ∃ l u, l < u ∧ ceilHalf (l + u) ≠ s.proposal.value ∧
        s.step threshold top = ⟨⟨l, u⟩, ⟨ceilHalf (l + u), false⟩⟩ ∧
        ((l = s.proposal.value ∧ u = s.binSearch.upperLimit) ∨
          (l = s.binSearch.lowerLimit ∧ u = s.proposal.value)) := by
  have hlt := h.lower_lt hopen
  have hle := h.le_upper
  simp only [step, hopen, Bool.false_eq_true, if_false]
  cases top with
  | true =>
      by_cases hupper : s.proposal.value = s.binSearch.upperLimit
      · left
        rw [hupper, BinarySearch.next_top_upper]
        exact ⟨rfl, ⟨le_refl _, le_refl _⟩, h.lower_le.trans hle, le_refl _⟩
      · rw [BinarySearch.next_top threshold hupper]
        rcases propose_cases s.proposal.value s.binSearch.upperLimit s.proposal.value ht with hstop | ⟨hmid, hne⟩
        · rw [hstop]
          exact .inl ⟨rfl, ⟨h.lower_le, le_refl _⟩, le_refl _, hle⟩
        · rw [hmid]
          exact .inr ⟨_, _, lt_of_le_of_ne hle hupper, hne, rfl, .inl ⟨rfl, rfl⟩⟩
  | false =>
      rw [BinarySearch.next_not_top]
      rcases propose_cases s.binSearch.lowerLimit s.proposal.value s.proposal.value ht with hstop | ⟨hmid, hne⟩
      · rw [hstop]
        exact .inl ⟨rfl, ⟨le_refl _, hle⟩, h.lower_le, le_refl _⟩
      · rw [hmid]
        exact .inr ⟨_, _, hlt, hne, rfl, .inr ⟨rfl, rfl⟩⟩

theorem Within.step {threshold : Rat} (ht : 1 ≤ threshold) {s : Probing} (h : s.Within)
    (top : Bool) : (s.step threshold top).Within ∧ (s.step threshold top).Inside s := by
  cases hopen : s.proposal.finished with
  | true =>
      have hsame : s.step threshold top = s := by simp [Probing.step, hopen]
      rw [hsame]
      exact ⟨h, le_refl _, le_refl _⟩
  | false =>
      rcases step_cases ht h hopen top with
        ⟨hstop, hinside, hlow, hhigh⟩ | ⟨l, u, hlt, _, hmid, hends⟩
      · refine ⟨⟨?_, ?_, ?_⟩, hinside⟩
        · rw [hstop]
          exact hlow
        · rw [hstop]
          exact hhigh
        · rw [hstop]
          intro hfinished
          cases hfinished
      · have hmiddle := ceilHalf_bounds hlt
        have hlower := h.lower_le
        have hupper := h.le_upper
        rw [hmid]
        refine ⟨⟨hmiddle.1.le, hmiddle.2.1, fun _ => hmiddle.1⟩, ?_⟩
        simp only [Inside]
        omega

/-- As long as the search goes on after its first round, it proposes the middle, and each
further round has made the interval smaller. -/
theorem middle_of_open {threshold : Rat} (ht : 1 ≤ threshold) {s : Probing} (h : s.Within)
    {top : Bool} (hopen : (s.step threshold top).proposal.finished = false) :
    (s.step threshold top).proposal.value =
        ceilHalf ((s.step threshold top).binSearch.lowerLimit +
          (s.step threshold top).binSearch.upperLimit) ∧
      (s.step threshold top).width ≤ s.width ∧
      (s.proposal.value = ceilHalf (s.binSearch.lowerLimit + s.binSearch.upperLimit) →
        (s.step threshold top).width < s.width) := by
  cases hbefore : s.proposal.finished with
  | true =>
      simp [step, hbefore] at hopen
  | false =>
      rcases step_cases ht h hbefore top with ⟨hstop, _⟩ | ⟨l, u, hlt, hne, hmid, hends⟩
      · rw [hstop] at hopen
        cases hopen
      · have hlower := h.lower_lt hbefore
        have hupper := h.le_upper
        rw [hmid]
        refine ⟨rfl, ?_, ?_⟩
        · simp only [width]
          omega
        · intro hmiddle
          rw [hmiddle] at hends hne hlower hupper
          simp only [width]
          -- Neighbouring limits have their upper end as the middle, and the search has ended.
          have hbounds := ceilHalf_bounds (hlower.trans_le hupper)
          rcases hends with ⟨rfl, rfl⟩ | ⟨rfl, rfl⟩
          · omega
          · have hagain := ceilHalf_bounds hlt
            by_cases hnear : s.binSearch.lowerLimit + 1 < s.binSearch.upperLimit
            · have := hbounds.2.2 hnear
              omega
            · exfalso
              apply hne
              have hu : s.binSearch.upperLimit = s.binSearch.lowerLimit + 1 := by omega
              omega

section Run

variable {threshold : Rat} {lower upper : Int} {outcomes : Nat → Bool}

theorem within_after (ht : 1 ≤ threshold) (hlt : lower < upper) (n : Nat) :
    (after threshold lower upper outcomes n).Within := by
  induction n with
  | zero => exact ⟨hlt.le, le_refl _, fun _ => hlt⟩
  | succ n ih => exact (ih.step ht _).1

theorem width_of_open (ht : 1 ≤ threshold) (hlt : lower < upper) (n : Nat)
    (hopen : (after threshold lower upper outcomes (n + 1)).proposal.finished = false) :
    (after threshold lower upper outcomes (n + 1)).proposal.value =
        ceilHalf ((after threshold lower upper outcomes (n + 1)).binSearch.lowerLimit +
          (after threshold lower upper outcomes (n + 1)).binSearch.upperLimit) ∧
      (after threshold lower upper outcomes (n + 1)).width + n ≤ upper - lower := by
  induction n with
  | zero =>
      have hfirst := middle_of_open ht (within_after ht hlt 0) hopen
      refine ⟨hfirst.1, ?_⟩
      have hwidth : (after threshold lower upper outcomes 0).width = upper - lower := rfl
      have hle := hfirst.2.1
      rw [hwidth] at hle
      rw [Nat.cast_zero, Int.add_zero]
      exact hle
  | succ n ih =>
      have hbefore : (after threshold lower upper outcomes (n + 1)).proposal.finished = false := by
        cases hfinished : (after threshold lower upper outcomes (n + 1)).proposal.finished with
        | false => rfl
        | true =>
            have hsame : after threshold lower upper outcomes (n + 1 + 1) =
                after threshold lower upper outcomes (n + 1) := by
              simp [after, step] at hfinished ⊢
              simp [hfinished]
            rw [hsame, hfinished] at hopen
            exact hopen
      have hnext := middle_of_open ht (within_after ht hlt (n + 1)) hopen
      have hsmaller := hnext.2.2 (ih hbefore).1
      have hwidth := (ih hbefore).2
      refine ⟨hnext.1, ?_⟩
      push_cast
      have hstep : after threshold lower upper outcomes (n + 1 + 1) =
          step threshold (after threshold lower upper outcomes (n + 1)) (outcomes (n + 1)) := rfl
      rw [hstep]
      omega

/-- For every sequence of outcomes the search ends, within one round more than there are
values above the lower limit. All its proposals lie between its limits, and these move
towards each other. -/
theorem search_terminates (threshold : Rat) (ht : 1 ≤ threshold) (lower upper : Int)
    (hlt : lower < upper) (outcomes : Nat → Bool) :
    (after threshold lower upper outcomes ((upper - lower).toNat + 1)).proposal.finished = true ∧
      ∀ n,
        ((after threshold lower upper outcomes n).binSearch.lowerLimit ≤
            (after threshold lower upper outcomes n).proposal.value ∧
          (after threshold lower upper outcomes n).proposal.value ≤
            (after threshold lower upper outcomes n).binSearch.upperLimit) ∧
        (after threshold lower upper outcomes n).binSearch.lowerLimit ≤
            (after threshold lower upper outcomes (n + 1)).binSearch.lowerLimit ∧
        (after threshold lower upper outcomes (n + 1)).binSearch.upperLimit ≤
            (after threshold lower upper outcomes n).binSearch.upperLimit := by
  constructor
  · by_contra hopen
    have hopen := Bool.eq_false_of_not_eq_true hopen
    have hwidth := (width_of_open ht hlt _ hopen).2
    have hwithin : (after threshold lower upper outcomes ((upper - lower).toNat + 1)).Within :=
      within_after ht hlt _
    have hlower := hwithin.lower_lt hopen
    have hupper := hwithin.le_upper
    simp only [width] at hwidth
    omega
  · intro n
    have hwithin : (after threshold lower upper outcomes n).Within := within_after ht hlt n
    exact ⟨⟨hwithin.lower_le, hwithin.le_upper⟩, (hwithin.step ht (outcomes n)).2⟩

theorem search_terminates_alternating :
    (0 : Int) < 4 ∧ (1 : Rat) ≤ 1 ∧
      (after 1 0 4 (fun n => n % 2 == 1) 5).proposal.finished = true :=
  ⟨by decide, le_refl 1, (search_terminates 1 (le_refl 1) 0 4 (by decide) _).1⟩

end Run

end Probing

end MoonGen.Rfc2544

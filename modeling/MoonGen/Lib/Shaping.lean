import Mathlib.Algebra.Order.Field.Basic
import Mathlib.Algebra.Order.BigOperators.Group.List
import Mathlib.Tactic.Linarith
import Mathlib.Tactic.Ring

/-! # Traffic shaping

Token buckets and virtual clocks over an ordered field. A bucket is refilled at a
rate up to a capacity and pays for what it grants. A ledger keeps the grants made
next to the level and the time of the last refill; `Sound` is the potential
argument: what was granted since any earlier grant, and what is left, is covered
by the capacity and the refill since then. A virtual clock moves to the end of
every slot it books and books none before itself.
-/

namespace MoonGen.Shaping

theorem split_snoc {α : Type*} {gs pre post : List α} {new g : α}
    (h : gs ++ [new] = pre ++ g :: post) :
    (post = [] ∧ g = new) ∨ ∃ rest, post = rest ++ [new] ∧ gs = pre ++ g :: rest := by
  cases hrev : post.reverse with
  | nil =>
      have hnil : post = [] := List.reverse_eq_nil_iff.mp hrev
      rw [hnil] at h
      exact .inl ⟨hnil, (List.singleton_inj.mp (List.append_inj_right' h rfl)).symm⟩
  | cons last rest =>
      have hpost : post = rest.reverse ++ [last] := by
        rw [← List.reverse_reverse post, hrev, List.reverse_cons]
      rw [hpost, ← List.cons_append, ← List.append_assoc] at h
      have hlast : new = last := List.singleton_inj.mp (List.append_inj_right' h rfl)
      exact .inr ⟨rest.reverse, by rw [hpost, hlast], List.append_inj_left' h rfl⟩

structure Grant (K : Type*) where
  time : K
  size : K
deriving DecidableEq

section Total

variable {K : Type*} [Field K]

def total (gs : List (Grant K)) : K := (gs.map Grant.size).sum

@[simp] theorem total_nil : total ([] : List (Grant K)) = 0 := rfl

@[simp] theorem total_cons (g : Grant K) (gs : List (Grant K)) :
    total (g :: gs) = g.size + total gs := by
  simp [total]

@[simp] theorem total_append (gs more : List (Grant K)) :
    total (gs ++ more) = total gs + total more := by
  simp [total]

end Total

section Window

variable {K : Type*} [LinearOrder K]

def window (a b : K) (gs : List (Grant K)) : List (Grant K) :=
  gs.filter fun g => a ≤ g.time ∧ g.time ≤ b

theorem window_eq_nil {a b : K} {gs : List (Grant K)} (h : ∀ g ∈ gs, b < g.time) :
    window a b gs = [] := by
  apply List.filter_eq_nil_iff.mpr
  intro g hg hin
  exact absurd (of_decide_eq_true hin).2 (not_le.mpr (h g hg))

theorem exists_window_append {a b : K} {gs : List (Grant K)}
    (hsorted : gs.Pairwise fun g h => g.time ≤ h.time) (hfrom : ∀ g ∈ gs, a ≤ g.time) :
    ∃ post, gs = window a b gs ++ post := by
  induction gs with
  | nil => exact ⟨[], rfl⟩
  | cons g rest ih =>
      obtain ⟨hlater, hrest⟩ := List.pairwise_cons.mp hsorted
      obtain ⟨hg, hothers⟩ := List.forall_mem_cons.mp hfrom
      by_cases hend : g.time ≤ b
      · obtain ⟨post, hpost⟩ := ih hrest hothers
        have hin : window a b (g :: rest) = g :: window a b rest :=
          List.filter_cons_of_pos (decide_eq_true ⟨hg, hend⟩)
        rw [hin]
        exact ⟨post, congrArg (List.cons g) hpost⟩
      · refine ⟨g :: rest, ?_⟩
        rw [window_eq_nil]
        · rfl
        · intro x hx
          rcases List.mem_cons.mp hx with rfl | hx
          · exact not_le.mp hend
          · exact lt_of_lt_of_le (not_le.mp hend) (hlater x hx)

theorem exists_append_window {a b : K} {gs : List (Grant K)}
    (hsorted : gs.Pairwise fun g h => g.time ≤ h.time) :
    ∃ pre post, gs = pre ++ (window a b gs ++ post) := by
  induction gs with
  | nil => exact ⟨[], [], rfl⟩
  | cons g rest ih =>
      obtain ⟨hlater, hrest⟩ := List.pairwise_cons.mp hsorted
      by_cases hbegin : a ≤ g.time
      · have hfrom : ∀ x ∈ g :: rest, a ≤ x.time := by
          intro x hx
          rcases List.mem_cons.mp hx with rfl | hx
          · exact hbegin
          · exact hbegin.trans (hlater x hx)
        obtain ⟨post, hpost⟩ := exists_window_append (b := b) hsorted hfrom
        exact ⟨[], post, hpost⟩
      · obtain ⟨pre, post, hsplit⟩ := ih hrest
        have hout : window a b (g :: rest) = window a b rest :=
          List.filter_cons_of_neg (fun hin => hbegin (of_decide_eq_true hin).1)
        rw [hout]
        exact ⟨g :: pre, post, congrArg (List.cons g) hsplit⟩

end Window

variable {K : Type*} [Field K] [LinearOrder K]

/-! ## Token buckets -/

/-- Between any two grants, both included, at most the capacity and the refill of
the time between them is granted. -/
def Conforms (rate capacity : K) (gs : List (Grant K)) : Prop :=
  ∀ pre first mid last post, gs = pre ++ first :: (mid ++ last :: post) →
    total (first :: (mid ++ [last])) ≤ capacity + rate * (last.time - first.time)

structure Ledger (K : Type*) where
  grants : List (Grant K)
  time : K
  level : K

namespace Ledger

def levelAt (rate capacity : K) (l : Ledger K) (time : K) : K :=
  min (l.level + (time - l.time) * rate) capacity

def refill (rate capacity : K) (l : Ledger K) (time : K) : Ledger K :=
  ⟨l.grants, time, l.levelAt rate capacity time⟩

def spend (l : Ledger K) (size : K) : Ledger K :=
  ⟨l.grants ++ [⟨l.time, size⟩], l.time, l.level - size⟩

structure Sound (rate capacity : K) (l : Ledger K) : Prop where
  level_le : l.level ≤ capacity
  since : ∀ pre g post, l.grants = pre ++ g :: post →
    total (g :: post) + l.level ≤ capacity + rate * (l.time - g.time)
  conforms : Conforms rate capacity l.grants

variable {rate capacity : K} {l : Ledger K}

theorem sound_empty (time : K) (h : 0 ≤ capacity) : Sound rate capacity ⟨[], time, 0⟩ := by
  refine ⟨h, ?_, ?_⟩
  · intro pre g post hnil
    simp at hnil
  · intro pre first mid last post hnil
    simp at hnil

section Ordered

variable [IsStrictOrderedRing K]

theorem Sound.refill (h : l.Sound rate capacity) (time : K) :
    (l.refill rate capacity time).Sound rate capacity := by
  refine ⟨min_le_right _ _, ?_, h.conforms⟩
  intro pre g post hsplit
  have hsince := h.since pre g post hsplit
  have hlevel : l.levelAt rate capacity time ≤ l.level + (time - l.time) * rate := min_le_left _ _
  calc total (g :: post) + l.levelAt rate capacity time
      ≤ total (g :: post) + l.level + (time - l.time) * rate := by linarith
    _ ≤ capacity + rate * (l.time - g.time) + (time - l.time) * rate := by linarith
    _ = capacity + rate * (time - g.time) := by ring

theorem Sound.spend (h : l.Sound rate capacity) {size : K} (hsize : 0 ≤ size)
    (hpaid : size ≤ l.level) : (l.spend size).Sound rate capacity := by
  have hcap := h.level_le
  have hsince : ∀ pre g post, (l.spend size).grants = pre ++ g :: post →
      total (g :: post) + (l.level - size) ≤ capacity + rate * (l.time - g.time) := by
    intro pre g post hsplit
    rcases split_snoc hsplit with ⟨hnil, hnew⟩ | ⟨rest, hpost, hold⟩
    · rw [hnil, hnew]
      simp only [total_cons, total_nil, sub_self]
      linarith
    · have hbefore := h.since pre g rest hold
      rw [hpost]
      simp only [total_cons, total_append, total_nil] at hbefore ⊢
      linarith
  refine ⟨?_, hsince, ?_⟩
  · change l.level - size ≤ capacity
    linarith
  · intro pre first mid last post hsplit
    rw [← List.cons_append, ← List.append_assoc] at hsplit
    rcases split_snoc hsplit with ⟨hpost, hnew⟩ | ⟨rest, _, hold⟩
    · -- the window ends with the new grant, at the time of the last refill
      rw [hpost, List.append_assoc, List.cons_append] at hsplit
      have hwindow := hsince pre first (mid ++ [last]) hsplit
      rw [hnew] at hwindow ⊢
      linarith
    · rw [List.append_assoc, List.cons_append] at hold
      exact h.conforms pre first mid last rest hold

theorem refill_level_nonneg {time : K} (hrate : 0 ≤ rate) (hcap : 0 ≤ capacity)
    (hlevel : 0 ≤ l.level) (htime : l.time ≤ time) : 0 ≤ (l.refill rate capacity time).level := by
  have hgain : 0 ≤ (time - l.time) * rate := mul_nonneg (sub_nonneg.mpr htime) hrate
  exact le_min (by linarith) hcap

/-- A refill that is recorded in between changes no later level. -/
theorem levelAt_refill (hrate : 0 ≤ rate) {now later : K} (htime : now ≤ later) :
    (l.refill rate capacity now).levelAt rate capacity later = l.levelAt rate capacity later := by
  have hgain : 0 ≤ (later - now) * rate := mul_nonneg (sub_nonneg.mpr htime) hrate
  have hsum : l.level + (later - l.time) * rate =
      l.level + (now - l.time) * rate + (later - now) * rate := by ring
  simp only [levelAt, refill]
  rw [hsum]
  rcases le_total (l.level + (now - l.time) * rate) capacity with hle | hle
  · rw [min_eq_left hle]
  · rw [min_eq_right hle, min_eq_right (by linarith), min_eq_right (by linarith)]

end Ordered

end Ledger

theorem Conforms.window_le [IsStrictOrderedRing K] {rate capacity : K} {gs : List (Grant K)}
    (h : Conforms rate capacity gs)
    (hsorted : gs.Pairwise fun g h => g.time ≤ h.time) (hsize : ∀ g ∈ gs, g.size ≤ capacity)
    (hrate : 0 ≤ rate) (hcap : 0 ≤ capacity) {a b : K} (hab : a ≤ b) :
    total (window a b gs) ≤ capacity + rate * (b - a) := by
  obtain ⟨pre, post, hsplit⟩ := exists_append_window (a := a) (b := b) hsorted
  have hin : ∀ g ∈ window a b gs, a ≤ g.time ∧ g.time ≤ b :=
    fun g hg => of_decide_eq_true (List.mem_filter.mp hg).2
  have hgain : 0 ≤ rate * (b - a) := mul_nonneg hrate (sub_nonneg.mpr hab)
  rcases hseg : window a b gs with _ | ⟨first, rest⟩
  · rw [total_nil]
    linarith
  · rcases List.eq_nil_or_concat rest with rfl | ⟨mid, last, rfl⟩
    · have hfirst : first ∈ gs := (List.mem_filter.mp (hseg ▸ List.mem_singleton_self first)).1
      have hone := hsize first hfirst
      simp only [total_cons, total_nil]
      linarith
    · rw [List.concat_eq_append] at hseg
      rw [hseg] at hsplit hin
      have hbegin := (hin first List.mem_cons_self).1
      have hend := (hin last (by simp)).2
      have hall := h pre first mid last post (by rw [hsplit]; simp)
      have hspan : rate * (last.time - first.time) ≤ rate * (b - a) :=
        mul_le_mul_of_nonneg_left (by linarith) hrate
      rw [List.concat_eq_append]
      linarith

/-! ## Virtual clocks -/

/-- Slots, as grants of time: each starts after all that was booked since any
earlier slot, that slot included. -/
def Spaced (slots : List (Grant K)) : Prop :=
  ∀ pre first mid last post, slots = pre ++ first :: (mid ++ last :: post) →
    first.time + total (first :: mid) ≤ last.time

structure Paced (clock : K) (slots : List (Grant K)) : Prop where
  since : ∀ pre first post, slots = pre ++ first :: post →
    first.time + total (first :: post) ≤ clock
  spaced : Spaced slots

theorem paced_nil (clock : K) : Paced clock [] := by
  constructor
  · intro pre first post hnil
    simp at hnil
  · intro pre first mid last post hnil
    simp at hnil

theorem Paced.book [IsStrictOrderedRing K] {clock : K} {slots : List (Grant K)}
    (h : Paced clock slots) (slot : Grant K) (hstart : clock ≤ slot.time) :
    Paced (slot.time + slot.size) (slots ++ [slot]) := by
  constructor
  · intro pre first post hsplit
    rcases split_snoc hsplit with ⟨hnil, hnew⟩ | ⟨rest, hpost, hold⟩
    · rw [hnil, hnew]
      simp
    · have hbefore := h.since pre first rest hold
      rw [hpost]
      simp only [total_cons, total_append, total_nil] at hbefore ⊢
      linarith
  · intro pre first mid last post hsplit
    rw [← List.cons_append, ← List.append_assoc] at hsplit
    rcases split_snoc hsplit with ⟨hpost, hnew⟩ | ⟨rest, _, hold⟩
    · rw [hpost, hnew] at hsplit
      have hbefore := h.since pre first mid (List.append_cancel_right hsplit)
      rw [hnew]
      exact hbefore.trans hstart
    · rw [List.append_assoc, List.cons_append] at hold
      exact h.spaced pre first mid last rest hold

end MoonGen.Shaping

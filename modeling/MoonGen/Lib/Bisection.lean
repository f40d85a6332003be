import Mathlib.Algebra.Order.Ring.Nat

/-! # Bisecting an interval of integers

A search keeps an interval of integers, probes its middle, rounded up, and goes
on with one half. It stops when the middle is closer than `stop` to the end that
it has probed last, so it stops earlier after one kind of answer than after the
other. `Cell` says in which widths it can stop, `Ends` where it stops for given
answers.
-/

namespace MoonGen.Bisection

inductive Side where
  | lower
  | upper
deriving Repr, DecidableEq

/-- The distance from the end probed last to the middle of an interval of width `w`. -/
def reach : Side → Nat → Nat
  | .lower, w => (w + 1) / 2
  | .upper, w => w / 2

/-- From an interval of width `w` the search can stop in one of width `v`. -/
inductive Cell (stop : Nat) : Side → Nat → Nat → Prop where
  | here {side : Side} {w : Nat} (h : reach side w < stop) : Cell stop side w w
  | right {side : Side} {w v : Nat} (h : stop ≤ reach side w) (hv : Cell stop .lower (w / 2) v) :
      Cell stop side w v
  | left {side : Side} {w v : Nat} (h : stop ≤ reach side w)
      (hv : Cell stop .upper ((w + 1) / 2) v) : Cell stop side w v

inductive Ends (stop : Nat) (pass : Int → Prop) : Side → Int → Nat → Int → Nat → Prop where
  | here {side : Side} {l : Int} {w : Nat} (h : reach side w < stop) : Ends stop pass side l w l w
  | right {side : Side} {l l' : Int} {w v : Nat} (h : stop ≤ reach side w)
      (hpass : pass (l + ((w + 1) / 2 : Nat)))
      (hrest : Ends stop pass .lower (l + ((w + 1) / 2 : Nat)) (w / 2) l' v) :
      Ends stop pass side l w l' v
  | left {side : Side} {l l' : Int} {w v : Nat} (h : stop ≤ reach side w)
      (hfail : ¬ pass (l + ((w + 1) / 2 : Nat)))
      (hrest : Ends stop pass .upper l ((w + 1) / 2) l' v) : Ends stop pass side l w l' v

section Induction

variable {stop : Nat}

theorem halves_lt (hstop : 1 ≤ stop) {side : Side} {w : Nat} (h : stop ≤ reach side w) :
    2 * (w / 2) + 1 < 2 * w + (if side = .lower then 1 else 0) ∧
      2 * ((w + 1) / 2) < 2 * w + (if side = .lower then 1 else 0) := by
  cases side with
  | lower =>
      simp only [reach, if_true] at h ⊢
      omega
  | upper =>
      simp only [reach, reduceCtorEq, if_false] at h ⊢
      omega

theorem bisection_induction (hstop : 1 ≤ stop) {motive : Side → Nat → Prop}
    (here : ∀ side w, reach side w < stop → motive side w)
    (halves : ∀ side w, stop ≤ reach side w → motive .lower (w / 2) → motive .upper ((w + 1) / 2) →
      motive side w) (side : Side) (w : Nat) : motive side w := by
  induction hn : 2 * w + (if side = .lower then 1 else 0) using Nat.strong_induction_on
    generalizing side w with
  | _ n ih =>
      by_cases h : reach side w < stop
      · exact here side w h
      · have hgo : stop ≤ reach side w := Nat.le_of_not_lt h
        obtain ⟨hright, hleft⟩ := halves_lt hstop hgo
        apply halves side w hgo
        · exact ih _ (by rw [← hn]; simpa using hright) .lower (w / 2) rfl
        · exact ih _ (by rw [← hn]; simpa using hleft) .upper ((w + 1) / 2) rfl

end Induction

/-! ## Where a search stops -/

section Stops

variable {stop : Nat} {pass : Int → Prop} {side : Side} {l l' : Int} {w v : Nat}

theorem exists_ends (hstop : 1 ≤ stop) (pass : Int → Prop) (side : Side) (l : Int) (w : Nat) :
    ∃ l' v, Ends stop pass side l w l' v := by
  refine bisection_induction hstop (motive := fun side w => ∀ l, ∃ l' v, Ends stop pass side l w l' v)
    ?_ ?_ side w l
  · intro side w h l
    exact ⟨l, w, .here h⟩
  · intro side w h hright hleft l
    by_cases hpass : pass (l + ((w + 1) / 2 : Nat))
    · obtain ⟨l', v, hend⟩ := hright (l + ((w + 1) / 2 : Nat))
      exact ⟨l', v, .right h hpass hend⟩
    · obtain ⟨l', v, hend⟩ := hleft l
      exact ⟨l', v, .left h hpass hend⟩

theorem Ends.cell (h : Ends stop pass side l w l' v) : Cell stop side w v := by
  induction h with
  | here h => exact .here h
  | right h _ _ ih => exact .right h ih
  | left h _ _ ih => exact .left h ih

theorem upper_end (l : Int) (w : Nat) : l + ((w + 1) / 2 : Nat) + (w / 2 : Nat) = l + w := by
  omega

/-- A crossing from pass to fail is never lost. -/
theorem Ends.crossing (h : Ends stop pass side l w l' v) (hl : pass l) (hu : ¬ pass (l + w)) :
    pass l' ∧ ¬ pass (l' + v) := by
  induction h with
  | here => exact ⟨hl, hu⟩
  | @right side l l' w v h hpass hrest ih =>
      apply ih hpass
      rw [upper_end]
      exact hu
  | left h hfail _ ih => exact ih hl hfail

theorem Ends.lower_le (h : Ends stop pass side l w l' v) : l ≤ l' := by
  induction h with
  | here => exact le_refl _
  | right _ _ _ ih => omega
  | left _ _ _ ih => exact ih

/-- Every cell is reached: by all answers that cross from pass to fail inside it. -/
theorem Cell.ends (h : Cell stop side w v) (l : Int) :
    ∃ l', l ≤ l' ∧ l' + v ≤ l + w ∧ ∀ pass : Int → Prop, (∀ a b, a ≤ b → pass b → pass a) →
      pass l' → ¬ pass (l' + v) → Ends stop pass side l w l' v := by
  induction h generalizing l with
  | here h => exact ⟨l, le_refl l, le_refl _, fun _ _ _ _ => .here h⟩
  | @right side w v h _ ih =>
      obtain ⟨l', hlow, hhigh, hends⟩ := ih (l + ((w + 1) / 2 : Nat))
      refine ⟨l', by omega, by omega, ?_⟩
      intro pass hmono hpass hfail
      exact .right h (hmono _ _ hlow hpass) (hends pass hmono hpass hfail)
  | @left side w v h _ ih =>
      obtain ⟨l', hlow, hhigh, hends⟩ := ih l
      refine ⟨l', hlow, by omega, ?_⟩
      intro pass hmono hpass hfail
      exact .left h (fun hmid => hfail (hmono _ _ hhigh hmid)) (hends pass hmono hpass hfail)

theorem Cell.width_lt (h : Cell stop side w v) : v + 1 ≤ 2 * stop := by
  induction h with
  | @here side w h =>
      cases side with
      | lower =>
          simp only [reach] at h
          omega
      | upper =>
          simp only [reach] at h
          omega
  | right _ _ ih => exact ih
  | left _ _ ih => exact ih

end Stops

/-! ## How wide the last interval can be -/

def Narrow (stop bound : Nat) (side : Side) (w : Nat) : Prop := ∀ v, Cell stop side w v → v ≤ bound

section Narrow

variable {stop bound : Nat} {side : Side} {w : Nat}

theorem narrow_of_lt (h : reach side w < stop) : Narrow stop bound side w ↔ w ≤ bound := by
  constructor
  · intro hall
    exact hall w (.here h)
  · intro hle v hv
    cases hv with
    | here => exact hle
    | right hgo => omega
    | left hgo => omega

theorem narrow_of_le (h : stop ≤ reach side w) :
    Narrow stop bound side w ↔
      Narrow stop bound .lower (w / 2) ∧ Narrow stop bound .upper ((w + 1) / 2) := by
  constructor
  · intro hall
    exact ⟨fun v hv => hall v (.right h hv), fun v hv => hall v (.left h hv)⟩
  · intro hboth v hv
    cases hv with
    | here hlt => omega
    | right _ hv => exact hboth.1 v hv
    | left _ hv => exact hboth.2 v hv

theorem narrow_one (side : Side) (w : Nat) : Narrow 1 1 side w := by
  refine bisection_induction (motive := Narrow 1 1) (le_refl 1) ?_ ?_ side w
  · intro side w h
    rw [narrow_of_lt h]
    cases side with
    | lower =>
        simp only [reach] at h
        omega
    | upper =>
        simp only [reach] at h
        omega
  · intro side w h hright hleft
    rw [narrow_of_le h]
    exact ⟨hright, hleft⟩

/-- A bound below the step is only met without bisecting. -/
theorem narrow_iff_of_lt (hlt : bound < stop) : Narrow stop bound side w ↔ w ≤ bound := by
  have hstop : 1 ≤ stop := by omega
  refine bisection_induction (motive := fun side w => Narrow stop bound side w ↔ w ≤ bound)
    hstop ?_ ?_ side w
  · intro side w h
    exact narrow_of_lt h
  · intro side w h hright hleft
    have hwide : bound < (w + 1) / 2 := by
      cases side with
      | lower => exact Nat.lt_of_lt_of_le hlt h
      | upper =>
          simp only [reach] at h
          omega
    rw [narrow_of_le h, hright, hleft]
    constructor
    · intro hboth
      omega
    · intro hle
      omega

end Narrow

/-! ## When the bound is the step

The widths whose halving ends in intervals of width `n` are those a little below
`2 ^ k * n`: at each bisection the distance to the power doubles. -/

section Band

variable {n : Nat}

def BandAt (n k w : Nat) : Prop := 4 * (2 ^ k * n) ≤ 4 * w + 2 ^ k ∧ w ≤ 2 ^ k * n

def Band (n w : Nat) : Prop := ∃ k, BandAt n k w

theorem BandAt.succ_iff {k w : Nat} :
    BandAt n (k + 1) w ↔ 8 * (2 ^ k * n) ≤ 4 * w + 2 * 2 ^ k ∧ w ≤ 2 * (2 ^ k * n) := by
  have hpow : 2 ^ (k + 1) = 2 * 2 ^ k := by rw [Nat.pow_succ, Nat.mul_comm]
  have hmul : 2 ^ (k + 1) * n = 2 * (2 ^ k * n) := by rw [hpow, Nat.mul_assoc]
  unfold BandAt
  rw [hmul, hpow]
  constructor
  · intro h
    omega
  · intro h
    omega

theorem BandAt.double {k c : Nat} (h : BandAt n k c) : BandAt n (k + 1) (2 * c) := by
  rw [BandAt.succ_iff]
  obtain ⟨hlow, hhigh⟩ := h
  omega

theorem BandAt.neighbour {k j v : Nat} (hn : 2 ≤ n) (hv : BandAt n k v) (hc : BandAt n j (v + 1)) :
    k = j := by
  have hgap : ∀ {a d x y : Nat}, BandAt n a x → BandAt n (a + 1 + d) y → y ≤ x + 1 → False := by
    intro a d x y hx hy hle
    have hp : 2 ^ (a + 1 + d) = 2 * (2 ^ d * 2 ^ a) := by
      rw [Nat.pow_add, Nat.pow_succ, Nat.mul_comm (2 ^ a), Nat.mul_assoc, Nat.mul_comm (2 ^ a)]
    have hm : 2 ^ (a + 1 + d) * n = 2 * (2 ^ d * (2 ^ a * n)) := by
      rw [hp]
      simp only [Nat.mul_assoc]
    obtain ⟨hlow, hhigh⟩ := hy
    rw [hm, hp] at hlow
    rw [hm] at hhigh
    have hpos : 0 < 2 ^ a := Nat.two_pow_pos a
    have hmore : 2 ^ a * n ≤ 2 ^ d * (2 ^ a * n) := Nat.le_mul_of_pos_left _ (Nat.two_pow_pos d)
    have htwice : 2 * (2 ^ d * 2 ^ a) ≤ 2 ^ d * (2 ^ a * n) := by
      rw [← Nat.mul_assoc (2 ^ d), Nat.mul_comm 2]
      exact Nat.mul_le_mul_left _ hn
    have hbig : 2 * 2 ^ a ≤ 2 ^ a * n := by
      rw [Nat.mul_comm 2]
      exact Nat.mul_le_mul_left _ hn
    have hup := hx.2
    omega
  rcases Nat.lt_trichotomy k j with hlt | heq | hgt
  · obtain ⟨d, rfl⟩ := Nat.exists_eq_add_of_lt hlt
    exact (hgap hv (by simpa [Nat.add_right_comm] using hc) (le_refl _)).elim
  · exact heq
  · obtain ⟨d, rfl⟩ := Nat.exists_eq_add_of_lt hgt
    exact (hgap hc (by simpa [Nat.add_right_comm] using hv) (by omega)).elim

/-- The halves of a width in a band: the upper half is in the band below, the lower half
too or, at the bottom, one short of `2 * n`. -/
theorem Band.halves {w : Nat} (hn : 2 ≤ n) (hwide : n ≤ (w + 1) / 2) (h : Band n w) :
    (w / 2 ≤ n ∨ Band n (w / 2) ∨ w / 2 + 1 = 2 * n) ∧
      ((w + 1) / 2 ≤ n ∨ Band n ((w + 1) / 2)) := by
  obtain ⟨k, hk⟩ := h
  match k with
  | 0 =>
      obtain ⟨_, hhigh⟩ := hk
      simp only [Nat.pow_zero, Nat.one_mul] at hhigh
      omega
  | 1 =>
      rw [BandAt.succ_iff] at hk
      simp only [Nat.pow_zero, Nat.one_mul] at hk
      omega
  | 2 =>
      rw [BandAt.succ_iff] at hk
      simp only [Nat.pow_one] at hk
      have hbelow : Band n ((w + 1) / 2) := ⟨1, by
        rw [BandAt.succ_iff]
        simp only [Nat.pow_zero, Nat.one_mul]
        omega⟩
      refine ⟨?_, .inr hbelow⟩
      by_cases hodd : w / 2 + 1 = 2 * n
      · exact .inr (.inr hodd)
      · refine .inr (.inl ⟨1, ?_⟩)
        rw [BandAt.succ_iff]
        simp only [Nat.pow_zero, Nat.one_mul]
        omega
  | k + 3 =>
      -- the lower edge of the band is even here, so rounding does not leave it
      rw [BandAt.succ_iff] at hk
      have hpow : 2 ^ (k + 2) = 4 * 2 ^ k := by rw [Nat.pow_add, Nat.mul_comm]
      have hmul : 2 ^ (k + 2) * n = 4 * (2 ^ k * n) := by rw [hpow, Nat.mul_assoc]
      rw [hmul, hpow] at hk
      refine ⟨.inr (.inl ⟨k + 2, ?_⟩), .inr ⟨k + 2, ?_⟩⟩
      · unfold BandAt
        rw [hmul, hpow]
        omega
      · unfold BandAt
        rw [hmul, hpow]
        omega

theorem Band.le_of_lt_double {w : Nat} (hn : 2 ≤ n) (hsmall : w + 1 ≤ 2 * n) (h : Band n w) :
    w ≤ n := by
  obtain ⟨k, hk⟩ := h
  match k with
  | 0 =>
      have hhigh := hk.2
      simp only [Nat.pow_zero, Nat.one_mul] at hhigh
      exact hhigh
  | 1 =>
      rw [BandAt.succ_iff] at hk
      simp only [Nat.pow_zero, Nat.one_mul] at hk
      omega
  | k + 2 =>
      rw [BandAt.succ_iff] at hk
      have hpow : 2 ^ (k + 1) = 2 * 2 ^ k := by rw [Nat.pow_succ, Nat.mul_comm]
      have hmul : 2 ^ (k + 1) * n = 2 * (2 ^ k * n) := by rw [hpow, Nat.mul_assoc]
      have hmore : n ≤ 2 ^ k * n := Nat.le_mul_of_pos_left _ (Nat.two_pow_pos k)
      have hbig : 2 * 2 ^ k ≤ 2 ^ k * n := by
        rw [Nat.mul_comm 2]
        exact Nat.mul_le_mul_left _ hn
      rw [hmul, hpow] at hk
      omega

theorem band_of_odd {v : Nat} (hn : 2 ≤ n) (hwide : n < v + 1)
    (hv : v ≤ n ∨ Band n v ∨ v + 1 = 2 * n) (hc : Band n (v + 1)) : Band n (2 * v + 1) := by
  obtain ⟨j, hj⟩ := hc
  rcases hv with hle | ⟨k, hk⟩ | hodd
  · -- just above `n` there is no band
    have hself : BandAt n 0 n := by
      unfold BandAt
      simp
    have hv : v = n := by omega
    subst hv
    have hsame := BandAt.neighbour hn hself hj
    subst hsame
    have hhigh := hj.2
    simp only [Nat.pow_zero, Nat.one_mul] at hhigh
    omega
  · have hsame := BandAt.neighbour hn hk hj
    subst hsame
    refine ⟨k + 1, ?_⟩
    rw [BandAt.succ_iff]
    obtain ⟨hlow, _⟩ := hk
    obtain ⟨_, hhigh⟩ := hj
    omega
  · refine ⟨2, ?_⟩
    rw [BandAt.succ_iff]
    simp only [Nat.pow_one]
    omega

/-- After a failed probe the search of width `w` stops within the step `n` everywhere if `w`
is in a band; after a passed one also if `w` is `2 * n - 1`. -/
def Fine (n : Nat) : Side → Nat → Prop
  | .upper, w => w ≤ n ∨ Band n w
  | .lower, w => w ≤ n ∨ Band n w ∨ w + 1 = 2 * n

theorem fine_iff_le {side : Side} {w : Nat} (hn : 2 ≤ n) (h : reach side w < n) :
    Fine n side w ↔ w ≤ n := by
  cases side with
  | lower =>
      simp only [reach] at h
      constructor
      · rintro (hle | hin | hodd)
        · exact hle
        · exact hin.le_of_lt_double hn (by omega)
        · omega
      · intro hle
        exact .inl hle
  | upper =>
      simp only [reach] at h
      constructor
      · rintro (hle | hin)
        · exact hle
        · exact hin.le_of_lt_double hn (by omega)
      · intro hle
        exact .inl hle

theorem band_or_edge_of_halves {w : Nat} (hn : 2 ≤ n) (hwide : n ≤ (w + 1) / 2)
    (hlower : Fine n .lower (w / 2)) (hupper : Fine n .upper ((w + 1) / 2)) :
    Band n w ∨ (w / 2 + 1 = n ∧ w + 1 = 2 * n) := by
  by_cases heven : (w + 1) / 2 = w / 2
  · have hw : w = 2 * (w / 2) := by omega
    rcases hupper with hle | ⟨k, hk⟩
    · -- both halves are `n`
      refine .inl ⟨1, ?_⟩
      rw [BandAt.succ_iff]
      simp only [Nat.pow_zero, Nat.one_mul]
      omega
    · rw [heven] at hk
      exact .inl ⟨k + 1, by rw [hw]; exact hk.double⟩
  · have hw : w = 2 * (w / 2) + 1 := by omega
    have hc : (w + 1) / 2 = w / 2 + 1 := by omega
    rw [hc] at hupper hwide
    rcases hupper with hle | hin
    · exact .inr ⟨by omega, by omega⟩
    · by_cases hedge : n < w / 2 + 1
      · exact .inl (by rw [hw]; exact band_of_odd hn hedge hlower hin)
      · exact .inr ⟨by omega, by omega⟩

theorem fine_iff_halves {side : Side} {w : Nat} (hn : 2 ≤ n) (h : n ≤ reach side w) :
    Fine n side w ↔ Fine n .lower (w / 2) ∧ Fine n .upper ((w + 1) / 2) := by
  have hwide : n ≤ (w + 1) / 2 := by
    cases side with
    | lower => exact h
    | upper =>
        simp only [reach] at h
        omega
  constructor
  · intro hfine
    cases side with
    | lower =>
        rcases hfine with hle | hin | hodd
        · omega
        · exact hin.halves hn hwide
        · exact ⟨.inl (by omega), .inl (by omega)⟩
    | upper =>
        rcases hfine with hle | hin
        · omega
        · exact hin.halves hn hwide
  · rintro ⟨hlower, hupper⟩
    have hcases := band_or_edge_of_halves hn hwide hlower hupper
    cases side with
    | lower =>
        rcases hcases with hin | ⟨_, hodd⟩
        · exact .inr (.inl hin)
        · exact .inr (.inr hodd)
    | upper =>
        simp only [reach] at h
        rcases hcases with hin | ⟨hshort, _⟩
        · exact .inr hin
        · omega

theorem narrow_iff_fine (hn : 2 ≤ n) (side : Side) (w : Nat) :
    Narrow n n side w ↔ Fine n side w := by
  have hstop : 1 ≤ n := by omega
  refine bisection_induction (motive := fun side w => Narrow n n side w ↔ Fine n side w) hstop
    ?_ ?_ side w
  · intro side w h
    rw [narrow_of_lt h, fine_iff_le hn h]
  · intro side w h hright hleft
    rw [narrow_of_le h, fine_iff_halves hn h, hright, hleft]

end Band

end MoonGen.Bisection

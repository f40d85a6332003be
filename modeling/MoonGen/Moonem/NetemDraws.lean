import Mathlib.Data.Rat.Floor
import Mathlib.Tactic.Linarith
import MoonGen.Lib.Draws
import MoonGen.Moonem.LossModel

/-! # Draws behind the transitions of the four-state loss model

The percentages of the four-state model are encoded as cumulative 64-bit
thresholds and decoded by `netem_drop`. Here the draws behind every transition
are counted and compared with the percentages.
-/

namespace MoonGen.Moonem

open Draws

def netemDraws (config : MoonemConfig) (state next : UInt64) : ℕ :=
  count (2 ^ 64) (fun n => (netemMove config state (UInt64.ofNat n)).2) next

def Near (draws : ℕ) (percent : ℚ) : Prop := |(draws : ℚ) - 2 ^ 64 * (percent / 100)| ≤ 4

/-- The transitions out of q1 (state 0) have the draws of `p13` and `p14`. -/
structure Q1Faithful (config : MoonemConfig) (p13 p14 : ℚ) : Prop where
  toQ3 : Near (netemDraws config 0 2) p13
  toQ4 : Near (netemDraws config 0 3) p14
  toQ2 : netemDraws config 0 1 ≤ 4

structure Q2Faithful (config : MoonemConfig) (p23 : ℚ) : Prop where
  toQ3 : Near (netemDraws config 1 2) p23
  toQ1 : netemDraws config 1 0 ≤ 4
  toQ4 : netemDraws config 1 3 ≤ 4

structure Q3Faithful (config : MoonemConfig) (p31 p32 : ℚ) : Prop where
  toQ1 : Near (netemDraws config 2 0) p31
  toQ2 : Near (netemDraws config 2 1) p32
  toQ4 : netemDraws config 2 3 ≤ 4

structure Q4Faithful (config : MoonemConfig) : Prop where
  toQ1 : Near (netemDraws config 3 0) 100
  toQ2 : netemDraws config 3 1 ≤ 4
  toQ3 : netemDraws config 3 2 ≤ 4

/-! ## Counts from thresholds -/

theorem netemMove_bands (config : MoonemConfig) (state : UInt64) {n : ℕ} (hn : n < 2 ^ 64) :
    (netemMove config state (UInt64.ofNat n)).2 =
      bands (config.lossModelParameters (state * 2 + 0).toNat).toNat
        (((config.lossModelParameters (state * 2 + 0).toNat).toNat +
          (config.lossModelParameters (state * 2 + 1).toNat).toNat) % 2 ^ 64)
        state (state ^^^ 3) (state ^^^ 2) n := by
  have hdraw : (UInt64.ofNat n).toNat = n := UInt64.toNat_ofNat_of_lt' hn
  simp only [netemMove, bands, UInt64.lt_iff_toNat_lt, UInt64.toNat_add, hdraw]
  split
  · rfl
  · split <;> rfl

theorem netemDraws_cases (config : MoonemConfig) (state : UInt64) {q r : UInt64}
    (hq : state ^^^ 3 = q) (hr : state ^^^ 2 = r) (hdistinct : state ≠ q ∧ state ≠ r ∧ q ≠ r)
    {i : ℕ} {stay keep : UInt64}
    (hi : (state * 2 + 0).toNat = i ∧ (state * 2 + 1).toNat = i + 1)
    (hstay : config.lossModelParameters i = stay)
    (hkeep : config.lossModelParameters (i + 1) = keep) :
    (stay.toNat + keep.toNat < 2 ^ 64 ∧ netemDraws config state q = keep.toNat ∧
        netemDraws config state r = 2 ^ 64 - stay.toNat - keep.toNat) ∨
      (2 ^ 64 ≤ stay.toNat + keep.toNat ∧ netemDraws config state q = 0 ∧
        netemDraws config state r = 2 ^ 64 - stay.toNat) := by
  have hbands := fun n hn => netemMove_bands config state (n := n) hn
  rw [hi.1, hi.2, hstay, hkeep, hq, hr] at hbands
  simp only [netemDraws, count_congr hbands]
  exact count_bands_wrapped stay.toNat_lt keep.toNat_lt hdistinct.1 hdistinct.2.1 hdistinct.2.2

theorem netemDraws_other (config : MoonemConfig) {state next : UInt64} (h : state ≠ next)
    (h3 : state ^^^ 3 ≠ next) (h2 : state ^^^ 2 ≠ next) : netemDraws config state next = 0 := by
  rw [netemDraws, count_congr fun n hn => netemMove_bands config state hn]
  exact count_bands_other h h3 h2

/-! ## The scaled thresholds -/

/-- The value one is cut by a single draw, every other value by less than one. -/
theorem scaleToUint64_spec {v : ℚ} (h0 : 0 ≤ v) (h1 : v ≤ 1) :
    (v = 1 ∧ (scaleToUint64 v).toNat = 2 ^ 64 - 1) ∨
      (v < 1 ∧ ((scaleToUint64 v).toNat : ℤ) = ⌊2 ^ 64 * v⌋) := by
  by_cases h : v = 1
  · left
    rw [scaleToUint64, if_pos h]
    exact ⟨h, rfl⟩
  · right
    have hlt : v < 1 := lt_of_le_of_ne h1 h
    rw [scaleToUint64, if_neg h]
    exact ⟨hlt, toNat_numberToUint64 (by linarith) (by linarith)⟩

/-- The draws a threshold leaves over: at least one. -/
def leftOver (v : ℚ) : ℤ := max 1 ⌈2 ^ 64 * (1 - v)⌉

theorem scaleToUint64_add_leftOver {v : ℚ} (h0 : 0 ≤ v) (h1 : v ≤ 1) :
    ((scaleToUint64 v).toNat : ℤ) + leftOver v = 2 ^ 64 := by
  unfold leftOver
  rcases scaleToUint64_spec h0 h1 with ⟨hone, hval⟩ | ⟨hlt, hval⟩
  · rw [hval, hone]
    norm_num
  · have hceil : ⌈2 ^ 64 * (1 - v)⌉ = 2 ^ 64 - ⌊2 ^ 64 * v⌋ := by
      rw [show (2 ^ 64 * (1 - v) : ℚ) = -(2 ^ 64 * v) + ((2 ^ 64 : ℤ) : ℚ) by push_cast; ring,
        Int.ceil_add_intCast, Int.ceil_neg]
      ring
    have hpos : 0 < ⌈2 ^ 64 * (1 - v)⌉ := by
      apply Int.ceil_pos.mpr
      linarith
    rw [hval, max_eq_right (by omega), hceil]
    ring

theorem one_le_leftOver (v : ℚ) : 1 ≤ leftOver v := le_max_left _ _

theorem le_leftOver (v : ℚ) : 2 ^ 64 * (1 - v) ≤ leftOver v := by
  have hceil := Int.le_ceil (2 ^ 64 * (1 - v))
  have hmax : (⌈2 ^ 64 * (1 - v)⌉ : ℚ) ≤ leftOver v := by exact_mod_cast le_max_right _ _
  linarith

theorem leftOver_le {v : ℚ} (h1 : v ≤ 1) : (leftOver v : ℚ) ≤ 2 ^ 64 * (1 - v) + 1 := by
  have hceil := Int.ceil_lt_add_one (2 ^ 64 * (1 - v))
  unfold leftOver
  push_cast
  apply max_le
  · linarith
  · exact hceil.le

theorem scaleToUint64_lt_one {v : ℚ} (h0 : 0 ≤ v) (h1 : v < 1) :
    ((scaleToUint64 v).toNat : ℤ) = ⌊2 ^ 64 * v⌋ := by
  rcases scaleToUint64_spec h0 h1.le with ⟨hone, _⟩ | ⟨_, hval⟩
  · exact absurd hone h1.ne
  · exact hval

/-- Proper shares that scale to an integer: such a share and its complement fill the
word, so that the sum of their thresholds wraps to zero. -/
def FillsWord (c : ℚ) : Prop := 0 < c ∧ c < 1 ∧ (⌊2 ^ 64 * c⌋ : ℚ) = 2 ^ 64 * c

theorem complement_sum_of_fills {c : ℚ} (h : FillsWord c) :
    (scaleToUint64 (1 - c)).toNat + (scaleToUint64 c).toNat = 2 ^ 64 := by
  obtain ⟨hpos, hlt, hint⟩ := h
  have hsum := scaleToUint64_add_leftOver (v := 1 - c) (by linarith) (by linarith)
  have hval := scaleToUint64_lt_one hpos.le hlt
  have hceil : ⌈2 ^ 64 * c⌉ = ⌊2 ^ 64 * c⌋ := by
    rw [Int.ceil_eq_iff]
    constructor <;> linarith
  have hone : 0 < ⌈2 ^ 64 * c⌉ := Int.ceil_pos.mpr (by linarith)
  rw [leftOver, sub_sub_cancel] at hsum
  omega

theorem complement_sum_of_not_fills {c : ℚ} (h0 : 0 ≤ c) (h1 : c ≤ 1) (h : ¬ FillsWord c) :
    (scaleToUint64 (1 - c)).toNat + (scaleToUint64 c).toNat + 1 = 2 ^ 64 := by
  have hsum := scaleToUint64_add_leftOver (v := 1 - c) (by linarith) (by linarith)
  rw [leftOver, sub_sub_cancel] at hsum
  rcases scaleToUint64_spec h0 h1 with ⟨hone, hval⟩ | ⟨hlt, hval⟩
  · have hceil : ⌈2 ^ 64 * c⌉ = 2 ^ 64 := by
      rw [hone]
      norm_num
    omega
  · have hmax : max 1 ⌈2 ^ 64 * c⌉ = ⌊2 ^ 64 * c⌋ + 1 := by
      by_cases hzero : c = 0
      · rw [hzero]
        norm_num
      · have hpos : 0 < c := lt_of_le_of_ne h0 (Ne.symm hzero)
        have hfrac : (⌊2 ^ 64 * c⌋ : ℚ) < 2 ^ 64 * c :=
          lt_of_le_of_ne (Int.floor_le _) fun heq => h ⟨hpos, hlt, heq⟩
        have hceil : ⌈2 ^ 64 * c⌉ = ⌊2 ^ 64 * c⌋ + 1 := by
          rw [Int.ceil_eq_iff]
          push_cast
          constructor
          · linarith
          · exact (Int.lt_floor_add_one _).le
        have hone : 0 < ⌈2 ^ 64 * c⌉ := Int.ceil_pos.mpr (by linarith)
        rw [max_eq_right (by omega), hceil]
    omega

theorem netemDraws_leftOver (config : MoonemConfig) (state : UInt64) {q r : UInt64}
    (hq : state ^^^ 3 = q) (hr : state ^^^ 2 = r) (hdistinct : state ≠ q ∧ state ≠ r ∧ q ≠ r)
    {i : ℕ} (hi : (state * 2 + 0).toNat = i ∧ (state * 2 + 1).toNat = i + 1) {a b : ℚ}
    (ha : 0 ≤ a ∧ a ≤ 1) (hb : 0 ≤ b ∧ b ≤ 1)
    (hstay : config.lossModelParameters i = scaleToUint64 a)
    (hkeep : config.lossModelParameters (i + 1) = scaleToUint64 b) :
    (2 ^ 64 < leftOver a + leftOver b ∧ (netemDraws config state q : ℚ) = 2 ^ 64 - leftOver b ∧
        (netemDraws config state r : ℚ) = leftOver a + leftOver b - 2 ^ 64) ∨
      (leftOver a + leftOver b ≤ 2 ^ 64 ∧ netemDraws config state q = 0 ∧
        (netemDraws config state r : ℚ) = leftOver a) := by
  have hleave := scaleToUint64_add_leftOver ha.1 ha.2
  have hrest := scaleToUint64_add_leftOver hb.1 hb.2
  have hpos := one_le_leftOver a
  rcases netemDraws_cases config state hq hr hdistinct hi hstay hkeep with
    ⟨hlt, hdq, hdr⟩ | ⟨hge, hdq, hdr⟩
  · left
    have hdq' : (netemDraws config state q : ℤ) = 2 ^ 64 - leftOver b := by omega
    have hdr' : (netemDraws config state r : ℤ) = leftOver a + leftOver b - 2 ^ 64 := by omega
    exact ⟨by omega, by exact_mod_cast hdq', by exact_mod_cast hdr'⟩
  · right
    have hdr' : (netemDraws config state r : ℤ) = leftOver a := by omega
    exact ⟨by omega, hdq, by exact_mod_cast hdr'⟩

/-! ## The percentages the encoding keeps -/

/-- The sum of the thresholds of two complementary percentages does not reach
`2 ^ 64`, or what is lost when it does is within the tolerance. -/
def WrapFree (percent : ℚ) : Prop :=
  percent = 100 ∨ 2 ^ 64 * (percent / 100) ≤ 4 ∨
    (⌊2 ^ 64 * (percent / 100)⌋ : ℚ) ≠ 2 ^ 64 * (percent / 100)

/-- `leave` draws do not stay in q1 and `rest` draws are above the second threshold
taken alone, which `new_args` gives as `100 - p14` where q1 to q4 has `p14`. Either
the sum wraps and q4 is never reached, or `100 - p14` is as good as `p14`. -/
def Q1Exact (p13 p14 : ℚ) : Prop :=
  let leave := leftOver ((100 - p13 - p14) / 100)
  let rest := leftOver ((100 - p14) / 100)
  (leave + rest ≤ 2 ^ 64 ∧ (leave : ℚ) ≤ 2 ^ 64 * (p13 / 100) + 4) ∨
    (2 ^ 64 < leave + rest ∧ |2 ^ 64 - (rest : ℚ) - 2 ^ 64 * (p14 / 100)| ≤ 4 ∧
      |(leave : ℚ) + rest - 2 ^ 64 - 2 ^ 64 * (p13 / 100)| ≤ 4)

/-- Only percentages `p14` that are zero or fifty up to rounding are encoded. -/
theorem Q1Exact.p14_zero_or_half {p13 p14 : ℚ} (h14 : 0 ≤ p14) (h : Q1Exact p13 p14) :
    2 ^ 64 * (p14 / 100) ≤ 4 ∨ |2 ^ 64 - 2 * (2 ^ 64 * (p14 / 100))| ≤ 5 := by
  have hleave := le_leftOver ((100 - p13 - p14) / 100)
  have hrest := le_leftOver ((100 - p14) / 100)
  have hrest' := leftOver_le (v := (100 - p14) / 100) (by linarith)
  rcases h with ⟨_, hle⟩ | ⟨_, hkeep, _⟩
  · left
    linarith
  · right
    rw [abs_le] at hkeep ⊢
    constructor <;> linarith

/-! ## State by state -/

section States

variable {p13 p31 p32 p23 p14 : ℚ} {config : MoonemConfig}

theorem q1Faithful_iff
    (hp : config.lossModelParameters = scaledParameters (netemArgs p13 p31 p32 p23 p14))
    (h13 : 0 ≤ p13) (h14 : 0 ≤ p14) (hsum : p13 + p14 ≤ 100) :
    Q1Faithful config p13 p14 ↔ Q1Exact p13 p14 := by
  have hleave := le_leftOver ((100 - p13 - p14) / 100)
  have hother : netemDraws config 0 1 = 0 :=
    netemDraws_other config (by decide) (by decide) (by decide)
  rcases netemDraws_leftOver config 0 (q := 3) (r := 2) rfl rfl (by decide) (i := 0) (by decide)
      (a := (100 - p13 - p14) / 100) (b := (100 - p14) / 100)
      ⟨by linarith, by linarith⟩ ⟨by linarith, by linarith⟩ (congrFun hp 0) (congrFun hp 1) with
    ⟨hroom, h4, h3⟩ | ⟨hwrap, h4, h3⟩
  · constructor
    · intro h
      have hq4 := h.toQ4
      have hq3 := h.toQ3
      rw [Near, h4] at hq4
      rw [Near, h3] at hq3
      exact .inr ⟨hroom, hq4, hq3⟩
    · rintro (⟨hwrap, _⟩ | ⟨_, hq4, hq3⟩)
      · exact absurd hroom hwrap.not_gt
      · exact ⟨by rwa [Near, h3], by rwa [Near, h4], by omega⟩
  · constructor
    · intro h
      have hq3 := h.toQ3
      rw [Near, h3, abs_le] at hq3
      exact .inl ⟨hwrap, by linarith [hq3.2]⟩
    · rintro (⟨_, hle⟩ | ⟨hroom, _⟩)
      · refine ⟨?_, ?_, by omega⟩
        · rw [Near, h3, abs_le]
          constructor <;> linarith
        · rw [Near, h4, abs_le]
          push_cast
          constructor <;> linarith
      · exact absurd hroom hwrap.not_gt

theorem near_scaleToUint64 {percent : ℚ} (h0 : 0 ≤ percent) (h1 : percent ≤ 100) :
    Near (scaleToUint64 (percent / 100)).toNat percent := by
  rw [Near, abs_le]
  rcases scaleToUint64_spec (v := percent / 100) (by linarith) (by linarith) with
    ⟨hone, hval⟩ | ⟨_, hval⟩
  · rw [hval, hone]
    norm_num
  · have hcast : ((scaleToUint64 (percent / 100)).toNat : ℚ) = ⌊2 ^ 64 * (percent / 100)⌋ := by
      exact_mod_cast hval
    have hle := Int.floor_le (2 ^ 64 * (percent / 100))
    have hgt := Int.lt_floor_add_one (2 ^ 64 * (percent / 100))
    rw [hcast]
    constructor <;> linarith

theorem wrapFree_iff_of_fills {percent : ℚ} (h : FillsWord (percent / 100)) :
    WrapFree percent ↔ 2 ^ 64 * (percent / 100) ≤ 4 := by
  constructor
  · rintro (hfull | hsmall | hfrac)
    · linarith [h.2.1]
    · exact hsmall
    · exact absurd h.2.2 hfrac
  · intro hsmall
    exact .inr (.inl hsmall)

theorem wrapFree_of_not_fills {percent : ℚ} (h0 : 0 ≤ percent) (h1 : percent ≤ 100)
    (h : ¬ FillsWord (percent / 100)) : WrapFree percent := by
  by_cases hzero : percent = 0
  · right
    left
    rw [hzero]
    norm_num
  · by_cases hfull : percent = 100
    · exact .inl hfull
    · right
      right
      intro hfloor
      have hpos : 0 < percent := lt_of_le_of_ne h0 (Ne.symm hzero)
      have hlt : percent < 100 := lt_of_le_of_ne h1 hfull
      exact h ⟨by linarith, by linarith, hfloor⟩

theorem complement_faithful_iff (state : UInt64) {q r : UInt64} {i : ℕ} {percent : ℚ}
    (h0 : 0 ≤ percent) (h1 : percent ≤ 100) (hq : state ^^^ 3 = q) (hr : state ^^^ 2 = r)
    (hdistinct : state ≠ q ∧ state ≠ r ∧ q ≠ r)
    (hi : (state * 2 + 0).toNat = i ∧ (state * 2 + 1).toNat = i + 1)
    (hstay : config.lossModelParameters i = scaleToUint64 (1 - percent / 100))
    (hkeep : config.lossModelParameters (i + 1) = scaleToUint64 (percent / 100)) :
    Near (netemDraws config state q) percent ∧ netemDraws config state r ≤ 4 ↔
      WrapFree percent := by
  have hcases := netemDraws_cases config state hq hr hdistinct hi hstay hkeep
  by_cases hfills : FillsWord (percent / 100)
  · -- the sum of the thresholds is zero, so the draws meant for `q` go to `r`
    have hsum := complement_sum_of_fills hfills
    have hval := scaleToUint64_lt_one hfills.1.le hfills.2.1
    have hdraws : (netemDraws config state r : ℚ) = 2 ^ 64 * (percent / 100) := by
      have hint : (netemDraws config state r : ℤ) = ⌊2 ^ 64 * (percent / 100)⌋ := by omega
      rw [← hfills.2.2]
      exact_mod_cast hint
    have hzero : netemDraws config state q = 0 := by omega
    rw [wrapFree_iff_of_fills hfills, ← hdraws]
    constructor
    · rintro ⟨_, hle⟩
      exact_mod_cast hle
    · intro hle
      refine ⟨?_, by exact_mod_cast hle⟩
      rw [Near, hzero, abs_le]
      push_cast
      constructor <;> linarith [hfills.1]
  · have hsum := complement_sum_of_not_fills (by linarith) (by linarith) hfills
    have hdraws : netemDraws config state q = (scaleToUint64 (percent / 100)).toNat := by omega
    refine iff_of_true ⟨?_, by omega⟩ (wrapFree_of_not_fills h0 h1 hfills)
    rw [hdraws]
    exact near_scaleToUint64 h0 h1

theorem near_zero_iff (draws : ℕ) : Near draws 0 ↔ draws ≤ 4 := by
  have hdraws : (0 : ℚ) ≤ draws := Nat.cast_nonneg draws
  rw [Near, zero_div, mul_zero, sub_zero, abs_of_nonneg hdraws]
  norm_cast

theorem q2Faithful_iff
    (hp : config.lossModelParameters = scaledParameters (netemArgs p13 p31 p32 p23 p14))
    (h0 : 0 ≤ p23) (h1 : p23 ≤ 100) : Q2Faithful config p23 ↔ WrapFree p23 := by
  have hstay : config.lossModelParameters 2 = scaleToUint64 (1 - p23 / 100) := by
    rw [hp, show 1 - p23 / 100 = (100 - p23) / 100 by ring]
    rfl
  have hkeep : config.lossModelParameters 3 = scaleToUint64 (p23 / 100) := congrFun hp 3
  rw [← complement_faithful_iff 1 (q := 2) (r := 3) h0 h1 rfl rfl (by decide) (by decide)
    hstay hkeep]
  have hother : netemDraws config 1 0 = 0 :=
    netemDraws_other config (by decide) (by decide) (by decide)
  exact ⟨fun h => ⟨h.toQ3, h.toQ4⟩, fun h => ⟨h.1, by omega, h.2⟩⟩

theorem q4Faithful
    (hp : config.lossModelParameters = scaledParameters (netemArgs p13 p31 p32 p23 p14)) :
    Q4Faithful config := by
  have hstay : config.lossModelParameters 6 = scaleToUint64 (1 - 100 / 100) := by
    rw [hp, show (1 - 100 / 100 : ℚ) = 0 / 100 by norm_num]
    rfl
  have hkeep : config.lossModelParameters 7 = scaleToUint64 (100 / 100) := congrFun hp 7
  have hfaithful := (complement_faithful_iff 3 (q := 0) (r := 1) (by norm_num) le_rfl
    rfl rfl (by decide) (by decide) hstay hkeep).mpr (.inl rfl)
  have hother : netemDraws config 3 2 = 0 :=
    netemDraws_other config (by decide) (by decide) (by decide)
  exact ⟨hfaithful.1, hfaithful.2, by omega⟩

theorem q3Faithful_of_pos
    (hp : config.lossModelParameters = scaledParameters (netemArgs p13 p31 p32 p23 p14))
    (h31 : 0 < p31) (h32 : 0 ≤ p32) (hsum : p31 + p32 ≤ 100) : Q3Faithful config p31 p32 := by
  have hleave := le_leftOver ((100 - p31 - p32) / 100)
  have hleave' := leftOver_le (v := (100 - p31 - p32) / 100) (by linarith)
  have hrest := le_leftOver (p32 / 100)
  have hrest' := leftOver_le (v := p32 / 100) (by linarith)
  have hother : netemDraws config 2 3 = 0 :=
    netemDraws_other config (by decide) (by decide) (by decide)
  rcases netemDraws_leftOver config 2 (q := 1) (r := 0) rfl rfl (by decide) (i := 4) (by decide)
      (a := (100 - p31 - p32) / 100) (b := p32 / 100)
      ⟨by linarith, by linarith⟩ ⟨by linarith, by linarith⟩ (congrFun hp 4) (congrFun hp 5) with
    ⟨_, hq2, hq1⟩ | ⟨hwrap, _⟩
  · refine ⟨?_, ?_, by omega⟩
    · rw [Near, hq1, abs_le]
      constructor <;> linarith
    · rw [Near, hq2, abs_le]
      constructor <;> linarith
  · have hwrap' : (leftOver ((100 - p31 - p32) / 100) : ℚ) + leftOver (p32 / 100) ≤ 2 ^ 64 := by
      exact_mod_cast hwrap
    linarith

theorem q3Faithful_iff
    (hp : config.lossModelParameters = scaledParameters (netemArgs p13 p31 p32 p23 p14))
    (h31 : 0 ≤ p31) (h32 : 0 ≤ p32) (hsum : p31 + p32 ≤ 100) :
    Q3Faithful config p31 p32 ↔ p31 ≠ 0 ∨ WrapFree p32 := by
  by_cases hzero : p31 = 0
  · have hstay : config.lossModelParameters 4 = scaleToUint64 (1 - p32 / 100) := by
      rw [hp, show 1 - p32 / 100 = (100 - p31 - p32) / 100 by rw [hzero]; ring]
      rfl
    have hkeep : config.lossModelParameters 5 = scaleToUint64 (p32 / 100) := congrFun hp 5
    have hiff := complement_faithful_iff 2 (q := 1) (r := 0) h32 (by linarith) rfl rfl
      (by decide) (by decide) hstay hkeep
    have hother : netemDraws config 2 3 = 0 :=
      netemDraws_other config (by decide) (by decide) (by decide)
    subst hzero
    constructor
    · intro h
      right
      exact hiff.mp ⟨h.toQ2, (near_zero_iff _).mp h.toQ1⟩
    · rintro (hne | hfree)
      · exact absurd rfl hne
      · have hdraws := hiff.mpr hfree
        exact ⟨(near_zero_iff _).mpr hdraws.2, hdraws.1, by omega⟩
  · have hpos : 0 < p31 := lt_of_le_of_ne h31 (Ne.symm hzero)
    exact iff_of_true (q3Faithful_of_pos hp hpos h32 hsum) (.inl hzero)

end States

/-! ## The configurations of the scripts -/

theorem netemParameters_eq {p13 p31 p32 p23 p14 : ℚ} {parameters : ℕ → UInt64}
    (h : netemParameters [p13, p31, p32, p23, p14] = some parameters) :
    (∀ p ∈ [p13, p31, p32, p23, p14], 0 ≤ p ∧ p ≤ 100) ∧
      parameters = scaledParameters (netemArgs p13 p31 p32 p23 p14) := by
  simp only [netemParameters, Option.ite_none_right_eq_some, Option.some.injEq] at h
  exact ⟨h.1, h.2.symm⟩

theorem newNetem_parameters {seed : ℚ} {parameters : List ℚ} {config : MoonemConfig}
    (h : newNetem seed parameters = some config) :
    netemParameters parameters = some config.lossModelParameters := by
  obtain ⟨ps, hps, heq⟩ := Option.map_eq_some_iff.mp h
  subst heq
  exact hps

theorem master_parameters {args : Args} {parameters : List ℚ} {config : MoonemConfig}
    (hargs : args.netemLoss = some parameters) (h : master args = some config) :
    netemParameters parameters = some config.lossModelParameters := by
  have hparameters : config.lossModelParameters = config.lossModel.2.2 := rfl
  rcases master_cases h with
    ⟨hnone, _⟩ | ⟨_, hnone, _⟩ | ⟨given, built, hgiven, hbuilt, heq⟩ | ⟨hnone, _⟩
  · cases hargs.symm.trans hnone
  · cases hargs.symm.trans hnone
  · obtain rfl := Option.some.inj (hargs.symm.trans hgiven)
    rw [hparameters, heq]
    exact newNetem_parameters hbuilt
  · cases hargs.symm.trans hnone

/-- The configuration of the five percentages, from either script. -/
def NetemConfigured (p13 p31 p32 p23 p14 : ℚ) (config : MoonemConfig) : Prop :=
  (∃ seed, newNetem seed [p13, p31, p32, p23, p14] = some config) ∨
    ∃ args : Args, args.netemLoss = some [p13, p31, p32, p23, p14] ∧ master args = some config

theorem NetemConfigured.parameters {p13 p31 p32 p23 p14 : ℚ} {config : MoonemConfig}
    (h : NetemConfigured p13 p31 p32 p23 p14 config) :
    netemParameters [p13, p31, p32, p23, p14] = some config.lossModelParameters := by
  rcases h with ⟨seed, hnew⟩ | ⟨args, hargs, hmaster⟩
  · exact newNetem_parameters hnew
  · exact master_parameters hargs hmaster

/-- The transitions of the four-state model have the draws of its percentages
exactly when the percentages out of q1 survive the second threshold being
`100 - p14`, and the threshold sums of q2 and q3 do not wrap. -/
theorem netem_faithful_iff {p13 p31 p32 p23 p14 : ℚ} {config : MoonemConfig}
    (hconfig : NetemConfigured p13 p31 p32 p23 p14 config) (hq1 : p13 + p14 ≤ 100)
    (hq3 : p31 + p32 ≤ 100) :
    (Q1Faithful config p13 p14 ∧ Q2Faithful config p23 ∧ Q3Faithful config p31 p32 ∧
        Q4Faithful config) ↔
      (Q1Exact p13 p14 ∧ WrapFree p23 ∧ (p31 ≠ 0 ∨ WrapFree p32)) := by
  obtain ⟨hrange, hp⟩ := netemParameters_eq hconfig.parameters
  have h13 := hrange p13 (by simp)
  have h31 := hrange p31 (by simp)
  have h32 := hrange p32 (by simp)
  have h23 := hrange p23 (by simp)
  have h14 := hrange p14 (by simp)
  rw [q1Faithful_iff hp h13.1 h14.1 hq1, q2Faithful_iff hp h23.1 h23.2,
    q3Faithful_iff hp h31.1 h32.1 hq3]
  constructor
  · rintro ⟨h1, h2, h3, _⟩
    exact ⟨h1, h2, h3⟩
  · rintro ⟨h1, h2, h3⟩
    exact ⟨h1, h2, h3, q4Faithful hp⟩

theorem netem_faithful_iff_p14_zero :
    ∃ config, NetemConfigured 10 20 30 10 0 config ∧ (10 + 0 ≤ (100 : ℚ)) ∧ (20 + 30 ≤ (100 : ℚ)) ∧
      Q1Faithful config 10 0 ∧ Q2Faithful config 10 ∧ Q3Faithful config 20 30 ∧
      Q4Faithful config := by
  have hconfig : NetemConfigured 10 20 30 10 0
      (lossModelConfig .netem 0 (scaledParameters (netemArgs 10 20 30 10 0))) :=
    .inl ⟨12345, by simp [newNetem, netemParameters]; norm_num⟩
  refine ⟨_, hconfig, by norm_num, by norm_num, ?_⟩
  rw [netem_faithful_iff hconfig (by norm_num) (by norm_num)]
  refine ⟨?_, ?_, .inl (by norm_num)⟩
  · left
    unfold leftOver
    norm_num
  · right
    right
    norm_num

/-- Ten percent from q1 to q4 come out as no draw at all: 89 and 90 percent are
added as thresholds and the sum wraps. -/
theorem netem_q4_unreached :
    ∃ config, newNetem 12345 [1, 50, 10, 30, 10] = some config ∧ netemDraws config 0 3 = 0 ∧
      ¬ Q1Faithful config 1 10 := by
  let parameters := scaledParameters (netemArgs 1 50 10 30 10)
  have hwrap : ¬ (parameters 0).toNat + (parameters 1).toNat < 2 ^ 64 := by
    decide +kernel
  have hdraws : netemDraws (lossModelConfig .netem 0 parameters) 0 3 = 0 := by
    rcases netemDraws_cases (lossModelConfig .netem 0 parameters) 0 (q := 3) (r := 2)
      rfl rfl (by decide) (i := 0) (by decide) rfl rfl with ⟨hlt, _⟩ | ⟨_, hzero, _⟩
    · exact absurd hlt hwrap
    · exact hzero
  refine ⟨lossModelConfig .netem 0 parameters, ?_, hdraws, ?_⟩
  · simp [newNetem, netemParameters, parameters]
    norm_num
  · intro h
    have hq4 := h.toQ4
    rw [hdraws, Near, abs_le] at hq4
    norm_num at hq4

end MoonGen.Moonem

import Mathlib.Algebra.Field.Rat
import Mathlib.Algebra.Order.Ring.Abs
import MoonGen.Lib.Moments
import MoonGen.Lib.Rounding
import MoonGen.Lib.SortedMap
import MoonGen.Lib.Words

/-! # The histogram of the latencies

The embedding of the class `Histogram` in `histogram.cpp`. The doubles are exact
rationals. The storage maps the value of a bucket, a signed 64-bit number, to a 32-bit
counter.
-/

namespace MoonGen.Moonsniff

/-- The order of `std::map` on its keys. -/
local instance int64LinearOrder : LinearOrder Int64 where
  le_refl := Int64.le_refl
  le_trans := fun _ _ _ => Int64.le_trans
  lt_iff_le_not_ge := fun a b => by
    rw [Int64.not_le]
    exact ⟨fun h => ⟨Int64.le_of_lt h, h⟩, And.right⟩
  le_antisymm := fun _ _ => Int64.le_antisymm
  le_total := Int64.le_total
  toDecidableLE := inferInstance
  toDecidableEq := inferInstance
  toDecidableLT := inferInstance

structure Histogram where
  count : UInt64
  m2 : Rat
  mean : Rat
  variance : Rat
  bucketSize : Int64
  bucketHalf : Int64
  storage : SortedMap Int64 UInt32

namespace Histogram

/-- The constructor; a bucket size of zero ends the program. -/
def new (bucketSize : UInt32) : Option Histogram :=
  if bucketSize ≤ 0 then none
  else
    let size := bucketSize.toUInt64.toInt64
    some ⟨0, 0, 0, 0, size, size / 2, .empty⟩

def bucket (h : Histogram) (newVal : Int64) : Int64 :=
  let newVal :=
    if newVal > 0 then newVal + h.bucketHalf
    else if newVal < 0 then newVal - h.bucketHalf
    else newVal
  newVal / h.bucketSize * h.bucketSize

/-- `++storage[key]`: a missing key starts at zero. -/
def increment (counter : Option UInt32) : UInt32 := counter.getD 0 + 1

/-- The returned value says whether the new value is not negative. -/
def update (h : Histogram) (newVal : Int64) : Histogram × Bool :=
  let ret := !decide (newVal < 0)
  let count := h.count + 1
  let delta := newVal.toInt - h.mean
  let mean := h.mean + delta / count.toNat
  let delta2 := newVal.toInt - mean
  ({ h with
      count := count
      mean := mean
      m2 := h.m2 + delta * delta2
      storage := h.storage.adjust (h.bucket newVal) increment }, ret)

def updateAll (h : Histogram) (values : List Int64) : Histogram :=
  values.foldl (fun h newVal => (h.update newVal).1) h

def finalize (h : Histogram) : Histogram :=
  if h.count < 2 then h else { h with variance := h.m2 / (h.count - 1).toNat }

/-! ## What a sequence of updates leaves -/

theorem updateAll_cons (h : Histogram) (v : Int64) (values : List Int64) :
    h.updateAll (v :: values) = (h.update v).1.updateAll values := rfl

@[simp] theorem update_bucket (h : Histogram) (v w : Int64) :
    (h.update v).1.bucket w = h.bucket w := rfl

theorem updateAll_storage (h : Histogram) (values : List Int64) :
    (h.updateAll values).storage =
      h.storage.tally increment (values.map h.bucket) := by
  induction values generalizing h with
  | nil => rfl
  | cons v values ih =>
      rw [updateAll_cons, ih, List.map_cons, SortedMap.tally_cons]
      rfl

theorem updateAll_count (h : Histogram) (values : List Int64) :
    (h.updateAll values).count = h.count + UInt64.ofNat values.length := by
  induction values generalizing h with
  | nil => simp [updateAll]
  | cons v values ih =>
      have hcount : (h.update v).1.count = h.count + 1 := rfl
      rw [updateAll_cons, ih, hcount, List.length_cons, UInt64.ofNat_add, UInt64.add_assoc,
        UInt64.add_comm 1]
      rfl

theorem update_moments (h : Histogram) (v : Int64) (hcount : h.count.toNat + 1 < 2 ^ 64) :
    (⟨(h.update v).1.count.toNat, (h.update v).1.mean, (h.update v).1.m2⟩ : Moments Rat) =
      Moments.push ⟨h.count.toNat, h.mean, h.m2⟩ v.toInt := by
  have hnext : (h.count + 1).toNat = h.count.toNat + 1 := by
    rw [UInt64.toNat_add]
    exact Nat.mod_eq_of_lt hcount
  simp only [update, Moments.push, hnext]

theorem updateAll_moments (h : Histogram) (values : List Int64)
    (hcount : h.count.toNat + values.length < 2 ^ 64) :
    (⟨(h.updateAll values).count.toNat, (h.updateAll values).mean, (h.updateAll values).m2⟩ :
        Moments Rat) =
      (values.map fun v => (v.toInt : Rat)).foldl Moments.push ⟨h.count.toNat, h.mean, h.m2⟩ := by
  induction values generalizing h with
  | nil => rfl
  | cons v values ih =>
      rw [List.length_cons] at hcount
      have hnext : (h.update v).1.count.toNat = h.count.toNat + 1 :=
        congrArg Moments.count (update_moments h v (by omega))
      rw [updateAll_cons, ih _ (by omega), update_moments h v (by omega)]
      rfl

/-! ## Counters -/

theorem iterate_increment (n : Nat) :
    ((fun o => some (increment o))^[n] none).getD 0 = UInt32.ofNat n := by
  induction n with
  | zero => rfl
  | succ n ih =>
      rw [Function.iterate_succ_apply', Option.getD_some, increment, ih, UInt32.ofNat_add]
      rfl

variable {keys : List Int64}

theorem toNat_get?_tally (hfew : ∀ b, keys.count b < 2 ^ 32) (b : Int64) :
    (((SortedMap.empty.tally increment keys).get? b).getD 0).toNat = keys.count b := by
  rw [SortedMap.get?_tally, SortedMap.get?_empty, iterate_increment]
  exact UInt32.toNat_ofNat_of_lt' (hfew b)

theorem sum_counters_tally (hfew : ∀ b, keys.count b < 2 ^ 32) :
    ((SortedMap.empty.tally increment keys).entries.map fun e => e.2.toNat).sum = keys.length := by
  have hentries : ((SortedMap.empty.tally increment keys).entries.map fun e => e.2.toNat) =
      (SortedMap.empty.tally increment keys).keys.map fun b => keys.count b := by
    rw [SortedMap.keys, List.map_map]
    apply List.map_congr_left
    intro e he
    have hget := (SortedMap.mem_entries_iff _ e).mp he
    have hcount := toNat_get?_tally hfew e.1
    rw [hget, Option.getD_some] at hcount
    exact hcount
  rw [hentries, SortedMap.sum_count_keys_tally]

/-! ## Buckets -/

structure Fresh (s : UInt32) (h : Histogram) : Prop where
  size_eq : h.bucketSize.toInt = s.toNat
  half_eq : h.bucketHalf.toInt = (s.toNat : Int) / 2
  storage_eq : h.storage = .empty
  count_eq : h.count = 0
  moments_eq : h.mean = 0 ∧ h.m2 = 0

theorem new_fresh {s : UInt32} (hs : 0 < s) : ∃ h, new s = some h ∧ Fresh s h := by
  have hsize : s.toUInt64.toInt64.toInt = s.toNat := by
    rw [toInt_toInt64, UInt32.toNat_toUInt64]
    rw [UInt32.toNat_toUInt64]
    exact Nat.lt_trans s.toNat_lt (by decide)
  refine ⟨_, if_neg (UInt32.not_le.mpr hs), ?_⟩
  constructor
  · exact hsize
  · have htwo : (2 : Int64).toInt = 2 := rfl
    have hlt := s.toNat_lt
    rw [Int64.toInt_div, hsize, htwo, Int.tdiv_eq_ediv_of_nonneg (by omega)]
    exact bmod_of_signed (by omega) (by omega)
  · rfl
  · rfl
  · exact ⟨rfl, rfl⟩

/-- The values whose bucket is computed without an overflow. -/
def InRange (s : UInt32) (v : Int64) : Prop := |v.toInt| ≤ 2 ^ 63 - 1 - (s.toNat : Int)

instance (s : UInt32) (v : Int64) : Decidable (InRange s v) := inferInstanceAs (Decidable (_ ≤ _))

theorem InRange.neg {s : UInt32} {v : Int64} (h : InRange s v) :
    (-v).toInt = -v.toInt ∧ InRange s (-v) := by
  have hv := abs_le.mp h
  have hneg : (-v).toInt = -v.toInt := by
    rw [Int64.toInt_neg]
    exact bmod_of_signed (by omega) (by omega)
  refine ⟨hneg, ?_⟩
  unfold InRange
  rw [hneg, abs_neg]
  exact h

section Buckets

variable {s : UInt32} {h : Histogram} (hs : 0 < s) (hfresh : Fresh s h)

include hs hfresh

/-- Inside the range, 64 bits suffice for every step of the rounding. -/
theorem bucket_toInt {v : Int64} (hv : InRange s v) :
    (h.bucket v).toInt = roundAway s.toNat v.toInt := by
  have hpos : (0 : Int) < s.toNat := by exact_mod_cast UInt32.lt_iff_toNat_lt.mp hs
  have hrange := abs_le.mp hv
  have herror := abs_le.mp (abs_sub_roundAway_le hpos v.toInt)
  -- the value with half of a bucket added or taken away
  have hshifted : (if v > 0 then v + h.bucketHalf else if v < 0 then v - h.bucketHalf else v).toInt =
      if 0 < v.toInt then v.toInt + (s.toNat : Int) / 2
      else if v.toInt < 0 then v.toInt - (s.toNat : Int) / 2 else v.toInt := by
    simp only [gt_iff_lt, Int64.lt_iff_toInt_lt, Int64.toInt_zero]
    split
    · rw [Int64.toInt_add, hfresh.half_eq]
      exact bmod_of_signed (by omega) (by omega)
    · split
      · rw [Int64.toInt_sub, hfresh.half_eq]
        exact bmod_of_signed (by omega) (by omega)
      · rfl
  have hround : (h.bucket v).toInt =
      (((if 0 < v.toInt then v.toInt + (s.toNat : Int) / 2
        else if v.toInt < 0 then v.toInt - (s.toNat : Int) / 2 else v.toInt).tdiv s.toNat).bmod
          (2 ^ 64) * (s.toNat : Int)).bmod (2 ^ 64) := by
    simp only [bucket, Int64.toInt_mul, Int64.toInt_div, hshifted, hfresh.size_eq]
  rw [hround]
  unfold roundAway at herror ⊢
  generalize (if 0 < v.toInt then v.toInt + (s.toNat : Int) / 2
    else if v.toInt < 0 then v.toInt - (s.toNat : Int) / 2 else v.toInt).tdiv s.toNat = q
    at herror ⊢
  have hquotient : |q| ≤ |q * s.toNat| := by
    rw [abs_mul]
    exact le_mul_of_one_le_right (abs_nonneg q) (by rw [abs_of_pos hpos]; omega)
  have hproduct : |q * s.toNat| < 2 ^ 63 := abs_lt.mpr ⟨by omega, by omega⟩
  have hq := abs_lt.mp (lt_of_le_of_lt hquotient hproduct)
  have hmod : q.bmod (2 ^ 64) = q := bmod_of_signed (by omega) (by omega)
  rw [hmod]
  exact bmod_of_signed (by omega) (by omega)

theorem bucket_mono {v w : Int64} (hv : InRange s v) (hw : InRange s w) (hle : v ≤ w) :
    h.bucket v ≤ h.bucket w := by
  have hpos : (0 : Int) < s.toNat := by exact_mod_cast UInt32.lt_iff_toNat_lt.mp hs
  rw [Int64.le_iff_toInt_le, bucket_toInt hs hfresh hv, bucket_toInt hs hfresh hw]
  exact roundAway_mono hpos (Int64.le_iff_toInt_le.mp hle)

theorem bucket_neg {v : Int64} (hv : InRange s v) : h.bucket (-v) = -h.bucket v := by
  have hpos : (0 : Int) < s.toNat := by exact_mod_cast UInt32.lt_iff_toNat_lt.mp hs
  have hrange := abs_le.mp hv
  have herror := abs_le.mp (abs_sub_roundAway_le hpos v.toInt)
  rw [← Int64.toInt_inj, Int64.toInt_neg, bucket_toInt hs hfresh hv, bucket_toInt hs hfresh hv.neg.2,
    hv.neg.1, roundAway_neg]
  exact (bmod_of_signed (by omega) (by omega)).symm

end Buckets

/-! ## The histogram of a sequence -/

def FewPerBucket (h : Histogram) (values : List Int64) : Prop :=
  ∀ b, (values.map h.bucket).count b < 2 ^ 32

def total (h : Histogram) : Nat := (h.storage.entries.map fun e => e.2.toNat).sum

theorem updateAll_total {s : UInt32} {h : Histogram} (hfresh : Fresh s h) {values : List Int64}
    (hfew : h.FewPerBucket values) : (h.updateAll values).total = values.length := by
  rw [total, updateAll_storage, hfresh.storage_eq, sum_counters_tally hfew, List.length_map]

theorem updateAll_count_toNat {s : UInt32} {h : Histogram} (hfresh : Fresh s h)
    (values : List Int64) : (h.updateAll values).count.toNat = values.length % 2 ^ 64 := by
  rw [updateAll_count, hfresh.count_eq, UInt64.zero_add, UInt64.toNat_ofNat']

/-- After the updates with any values in the range: the keys are multiples of the bucket
size, the counters say how many values have their bucket and add up to `count` modulo
`2^64`, a bucket is at most half of the size away from its values, buckets keep the order
and the sign, and the order of the values does not matter. -/
theorem histogram_of_values (s : UInt32) (hs : 0 < s) (values : List Int64)
    (hrange : ∀ v ∈ values, InRange s v) :
    ∃ h, new s = some h ∧
      (∀ b ∈ (h.updateAll values).storage.keys, (s.toNat : Int) ∣ b.toInt) ∧
      (h.FewPerBucket values →
        (∀ b, (((h.updateAll values).storage.get? b).getD 0).toNat =
          values.countP fun v => h.bucket v = b) ∧
        (h.updateAll values).count.toNat = (h.updateAll values).total % 2 ^ 64) ∧
      (∀ v, InRange s v → 2 * |v.toInt - (h.bucket v).toInt| ≤ s.toNat) ∧
      (∀ v w, InRange s v → InRange s w → v ≤ w → h.bucket v ≤ h.bucket w) ∧
      (∀ v, InRange s v → h.bucket (-v) = -h.bucket v) ∧
      ∀ values', values.Perm values' →
        (h.updateAll values').storage = (h.updateAll values).storage := by
  have hpos : (0 : Int) < s.toNat := by exact_mod_cast UInt32.lt_iff_toNat_lt.mp hs
  rcases new_fresh hs with ⟨h, hnew, hfresh⟩
  refine ⟨h, hnew, ?_, ?_, ?_, ?_, ?_, ?_⟩
  · intro b hb
    rw [updateAll_storage, hfresh.storage_eq, SortedMap.mem_keys_tally, List.mem_map] at hb
    rcases hb with ⟨v, hv, rfl⟩
    rw [bucket_toInt hs hfresh (hrange v hv)]
    exact dvd_roundAway _ _
  · intro hfew
    constructor
    · intro b
      rw [updateAll_storage, hfresh.storage_eq, toNat_get?_tally hfew, List.count, List.countP_map]
      congr 1
    · rw [updateAll_count_toNat hfresh, updateAll_total hfresh hfew]
  · intro v hv
    have herror := abs_sub_roundAway_le hpos v.toInt
    rw [bucket_toInt hs hfresh hv]
    omega
  · intro v w hv hw hle
    exact bucket_mono hs hfresh hv hw hle
  · intro v hv
    exact bucket_neg hs hfresh hv
  · intro values' hperm
    rw [updateAll_storage, updateAll_storage]
    exact (SortedMap.tally_eq_of_perm _ _ (hperm.map _)).symm

theorem fewPerBucket_of_length {values : List Int64} (h : Histogram)
    (hlength : values.length < 2 ^ 32) : h.FewPerBucket values := by
  intro b
  have hcount := List.count_le_length (a := b) (l := values.map h.bucket)
  rw [List.length_map] at hcount
  omega

theorem histogram_of_five_values :
    (∀ v ∈ [4, 5, -5, 14, -4], InRange 10 v) ∧
      ∃ h, new 10 = some h ∧
        (((h.updateAll [4, 5, -5, 14, -4]).storage.get? 10).getD 0).toNat = 2 ∧
        (h.updateAll [-4, 14, -5, 5, 4]).storage = (h.updateAll [4, 5, -5, 14, -4]).storage := by
  have hrange : ∀ v ∈ [4, 5, -5, 14, -4], InRange 10 v := by
    simp only [List.forall_mem_cons]
    refine ⟨?_, ?_, ?_, ?_, ?_, List.forall_mem_nil _⟩ <;> decide
  rcases histogram_of_values 10 (by decide) [4, 5, -5, 14, -4] hrange with
    ⟨h, hnew, _, hcounts, _, _, _, hperm⟩
  have hh := Option.some.inj hnew
  refine ⟨hrange, h, hnew, ?_, hperm _ (by decide)⟩
  rw [(hcounts (fewPerBucket_of_length h (by decide))).1, ← hh]
  decide

/-! ## Statistics of a sequence -/

@[simp] theorem finalize_count (h : Histogram) : h.finalize.count = h.count := by
  unfold finalize
  split <;> rfl

@[simp] theorem finalize_mean (h : Histogram) : h.finalize.mean = h.mean := by
  unfold finalize
  split <;> rfl

theorem fresh_of_new {s : UInt32} {h : Histogram} (hnew : new s = some h) : Fresh s h := by
  have hs : 0 < s := by
    rw [← UInt32.not_le]
    intro hle
    rw [new, if_pos hle] at hnew
    cases hnew
  rcases new_fresh hs with ⟨h', hnew', hfresh⟩
  rw [hnew'] at hnew
  cases hnew
  exact hfresh

def numbers (values : List Int64) : List Rat := values.map fun v => (v.toInt : Rat)

theorem numbers_length (values : List Int64) : (numbers values).length = values.length :=
  List.length_map _

theorem updateAll_of {s : UInt32} {h : Histogram} (hfresh : Fresh s h) {values : List Int64}
    (hfew : values.length < 2 ^ 64) :
    Moments.Of (numbers values)
      ⟨(h.updateAll values).count.toNat, (h.updateAll values).mean, (h.updateAll values).m2⟩ := by
  have hcount : h.count.toNat = 0 := by
    rw [hfresh.count_eq]
    rfl
  rw [updateAll_moments h values (by omega), hcount, hfresh.moments_eq.1, hfresh.moments_eq.2]
  exact Moments.of_foldl _

theorem finalize_variance {h : Histogram} {xs : List Rat}
    (hof : Moments.Of xs ⟨h.count.toNat, h.mean, h.m2⟩) (hmany : 2 ≤ xs.length) :
    h.finalize.variance = Moments.sampleVariance xs := by
  have hcount : h.count.toNat = xs.length := hof.count_eq
  have hne : xs ≠ [] := List.ne_nil_of_length_pos (by omega)
  have hmean : h.mean = Moments.average xs := hof.mean_eq hne
  have hm2 : h.m2 = Moments.sqDev h.mean xs := hof.m2_eq
  have htwo : ¬ h.count < 2 := by
    rw [UInt64.lt_iff_toNat_lt, hcount]
    exact Nat.not_lt.mpr hmany
  have hpred : (h.count - 1).toNat = xs.length - 1 := by
    rw [UInt64.toNat_sub_of_le, hcount]
    · rfl
    · rw [UInt64.le_iff_toNat_le, hcount]
      exact Nat.le_trans (by decide) hmany
  rw [finalize, if_neg htwo, Moments.sampleVariance, ← hmean, ← hm2]
  show h.m2 / ((h.count - 1).toNat : Rat) = _
  rw [hpred, Nat.cast_pred (by omega)]

/-- The statistics of a sequence of values, two at least and fewer than the counter can
hold: `count` is their number, `mean` their mean and `variance` the unbiased variance of
the sample, whatever the order of the values. -/
theorem statistics_exact (s : UInt32) (h : Histogram) (hnew : new s = some h)
    (values : List Int64) (hmany : 2 ≤ values.length) (hfew : values.length < 2 ^ 64) :
    (h.updateAll values).finalize.count.toNat = values.length ∧
      (h.updateAll values).finalize.mean = Moments.average (numbers values) ∧
      (h.updateAll values).finalize.variance = Moments.sampleVariance (numbers values) ∧
      ∀ values', values.Perm values' →
        (h.updateAll values').finalize.mean = (h.updateAll values).finalize.mean ∧
          (h.updateAll values').finalize.variance = (h.updateAll values).finalize.variance := by
  have hfresh := fresh_of_new hnew
  have hstatistics : ∀ vs : List Int64, vs.length = values.length →
      (h.updateAll vs).finalize.count.toNat = vs.length ∧
        (h.updateAll vs).finalize.mean = Moments.average (numbers vs) ∧
        (h.updateAll vs).finalize.variance = Moments.sampleVariance (numbers vs) := by
    intro vs hlength
    have hof := updateAll_of hfresh (hlength ▸ hfew)
    have hmany : 2 ≤ (numbers vs).length := by
      rw [numbers_length, hlength]
      exact hmany
    have hne : numbers vs ≠ [] := List.ne_nil_of_length_pos (by omega)
    rw [finalize_count, finalize_mean]
    exact ⟨hof.count_eq.trans (numbers_length vs), hof.mean_eq hne, finalize_variance hof hmany⟩
  obtain ⟨hcount, hmean, hvariance⟩ := hstatistics values rfl
  refine ⟨hcount, hmean, hvariance, ?_⟩
  intro values' hperm
  obtain ⟨-, hmean', hvariance'⟩ := hstatistics values' hperm.length_eq.symm
  have hnumbers : (numbers values').Perm (numbers values) := hperm.symm.map _
  rw [hmean, hmean', hvariance, hvariance']
  exact ⟨Moments.average_perm hnumbers, Moments.sampleVariance_perm hnumbers⟩

theorem statistics_of_three_values :
    ∃ h, new 10 = some h ∧ 2 ≤ [(1 : Int64), 2, 6].length ∧ [(1 : Int64), 2, 6].length < 2 ^ 64 ∧
      (h.updateAll [1, 2, 6]).finalize.count.toNat = 3 ∧
      (h.updateAll [1, 2, 6]).finalize.mean = 3 ∧ (h.updateAll [1, 2, 6]).finalize.variance = 7 ∧
      (h.updateAll [6, 2, 1]).finalize.variance = (h.updateAll [1, 2, 6]).finalize.variance := by
  rcases new_fresh (by decide : (0 : UInt32) < 10) with ⟨h, hnew, _⟩
  have hmany : 2 ≤ [(1 : Int64), 2, 6].length := by decide
  have hfew : [(1 : Int64), 2, 6].length < 2 ^ 64 := by decide
  obtain ⟨hcount, hmean, hvariance, hperm⟩ := statistics_exact 10 h hnew [1, 2, 6] hmany hfew
  have hnumbers : numbers [1, 2, 6] = [1, 2, 6] := rfl
  have haverage : Moments.average (numbers [1, 2, 6]) = 3 := by
    rw [hnumbers]
    norm_num [Moments.average]
  have hsample : Moments.sampleVariance (numbers [1, 2, 6]) = 7 := by
    rw [Moments.sampleVariance, haverage, hnumbers]
    norm_num [Moments.sqDev]
  refine ⟨h, hnew, hmany, hfew, hcount, hmean.trans haverage, hvariance.trans hsample, ?_⟩
  exact (hperm [6, 2, 1] (by decide)).2

/-- `2^64` values take `count` back to zero. -/
theorem statistics_count_wraps :
    ∃ (h : Histogram) (values : List Int64), new 1 = some h ∧ 2 ≤ values.length ∧
      (h.updateAll values).finalize.count.toNat ≠ values.length := by
  rcases new_fresh (by decide : (0 : UInt32) < 1) with ⟨h, hnew, hfresh⟩
  suffices hlong : ∀ n : Nat, 2 ^ 64 ≤ n →
      2 ≤ (List.replicate n (0 : Int64)).length ∧
        (h.updateAll (List.replicate n 0)).finalize.count.toNat ≠
          (List.replicate n (0 : Int64)).length from
    ⟨h, List.replicate (2 ^ 64) 0, hnew, hlong (2 ^ 64) (Nat.le_refl _)⟩
  intro n hn
  rw [finalize_count, updateAll_count_toNat hfresh, List.length_replicate]
  omega

/-! ## The end of the counter -/

/-- The numbers below `n`, all of them `m` times. -/
def repeated (n m : Nat) : List Int64 :=
  (List.replicate m ((List.range n).map fun i => Int64.ofNat i)).flatten

theorem length_repeated (n m : Nat) : (repeated n m).length = m * n := by
  simp [repeated, List.length_flatten, List.map_replicate]

theorem toInt_of_mem_repeated {n m : Nat} (hn : n ≤ 2 ^ 62) {v : Int64} (h : v ∈ repeated n m) :
    0 ≤ v.toInt ∧ v.toInt < 2 ^ 62 := by
  rw [repeated, List.mem_flatten] at h
  rcases h with ⟨block, hblock, hv⟩
  rw [List.eq_of_mem_replicate hblock, List.mem_map] at hv
  rcases hv with ⟨i, hi, rfl⟩
  have hlt := List.mem_range.mp hi
  rw [Int64.toInt_ofNat_of_lt (by omega)]
  omega

theorem count_repeated_le {n : Nat} (hn : n ≤ 2 ^ 62) (m : Nat) (b : Int64) :
    (repeated n m).count b ≤ m := by
  have hnodup : ((List.range n).map fun i => Int64.ofNat i).Nodup := by
    apply List.nodup_range.map_on
    intro i hi j hj heq
    have hi := List.mem_range.mp hi
    have hj := List.mem_range.mp hj
    have htoInt := congrArg Int64.toInt heq
    rw [Int64.toInt_ofNat_of_lt (by omega), Int64.toInt_ofNat_of_lt (by omega)] at htoInt
    omega
  have honce := List.nodup_iff_count_le_one.mp hnodup b
  rw [repeated, List.count_flatten, List.map_replicate, List.sum_replicate_nat]
  exact (Nat.mul_le_mul_left m honce).trans (Nat.mul_one m).le

theorem bucket_one {h : Histogram} (hfresh : Fresh 1 h) {v : Int64} (hv : InRange 1 v) :
    h.bucket v = v := by
  have herror := abs_le.mp (abs_sub_roundAway_le (s := 1) (by decide) v.toInt)
  have hone : ((1 : UInt32).toNat : Int) = 1 := rfl
  rw [← Int64.toInt_inj, bucket_toInt (by decide) hfresh hv, hone]
  omega

theorem map_bucket_repeated {h : Histogram} (hfresh : Fresh 1 h) {n : Nat} (hn : n ≤ 2 ^ 62)
    (m : Nat) :
    (∀ v ∈ repeated n m, InRange 1 v) ∧ (repeated n m).map h.bucket = repeated n m := by
  have hrange : ∀ v ∈ repeated n m, InRange 1 v := by
    intro v hv
    have hbounds := toInt_of_mem_repeated hn hv
    have hone : (1 : UInt32).toNat = 1 := rfl
    rw [InRange, hone, abs_le]
    omega
  refine ⟨hrange, ?_⟩
  rw [List.map_congr_left fun v hv => bucket_one hfresh (hrange v hv), List.map_id'']
  exact fun _ => rfl

/-- `2^64` values in `2^33` buckets take `count` back to zero. -/
theorem histogram_count_wraps :
    ∃ (h : Histogram) (values : List Int64), new 1 = some h ∧ (∀ v ∈ values, InRange 1 v) ∧
      h.FewPerBucket values ∧ (h.updateAll values).count.toNat ≠ (h.updateAll values).total := by
  rcases new_fresh (by decide : (0 : UInt32) < 1) with ⟨h, hnew, hfresh⟩
  suffices hvalues : ∀ n m : Nat, n ≤ 2 ^ 62 → m < 2 ^ 32 → 2 ^ 64 ≤ m * n →
      (∀ v ∈ repeated n m, InRange 1 v) ∧ h.FewPerBucket (repeated n m) ∧
        (h.updateAll (repeated n m)).count.toNat ≠ (h.updateAll (repeated n m)).total from
    ⟨h, repeated (2 ^ 33) (2 ^ 31), hnew, hvalues (2 ^ 33) (2 ^ 31) (by omega) (by omega) (by omega)⟩
  intro n m hn hm hlong
  have hmap := map_bucket_repeated hfresh hn m
  have hfew : h.FewPerBucket (repeated n m) := by
    intro b
    rw [hmap.2]
    exact Nat.lt_of_le_of_lt (count_repeated_le hn m b) hm
  refine ⟨hmap.1, hfew, ?_⟩
  rw [updateAll_count_toNat hfresh, updateAll_total hfresh hfew, length_repeated]
  omega

end Histogram

end MoonGen.Moonsniff

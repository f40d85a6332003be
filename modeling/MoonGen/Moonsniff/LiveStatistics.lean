import MoonGen.Moonsniff.Live

/-! # The statistics of live matching

`test_for` takes the latency of every hit into `count`, `mean` and `m2`. The
threshold only decides whether a line is printed, so the statistics are those of
the latencies at or above it exactly when the history has no other.
-/

namespace MoonGen.Moonsniff.Live

def samples (ls : List Int64) : List Rat := ls.map fun l => (l.toInt : Rat)

theorem samples_append (ls more : List Int64) :
    samples (ls ++ more) = samples ls ++ samples more := by
  simp [samples]

theorem samples_length (ls : List Int64) : (samples ls).length = ls.length := by
  simp [samples]

/-- Every hit is counted, whatever the threshold says. -/
theorem apply_count (thresh : Int64) (before : List Op) (op : Op) :
    (apply (run thresh before) op).count =
      (run thresh before).count + UInt64.ofNat (latencyAfter before op).toList.length := by
  cases op with
  | addEntry identification timestamp => exact (UInt64.add_zero _).symm
  | testFor identification timestamp =>
      simp only [apply, testFor, outcome_run]
      cases latencyAfter before (.testFor identification timestamp) with
      | none => exact (UInt64.add_zero _).symm
      | some diff => exact recordHit_count _ _

theorem run_count (thresh : Int64) (ops : List Op) :
    (run thresh ops).count = UInt64.ofNat (latencies ops).length := by
  induction ops using List.reverseRecOn with
  | nil => rfl
  | append_singleton ops op ih =>
      rw [run_concat, apply_count, latencies_concat, List.length_append, UInt64.ofNat_add, ih]

theorem toNat_run_count {thresh : Int64} {ops : List Op} (h : (latencies ops).length < 2 ^ 64) :
    (run thresh ops).count.toNat = (latencies ops).length := by
  rw [run_count, UInt64.toNat_ofNat']
  exact Nat.mod_eq_of_lt h

theorem apply_moments {thresh : Int64} {before : List Op} {op : Op}
    (h : (latencies (before ++ [op])).length < 2 ^ 64) :
    (apply (run thresh before) op).moments =
      (samples (latencyAfter before op).toList).foldl Moments.push (run thresh before).moments := by
  rw [latencies_concat, List.length_append] at h
  cases op with
  | addEntry identification timestamp => rfl
  | testFor identification timestamp =>
      simp only [apply, testFor, outcome_run]
      cases hlatency : latencyAfter before (.testFor identification timestamp) with
      | none => rfl
      | some diff =>
          rw [hlatency] at h
          have hcount : (store (run thresh before) (slot identification) ⟨0, 0⟩).count.toNat + 1 <
              2 ^ 64 := by
            rw [store_count, toNat_run_count (by omega)]
            exact h
          exact recordHit_moments hcount diff

theorem run_moments {thresh : Int64} {ops : List Op} (h : (latencies ops).length < 2 ^ 64) :
    (run thresh ops).moments = (samples (latencies ops)).foldl Moments.push .zero := by
  induction ops using List.reverseRecOn with
  | nil => rfl
  | append_singleton ops op ih =>
      rw [run_concat, apply_moments h, latencies_concat, samples_append, List.foldl_append]
      rw [latencies_concat, List.length_append] at h
      rw [ih (by omega)]

theorem run_moments_of {thresh : Int64} {ops : List Op} (h : (latencies ops).length < 2 ^ 64) :
    Moments.Of (samples (latencies ops)) (run thresh ops).moments := by
  rw [run_moments h]
  exact Moments.of_foldl _

theorem mem_latenciesAfter {before ops : List Op} {l : Int64} :
    l ∈ latenciesAfter before ops ↔
      ∃ middle op after, ops = middle ++ op :: after ∧ latencyAfter (before ++ middle) op = some l := by
  induction ops generalizing before with
  | nil => simp [latenciesAfter]
  | cons first rest ih =>
      simp only [latenciesAfter, List.mem_append, Option.mem_toList, ih]
      constructor
      · rintro (hfirst | ⟨middle, op, after, rfl, hop⟩)
        · exact ⟨[], first, rest, rfl, by simpa using hfirst⟩
        · exact ⟨first :: middle, op, after, rfl, by simpa using hop⟩
      · rintro ⟨middle, op, after, hsplit, hop⟩
        cases middle with
        | nil =>
            obtain ⟨rfl, rfl⟩ : first = op ∧ rest = after := by simpa using hsplit
            exact .inl (by simpa using hop)
        | cons head middle =>
            obtain ⟨rfl, rfl⟩ : first = head ∧ rest = middle ++ op :: after := by simpa using hsplit
            exact .inr ⟨middle, op, after, rfl, by simpa using hop⟩

theorem mem_latencies {ops : List Op} {l : Int64} :
    l ∈ latencies ops ↔ ∃ before identification timestamp after,
      ops = before ++ .testFor identification timestamp :: after ∧
        latencyAfter before (.testFor identification timestamp) = some l := by
  rw [latencies, mem_latenciesAfter]
  constructor
  · rintro ⟨before, op, after, rfl, hop⟩
    cases op with
    | addEntry _ _ => cases hop
    | testFor identification timestamp => exact ⟨before, identification, timestamp, after, rfl, hop⟩
  · rintro ⟨before, identification, timestamp, after, rfl, hop⟩
    exact ⟨before, _, after, rfl, hop⟩

/-! ## The threshold -/

def kept (thresh : Int64) (ops : List Op) : List Int64 :=
  (latencies ops).filter fun l => thresh ≤ l

/-- What the threshold is documented to do: the statistics are those of the kept
latencies, and a hit below the threshold does not touch them. -/
structure IgnoresLow (thresh : Int64) (ops : List Op) : Prop where
  statistics : Moments.Of (samples (kept thresh ops)) (run thresh ops).moments
  unchanged : ∀ before identification timestamp after l,
    ops = before ++ .testFor identification timestamp :: after →
    outcome (run thresh before) identification timestamp = some l → l < thresh →
    (run thresh (before ++ [.testFor identification timestamp])).moments =
      (run thresh before).moments

/-- No test of the history finds an entry that is too young for the threshold. -/
def NoneBelow (thresh : Int64) (ops : List Op) : Prop :=
  ∀ before identification timestamp after ts,
    ops = before ++ .testFor identification timestamp :: after →
    lastOn (slot identification) before = some (.addEntry identification ts) → ts ≠ 0 →
    thresh ≤ (timestamp - ts).toInt64

theorem noneBelow_iff {thresh : Int64} {ops : List Op} :
    NoneBelow thresh ops ↔ ∀ l ∈ latencies ops, thresh ≤ l := by
  constructor
  · intro h l hl
    obtain ⟨before, identification, timestamp, after, hsplit, hlat⟩ := mem_latencies.mp hl
    obtain ⟨ts, hlast, hne, rfl⟩ := latencyAfter_eq_some.mp hlat
    exact h before identification timestamp after ts hsplit hlast hne
  · intro h before identification timestamp after ts hsplit hlast hne
    apply h
    rw [mem_latencies]
    exact ⟨before, identification, timestamp, after, hsplit,
      latencyAfter_eq_some.mpr ⟨ts, hlast, hne, rfl⟩⟩

/-- A hit below the threshold is counted, also where the counter overflows. -/
theorem IgnoresLow.none_below {thresh : Int64} {ops : List Op} (h : IgnoresLow thresh ops) :
    ∀ l ∈ latencies ops, thresh ≤ l := by
  intro l hl
  by_contra hlow
  obtain ⟨before, identification, timestamp, after, hsplit, hlatency⟩ := mem_latencies.mp hl
  have hsame := h.unchanged before identification timestamp after l hsplit
    (by rw [outcome_run, hlatency]) (Int64.not_le.mp hlow)
  have hcount : (run thresh (before ++ [.testFor identification timestamp])).count.toNat =
      (run thresh before).count.toNat := congrArg Moments.count hsame
  rw [run_concat, apply_count, hlatency, Option.toList_some, List.length_singleton,
    UInt64.toNat_add] at hcount
  have hone : (UInt64.ofNat 1).toNat = 1 := rfl
  have hlt := (run thresh before).count.toNat_lt
  omega

theorem kept_eq_latencies {thresh : Int64} {ops : List Op} (h : ∀ l ∈ latencies ops, thresh ≤ l) :
    kept thresh ops = latencies ops := by
  rw [kept, List.filter_eq_self]
  intro l hl
  simpa using h l hl

theorem ignoresLow_iff_noneBelow (thresh : Int64) (ops : List Op) :
    IgnoresLow thresh ops ↔ NoneBelow thresh ops ∧ (latencies ops).length < 2 ^ 64 := by
  rw [noneBelow_iff]
  constructor
  · intro h
    refine ⟨h.none_below, ?_⟩
    have hcount : (run thresh ops).count.toNat = (samples (kept thresh ops)).length :=
      h.statistics.count_eq
    rw [kept_eq_latencies h.none_below, samples_length] at hcount
    rw [← hcount]
    exact (run thresh ops).count.toNat_lt
  · rintro ⟨h, hfew⟩
    refine ⟨?_, ?_⟩
    · rw [kept_eq_latencies h]
      exact run_moments_of hfew
    · intro before identification timestamp after l hsplit hhit hlow
      rw [outcome_run] at hhit
      have hl : l ∈ latencies ops :=
        mem_latencies.mpr ⟨before, identification, timestamp, after, hsplit, hhit⟩
      exact absurd (h l hl) (Int64.not_le.mpr hlow)

/-- A post timestamp 60 ns before the pre timestamp of the same packet. -/
def earlyPost : List Op := [.addEntry 7 1000, .testFor 7 940]

theorem earlyPost_counted :
    latencies earlyPost = [-60] ∧ kept (-50) earlyPost = [] ∧
      (run (-50) earlyPost).moments = ⟨1, -60, 0⟩ ∧ ¬ IgnoresLow (-50) earlyPost := by
  have hlat : latencies earlyPost = [-60] := by decide +kernel
  refine ⟨hlat, by decide +kernel, by decide +kernel, ?_⟩
  intro h
  have hlow := h.none_below (-60) (by rw [hlat]; exact List.mem_singleton_self _)
  revert hlow
  decide +kernel

/-! ## Reported statistics -/

/-- With two hits or more, `fetch_stats` reports the mean and the unbiased variance of
all hits, with the fractions cut off. -/
theorem fetchStats_run {thresh : Int64} {ops : List Op} (h : 2 ≤ (latencies ops).length)
    (hfew : (latencies ops).length < 2 ^ 64) :
    (fetchStats (run thresh ops)).1 =
      let mean := (run thresh ops).mean
      let xs := samples (latencies ops)
      ⟨truncate mean, truncate (Moments.sqDev mean xs / (xs.length - 1 : Nat)),
        (run thresh ops).hits, (run thresh ops).misses⟩ := by
  have hcount := @toNat_run_count thresh _ hfew
  have hm2 : (run thresh ops).m2 = Moments.sqDev (run thresh ops).mean (samples (latencies ops)) :=
    (run_moments_of hfew).m2_eq
  have htwo : (2 : UInt64).toNat = 2 := rfl
  have hmany : ¬ (run thresh ops).count < 2 := by
    rw [UInt64.lt_iff_toNat_lt, hcount, htwo]
    omega
  have hpred : ((run thresh ops).count - 1).toNat = (samples (latencies ops)).length - 1 := by
    have hone : (1 : UInt64) ≤ (run thresh ops).count := by
      rw [UInt64.le_iff_toNat_le, hcount]
      exact Nat.le_trans (by decide) h
    rw [UInt64.toNat_sub_of_le _ _ hone, hcount, samples_length]
    rfl
  simp only [fetchStats, if_neg hmany]
  rw [hm2, hpred]

theorem fetchStats_latencies {thresh : Int64} {ops : List Op} (h : 2 ≤ (latencies ops).length)
    (hfew : (latencies ops).length < 2 ^ 64) :
    (fetchStats (run thresh ops)).1 =
      ⟨truncate (Moments.average (samples (latencies ops))),
        truncate (Moments.sampleVariance (samples (latencies ops))),
        (run thresh ops).hits, (run thresh ops).misses⟩ := by
  have hlength : 2 ≤ (samples (latencies ops)).length := by
    rw [samples_length]
    exact h
  have hne : samples (latencies ops) ≠ [] := List.ne_nil_of_length_pos (by omega)
  have hmean : (run thresh ops).mean = Moments.average (samples (latencies ops)) :=
    (run_moments_of hfew).mean_eq hne
  rw [fetchStats_run h hfew, Moments.sampleVariance, ← hmean]
  simp only [Nat.cast_pred (Nat.lt_of_lt_of_le Nat.zero_lt_two hlength)]

end MoonGen.Moonsniff.Live

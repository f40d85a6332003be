import Mathlib.Tactic.Linarith
import MoonGen.Rfc2544.BinarySearch

/-! # The throughput benchmark

One iteration of `benchmark:bench` in `rfc2544/benchmarks/throughput.lua`: a run at
the link rate, then runs at the rates that the binary search asks for. What a run
sends and receives is an input, and so is whether the script still runs before it; how
its rate is spread over the queues is left out.
-/

namespace MoonGen.Rfc2544

open Bisection Loop

/-- The packets that the slaves of one run have sent and received. -/
structure Measurement where
  spkts : Nat
  rpkts : Nat
deriving Repr, DecidableEq

/-- `lossRate <= self.maxLossRate`. Without a sent packet the quotient is not a number, or
minus infinity. -/
def validRun (maxLossRate : Rat) (m : Measurement) : Bool :=
  if m.spkts = 0 then decide (0 < m.rpkts)
  else decide (((m.spkts : Rat) - m.rpkts) / m.spkts ≤ maxLossRate)

structure ThroughputConfig where
  maxLinkRate : Nat
  rateThreshold : Rat
  maxLossRate : Rat
  duration : Rat
  frameSize : Nat

structure ThroughputResult where
  spkts : Nat
  rpkts : Nat
  mpps : Rat
  frameSize : Nat
deriving Repr, DecidableEq

/-- The variables of one iteration. `validRate` is the rate of the run that `result` was
recorded for; the source does not store it. -/
structure Iteration where
  binSearch : BinarySearch
  rate : Int
  lastRate : Int
  finished : Bool
  port : Nat
  result : ThroughputResult
  validRate : Int

def udpPort : Nat := 42

/-- What a run on a port at a rate measures. -/
abbrev Dut := Nat → Int → Measurement

namespace Iteration

variable (cfg : ThroughputConfig) (dut : Dut)

def start : Iteration :=
  ⟨⟨0, cfg.maxLinkRate⟩, cfg.maxLinkRate, cfg.maxLinkRate, false, udpPort, ⟨0, 0, 0, cfg.frameSize⟩, 0⟩

def round (it : Iteration) : Iteration :=
  let m := dut it.port it.rate
  let valid := validRun cfg.maxLossRate m
  let (proposal, binSearch) := it.binSearch.next it.rate valid cfg.rateThreshold
  { binSearch := binSearch
    rate := proposal.value
    lastRate := it.rate
    finished := proposal.finished
    -- the port changes so that late packets are not counted in the next run
    port := if proposal.finished then it.port else it.port + 1
    result := if valid then ⟨m.spkts, m.rpkts, m.spkts / 10 ^ 6 / cfg.duration, cfg.frameSize⟩
      else it.result
    validRate := if valid then it.rate else it.validRate }

/-- `running` has the answer of `dpdk.running` before the run on each port. -/
def run (running : Nat → Bool) (fuel : Nat) : Option Iteration :=
  whileFuel (fun it => running it.port && !it.finished) (round cfg dut) fuel (start cfg)

end Iteration

/-- Runs are valid exactly up to a fixed rate. -/
def FixedCapacity (maxLossRate : Rat) (dut : Dut) (capacity : Rat) : Prop :=
  ∀ port rate, validRun maxLossRate (dut port rate) = decide ((rate : Rat) ≤ capacity)

/-- The iteration ends, and the rate of the last run that it recorded is within the
threshold below the capacity. -/
def Accurate (cfg : ThroughputConfig) (dut : Dut) (running : Nat → Bool) (capacity : Rat) : Prop :=
  ∃ fuel it, Iteration.run cfg dut running fuel = some it ∧ (it.validRate : Rat) ≤ capacity ∧
    capacity - cfg.rateThreshold < it.validRate

/-! ## The iteration is a search -/

namespace Iteration

def view (it : Iteration) : Search := ⟨it.binSearch, it.rate, it.validRate, it.finished⟩

theorem run_view {cfg : ThroughputConfig} {dut : Dut} {running : Nat → Bool} {capacity : Rat}
    (hup : Uninterrupted running) (h : FixedCapacity cfg.maxLossRate dut capacity) (fuel : Nat) :
    (run cfg dut running fuel).map view =
      Search.loop cfg.rateThreshold (fun r => decide ((r : Rat) ≤ capacity)) fuel
        (Search.start cfg.maxLinkRate) := by
  have hbody : ∀ it : Iteration,
      Search.round cfg.rateThreshold (fun r => decide ((r : Rat) ≤ capacity)) (view it) =
        view (round cfg dut it) := by
    intro it
    simp only [Search.round, round, view, h it.port it.rate]
    rfl
  have hguard : ∀ it : Iteration, Search.running (view it) = (running it.port && !it.finished) := by
    intro it
    rw [hup it.port, Bool.true_and]
    rfl
  exact whileFuel_map view hguard hbody fuel (start cfg)

theorem run_of_loop {cfg : ThroughputConfig} {dut : Dut} {running : Nat → Bool} {capacity : Rat}
    (hup : Uninterrupted running) (h : FixedCapacity cfg.maxLossRate dut capacity) {fuel : Nat}
    {t : Search}
    (hloop : Search.loop cfg.rateThreshold (fun r => decide ((r : Rat) ≤ capacity)) fuel
      (Search.start cfg.maxLinkRate) = some t) :
    ∃ it, run cfg dut running fuel = some it ∧ it.validRate = t.best := by
  rw [← run_view hup h fuel] at hloop
  obtain ⟨it, hit, rfl⟩ := Option.map_eq_some_iff.mp hloop
  exact ⟨it, hit, rfl⟩

theorem run_unique {cfg : ThroughputConfig} {dut : Dut} {running : Nat → Bool} {fuel more : Nat}
    {it it' : Iteration} (h : run cfg dut running fuel = some it)
    (h' : run cfg dut running more = some it') : it = it' := by
  have hfirst := whileFuel_mono more h
  have hsecond := whileFuel_mono fuel h'
  rw [Nat.add_comm, hfirst] at hsecond
  exact Option.some.inj hsecond

end Iteration

/-! ## Accuracy -/

/-- Every interval in which the search of `[0, m]` can stop is at most the threshold wide. -/
def Settles (m : Nat) (t : Rat) : Prop := Narrow ⌈t⌉₊ ⌊t⌋₊ .upper m

theorem accurate_of_linkRate {cfg : ThroughputConfig} {dut : Dut} {running : Nat → Bool}
    (hup : Uninterrupted running) (ht : 0 < cfg.rateThreshold)
    (hdut : FixedCapacity cfg.maxLossRate dut cfg.maxLinkRate) :
    Accurate cfg dut running cfg.maxLinkRate := by
  obtain ⟨fuel, t, hloop, hbest⟩ : ∃ fuel t,
      Search.loop cfg.rateThreshold (fun r : Int => decide ((r : Rat) ≤ cfg.maxLinkRate)) fuel
        (Search.start cfg.maxLinkRate) = some t ∧ t.best = cfg.maxLinkRate :=
    Search.loop_of_pass (by simp)
  obtain ⟨it, hrun, hrate⟩ := Iteration.run_of_loop hup hdut hloop
  have hvalid : (it.validRate : Rat) = cfg.maxLinkRate := by
    rw [hrate, hbest]
    push_cast
    rfl
  exact ⟨fuel, it, hrun, hvalid.le, by rw [hvalid]; linarith⟩

theorem accurate_of_settles {cfg : ThroughputConfig} {dut : Dut} {running : Nat → Bool}
    {capacity : Rat} (hup : Uninterrupted running) (ht : 1 ≤ cfg.rateThreshold)
    (hsettles : Settles cfg.maxLinkRate cfg.rateThreshold)
    (hlow : 0 ≤ capacity) (hhigh : capacity ≤ cfg.maxLinkRate)
    (hdut : FixedCapacity cfg.maxLossRate dut capacity) : Accurate cfg dut running capacity := by
  by_cases hall : (cfg.maxLinkRate : Rat) ≤ capacity
  · have hsame : capacity = cfg.maxLinkRate := le_antisymm hhigh hall
    subst hsame
    exact accurate_of_linkRate hup (by linarith) hdut
  · obtain ⟨l, v, hends⟩ := exists_ends (one_le_ceil ht)
      (fun r : Int => decide ((r : Rat) ≤ capacity) = true) .upper 0 cfg.maxLinkRate
    obtain ⟨fuel, t, hloop, hbest⟩ := Search.loop_of_fail (by simpa using hall) hends
    obtain ⟨it, hrun, hrate⟩ := Iteration.run_of_loop hup hdut hloop
    obtain ⟨hpass, hfail⟩ := hends.crossing (by simpa using hlow) (by simpa using hall)
    simp only [decide_eq_true_eq, not_le, Int.cast_add, Int.cast_natCast] at hpass hfail
    have hwidth : (v : Rat) ≤ cfg.rateThreshold :=
      (Nat.le_floor_iff (by linarith)).mp (hsettles v hends.cell)
    have hvalid : (it.validRate : Rat) = l := by rw [hrate, hbest]
    exact ⟨fuel, it, hrun, by rw [hvalid]; exact hpass, by rw [hvalid]; linarith⟩

def sharpDut (capacity : Rat) : Dut := fun _ rate => if (rate : Rat) ≤ capacity then ⟨1, 1⟩ else ⟨1, 0⟩

theorem sharpDut_fixedCapacity (capacity : Rat) : FixedCapacity 0 (sharpDut capacity) capacity := by
  intro port rate
  by_cases h : (rate : Rat) ≤ capacity
  · simp [sharpDut, h, validRun]
  · simp [sharpDut, h, validRun]

/-- In an interval that is wider than the threshold, some capacity lies as far above the lower end. -/
theorem settles_of_accurate {m : Nat} {t : Rat} (ht : 1 ≤ t)
    (h : ∀ (cfg : ThroughputConfig) (dut : Dut) (running : Nat → Bool) (capacity : Rat),
      Uninterrupted running → cfg.maxLinkRate = m → cfg.rateThreshold = t → 0 ≤ capacity →
      capacity ≤ m → FixedCapacity cfg.maxLossRate dut capacity →
      Accurate cfg dut running capacity) :
    Settles m t := by
  intro v hcell
  rw [Nat.le_floor_iff (by linarith)]
  by_contra hwide
  have hwide : t < v := not_le.mp hwide
  obtain ⟨l, hlow, hhigh, hends⟩ := hcell.ends 0
  rw [zero_add] at hhigh
  have hlow : (0 : Rat) ≤ l := by exact_mod_cast hlow
  have hhigh : (l : Rat) + v ≤ m := by exact_mod_cast hhigh
  let cfg : ThroughputConfig := ⟨m, t, 0, 1, 64⟩
  have hdut : FixedCapacity cfg.maxLossRate (sharpDut (l + t)) (l + t) := sharpDut_fixedCapacity _
  have hup : Uninterrupted fun _ => true := fun _ => rfl
  have hsearch := hends (fun r : Int => decide ((r : Rat) ≤ l + t) = true)
    (by
      intro a b hab hb
      have hab : (a : Rat) ≤ b := by exact_mod_cast hab
      simp only [decide_eq_true_eq] at hb ⊢
      linarith)
    (by simp only [decide_eq_true_eq]; linarith)
    (by
      simp only [decide_eq_true_eq, not_le]
      push_cast
      linarith)
  obtain ⟨fuel, s, hloop, hbest⟩ := Search.loop_of_fail
    (by
      simp only [decide_eq_false_iff_not, not_le]
      push_cast
      linarith) hsearch
  obtain ⟨it, hrun, hrate⟩ := Iteration.run_of_loop hup hdut hloop
  obtain ⟨more, it', hrun', _, hclose⟩ :=
    h cfg (sharpDut (l + t)) _ (l + t) hup rfl rfl (by linarith) (by linarith) hdut
  have hsame := Iteration.run_unique hrun' hrun
  rw [hsame, hrate, hbest] at hclose
  have hclose : (l : Rat) + t - t < l := hclose
  linarith

/-! ## Which link rates settle -/

/-- The threshold is one, or the link rate is at most the threshold, or the threshold is
whole and the link rate, halved some number of times, lies at most a quarter below it. -/
def Resolves (m : Nat) (t : Rat) : Prop :=
  t = 1 ∨ (m : Rat) ≤ t ∨ ∃ n k : Nat, t = n ∧ 2 ^ k * (t - 1 / 4) ≤ m ∧ (m : Rat) ≤ 2 ^ k * t

theorem band_iff (n m : Nat) :
    Band n m ↔ ∃ k : Nat, 2 ^ k * ((n : Rat) - 1 / 4) ≤ m ∧ (m : Rat) ≤ 2 ^ k * n := by
  apply exists_congr
  intro k
  unfold BandAt
  rw [← Nat.cast_le (α := Rat), ← Nat.cast_le (α := Rat)]
  push_cast
  constructor
  · intro h
    exact ⟨by linarith [h.1], h.2⟩
  · intro h
    exact ⟨by linarith [h.1], h.2⟩

theorem settles_whole {n : Nat} (hn : 1 ≤ n) (m : Nat) : Settles m n ↔ Resolves m n := by
  unfold Settles
  rw [Nat.ceil_natCast, Nat.floor_natCast]
  rcases Nat.eq_or_lt_of_le hn with hone | htwo
  · subst hone
    exact iff_of_true (narrow_one _ _) (.inl Nat.cast_one)
  · have hne : (n : Rat) ≠ 1 := by exact_mod_cast htwo.ne'
    rw [narrow_iff_fine htwo, Fine, band_iff, Resolves]
    constructor
    · rintro (hle | ⟨k, hk⟩)
      · exact .inr (.inl (by exact_mod_cast hle))
      · exact .inr (.inr ⟨n, k, rfl, hk⟩)
    · rintro (hone | hle | ⟨_, k, _, hk⟩)
      · exact absurd hone hne
      · exact .inl (by exact_mod_cast hle)
      · exact .inr ⟨k, hk⟩

theorem settles_fraction {t : Rat} (ht : 1 ≤ t) (hfrac : ∀ n : Nat, t ≠ n) (m : Nat) :
    Settles m t ↔ Resolves m t := by
  have hlt : ⌊t⌋₊ < ⌈t⌉₊ := by
    by_contra hle
    have hle : ((⌈t⌉₊ : Nat) : Rat) ≤ ((⌊t⌋₊ : Nat) : Rat) := by exact_mod_cast not_lt.mp hle
    have hup := Nat.le_ceil t
    have hdown := Nat.floor_le (show (0 : Rat) ≤ t by linarith)
    exact hfrac ⌊t⌋₊ (by linarith)
  unfold Settles
  rw [narrow_iff_of_lt hlt, Nat.le_floor_iff (by linarith), Resolves]
  constructor
  · intro hle
    exact .inr (.inl hle)
  · rintro (hone | hle | ⟨n, _, hn, _⟩)
    · exact absurd (hone.trans Nat.cast_one.symm) (hfrac 1)
    · exact hle
    · exact absurd hn (hfrac n)

theorem settles_iff_resolves {t : Rat} (ht : 1 ≤ t) (m : Nat) : Settles m t ↔ Resolves m t := by
  by_cases hwhole : ∃ n : Nat, t = n
  · obtain ⟨n, rfl⟩ := hwhole
    exact settles_whole (by exact_mod_cast ht) m
  · exact settles_fraction ht (fun n hn => hwhole ⟨n, hn⟩) m

/-- For every link rate and threshold: the benchmark is accurate for all devices exactly when
the threshold resolves the link rate. A device that forwards at the link rate is measured exactly
even where it does not. -/
theorem throughput_accurate_iff (m : Nat) (t : Rat) (ht : 1 ≤ t) :
    ((∀ (cfg : ThroughputConfig) (dut : Dut) (running : Nat → Bool) (capacity : Rat),
      Uninterrupted running → cfg.maxLinkRate = m → cfg.rateThreshold = t → 0 ≤ capacity →
      capacity ≤ m → FixedCapacity cfg.maxLossRate dut capacity →
      Accurate cfg dut running capacity) ↔
      Resolves m t) ∧
    ∀ (cfg : ThroughputConfig) (dut : Dut) (running : Nat → Bool), Uninterrupted running →
      cfg.maxLinkRate = m → cfg.rateThreshold = t → FixedCapacity cfg.maxLossRate dut m →
      Accurate cfg dut running m := by
  constructor
  · rw [← settles_iff_resolves ht]
    constructor
    · intro h
      exact settles_of_accurate ht h
    · rintro hsettles cfg dut running capacity hup rfl rfl hlow hhigh hdut
      exact accurate_of_settles hup ht hsettles hlow hhigh hdut
  · rintro cfg dut running hup rfl rfl hdut
    exact accurate_of_linkRate hup (by linarith) hdut

theorem throughput_accurate_gigabit :
    Accurate ⟨1000, 125, 0, 1, 64⟩ (sharpDut 999) (fun _ => true) 999 :=
  (throughput_accurate_iff 1000 125 (by norm_num)).1.mpr (.inr (.inr ⟨125, 3, by norm_num⟩))
    ⟨1000, 125, 0, 1, 64⟩ (sharpDut 999) _ 999 (fun _ => rfl) rfl rfl (by norm_num) (by norm_num)
    (sharpDut_fixedCapacity 999)

/-- At 1 Gbit/s with the threshold 10, a device that forwards 999 Mbit/s is recorded at 985. -/
theorem gigabit_inaccurate :
    ¬ Accurate ⟨1000, 10, 0, 1, 64⟩ (sharpDut 999) (fun _ => true) 999 := by
  have hrun : (Iteration.run ⟨1000, 10, 0, 1, 64⟩ (sharpDut 999) (fun _ => true) 20).map
      Iteration.validRate = some 985 := by decide +kernel
  obtain ⟨it, hit, hrate⟩ := Option.map_eq_some_iff.mp hrun
  intro h
  obtain ⟨fuel, it', hrun', _, hclose⟩ := h
  rw [Iteration.run_unique hrun' hit, hrate] at hclose
  exact absurd hclose (by norm_num)

end MoonGen.Rfc2544

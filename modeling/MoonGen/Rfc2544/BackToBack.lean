import Mathlib.Tactic.Linarith
import MoonGen.Rfc2544.BinarySearch

/-! # The back-to-back benchmark

`rfc2544/benchmarks/backtoback.lua`: the load slave sends bursts, the counter slave
counts what comes back, and each of them searches for the longest burst that is
received completely. `bench` starts both in every iteration and stores what they
found. Here both slaves see the same two counts in a round; what arrives in it and
what libmoon answers are inputs.
-/

namespace MoonGen.Rfc2544.BackToBack

open Bisection Loop

structure Config where
  granularity : Rat
  duration : Rat
  numIterations : Nat
  linkSpeed : Nat

/-- The packets that a link of this speed carries in about `duration` seconds. -/
def maxPkts (cfg : Config) (frameSize : Nat) : Int :=
  ⌈(cfg.linkSpeed * 10 ^ 6 / ((frameSize + 20) * 8) : Rat) * cfg.duration⌉

def udpPort : Nat := 42

/-- libmoon in an iteration: the answers of `dpdk.running`, before each round and in a round before
each array, and what `queue:send` returns for an array. -/
structure Libmoon where
  running : Nat → Bool
  sending : Nat → Nat → Bool
  send : Nat → Nat

namespace Libmoon

structure Uninterrupted (lib : Libmoon) : Prop where
  running : ∀ round, lib.running round = true
  sending : ∀ round array, lib.sending round array = true

/-- `queue:send` waits until all of an array is sent, and returns its size. -/
def SendsAll (lib : Libmoon) : Prop := ∀ n, lib.send n = n

end Libmoon

structure Burst where
  arrays : Nat
  sent : Nat
deriving Repr, DecidableEq

/-- Whole arrays of 64 packets, then one with the rest. -/
def sendBurst (lib : Libmoon) (round numPkts : Nat) : Option Nat :=
  let stop := numPkts - numPkts % 64
  (whileFuel (fun s : Burst => lib.sending round s.arrays && decide (s.sent < stop))
    (fun s => ⟨s.arrays + 1, s.sent + lib.send 64⟩) numPkts ⟨0, 0⟩).map fun s =>
      if numPkts ≠ stop then s.sent + lib.send (numPkts % 64) else s.sent

/-- The receive loop of a round. `batches` holds the destination ports of the packets of each
`tryRecv`, up to the end of the timer. -/
def countBurst (count : Nat) : Nat → List (List Nat) → Nat
  | counter, [] => counter
  | counter, batch :: rest =>
      let counter := counter + batch.count udpPort
      if count ≤ counter then counter else countBurst count counter rest

/-! ## The search of one slave -/

structure Slave where
  binSearch : BinarySearch
  count : Int
  longest : Int
  first : Bool
  finished : Bool
deriving Repr, DecidableEq

namespace Slave

def start (maxPkts : Int) : Slave := ⟨⟨0, maxPkts⟩, maxPkts, 0, true, false⟩

/-- The end of a round, after the barrier. -/
def judge (granularity : Rat) (top : Bool) (s : Slave) : Slave :=
  -- the first try is thrown away
  if s.first then { s with first := false }
  else
    let (proposal, binSearch) := s.binSearch.next s.count top granularity
    { binSearch := binSearch
      count := if proposal.finished then s.count else proposal.value
      longest := if top then s.count else s.longest
      first := false
      finished := proposal.finished }

end Slave

/-! ## Both slaves and the benchmark -/

structure Slaves where
  load : Slave
  counter : Slave
  round : Nat
deriving Repr, DecidableEq

/-- What the counter slave receives in a round for a burst of a given size. -/
abbrev Arrivals := Nat → Nat → List (List Nat)

namespace Slaves

def start (maxPkts : Int) : Slaves := ⟨.start maxPkts, .start maxPkts, 0⟩

def step (granularity : Rat) (lib : Libmoon) (arrivals : Arrivals) (s : Slaves) : Slaves :=
  let sent := sendBurst lib s.round s.load.count.toNat
  let received := countBurst s.counter.count.toNat 0 (arrivals s.round s.load.count.toNat)
  { load := s.load.judge granularity (sent == some received)
    counter := s.counter.judge granularity (some received == sent)
    round := s.round + 1 }

def running (lib : Libmoon) (s : Slaves) : Bool :=
  lib.running s.round && !s.load.finished && !s.counter.finished

/-- What the two slaves return. One that is left alone waits at the barrier for ever, unless the
script is stopped. -/
def returned (lib : Libmoon) (s : Slaves) : Option (Int × Int) :=
  if !lib.running s.round || s.load.finished && s.counter.finished then
    some (s.load.longest, s.counter.longest)
  else none

def run (granularity : Rat) (lib : Libmoon) (arrivals : Arrivals) (maxPkts : Int) (fuel : Nat) :
    Option (Int × Int) :=
  (whileFuel (running lib) (step granularity lib arrivals) fuel (start maxPkts)).bind (returned lib)

end Slaves

/-- The global variable `longest`, which nothing assigns. `bench` compares with it where it
means what the slaves have returned. -/
def globalLongest : Option Int := none

/-- The entry of an iteration. `again` is what the second `loadSlave:wait()` returns. -/
def entry (longestS : Int) (again : Option Int) : Int :=
  if globalLongest ≠ again then -1 else longestS

section Bench

variable (cfg : Config) (frameSize : Nat) (lib : Nat → Libmoon) (dut : Nat → Arrivals)
  (again : Nat → Option Int)

def iterate (fuel iteration : Nat) : Option Int :=
  (Slaves.run cfg.granularity (lib iteration) (dut iteration) (maxPkts cfg frameSize) fuel).map
    fun longest => entry longest.1 (again iteration)

def benchLoop (fuel : Nat) : Nat → Option (List Int)
  | 0 => some []
  | iteration + 1 =>
      (benchLoop fuel iteration).bind fun results =>
        (iterate cfg frameSize lib dut again fuel iteration).map fun b => results ++ [b]

def bench (fuel : Nat) : Option (List Int) := benchLoop cfg frameSize lib dut again fuel cfg.numIterations

end Bench

/-- A burst of `n` packets is received completely exactly when `n` is at most `capacity`. -/
def FixedCapacity (dut : Nat → Arrivals) (capacity : Nat) : Prop :=
  ∀ iteration round n, countBurst n 0 (dut iteration round n) = n ↔ n ≤ capacity

/-- A burst size that is at most the capacity and less than two steps below it. -/
def LongestBurst (granularity : Rat) (capacity : Nat) (b : Int) : Prop :=
  0 ≤ b ∧ b ≤ capacity ∧ (capacity : Rat) - b < 2 * granularity

/-! ## One round -/

theorem sendBurst_eq {lib : Libmoon} (hup : lib.Uninterrupted) (hsend : lib.SendsAll)
    (round n : Nat) : sendBurst lib round n = some n := by
  let inv : Burst → Prop := fun s => s.sent % 64 = 0 ∧ s.sent ≤ n - n % 64
  have hstep : ∀ s : Burst, inv s →
      (lib.sending round s.arrays && decide (s.sent < n - n % 64)) = true →
      inv ⟨s.arrays + 1, s.sent + lib.send 64⟩ ∧ n - (s.sent + lib.send 64) < n - s.sent := by
    intro s hinv hgo
    have hlt : s.sent < n - n % 64 := of_decide_eq_true (Bool.and_eq_true_iff.mp hgo).2
    have hmod : s.sent % 64 = 0 := hinv.1
    rw [hsend 64]
    refine ⟨⟨?_, ?_⟩, ?_⟩
    · show (s.sent + 64) % 64 = 0
      omega
    · show s.sent + 64 ≤ n - n % 64
      omega
    · omega
  have hzero : inv ⟨0, 0⟩ := ⟨rfl, Nat.zero_le _⟩
  obtain ⟨s, hs⟩ := whileFuel_terminates inv (fun s => n - s.sent) hstep hzero (Nat.sub_le n 0)
  obtain ⟨hinv, hexit⟩ := whileFuel_invariant inv (fun s hinv hg => (hstep s hinv hg).1) hzero hs
  have hle : s.sent ≤ n - n % 64 := hinv.2
  have hge : n - n % 64 ≤ s.sent := by simpa [hup.sending] using hexit
  simp only [sendBurst, hs, Option.map_some]
  congr 1
  split
  · rw [hsend]
    omega
  · omega

theorem countBurst_eq {count counter : Nat} {batches : List (List Nat)}
    (h : counter + batches.flatten.count udpPort ≤ count) :
    countBurst count counter batches = counter + batches.flatten.count udpPort := by
  induction batches generalizing counter with
  | nil => rfl
  | cons batch rest ih =>
      simp only [List.flatten_cons, List.count_append, countBurst] at h ⊢
      split
      · omega
      · rw [ih (by omega)]
        omega

def slaveOf (t : Search) : Slave := ⟨t.binSearch, t.curr, t.best, false, t.finished⟩

theorem judge_slaveOf (granularity : Rat) (pass : Int → Bool) (t : Search) :
    (slaveOf t).judge granularity (pass t.curr) = slaveOf (t.round granularity pass) := by
  by_cases hdone : (t.binSearch.next t.curr (pass t.curr) granularity).1.finished = true
  · have hvalue := BinarySearch.next_of_finished hdone
    simp [Slave.judge, slaveOf, Search.round, hdone, hvalue]
  · simp [Slave.judge, slaveOf, Search.round, hdone]

def Follows (s : Slaves) (t : Search) : Prop := s.load = slaveOf t ∧ s.counter = slaveOf t

section Device

variable {granularity : Rat} {lib : Nat → Libmoon} {dut : Nat → Arrivals} {capacity : Nat}

theorem Follows.running_eq {lib : Libmoon} (hup : lib.Uninterrupted) {s : Slaves} {t : Search}
    (h : Follows s t) : s.running lib = t.running := by
  simp [Slaves.running, Search.running, hup.running, h.1, h.2, slaveOf]

theorem received_eq (hdut : FixedCapacity dut capacity) (iteration round : Nat) (r : Int) :
    (some r.toNat == some (countBurst r.toNat 0 (dut iteration round r.toNat))) =
      decide (r ≤ capacity) := by
  have hcap : r.toNat = countBurst r.toNat 0 (dut iteration round r.toNat) ↔ r ≤ capacity := by
    rw [eq_comm, hdut, Int.toNat_le]
  rw [Bool.eq_iff_iff]
  simpa using hcap

theorem Follows.step {lib : Libmoon} (hup : lib.Uninterrupted) (hsend : lib.SendsAll)
    (hdut : FixedCapacity dut capacity) (iteration : Nat) {s : Slaves} {t : Search}
    (h : Follows s t) :
    Follows (s.step granularity lib (dut iteration))
      (t.round granularity fun r => decide (r ≤ capacity)) := by
  have hload : s.load.count = t.curr := by rw [h.1]; rfl
  have hcounter : s.counter.count = t.curr := by rw [h.2]; rfl
  have htop := received_eq hdut iteration s.round t.curr
  have hnext := judge_slaveOf granularity (fun r => decide (r ≤ capacity)) t
  constructor
  · simp only [Slaves.step, hload, hcounter, sendBurst_eq hup hsend]
    rw [htop, h.1]
    exact hnext
  · simp only [Slaves.step, hload, hcounter, sendBurst_eq hup hsend]
    rw [BEq.comm, htop, h.2]
    exact hnext

theorem follows_start (lib : Libmoon) (arrivals : Arrivals) (upper : Nat) :
    Follows ((Slaves.start upper).step granularity lib arrivals) (.start upper) := by
  constructor <;> rfl

theorem Slaves.run_of_loop {lib : Libmoon} (hup : lib.Uninterrupted) (hsend : lib.SendsAll)
    (hdut : FixedCapacity dut capacity) (iteration : Nat) {fuel upper : Nat} {t : Search}
    (h : Search.loop granularity (fun r => decide (r ≤ capacity)) fuel (.start upper) =
      some t) :
    Slaves.run granularity lib (dut iteration) upper (fuel + 1) = some (t.best, t.best) := by
  obtain ⟨s, hloop, hload, hcounter⟩ := whileFuel_simulates Follows
    (fun _ _ hfollows => hfollows.running_eq hup)
    (fun _ _ hfollows => hfollows.step hup hsend hdut iteration)
    (follows_start lib (dut iteration) upper) h
  have hdone : t.finished = true := by
    have hexit := (whileFuel_invariant (fun _ => True) (fun _ _ _ => trivial) trivial h).2
    simpa [Search.running] using hexit
  have hreturned : s.returned lib = some (t.best, t.best) := by
    simp [Slaves.returned, hload, hcounter, slaveOf, hdone]
  have hfirst : (Slaves.start upper).running lib = true := by
    simp [Slaves.running, Slaves.start, Slave.start, hup.running]
  rw [Slaves.run, whileFuel_succ fuel hfirst, hloop]
  exact hreturned

theorem slaves_find (hg : 1 ≤ granularity) (hup : ∀ i, (lib i).Uninterrupted)
    (hsend : ∀ i, (lib i).SendsAll) (hdut : FixedCapacity dut capacity) {upper : Int}
    (hupper : capacity ≤ upper) :
    ∃ fuel b, LongestBurst granularity capacity b ∧ ∀ iteration,
      Slaves.run granularity (lib iteration) (dut iteration) upper fuel = some (b, b) := by
  obtain ⟨m, rfl⟩ := Int.eq_ofNat_of_zero_le (le_trans (Int.natCast_nonneg capacity) hupper)
  let pass : Int → Bool := fun r => decide (r ≤ capacity)
  by_cases hall : m ≤ capacity
  · obtain ⟨fuel, t, hloop, hbest⟩ : ∃ fuel t,
        Search.loop granularity pass fuel (.start m) = some t ∧ t.best = m :=
      Search.loop_of_pass (by simpa [pass] using hall)
    have hm : m = capacity := le_antisymm hall (Int.ofNat_le.mp hupper)
    refine ⟨fuel + 1, t.best, ?_,
      fun iteration => Slaves.run_of_loop (hup iteration) (hsend iteration) hdut iteration hloop⟩
    rw [hbest, hm]
    refine ⟨Int.natCast_nonneg _, le_refl _, ?_⟩
    push_cast
    linarith
  · obtain ⟨l, v, hends⟩ := exists_ends (one_le_ceil hg) (fun r => pass r = true) .upper 0 m
    obtain ⟨fuel, t, hloop, hbest⟩ := Search.loop_of_fail (by simpa [pass] using hall) hends
    obtain ⟨hpass, hfail⟩ := hends.crossing (by simp [pass]) (by simpa [pass] using hall)
    have hlow : l ≤ capacity := by simpa [pass] using hpass
    have hhigh : (capacity : Int) < l + v := by simpa [pass] using hfail
    have hwidth : ((v + 1 : Nat) : Rat) ≤ ((2 * ⌈granularity⌉₊ : Nat) : Rat) :=
      Nat.cast_le.mpr hends.cell.width_lt
    have hceil := Nat.ceil_lt_add_one (le_trans zero_le_one hg)
    have hhigh : (capacity : Rat) + 1 ≤ l + v := by exact_mod_cast Int.add_one_le_iff.mpr hhigh
    refine ⟨fuel + 1, t.best, ?_,
      fun iteration => Slaves.run_of_loop (hup iteration) (hsend iteration) hdut iteration hloop⟩
    rw [hbest]
    refine ⟨hends.lower_le, hlow, ?_⟩
    push_cast at hwidth
    linarith

end Device

/-! ## The benchmark -/

section Results

variable {cfg : Config} {frameSize : Nat} {lib : Nat → Libmoon} {dut : Nat → Arrivals}
  {again : Nat → Option Int}

theorem entry_none (longestS : Int) : entry longestS none = longestS := by
  simp [entry, globalLongest]

theorem entry_some (longestS b : Int) : entry longestS (some b) = -1 := by
  simp [entry, globalLongest]

theorem benchLoop_eq {fuel : Nat} {b : Nat → Int} {n : Nat}
    (h : ∀ i < n, iterate cfg frameSize lib dut again fuel i = some (b i)) :
    benchLoop cfg frameSize lib dut again fuel n = some ((List.range n).map b) := by
  induction n with
  | zero => rfl
  | succ n ih =>
      have hrest := ih (fun i hi => h i (Nat.lt_succ_of_lt hi))
      simp [benchLoop, hrest, h n (Nat.lt_succ_self n), List.range_succ]

theorem benchLoop_get {fuel : Nat} {results : List Int} {n : Nat}
    (h : benchLoop cfg frameSize lib dut again fuel n = some results) :
    results.length = n ∧ ∀ i < n, iterate cfg frameSize lib dut again fuel i = results[i]? := by
  induction n generalizing results with
  | zero =>
      cases h
      exact ⟨rfl, fun i hi => absurd hi (Nat.not_lt_zero i)⟩
  | succ n ih =>
      obtain ⟨before, hbefore, hlast⟩ := Option.bind_eq_some_iff.mp h
      obtain ⟨b, hb, rfl⟩ := Option.map_eq_some_iff.mp hlast
      obtain ⟨hlength, hget⟩ := ih hbefore
      refine ⟨by simp [hlength], ?_⟩
      intro i hi
      rcases Nat.lt_succ_iff_lt_or_eq.mp hi with hlt | rfl
      · rw [hget i hlt, List.getElem?_append_left (by omega)]
      · rw [hb, ← hlength, List.getElem?_concat_length]

/-- A burst size is stored in every iteration exactly when the second wait returns nothing in
every iteration. -/
theorem bench_stores_iff (cfg : Config) (frameSize : Nat) (lib : Nat → Libmoon)
    (hup : ∀ i, (lib i).Uninterrupted) (hsend : ∀ i, (lib i).SendsAll) (dut : Nat → Arrivals)
    (again : Nat → Option Int) (capacity : Nat) (hg : 1 ≤ cfg.granularity)
    (hcapacity : capacity ≤ maxPkts cfg frameSize) (hdut : FixedCapacity dut capacity) :
    (∃ fuel results, bench cfg frameSize lib dut again fuel = some results ∧
      ∀ i < cfg.numIterations, ∃ b, results[i]? = some b ∧
        LongestBurst cfg.granularity capacity b) ↔
      ∀ i < cfg.numIterations, again i = none := by
  constructor
  · intro h i hi
    obtain ⟨fuel, results, hbench, hgood⟩ := h
    obtain ⟨b, hb, hnonneg, _⟩ := hgood i hi
    rw [← (benchLoop_get hbench).2 i hi] at hb
    obtain ⟨longest, _, rfl⟩ := Option.map_eq_some_iff.mp hb
    cases hagain : again i with
    | none => rfl
    | some repeated =>
        rw [hagain, entry_some] at hnonneg
        exact absurd hnonneg (by decide)
  · intro hnone
    obtain ⟨fuel, b, hb, hrun⟩ := slaves_find hg hup hsend hdut hcapacity
    have hiterate : ∀ i < cfg.numIterations, iterate cfg frameSize lib dut again fuel i = some b := by
      intro i hi
      rw [iterate, hrun i, hnone i hi, Option.map_some, entry_none]
    refine ⟨fuel, _, benchLoop_eq hiterate, ?_⟩
    intro i hi
    exact ⟨b, by simp [hi], hb⟩

/-- If the second wait returns the result again, as the first did, every entry is minus one. -/
theorem bench_of_wait_repeated (hg : 1 ≤ cfg.granularity) (hup : ∀ i, (lib i).Uninterrupted)
    (hsend : ∀ i, (lib i).SendsAll) {capacity : Nat}
    (hcapacity : capacity ≤ maxPkts cfg frameSize) (hdut : FixedCapacity dut capacity)
    (hagain : ∀ i < cfg.numIterations, (again i).isSome) :
    ∃ fuel, bench cfg frameSize lib dut again fuel = some (List.replicate cfg.numIterations (-1)) := by
  obtain ⟨fuel, b, _, hrun⟩ := slaves_find hg hup hsend hdut hcapacity
  have hiterate : ∀ i < cfg.numIterations, iterate cfg frameSize lib dut again fuel i = some (-1) := by
    intro i hi
    obtain ⟨repeated, hrepeated⟩ := Option.isSome_iff_exists.mp (hagain i hi)
    rw [iterate, hrun i, hrepeated, Option.map_some, entry_some]
  refine ⟨fuel, ?_⟩
  rw [bench, benchLoop_eq hiterate, List.map_const', List.length_range]

end Results

/-! ## A run -/

def bufferDut (capacity : Nat) : Nat → Arrivals :=
  fun _ _ n => [List.replicate (min n capacity) udpPort]

theorem bufferDut_fixedCapacity (capacity : Nat) : FixedCapacity (bufferDut capacity) capacity := by
  intro iteration round n
  have hcount : (bufferDut capacity iteration round n).flatten.count udpPort = min n capacity := by
    simp [bufferDut]
  rw [countBurst_eq (by rw [hcount]; omega), hcount]
  omega

def Libmoon.undisturbed : Libmoon := ⟨fun _ => true, fun _ _ => true, id⟩

theorem uninterrupted_undisturbed : Libmoon.undisturbed.Uninterrupted :=
  ⟨fun _ => rfl, fun _ _ => rfl⟩

/-- A link of 10 Mbit/s for a hundredth of a second, in steps of ten packets. -/
def tenMbit : Config := ⟨10, 1 / 100, 1, 10⟩

theorem tenMbit_maxPkts : maxPkts tenMbit 64 = 149 := by decide +kernel

/-- Both slaves find that 94 packets come through a buffer of 100; the second wait gives 94
again, and minus one is stored. -/
theorem burst_not_stored :
    Slaves.run 10 .undisturbed (bufferDut 100 0) (maxPkts tenMbit 64) 20 = some (94, 94) ∧
      bench tenMbit 64 (fun _ => .undisturbed) (bufferDut 100) (fun _ => some 94) 20 = some [-1] ∧
      ¬ LongestBurst 10 100 (-1) := by
  refine ⟨by decide +kernel, by decide +kernel, ?_⟩
  intro h
  exact absurd h.1 (by decide)

theorem burst_stored_of_empty_wait :
    ∃ fuel results,
      bench tenMbit 64 (fun _ => .undisturbed) (bufferDut 100) (fun _ => none) fuel = some results ∧
      ∀ i < 1, ∃ b, results[i]? = some b ∧ LongestBurst 10 100 b :=
  (bench_stores_iff tenMbit 64 (fun _ => .undisturbed) (fun _ => uninterrupted_undisturbed)
    (fun _ _ => rfl) (bufferDut 100) (fun _ => none) 100 (by decide +kernel)
    (by rw [tenMbit_maxPkts]; decide) (bufferDut_fixedCapacity 100)).mpr (fun _ _ => rfl)

end MoonGen.Rfc2544.BackToBack

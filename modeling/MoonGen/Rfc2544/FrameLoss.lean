import Mathlib.Algebra.Order.Ring.Rat
import Mathlib.Data.List.Chain
import Mathlib.Tactic.Linarith
import MoonGen.Rfc2544.Slaves

/-! # The frame loss benchmark

`benchmark:bench` of `rfc2544/benchmarks/frameloss.lua` starts at the link rate and lowers the
rate until two runs in a row have lost nothing. Each run has the port after that of the run
before. The rates are doubles; each operation rounds.
-/

namespace MoonGen.Rfc2544

open Loop

/-- The fields of the benchmark, and the rounding of the doubles. -/
structure FrameLoss where
  maxLinkRate : Nat
  granularity : Rat
  frameSize : Nat
  fl : Rat → Rat

structure FrameLossResult where
  multi : Rat
  size : Nat
  spkts : Nat
  rpkts : Nat
deriving Repr, DecidableEq

structure FrameLossState where
  rateMulti : Rat
  port : Nat
  lastNoLostFrame : Bool
  results : List FrameLossResult
  /-- `break` has been reached. -/
  stopped : Bool
  /-- The calls of `setRate`, with the number of the queue. -/
  rates : List (Nat × Rat)
  wire : Channel Nat
deriving Repr, DecidableEq

namespace FrameLoss

variable (cfg : FrameLoss)

/-- The constant `0.05`. -/
def limit : Rat := cfg.fl (1 / 20)

def rate (rateMulti : Rat) : Rat := cfg.fl (cfg.maxLinkRate * rateMulti)

/-- The workaround for the rate bug. -/
def numQueues (rate : Rat) : Nat :=
  if cfg.fl (cfg.fl ((64 * 64) / (84 * 84)) * cfg.maxLinkRate) < rate ∧ rate < cfg.maxLinkRate then 3
  else 1

/-- `rate * frameSize / (frameSize + 20) / numQueues` -/
def queueRate (rate : Rat) : Rat :=
  cfg.fl (cfg.fl (cfg.fl (rate * cfg.frameSize) / (cfg.frameSize + 20)) / cfg.numQueues rate)

def setRates (rate : Rat) : List (Nat × Rat) :=
  if rate < cfg.maxLinkRate then
    (List.range' 1 (cfg.numQueues rate)).map fun i => (i, cfg.queueRate rate)
  else [(1, rate)]

def start (wire : Channel Nat) : FrameLossState := ⟨1, udpPort, false, [], false, [], wire⟩

/-- The condition of the loop. `running` has the answer of `dpdk.running` before each run. -/
def goesOn (running : Nat → Bool) (s : FrameLossState) : Bool :=
  !s.stopped && running s.results.length && decide (cfg.limit ≤ s.rateMulti)

/-- One turn of the loop, with what happens in its run. After the loop nothing changes. -/
def next (running : Nat → Bool) (s : FrameLossState) (acts : List Act) : Option FrameLossState :=
  if cfg.goesOn running s then
    let rate := cfg.rate s.rateMulti
    (Measuring.measure s.port (cfg.numQueues rate) s.wire acts).map fun (m, wire) =>
      let results := s.results ++ [⟨s.rateMulti, cfg.frameSize, m.spkts, m.rpkts⟩]
      let rates := s.rates ++ cfg.setRates rate
      let noLostFrame := m.spkts == m.rpkts
      if noLostFrame && s.lastNoLostFrame then
        { s with results := results, stopped := true, rates := rates, wire := wire }
      else
        { rateMulti := cfg.fl (s.rateMulti - cfg.granularity)
          port := s.port + 1
          lastNoLostFrame := noLostFrame
          results := results
          stopped := false
          rates := rates
          wire := wire }
  else some s

theorem sum_setRates (hfl : ∀ x, cfg.fl x = x) {rate : Rat} (h : rate < cfg.maxLinkRate) :
    ((cfg.setRates rate).map Prod.snd).sum = rate * cfg.frameSize / (cfg.frameSize + 20) := by
  have hpos : (cfg.numQueues rate : Rat) ≠ 0 := by
    rw [numQueues]
    split
    · norm_num
    · norm_num
  rw [setRates, if_pos h, List.map_map]
  simp only [Function.comp_def, List.map_const', List.length_range', List.sum_replicate,
    nsmul_eq_mul, queueRate, hfl]
  rw [mul_div_cancel₀ _ hpos]

end FrameLoss

def FrameLossResult.Lossless (e : FrameLossResult) : Prop := e.spkts = e.rpkts

namespace FrameLoss

variable {cfg : FrameLoss} {running : Nat → Bool}

inductive Turn (cfg : FrameLoss) (running : Nat → Bool) (s : FrameLossState) (acts : List Act) :
    FrameLossState → Prop where
  | ended (h : cfg.goesOn running s = false) : Turn cfg running s acts s
  | stop {m : Measurement} {wire : Channel Nat} (h : cfg.goesOn running s = true)
      (hm : Measuring.measure s.port (cfg.numQueues (cfg.rate s.rateMulti)) s.wire acts =
        some (m, wire))
      (hlast : s.lastNoLostFrame = true) (hnow : m.spkts = m.rpkts) (rates : List (Nat × Rat)) :
      Turn cfg running s acts
        { s with
          results := s.results ++ [⟨s.rateMulti, cfg.frameSize, m.spkts, m.rpkts⟩]
          stopped := true
          rates := rates
          wire := wire }
  | lower {m : Measurement} {wire : Channel Nat} (h : cfg.goesOn running s = true)
      (hm : Measuring.measure s.port (cfg.numQueues (cfg.rate s.rateMulti)) s.wire acts =
        some (m, wire))
      (hlost : s.lastNoLostFrame = true → m.spkts ≠ m.rpkts) (rates : List (Nat × Rat)) :
      Turn cfg running s acts
        ⟨cfg.fl (s.rateMulti - cfg.granularity), s.port + 1, m.spkts == m.rpkts,
          s.results ++ [⟨s.rateMulti, cfg.frameSize, m.spkts, m.rpkts⟩], false, rates, wire⟩

theorem turn_of_next {s s' : FrameLossState} {acts : List Act}
    (h : cfg.next running s acts = some s') : Turn cfg running s acts s' := by
  unfold next at h
  cases hgo : cfg.goesOn running s with
  | false =>
      rw [hgo] at h
      cases h
      exact .ended hgo
  | true =>
      rw [hgo, if_pos rfl] at h
      obtain ⟨⟨m, wire⟩, hm, heq⟩ := Option.map_eq_some_iff.mp h
      dsimp only at heq
      split at heq
      · rename_i hboth
        obtain ⟨hnow, hlast⟩ := Bool.and_eq_true_iff.mp hboth
        rw [← heq]
        exact .stop hgo hm hlast (beq_iff_eq.mp hnow) _
      · rename_i hboth
        rw [← heq]
        refine .lower hgo hm ?_ _
        intro hlast hnow
        exact hboth (Bool.and_eq_true_iff.mpr ⟨beq_iff_eq.mpr hnow, hlast⟩)

/-! ## The runs count their own packets -/

/-- The ports from that of the next run on are unused. -/
structure Fresh (hi : Nat) (s : FrameLossState) : Prop where
  port : s.stopped = false → s.port = udpPort + s.results.length
  unused : s.stopped = false → Unused s.port hi s.wire
  counts : ∀ j e, s.results[j]? = some e →
    (udpPort + j < hi → e.rpkts ≤ e.spkts) ∧ (65536 ≤ udpPort + j → e.rpkts = 0)

theorem stopped_of_goesOn {s : FrameLossState} (h : cfg.goesOn running s = true) :
    s.stopped = false := by
  simp only [goesOn, Bool.and_eq_true, Bool.not_eq_true'] at h
  exact h.1.1

theorem Act.Keeps.mono {lo lo' hi : Nat} {a : Act} (h : a.Keeps lo hi) (hle : lo ≤ lo') :
    a.Keeps lo' hi := by
  intro port hport
  have hkeeps := h port hport
  omega

theorem getElem?_concat_cases {α : Type} {l : List α} {x e : α} {j : Nat}
    (h : (l ++ [x])[j]? = some e) : l[j]? = some e ∨ j = l.length ∧ e = x := by
  rcases Nat.lt_trichotomy j l.length with hlt | heq | hgt
  · rw [List.getElem?_append_left hlt] at h
    exact .inl h
  · rw [heq, List.getElem?_concat_length] at h
    exact .inr ⟨heq, (Option.some.inj h).symm⟩
  · rw [List.getElem?_eq_none (by simpa using Nat.succ_le_of_lt hgt)] at h
    cases h

theorem Fresh.measured {hi : Nat} (hhi : hi ≤ 65536) {s : FrameLossState} (hs : Fresh hi s)
    (hopen : s.stopped = false) {acts : List Act} (hacts : ∀ a ∈ acts, a.Keeps udpPort hi)
    {numQueues : Nat} {m : Measurement} {wire : Channel Nat}
    (hm : Measuring.measure s.port numQueues s.wire acts = some (m, wire)) :
    (s.port < hi → m.spkts = m.rpkts + wire.total s.port) ∧ (65536 ≤ s.port → m.rpkts = 0) ∧
      Unused (s.port + 1) hi wire := by
  have hport := hs.port hopen
  have hpos : 0 < s.port := by
    rw [hport, udpPort]
    omega
  refine Measuring.measure_spec hpos hhi (hs.unused hopen) ?_ hm
  intro a ha
  exact Act.Keeps.mono (hacts a ha) (by omega)

theorem Fresh.counts_append {hi : Nat} {s : FrameLossState} (hs : Fresh hi s)
    (hopen : s.stopped = false) {m : Measurement} {wire : Channel Nat}
    (hown : s.port < hi → m.spkts = m.rpkts + wire.total s.port)
    (hbig : 65536 ≤ s.port → m.rpkts = 0) (multi : Rat) (size : Nat) :
    ∀ j e, (s.results ++ [⟨multi, size, m.spkts, m.rpkts⟩])[j]? = some e →
      (udpPort + j < hi → e.rpkts ≤ e.spkts) ∧ (65536 ≤ udpPort + j → e.rpkts = 0) := by
  intro j e hj
  have hport := hs.port hopen
  rcases getElem?_concat_cases hj with hold | ⟨hlast, rfl⟩
  · exact hs.counts j e hold
  · rw [hlast, ← hport]
    refine ⟨?_, hbig⟩
    intro hlt
    have hsum := hown hlt
    show m.rpkts ≤ m.spkts
    omega

theorem fresh_start {hi : Nat} {wire : Channel Nat} (h : Unused udpPort hi wire) :
    Fresh hi (start wire) where
  port := fun _ => rfl
  unused := fun _ => h
  counts := fun j e hj => by cases hj

theorem Fresh.next {hi : Nat} (hhi : hi ≤ 65536) {s s' : FrameLossState} (hs : Fresh hi s)
    {acts : List Act} (hacts : ∀ a ∈ acts, a.Keeps udpPort hi)
    (h : cfg.next running s acts = some s') : Fresh hi s' := by
  cases turn_of_next h with
  | ended _ => exact hs
  | stop hgo hm _ _ rates =>
      have hopen := stopped_of_goesOn hgo
      obtain ⟨hown, hbig, -⟩ := hs.measured hhi hopen hacts hm
      constructor
      · intro hfalse
        cases hfalse
      · intro hfalse
        cases hfalse
      · exact hs.counts_append hopen hown hbig _ _
  | lower hgo hm _ rates =>
      have hopen := stopped_of_goesOn hgo
      obtain ⟨hown, hbig, hunused⟩ := hs.measured hhi hopen hacts hm
      constructor
      · intro _
        show s.port + 1 = udpPort + (s.results ++ [_]).length
        rw [hs.port hopen, List.length_append, List.length_singleton, Nat.add_assoc]
      · exact fun _ => hunused
      · exact hs.counts_append hopen hown hbig _ _

theorem fresh_of_runs {hi : Nat} (hhi : hi ≤ 65536) {wire : Channel Nat}
    (hwire : Unused udpPort hi wire) {rounds : List (List Act)}
    (hrounds : ∀ acts ∈ rounds, ∀ a ∈ acts, a.Keeps udpPort hi) {s : FrameLossState}
    (hrun : runs (cfg.next running) (start wire) rounds = some s) : Fresh hi s := by
  have halong := along_of_forall (cfg.next running) (start wire) hrounds
  exact runs_invariant (Fresh hi) (fun _ _ _ hs hacts hnext => hs.next hhi hacts hnext)
    (fresh_start hwire) halong hrun

/-- On a network that has no packet to the ports of the benchmark and that copies none, in every
order in which the slaves and the network act in each run, no run receives more than it sent,
and what a run misses is what it sent itself and what is lost or underway when its counter
slave returns. The packets of the warm-up and those of earlier runs are not counted. From port
65536 on, which a packet cannot have, nothing is counted. -/
theorem frameloss_counts_own (cfg : FrameLoss) (running : Nat → Bool) (hi : Nat)
    (hhi : hi ≤ 65536) (wire : Channel Nat) (hwire : Unused udpPort hi wire)
    (rounds : List (List Act)) (hrounds : ∀ acts ∈ rounds, ∀ a ∈ acts, a.Keeps udpPort hi)
    {s : FrameLossState} (hrun : runs (cfg.next running) (start wire) rounds = some s) :
    (∀ j e, s.results[j]? = some e →
      (udpPort + j < hi → e.rpkts ≤ e.spkts) ∧ (65536 ≤ udpPort + j → e.rpkts = 0)) ∧
    ∀ acts s', (∀ a ∈ acts, a.Keeps udpPort hi) → cfg.goesOn running s = true →
      cfg.next running s acts = some s' →
      ∃ e, s'.results = s.results ++ [e] ∧
        (udpPort + s.results.length < hi →
          e.spkts = e.rpkts + s'.wire.total (udpPort + s.results.length)) := by
  have hfresh := fresh_of_runs hhi hwire hrounds hrun
  refine ⟨hfresh.counts, ?_⟩
  intro acts s' hacts hgo hnext
  have hopen := stopped_of_goesOn hgo
  rw [← hfresh.port hopen]
  cases turn_of_next hnext with
  | ended hended =>
      rw [hgo] at hended
      cases hended
  | stop _ hm _ _ rates =>
      obtain ⟨hown, -, -⟩ := hfresh.measured hhi hopen hacts hm
      exact ⟨_, rfl, hown⟩
  | lower _ hm _ rates =>
      obtain ⟨hown, -, -⟩ := hfresh.measured hhi hopen hacts hm
      exact ⟨_, rfl, hown⟩

/-! ## When the benchmark stops -/

def multi (cfg : FrameLoss) : Nat → Rat
  | 0 => 1
  | j + 1 => cfg.fl (cfg.multi j - cfg.granularity)

/-- Of two runs in a row one has lost a frame. -/
def Lossy (results : List FrameLossResult) : Prop :=
  results.IsChain fun a b => ¬(a.Lossless ∧ b.Lossless)

structure Lowers (cfg : FrameLoss) (s : FrameLossState) : Prop where
  multis : ∀ j e, s.results[j]? = some e → e.multi = cfg.multi j ∧ cfg.limit ≤ e.multi
  rateMulti : s.stopped = false → s.rateMulti = cfg.multi s.results.length
  last : s.stopped = false →
    (s.lastNoLostFrame = true ↔ ∃ e ∈ s.results.getLast?, e.Lossless)
  lossy : s.stopped = false → Lossy s.results
  stopped : s.stopped = true → ¬Lossy s.results ∧ Lossy s.results.dropLast

theorem lowers_start (cfg : FrameLoss) (wire : Channel Nat) : Lowers cfg (start wire) where
  multis := fun j e hj => by cases hj
  rateMulti := fun _ => rfl
  last := fun _ => by simp [start]
  lossy := fun _ => .nil
  stopped := fun h => by cases h

theorem limit_le_of_goesOn {s : FrameLossState} (h : cfg.goesOn running s = true) :
    cfg.limit ≤ s.rateMulti := by
  simp only [goesOn, Bool.and_eq_true, decide_eq_true_eq] at h
  exact h.2

theorem lossy_concat (results : List FrameLossResult) (e : FrameLossResult) :
    Lossy (results ++ [e]) ↔
      Lossy results ∧ ((∃ a ∈ results.getLast?, a.Lossless) → ¬e.Lossless) := by
  rw [Lossy, List.isChain_append]
  simp only [List.isChain_singleton, List.head?_cons, Option.mem_def, Option.some.injEq, true_and]
  apply and_congr_right
  intro _
  constructor
  · rintro h ⟨a, ha, hlossless⟩ he
    exact h a ha e rfl ⟨hlossless, he⟩
  · rintro h a ha _ rfl ⟨hlossless, he⟩
    exact h ⟨a, ha, hlossless⟩ he

theorem Lowers.multis_concat {s : FrameLossState} (hs : Lowers cfg s)
    (hgo : cfg.goesOn running s = true) (size spkts rpkts : Nat) :
    ∀ j e, (s.results ++ [⟨s.rateMulti, size, spkts, rpkts⟩])[j]? = some e →
      e.multi = cfg.multi j ∧ cfg.limit ≤ e.multi := by
  intro j e hj
  rcases getElem?_concat_cases hj with hold | ⟨rfl, rfl⟩
  · exact hs.multis j e hold
  · exact ⟨hs.rateMulti (stopped_of_goesOn hgo), limit_le_of_goesOn hgo⟩

theorem Lowers.next {s s' : FrameLossState} (hs : Lowers cfg s) {acts : List Act}
    (h : cfg.next running s acts = some s') : Lowers cfg s' := by
  cases turn_of_next h with
  | ended _ => exact hs
  | stop hgo hm hlast hnow rates =>
      have hopen := stopped_of_goesOn hgo
      constructor
      · exact hs.multis_concat hgo _ _ _
      · intro hfalse
        cases hfalse
      · intro hfalse
        cases hfalse
      · intro hfalse
        cases hfalse
      · intro _
        rw [lossy_concat, List.dropLast_concat]
        refine ⟨?_, hs.lossy hopen⟩
        intro hlossy
        exact hlossy.2 ((hs.last hopen).mp hlast) hnow
  | lower hgo hm hlost rates =>
      have hopen := stopped_of_goesOn hgo
      constructor
      · exact hs.multis_concat hgo _ _ _
      · intro _
        show cfg.fl (s.rateMulti - cfg.granularity) = cfg.multi (s.results ++ [_]).length
        rw [List.length_append, List.length_singleton, multi, hs.rateMulti hopen]
      · intro _
        simp [FrameLossResult.Lossless]
      · intro _
        rw [lossy_concat]
        exact ⟨hs.lossy hopen, fun hprev => hlost ((hs.last hopen).mpr hprev)⟩
      · intro hfalse
        cases hfalse

theorem limit_ge {ε : Rat} (hfl : ∀ x, |cfg.fl x - x| ≤ ε * |x|) : (1 - ε) / 20 ≤ cfg.limit := by
  have hround := (abs_le.mp (hfl (1 / 20))).1
  rw [abs_of_pos (by norm_num)] at hround
  rw [limit]
  linarith

theorem multi_le {ε : Rat} (hfl : ∀ x, |cfg.fl x - x| ≤ ε * |x|) (hone : ε < 1)
    (hε : ε < cfg.granularity) {n : Nat} (h : ∀ j < n, cfg.limit ≤ cfg.multi j) :
    cfg.multi n ≤ 1 - n * (cfg.granularity - ε) ∨ cfg.multi n ≤ 0 := by
  have hnonneg : 0 ≤ ε := by
    have hround := (abs_nonneg _).trans (hfl 1)
    rwa [abs_one, mul_one] at hround
  induction n with
  | zero => simp [multi]
  | succ n ih =>
      have hlow := h n (Nat.lt_succ_self n)
      have hlimit := limit_ge hfl
      have hround := (abs_le.mp (hfl (cfg.multi n - cfg.granularity))).2
      rcases ih fun j hj => h j (Nat.lt_succ_of_lt hj) with hn | hn
      · rw [multi, Nat.cast_succ]
        rcases le_total (cfg.multi n - cfg.granularity) 0 with hneg | hpos
        · right
          rw [abs_of_nonpos hneg] at hround
          have hscaled := mul_nonneg (sub_nonneg.mpr hone.le) (neg_nonneg.mpr hneg)
          linarith
        · left
          rw [abs_of_nonneg hpos] at hround
          have hdown : 0 ≤ (n : Rat) * (cfg.granularity - ε) :=
            mul_nonneg (Nat.cast_nonneg n) (by linarith)
          have hsmall : cfg.multi n - cfg.granularity ≤ 1 := by linarith
          have hscaled := mul_le_mul_of_nonneg_left hsmall hnonneg
          linarith
      · exfalso
        linarith

theorem runs_of_ended {s : FrameLossState} (h : cfg.goesOn running s = false)
    (rounds : List (List Act)) : runs (cfg.next running) s rounds = some s := by
  induction rounds with
  | nil => rfl
  | cons acts rest ih =>
      have hnext : cfg.next running s acts = some s := by
        rw [next, h]
        rfl
      rw [runs, hnext, Option.bind_some, ih]

theorem length_of_goesOn {s s' : FrameLossState} {rounds : List (List Act)}
    (hrun : runs (cfg.next running) s rounds = some s') (hgo : cfg.goesOn running s' = true) :
    s'.results.length = s.results.length + rounds.length := by
  induction rounds generalizing s with
  | nil =>
      cases hrun
      rfl
  | cons acts rest ih =>
      obtain ⟨t, hnext, hrest⟩ := Option.bind_eq_some_iff.mp hrun
      have hlen := ih hrest
      cases turn_of_next hnext with
      | ended hended =>
          rw [runs_of_ended hended] at hrest
          cases hrest
          rw [hgo] at hended
          cases hended
      | stop _ _ _ _ rates =>
          rw [hlen, List.length_append, List.length_singleton, List.length_cons]
          omega
      | lower _ _ _ rates =>
          rw [hlen, List.length_append, List.length_singleton, List.length_cons]
          omega

/-- Whatever the runs measure, their multipliers go down from 1 by the granularity and not below
0.05. The benchmark breaks off after two runs in a row without loss and only then, and makes no
run after them. It ends, with a granularity above the rounding error, after the first `n` turns
with `(19 + ε) / 20 < n (granularity - ε)`. -/
theorem frameloss_stops (cfg : FrameLoss) (running : Nat → Bool) (wire : Channel Nat)
    (rounds : List (List Act)) {s : FrameLossState}
    (hrun : runs (cfg.next running) (start wire) rounds = some s) :
    (∀ j e, s.results[j]? = some e → e.multi = cfg.multi j ∧ cfg.limit ≤ e.multi) ∧
    (s.stopped = true ↔ ¬Lossy s.results) ∧ Lossy s.results.dropLast ∧
    ∀ ε : Rat, (∀ x, |cfg.fl x - x| ≤ ε * |x|) → ε < 1 → ε < cfg.granularity →
      (19 + ε) / 20 < rounds.length * (cfg.granularity - ε) → cfg.goesOn running s = false := by
  have hlowers : Lowers cfg s :=
    runs_keeps (Lowers cfg) (fun _ _ _ hs hnext => hs.next hnext) (lowers_start cfg wire) hrun
  refine ⟨hlowers.multis, ?_, ?_, ?_⟩
  · cases hstopped : s.stopped with
    | true => exact iff_of_true rfl (hlowers.stopped hstopped).1
    | false => exact iff_of_false Bool.false_ne_true (not_not_intro (hlowers.lossy hstopped))
  · cases hstopped : s.stopped with
    | true => exact (hlowers.stopped hstopped).2
    | false => exact (hlowers.lossy hstopped).dropLast
  · intro ε hfl hone hε hmany
    cases hgo : cfg.goesOn running s with
    | false => rfl
    | true =>
        exfalso
        have hlen : s.results.length = rounds.length := by
          rw [length_of_goesOn hrun hgo]
          exact Nat.zero_add _
        have habove : ∀ j < rounds.length, cfg.limit ≤ cfg.multi j := by
          intro j hj
          rw [← hlen] at hj
          obtain ⟨hmulti, hlimit⟩ := hlowers.multis j _ (List.getElem?_eq_getElem hj)
          rw [← hmulti]
          exact hlimit
        have hlow := limit_le_of_goesOn hgo
        rw [hlowers.rateMulti (stopped_of_goesOn hgo), hlen] at hlow
        have hlimit := limit_ge hfl
        rcases multi_le hfl hone hε habove with hdown | hzero
        · linarith
        · linarith

/-! ## Three runs -/

/-- Exact arithmetic, and the multipliers 1, 0.55 and 0.1. -/
def threeRates : FrameLoss := ⟨10000, 9 / 20, 64, id⟩

/-- Two packets of the warm-up and three of the run are sent. One of each arrives and one of the
run is lost before the counter slave looks. -/
def lossyRun : List Act :=
  [.arrive 0, .counterArrive, .pass 0, .counterPass, .warm 0 2, .reset 0, .send 0 3,
    .deliver 2, .deliver 0, .lose 1, .recv 2, .finish 0, .counterFinish]

/-- The last packet of the run before arrives with the two of this run. -/
def lateRun : List Act :=
  [.arrive 0, .counterArrive, .pass 0, .counterPass, .reset 0, .send 0 2, .deliver 1, .deliver 1,
    .deliver 1, .recv 3, .finish 0, .counterFinish]

def cleanRun : List Act :=
  [.counterArrive, .arrive 0, .counterPass, .pass 0, .reset 0, .send 0 1, .deliver 1, .recv 1,
    .finish 0, .counterFinish]

def afterLossy : FrameLossState where
  rateMulti := 11 / 20
  port := 43
  lastNoLostFrame := false
  results := [⟨1, 64, 3, 1⟩]
  stopped := false
  rates := [(1, 10000)]
  wire := ⟨[41, 42], [], [42]⟩

theorem runs_lossyRun :
    runs (threeRates.next fun _ => true) (start .empty) [lossyRun] = some afterLossy := by
  decide +kernel

theorem next_lateRun :
    threeRates.next (fun _ => true) afterLossy lateRun =
      some ⟨1 / 10, 44, true, [⟨1, 64, 3, 1⟩, ⟨11 / 20, 64, 2, 2⟩], false,
        [(1, 10000), (1, 88000 / 21)], ⟨[41], [], [42]⟩⟩ := by
  decide +kernel

/-- The packet of the first run that arrives in the second is not counted there. -/
theorem frameloss_counts_own_lossy :
    ∃ s e, runs (threeRates.next fun _ => true) (start .empty) [lossyRun] = some afterLossy ∧
      threeRates.next (fun _ => true) afterLossy lateRun = some s ∧
      s.results = afterLossy.results ++ [e] ∧ e.rpkts = 2 ∧ e.spkts = e.rpkts + s.wire.total 43 := by
  obtain ⟨e, he, hown⟩ := (frameloss_counts_own threeRates (fun _ => true) 65536 (Nat.le_refl _)
    .empty (fun _ _ => rfl) [lossyRun] (by simp [lossyRun, Act.Keeps]) runs_lossyRun).2 lateRun _
    (by simp [lateRun, Act.Keeps]) (by decide +kernel) next_lateRun
  have hlast : ⟨11 / 20, 64, 2, 2⟩ = e := List.singleton_inj.mp (List.cons.inj he).2
  exact ⟨_, e, runs_lossyRun, next_lateRun, he, by rw [← hlast], hown (by decide)⟩

theorem frameloss_stops_third_run :
    ∃ s, runs (threeRates.next fun _ => true) (start .empty) [lossyRun, lateRun, cleanRun, cleanRun] =
        some s ∧
      s.results.map FrameLossResult.multi = [1, 11 / 20, 1 / 10] ∧ s.stopped = true ∧
      ¬Lossy s.results ∧ Lossy s.results.dropLast ∧
      threeRates.goesOn (fun _ => true) s = false := by
  have hend : (runs (threeRates.next fun _ => true) (start .empty)
      [lossyRun, lateRun, cleanRun, cleanRun]).map (fun s =>
        (s.results.map FrameLossResult.multi, s.stopped)) = some ([1, 11 / 20, 1 / 10], true) := by
    decide +kernel
  obtain ⟨s, hrun, hs⟩ := Option.map_eq_some_iff.mp hend
  simp only [Prod.mk.injEq] at hs
  obtain ⟨-, hstopped, hlossy, hends⟩ := frameloss_stops threeRates (fun _ => true) .empty _ hrun
  refine ⟨s, hrun, hs.1, hs.2, hstopped.mp hs.2, hlossy, ?_⟩
  apply hends 0
  · intro x
    simp [threeRates]
  · norm_num
  · norm_num [threeRates]
  · norm_num [threeRates]

end FrameLoss

end MoonGen.Rfc2544

import Mathlib.Data.List.Forall2
import MoonGen.Moonsniff.Histogram
import MoonGen.Moonsniff.Join
import MoonGen.Moonsniff.Pcap
import MoonGen.Moonsniff.RecordFidelity

/-! # A latency measurement from end to end

Two taps are in front of and behind a device under test. `ms_log_pkts` logs the packets of
each, `match` joins the two files and gives the latencies to the histogram. The timestamps of
the trailer lose everything above 32 bits on the way; the work-around of `computeLatency`
brings back what is needed.
-/

namespace MoonGen.Moonsniff

open Match

def RxPkt.record (embedded : Bool) (seqnumOffset : UInt32) (p : RxPkt) : Mscap :=
  ⟨msTimestamp embedded p, p.word32 seqnumOffset.toNat⟩

def recorded (embedded : Bool) (seqnumOffset : UInt32) (bursts : List (List RxPkt)) :
    List RxPkt :=
  bursts.flatten.filter fun p => p.isLogged embedded && decide (seqnumOffset < p.pktLen)

theorem msRecords_eq (embedded : Bool) (seqnumOffset : UInt32) (bursts : List (List RxPkt)) :
    msRecords embedded seqnumOffset bursts =
      (recorded embedded seqnumOffset bursts).map (RxPkt.record embedded seqnumOffset) := by
  rw [msRecords, recorded]
  induction bursts.flatten with
  | nil => rfl
  | cons p rest ih =>
      rw [List.filterMap_cons, List.filter_cons, msRecord?]
      by_cases hp : p.isLogged embedded ∧ seqnumOffset < p.pktLen
      · rw [if_pos hp, if_pos (by simpa using hp), List.map_cons, ← ih]
        rfl
      · rw [if_neg hp, if_neg (by simpa using hp), ih]

section Latency

variable (embedded : Bool) (seqnumOffset : UInt32)

/-- The latency from `p` to `q` is in the range that the files can carry. In the trailer mode
no multiple of `2^32` may lie between an early `q` and `p`. -/
structure Measurable (p q : RxPkt) : Prop where
  low : -50 ≤ (q.time embedded : Int) - p.time embedded
  high : (q.time embedded : Int) - p.time embedded < 2000000000
  period : embedded = false → p.time embedded / 2 ^ 32 ≤ q.time embedded / 2 ^ 32

variable {embedded seqnumOffset}

theorem record_timestamp_trailer (seqnumOffset : UInt32) (p : RxPkt) :
    (p.record false seqnumOffset).timestamp = reduced (p.time false) := by
  rw [← UInt64.toNat_inj, reduced_toNat]
  exact msTimestamp_trailer p

theorem compareTimes_record {p q : RxPkt} (h : Measurable embedded p q)
    (hstamped : (p.record embedded seqnumOffset).timestamp ≠ 0) :
    compareTimes (p.record embedded seqnumOffset) (q.record embedded seqnumOffset) =
      .update ((q.time embedded : Int) - p.time embedded) := by
  have hlow := h.low
  have hhigh := h.high
  cases embedded with
  | true =>
      have hdiff : ((q.record true seqnumOffset).timestamp -
          (p.record true seqnumOffset).timestamp).toInt64.toInt =
            (q.time true : Int) - p.time true := by
        apply toInt_sub_toInt64
        · show -2 ^ 63 ≤ (q.time true : Int) - p.time true
          omega
        · show (q.time true : Int) - p.time true < 2 ^ 63
          omega
      simp only [compareTimes, hdiff]
      rw [if_pos hlow]
  | false =>
      have hne : ¬2 ^ 32 ∣ p.time false := by
        rw [← reduced_eq_zero_iff, ← record_timestamp_trailer seqnumOffset]
        exact hstamped
      have hlatency :=
        latency_reduced hne (record_timestamp_trailer seqnumOffset q) hlow hhigh
      rw [if_pos (h.period rfl)] at hlatency
      rw [← ofLatency_latency hstamped, record_timestamp_trailer, hlatency,
        Verdict.ofLatency_of_thresh hlow]

/-! ## The join of the two captures -/

variable (embedded seqnumOffset)

/-- What the packets at the two taps have to be. The first packet has the least identifier. The
device under test sends on some of the packets, in any order, each once, and each so fast that
its latency can be measured. -/
structure Experiment (first : RxPkt) (pres posts : List RxPkt) : Prop where
  distinct : ((first :: pres).map fun p => ident (p.record embedded seqnumOffset)).Nodup
  range : ∀ p ∈ first :: pres,
    ident (first.record embedded seqnumOffset) ≤ ident (p.record embedded seqnumOffset) ∧
      ident (p.record embedded seqnumOffset) < indexBitmask - 100
  stamped : ∀ p ∈ first :: pres, (p.record embedded seqnumOffset).timestamp ≠ 0
  once : (posts.map fun q => q.word32 seqnumOffset.toNat).Nodup
  forwarded : ∀ q ∈ posts, ∃ p ∈ first :: pres,
    p.word32 seqnumOffset.toNat = q.word32 seqnumOffset.toNat ∧ Measurable embedded p q

def TrueLatency (pres : List RxPkt) (q : RxPkt) (latency : Int) : Prop :=
  ∃ p ∈ pres, p.word32 seqnumOffset.toNat = q.word32 seqnumOffset.toNat ∧
    Measurable embedded p q ∧ latency = (q.time embedded : Int) - p.time embedded

variable {embedded seqnumOffset} {first : RxPkt} {pres posts : List RxPkt}

theorem Experiment.prefillable (h : Experiment embedded seqnumOffset first pres posts) :
    Prefillable (first.record embedded seqnumOffset)
      (pres.map (RxPkt.record embedded seqnumOffset)) where
  distinct := by
    rw [← List.map_cons, List.map_map]
    exact h.distinct
  range := by
    rw [← List.map_cons]
    intro pre hpre
    obtain ⟨p, hp, rfl⟩ := List.mem_map.mp hpre
    exact h.range p hp
  stamped := by
    rw [← List.map_cons]
    intro pre hpre
    obtain ⟨p, hp, rfl⟩ := List.mem_map.mp hpre
    exact h.stamped p hp

theorem Experiment.find? (h : Experiment embedded seqnumOffset first pres posts) {p q : RxPkt}
    (hp : p ∈ first :: pres)
    (hid : p.word32 seqnumOffset.toNat = q.word32 seqnumOffset.toNat) :
    ((first :: pres).map (RxPkt.record embedded seqnumOffset)).find?
        (fun pre => ident pre = ident (q.record embedded seqnumOffset)) =
      some (p.record embedded seqnumOffset) := by
  have hident : ident (p.record embedded seqnumOffset) = ident (q.record embedded seqnumOffset) :=
    congrArg (· &&& indexBitmask) hid
  have hsome : (((first :: pres).map (RxPkt.record embedded seqnumOffset)).find?
      fun pre => ident pre = ident (q.record embedded seqnumOffset)).isSome := by
    rw [List.find?_isSome]
    exact ⟨_, List.mem_map_of_mem hp, by simpa using hident⟩
  obtain ⟨x, hx⟩ := Option.isSome_iff_exists.mp hsome
  obtain ⟨p', hp', rfl⟩ := List.mem_map.mp (List.mem_of_find?_eq_some hx)
  have hident' : ident (p'.record embedded seqnumOffset) =
      ident (q.record embedded seqnumOffset) := by
    simpa using List.find?_some hx
  rw [hx, List.inj_on_of_nodup_map h.distinct hp' hp (hident'.trans hident.symm)]

theorem Experiment.ident_ne (h : Experiment embedded seqnumOffset first pres posts)
    {before rest : List RxPkt} {q : RxPkt} (hsplit : posts = before ++ q :: rest) :
    ident (q.record embedded seqnumOffset) ∉
      (before.map (RxPkt.record embedded seqnumOffset)).map ident := by
  rw [List.map_map, List.mem_map]
  rintro ⟨q', hq', hident⟩
  obtain ⟨p, hp, hid, -⟩ := h.forwarded q (by simp [hsplit])
  obtain ⟨p', hp', hid', -⟩ := h.forwarded q' (by simp [hsplit, hq'])
  have hsame : p' = p := by
    apply List.inj_on_of_nodup_map h.distinct hp' hp
    show p'.word32 seqnumOffset.toNat &&& indexBitmask = p.word32 seqnumOffset.toNat &&& indexBitmask
    rw [hid', hid]
    exact hident
  have honce := h.once
  rw [hsplit, List.map_append, List.map_cons, List.nodup_append] at honce
  refine honce.2.2 _ (List.mem_map_of_mem hq') _ List.mem_cons_self ?_
  rw [← hid', ← hid, hsame]

theorem Experiment.joinFrom (h : Experiment embedded seqnumOffset first pres posts)
    {before rest : List RxPkt} (hsplit : posts = before ++ rest) :
    List.Forall₂ (fun q verdict => ∃ latency,
        TrueLatency embedded seqnumOffset (first :: pres) q latency ∧ verdict = .update latency)
      rest
      (joinFrom ((first :: pres).map (RxPkt.record embedded seqnumOffset))
        (before.map (RxPkt.record embedded seqnumOffset))
        (rest.map (RxPkt.record embedded seqnumOffset))) := by
  induction rest generalizing before with
  | nil => exact .nil
  | cons q rest ih =>
      have hq : q ∈ posts := by
        rw [hsplit]
        exact List.mem_append_right _ List.mem_cons_self
      obtain ⟨p, hp, hid, hmeasurable⟩ := h.forwarded q hq
      have hverdict : joinVerdict ((first :: pres).map (RxPkt.record embedded seqnumOffset))
          (before.map (RxPkt.record embedded seqnumOffset)) (q.record embedded seqnumOffset) =
            .update ((q.time embedded : Int) - p.time embedded) := by
        rw [joinVerdict, if_neg (h.ident_ne hsplit), h.find? hp hid]
        exact (if_pos hid).trans (compareTimes_record hmeasurable (h.stamped p hp))
      refine .cons ⟨_, ⟨p, hp, hid, hmeasurable, rfl⟩, hverdict⟩ ?_
      have hnext : posts = before ++ [q] ++ rest := by
        rw [hsplit, List.append_assoc]
        rfl
      have hrest := ih hnext
      rw [List.map_append] at hrest
      exact hrest

theorem forall₂_update {R : RxPkt → Int → Prop} {qs : List RxPkt} {verdicts : List Verdict}
    (h : List.Forall₂ (fun q verdict => ∃ latency, R q latency ∧ verdict = .update latency)
      qs verdicts) :
    List.Forall₂ R qs (verdicts.filterMap Verdict.update?) ∧ verdicts.count .miss = 0 := by
  induction h with
  | nil => exact ⟨.nil, rfl⟩
  | cons hq _ ih =>
      obtain ⟨latency, hR, rfl⟩ := hq
      refine ⟨.cons hR ih.1, ?_⟩
      rw [List.count_cons_of_ne (by simp)]
      exact ih.2

end Latency

theorem toInt_ofInt_latency {embedded : Bool} {seqnumOffset : UInt32} {pres : List RxPkt}
    {q : RxPkt} {latency : Int} (h : TrueLatency embedded seqnumOffset pres q latency) :
    (Int64.ofInt latency).toInt = latency := by
  obtain ⟨p, -, -, hmeasurable, rfl⟩ := h
  have hlow := hmeasurable.low
  have hhigh := hmeasurable.high
  apply Int64.toInt_ofInt_of_le
  · omega
  · omega

theorem forall₂_exists_left {α β : Type} {R : α → β → Prop} {xs : List α} {ys : List β}
    (h : List.Forall₂ R xs ys) {y : β} (hy : y ∈ ys) : ∃ x, R x y := by
  induction h with
  | nil => cases hy
  | cons hR _ ih =>
      rcases List.mem_cons.mp hy with rfl | htail
      · exact ⟨_, hR⟩
      · exact ih htail

theorem mean_latencies {embedded : Bool} {seqnumOffset : UInt32} {pres qs : List RxPkt}
    {latencies : List Int}
    (h : List.Forall₂ (TrueLatency embedded seqnumOffset pres) qs latencies) (hne : qs ≠ [])
    (hfew : qs.length < 2 ^ 64) {bucketSize : UInt32} {hist : Histogram}
    (hfresh : Histogram.Fresh bucketSize hist) :
    (hist.updateAll (latencies.map Int64.ofInt)).mean =
      Moments.average (latencies.map fun latency : Int => (latency : Rat)) := by
  have hlength := h.length_eq
  have hnumbers : Histogram.numbers (latencies.map Int64.ofInt) =
      latencies.map fun latency : Int => (latency : Rat) := by
    rw [Histogram.numbers, List.map_map]
    apply List.map_congr_left
    intro latency hmem
    obtain ⟨q, htrue⟩ := forall₂_exists_left h hmem
    exact congrArg (fun n : Int => (n : Rat)) (toInt_ofInt_latency htrue)
  have hcount : (latencies.map Int64.ofInt).length < 2 ^ 64 := by
    rw [List.length_map, ← hlength]
    exact hfew
  have hof := Histogram.updateAll_of hfresh hcount
  rw [hnumbers] at hof
  apply hof.mean_eq
  intro hnil
  rw [List.map_eq_nil_iff] at hnil
  rw [hnil] at hlength
  exact hne (List.eq_nil_of_length_eq_zero hlength)

def captureFile (embedded : Bool) (seqnumOffset : UInt32) (bursts : List (List RxPkt)) :
    List UInt8 :=
  (msLogPkts embedded seqnumOffset [] bursts).file

theorem records_captureFile (embedded : Bool) (seqnumOffset : UInt32)
    (bursts : List (List RxPkt)) :
    records (captureFile embedded seqnumOffset bursts) =
      (recorded embedded seqnumOffset bursts).map (RxPkt.record embedded seqnumOffset) := by
  rw [captureFile, msLogPkts_file, List.nil_append, records_write, msRecords_eq]

/-- From the packets at two taps to the histogram: in either timestamp mode, however the packets
are cut into bursts, each packet that the device under test sends on is counted with the time
it took, none is missed, and the mean of the histogram is the mean of these times. -/
theorem experiment_measures (embedded : Bool) (seqnumOffset : UInt32)
    (preBursts postBursts : List (List RxPkt)) (first : RxPkt) (pres : List RxPkt)
    (hpre : recorded embedded seqnumOffset preBursts = first :: pres)
    (hpost : recorded embedded seqnumOffset postBursts ≠ [])
    (h : Experiment embedded seqnumOffset first pres (recorded embedded seqnumOffset postBursts))
    (hfew : (recorded embedded seqnumOffset postBursts).length < 2 ^ 64)
    (bucketSize : UInt32) (hsize : 0 < bucketSize) :
    ∃ fuel outcome hist,
      matchFiles fuel (captureFile embedded seqnumOffset preBursts)
        (captureFile embedded seqnumOffset postBursts) = some outcome ∧
      List.Forall₂ (TrueLatency embedded seqnumOffset (first :: pres))
        (recorded embedded seqnumOffset postBursts) outcome.state.updates ∧
      outcome.state.misses = 0 ∧
      Histogram.new bucketSize = some hist ∧
      (hist.updateAll (outcome.state.updates.map Int64.ofInt)).mean =
        Moments.average (outcome.state.updates.map fun latency : Int => (latency : Rat)) := by
  obtain ⟨q0, qs, hqs⟩ := List.exists_cons_of_ne_nil hpost
  have hrecPre := records_captureFile embedded seqnumOffset preBursts
  have hrecPost := records_captureFile embedded seqnumOffset postBursts
  rw [hpre, List.map_cons] at hrecPre
  rw [hqs, List.map_cons] at hrecPost
  obtain ⟨m, hrun, htrace, -⟩ := matchFiles_trace hrecPre hrecPost
  have hjudged := matchFiles_judged hrun
  have hverdicts := h.prefillable.verdicts_eq (q0.record embedded seqnumOffset)
    (qs.map (RxPkt.record embedded seqnumOffset))
  have hjoin := h.joinFrom (List.nil_append _).symm
  obtain ⟨htrue, hmisses⟩ := forall₂_update hjoin
  rw [hqs, List.map_cons, List.map_cons, List.map_nil] at htrue hmisses
  rw [← htrace, join] at hverdicts
  rw [← hverdicts, ← hqs, ← hjudged.updates] at htrue
  rw [← hverdicts, ← hjudged.misses] at hmisses
  obtain ⟨hist, hnew, hfresh⟩ := Histogram.new_fresh hsize
  exact ⟨_, ⟨false, m⟩, hist, hrun, htrue, hmisses, hnew, mean_latencies htrue hpost hfew hfresh⟩

def tapped (id seconds nanoseconds : Nat) : RxPkt where
  pktLen := 64
  timestamp := 0
  timestamped := true
  data := fun i =>
    (List.replicate 42 0 ++ toBytes 4 id ++ List.replicate 10 0 ++ toBytes 4 nanoseconds ++
      toBytes 4 seconds).getD i.toNat 0

/-- Two packets change places, and one of them passes the device at a multiple of `2^32`. -/
theorem experiment_measures_swapped :
    ∃ fuel outcome,
      matchFiles fuel (captureFile false 42 [[tapped 7 4 294967000], [tapped 8 4 294967290]])
        (captureFile false 42 [[tapped 8 4 294967300, tapped 7 4 294967400]]) = some outcome ∧
      outcome.state.misses = 0 := by
  have hexperiment : Experiment false 42 (tapped 7 4 294967000) [tapped 8 4 294967290]
      [tapped 8 4 294967300, tapped 7 4 294967400] := by
    constructor
    · decide +kernel
    · decide +kernel
    · decide +kernel
    · decide +kernel
    · simp only [List.forall_mem_cons]
      refine ⟨⟨tapped 8 4 294967290, by simp, by decide +kernel, ?_⟩,
        ⟨tapped 7 4 294967000, by simp, by decide +kernel, ?_⟩, List.forall_mem_nil _⟩
      · exact ⟨by decide +kernel, by decide +kernel, fun _ => by decide +kernel⟩
      · exact ⟨by decide +kernel, by decide +kernel, fun _ => by decide +kernel⟩
  have hpost : recorded false 42 [[tapped 8 4 294967300, tapped 7 4 294967400]] =
      [tapped 8 4 294967300, tapped 7 4 294967400] := rfl
  obtain ⟨fuel, outcome, -, hrun, -, hmisses, -, -⟩ := experiment_measures false 42
    [[tapped 7 4 294967000], [tapped 8 4 294967290]]
    [[tapped 8 4 294967300, tapped 7 4 294967400]] _ _ rfl (by rw [hpost]; simp)
    (by rw [hpost]; exact hexperiment) (by rw [hpost]; simp) 1 (by decide)
  exact ⟨fuel, outcome, hrun, hmisses⟩

end MoonGen.Moonsniff

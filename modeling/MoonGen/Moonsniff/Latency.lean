import MoonGen.Lib.Words
import MoonGen.Moonsniff.ArrMatch

/-! # The latency of a matched record

`computeLatency` judges a post-DuT record by the entry of its slot: it gives the
histogram a latency, discards the latency, or counts a miss. Timestamps that were
reduced modulo `2^32` are off by a multiple of that, which a work-around is to undo.
-/

namespace MoonGen.Moonsniff

inductive Verdict where
  | update (latency : Int)
  | discard
  | miss
deriving Repr, DecidableEq

namespace Verdict

def update? : Verdict → Option Int
  | .update latency => some latency
  | _ => none

def ofLatency (latency : Int) : Verdict :=
  if latency < timeThresh then .discard else .update latency

theorem ofLatency_of_thresh {latency : Int} (h : timeThresh ≤ latency) :
    ofLatency latency = .update latency :=
  if_neg (Int.not_lt.mpr h)

end Verdict

namespace Match

def verdict (entry : Entry) (post : Mscap) : Verdict :=
  if entry.identifier = post.identification ∧ entry.timestamp ≠ 0 then
    .ofLatency (latency entry.timestamp post)
  else .miss

theorem computeLatency_verdict (m : Match) (post : Mscap) :
    (m.computeLatency post).updates =
        m.updates ++ (verdict (m.map (ident post)) post).update?.toList ∧
      (m.computeLatency post).misses =
        m.misses + (if verdict (m.map (ident post)) post = .miss then 1 else 0) := by
  simp only [computeLatency, verdict, Verdict.ofLatency]
  by_cases hident : (m.map (ident post)).identifier = post.identification
  · by_cases hts : (m.map (ident post)).timestamp = 0
    · simp [hident, hts, Verdict.update?]
    · by_cases hearly : latency (m.map (ident post)).timestamp post < timeThresh
      · simp [hident, hts, hearly, Verdict.update?]
      · simp [hident, hts, hearly, Verdict.update?]
  · simp [hident, Verdict.update?]

/-! ## Times modulo `2^32` -/

/-- A time in nanoseconds as the capture files hold it after a reduction. -/
def reduced (time : Nat) : UInt64 := UInt64.ofNat (time % 2 ^ 32)

theorem reduced_toNat (time : Nat) : (reduced time).toNat = time % 2 ^ 32 := by
  have hlt : time % 2 ^ 32 < 2 ^ 32 := Nat.mod_lt _ (by decide)
  exact UInt64.toNat_ofNat_of_lt' (Nat.lt_trans hlt (by decide))

theorem reduced_eq_zero_iff (time : Nat) : reduced time = 0 ↔ 2 ^ 32 ∣ time := by
  rw [← UInt64.toNat_inj, reduced_toNat, Nat.dvd_iff_mod_eq_zero]
  rfl

/-- The work-around undoes a reduction that falls between the two times, but not one
that falls between them the other way round. -/
theorem latency_reduced {t1 t2 : Nat} (hstamped : ¬ 2 ^ 32 ∣ t1) {post : Mscap}
    (hpost : post.timestamp = reduced t2) (hlow : -50 ≤ (t2 : Int) - t1)
    (hhigh : (t2 : Int) - t1 < 2000000000) :
    latency (reduced t1) post =
      if t1 / 2 ^ 32 ≤ t2 / 2 ^ 32 then (t2 : Int) - t1 else (t2 : Int) - t1 + 2 ^ 32 := by
  have hne : reduced t1 ≠ 0 := mt (reduced_eq_zero_iff t1).mp hstamped
  have hsub := @toInt_sub_toInt64 (reduced t2) (reduced t1)
  rw [reduced_toNat, reduced_toNat] at hsub
  have hdiff := hsub (by omega) (by omega)
  simp only [latency, hpost, hdiff, ne_eq, hne, not_false_eq_true, true_and]
  by_cases hperiod : t1 / 2 ^ 32 ≤ t2 / 2 ^ 32
  · rw [if_pos hperiod]
    split <;> omega
  · rw [if_neg hperiod]
    split <;> omega

/-- For a latency of at least -50 ns and under two seconds, between times that were
reduced modulo `2^32`, `computeLatency` gives the histogram the true latency exactly
when the second time lies in no earlier period than the first. -/
theorem computeLatency_reduced_iff (m : Match) (post : Mscap) (t1 t2 : Nat)
    (hpre : m.map (ident post) = ⟨reduced t1, post.identification⟩)
    (hpost : post.timestamp = reduced t2) (hstamped : ¬ 2 ^ 32 ∣ t1)
    (hlow : -50 ≤ (t2 : Int) - t1) (hhigh : (t2 : Int) - t1 < 2000000000) :
    (m.computeLatency post).updates = m.updates ++ [(t2 : Int) - t1] ↔
      t1 / 2 ^ 32 ≤ t2 / 2 ^ 32 := by
  have hne : reduced t1 ≠ 0 := mt (reduced_eq_zero_iff t1).mp hstamped
  have hupdates := (computeLatency_verdict m post).1
  have hverdict : verdict (m.map (ident post)) post = .ofLatency (latency (reduced t1) post) := by
    rw [hpre]
    exact if_pos ⟨rfl, hne⟩
  rw [hverdict, latency_reduced hstamped hpost hlow hhigh] at hupdates
  rw [hupdates]
  by_cases hperiod : t1 / 2 ^ 32 ≤ t2 / 2 ^ 32
  · rw [if_pos hperiod, Verdict.ofLatency_of_thresh hlow]
    exact iff_of_true rfl hperiod
  · rw [if_neg hperiod, Verdict.ofLatency_of_thresh (by simp only [timeThresh]; omega)]
    apply iff_of_false _ hperiod
    intro heq
    have hlast := List.head_eq_of_cons_eq (List.append_cancel_left heq)
    omega

def loaded (entry : Entry) (post : Mscap) : Match :=
  { start ⟨[], 0⟩ ⟨[], 0⟩ with map := setEntry (fun _ => ⟨0, 0⟩) (ident post) entry }

/-- A packet that is stamped 20 ns early, across a multiple of `2^32`, is counted with
a latency of over four seconds. -/
theorem computeLatency_reduced_early :
    ((loaded ⟨reduced (2 ^ 32 + 10), 7⟩ ⟨reduced (2 ^ 32 - 10), 7⟩).computeLatency
      ⟨reduced (2 ^ 32 - 10), 7⟩).updates = [4294967276] := by
  decide

theorem computeLatency_reduced_late :
    ((loaded ⟨reduced (2 ^ 32 - 10), 7⟩ ⟨reduced (2 ^ 32 + 10), 7⟩).computeLatency
      ⟨reduced (2 ^ 32 + 10), 7⟩).updates = [20] :=
  (computeLatency_reduced_iff
    (loaded ⟨reduced (2 ^ 32 - 10), 7⟩ ⟨reduced (2 ^ 32 + 10), 7⟩) ⟨reduced (2 ^ 32 + 10), 7⟩
    (2 ^ 32 - 10) (2 ^ 32 + 10) (by decide) rfl (by decide) (by decide) (by decide)).mpr (by decide)

end Match

end MoonGen.Moonsniff

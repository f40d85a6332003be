import Mathlib.Data.List.TakeWhile
import MoonGen.Moonsniff.Consumption
import MoonGen.Moonsniff.Latency

/-! # Offline matching as a join

What `match` gives the histogram and counts as missed is a function of its trace: a
lookup is judged by the record its slot holds. Where the prefill takes the whole
pre-DuT capture, that function is a join of the two captures.
-/

namespace MoonGen.Moonsniff

open Loop Match

/-! ## Verdicts along a trace -/

def verdicts : Slots → List Event → List Verdict
  | _, [] => []
  | slots, .insert cap :: rest => verdicts (slots.apply (.insert cap)) rest
  | slots, .lookup cap :: rest =>
      verdict (entryOf (slots (ident cap))) cap :: verdicts (slots.apply (.lookup cap)) rest

theorem verdicts_append (slots : Slots) (trace more : List Event) :
    verdicts slots (trace ++ more) = verdicts slots trace ++ verdicts (slots.after trace) more := by
  induction trace generalizing slots with
  | nil => rfl
  | cons e rest ih =>
      cases e with
      | insert cap => exact ih _
      | lookup cap => exact congrArg (_ :: ·) (ih _)

theorem verdicts_inserts (slots : Slots) (caps : List Mscap) :
    verdicts slots (caps.map .insert) = [] := by
  induction caps generalizing slots with
  | nil => rfl
  | cons cap rest ih => exact ih _

/-- The array, the histogram and the counters of post-DuT records follow the trace. -/
structure Judged (m : Match) : Prop where
  map : ∀ i, m.map i = entryOf (Slots.empty.after m.trace i)
  updates : m.updates = (verdicts .empty m.trace).filterMap Verdict.update?
  misses : m.misses = (verdicts .empty m.trace).count .miss
  postPkts : m.postPkts = (verdicts .empty m.trace).length

theorem start_judged (prereader postreader : Reader) : Judged (start prereader postreader) :=
  ⟨fun _ => rfl, rfl, rfl, rfl⟩

theorem setEntry_after {map : UInt32 → Entry} {trace : List Event}
    (h : ∀ i, map i = entryOf (Slots.empty.after trace i)) (e : Event) (slot : UInt32)
    (holder : Option Mscap) (happly : ∀ slots : Slots, slots.apply e = slots.set slot holder)
    (i : UInt32) :
    setEntry map slot (entryOf holder) i = entryOf (Slots.empty.after (trace ++ [e]) i) := by
  rw [after_snoc, happly, setEntry, Slots.set]
  split
  · rfl
  · exact h i

theorem Judged.insertPre {m : Match} (h : Judged m) (cap : Mscap) : Judged (m.insertPre cap) := by
  have hverdicts : verdicts .empty (m.trace ++ [.insert cap]) = verdicts .empty m.trace := by
    rw [verdicts_append]
    exact List.append_nil _
  constructor
  · exact setEntry_after h.map (.insert cap) (ident cap) (some cap) fun _ => rfl
  · simp only [Match.insertPre, hverdicts, h.updates]
  · simp only [Match.insertPre, hverdicts, h.misses]
  · simp only [Match.insertPre, hverdicts, h.postPkts]

theorem Judged.lookup {m : Match} (h : Judged m) (post : Mscap) :
    Judged (Match.computeLatency { m with postPkts := m.postPkts + 1 } post) := by
  have hverdicts : verdicts .empty (m.trace ++ [.lookup post]) =
      verdicts .empty m.trace ++ [verdict (m.map (ident post)) post] := by
    rw [verdicts_append, h.map]
    rfl
  have hcompute := computeLatency_verdict { m with postPkts := m.postPkts + 1 } post
  constructor
  · exact setEntry_after h.map (.lookup post) (ident post) none fun _ => rfl
  · refine hcompute.1.trans ?_
    simp only [Match.computeLatency, hverdicts, h.updates, List.filterMap_append]
    cases verdict (m.map (ident post)) post <;> rfl
  · refine hcompute.2.trans ?_
    simp only [Match.computeLatency, hverdicts, h.misses, List.count_append]
    cases verdict (m.map (ident post)) post <;> rfl
  · simp only [Match.computeLatency, hverdicts, h.postPkts, List.length_append]
    rfl

/-! ## Whole runs are judged by their trace -/

theorem judged_fillBody {f : Fill} (h : Judged f.state) : Judged (fillBody f).state := by
  unfold fillBody
  cases f.precap with
  | none => exact h
  | some cap =>
      have hinsert := h.insertPre cap
      exact ⟨hinsert.map, hinsert.updates, hinsert.misses, hinsert.postPkts⟩

theorem judged_mainBody {m : Match} (h : Judged m) : Judged (mainBody m) := by
  unfold mainBody
  split
  · rename_i pre post _ _
    have hinsert := h.insertPre pre
    exact Judged.lookup
      (m := { m.insertPre pre with
        precap := m.prereader.readSingle.1, prereader := m.prereader.readSingle.2 })
      ⟨hinsert.map, hinsert.updates, hinsert.misses, hinsert.postPkts⟩ post
  · exact h

theorem judged_leftoverBody {m : Match} (h : Judged m) : Judged (leftoverBody m) := by
  unfold leftoverBody
  split
  · exact h.lookup _
  · exact h

theorem matchRun_judged {fuel : Nat} {m : Match} {outcome : Outcome} (h : Judged m)
    (hrun : matchRun fuel m = some outcome) : Judged outcome.state := by
  unfold matchRun at hrun
  split at hrun
  · rename_i precap _ _ _
    rw [initialFill, Option.bind_map, Option.bind_eq_some_iff] at hrun
    rcases hrun with ⟨f, hfill, hrun⟩
    rw [Function.comp_apply, Option.bind_eq_some_iff] at hrun
    rcases hrun with ⟨hot, hmain, hrun⟩
    rw [Option.map_eq_some_iff] at hrun
    rcases hrun with ⟨done, hleftover, hdone⟩
    have hfilled := (whileFuel_invariant (fun f : Fill => Judged f.state)
      (fun _ hf _ => judged_fillBody hf) h hfill).1
    have hhot := (whileFuel_invariant Judged (fun _ hm _ => judged_mainBody hm) hfilled hmain).1
    rw [← hdone]
    exact (whileFuel_invariant Judged (fun _ hm _ => judged_leftoverBody hm) hhot hleftover).1
  · cases hrun
    exact h

theorem matchFiles_judged {fuel : Nat} {pre post : List UInt8} {outcome : Outcome}
    (hrun : matchFiles fuel pre post = some outcome) : Judged outcome.state := by
  unfold matchFiles at hrun
  split at hrun
  · exact matchRun_judged (start_judged _ _) hrun
  · cases hrun
    exact start_judged _ _

/-! ## The join -/

/-- The verdict on two records with one identifier: `d` is the difference of their
timestamps as a signed 64-bit number. -/
def compareTimes (pre post : Mscap) : Verdict :=
  let d := (post.timestamp - pre.timestamp).toInt64.toInt
  if -50 ≤ d then .update d
  else if -2 ^ 32 < d ∧ d < -2 ^ 31 then .update (d + 2 ^ 32)
  else .discard

/-- A post-DuT record is joined with the pre-DuT record of its masked identifier, if no
earlier post-DuT record had that and if the full identifiers agree. -/
def joinVerdict (pres before : List Mscap) (post : Mscap) : Verdict :=
  if ident post ∈ before.map ident then .miss
  else
    match pres.find? (fun pre => ident pre = ident post) with
    | some pre => if pre.identification = post.identification then compareTimes pre post else .miss
    | none => .miss

def joinFrom (pres : List Mscap) : List Mscap → List Mscap → List Verdict
  | _, [] => []
  | before, post :: rest => joinVerdict pres before post :: joinFrom pres (before ++ [post]) rest

def join (pres posts : List Mscap) : List Verdict := joinFrom pres [] posts

theorem joinFrom_length (pres before posts : List Mscap) :
    (joinFrom pres before posts).length = posts.length := by
  induction posts generalizing before with
  | nil => rfl
  | cons post rest ih => exact congrArg (· + 1) (ih _)

theorem ofLatency_latency {ts : UInt64} (h : ts ≠ 0) (id : UInt32) (post : Mscap) :
    Verdict.ofLatency (latency ts post) = compareTimes ⟨ts, id⟩ post := by
  simp only [Verdict.ofLatency, latency, compareTimes, timeThresh, ne_eq, h, not_false_eq_true,
    true_and]
  generalize (post.timestamp - ts).toInt64.toInt = d
  by_cases hearly : d < -2 ^ 31 ∧ -2 ^ 32 < d
  · rw [if_pos hearly, if_neg (by omega), if_neg (by omega), if_pos hearly.symm]
  · rw [if_neg hearly]
    by_cases hlate : -50 ≤ d
    · rw [if_neg (by omega), if_pos hlate]
    · rw [if_pos (by omega), if_neg hlate, if_neg (mt And.symm hearly)]

/-! ## Slots behind a prefill -/

theorem after_inserts {caps : List Mscap} (h : (caps.map ident).Nodup) (i : UInt32) :
    Slots.empty.after (caps.map .insert) i = caps.find? (fun cap => ident cap = i) := by
  suffices hfrom : ∀ slots : Slots, (∀ cap ∈ caps, slots (ident cap) = none) →
      slots.after (caps.map .insert) i =
        (caps.find? (fun cap => ident cap = i)).or (slots i) by
    rw [hfrom .empty fun _ _ => rfl]
    exact Option.or_none
  induction caps with
  | nil => exact fun _ _ => rfl
  | cons cap rest ih =>
      intro slots hfree
      rw [List.map_cons, List.nodup_cons] at h
      have hother : ∀ cap' ∈ rest, ident cap' ≠ ident cap := fun cap' hmem heq =>
        h.1 (heq ▸ List.mem_map_of_mem hmem)
      have hrest := ih h.2 (slots.apply (.insert cap)) (by
        intro cap' hmem
        have hset : slots.apply (.insert cap) (ident cap') = slots (ident cap') :=
          if_neg (hother cap' hmem)
        exact hset.trans (hfree cap' (List.mem_cons_of_mem cap hmem)))
      refine hrest.trans ?_
      by_cases hi : ident cap = i
      · have hnone : rest.find? (fun cap => ident cap = i) = none := by
          rw [List.find?_eq_none]
          intro cap' hmem
          simpa [← hi] using hother cap' hmem
        have hset : slots.apply (.insert cap) i = some cap := if_pos hi.symm
        rw [hnone, List.find?_cons_of_pos (by simpa using hi), hset]
        rfl
      · have hset : slots.apply (.insert cap) i = slots i := if_neg (Ne.symm hi)
        rw [List.find?_cons_of_neg (by simpa using hi), hset]

/-- Lookups from slots that hold the pre-DuT records not looked up before. -/
theorem verdicts_lookups {pres : List Mscap} (hstamped : ∀ pre ∈ pres, pre.timestamp ≠ 0)
    (posts before : List Mscap) {slots : Slots}
    (hslots : ∀ i, slots i =
      if i ∈ before.map ident then none else pres.find? (fun pre => ident pre = i)) :
    verdicts slots (posts.map .lookup) = joinFrom pres before posts := by
  induction posts generalizing before slots with
  | nil => rfl
  | cons post rest ih =>
      have hverdict : verdict (entryOf (slots (ident post))) post = joinVerdict pres before post := by
        rw [hslots, joinVerdict]
        by_cases hseen : ident post ∈ before.map ident
        · rw [if_pos hseen, if_pos hseen]
          exact if_neg (by simp [entryOf])
        · rw [if_neg hseen, if_neg hseen]
          cases hfind : pres.find? (fun pre => ident pre = ident post) with
          | none => exact if_neg (by simp [entryOf])
          | some pre =>
              have hne := hstamped pre (List.mem_of_find?_eq_some hfind)
              simp only [verdict, entryOf, ne_eq, hne, not_false_eq_true, and_true]
              rw [ofLatency_latency hne pre.identification]
      have hnext : verdicts (slots.apply (.lookup post)) (rest.map .lookup) =
          joinFrom pres (before ++ [post]) rest := by
        apply ih
        intro i
        have hmem : i ∈ (before ++ [post]).map ident ↔ i ∈ before.map ident ∨ i = ident post := by
          simp [eq_comm]
        by_cases hi : i = ident post
        · rw [if_pos (hmem.mpr (.inr hi))]
          exact if_pos hi
        · have hsame : slots.apply (.lookup post) i = slots i := if_neg hi
          rw [hsame, hslots]
          simp only [hmem, hi, or_false]
      rw [List.map_cons, verdicts, joinFrom, hverdict, hnext]

/-! ## The run -/

/-- The condition on the pre-DuT capture: distinct masked identifiers from the first
one up to the end of the prefill range, and no timestamp that looks like an empty
slot. -/
structure Prefillable (cap : Mscap) (rest : List Mscap) : Prop where
  distinct : ((cap :: rest).map ident).Nodup
  range : ∀ pre ∈ cap :: rest, ident cap ≤ ident pre ∧ ident pre < indexBitmask - 100
  stamped : ∀ pre ∈ cap :: rest, pre.timestamp ≠ 0

/-- The prefill inserts every record, the main loop the first one once more, and all
lookups come after that. -/
theorem Prefillable.matchTrace_eq {cap : Mscap} {rest : List Mscap} (h : Prefillable cap rest)
    (post0 : Mscap) (posts : List Mscap) :
    matchTrace cap rest (post0 :: posts) =
      (cap :: rest).map .insert ++ ([.insert cap] ++ (post0 :: posts).map .lookup) := by
  have hall : (cap :: rest).takeWhile (fillable (ident cap)) = cap :: rest := by
    rw [List.takeWhile_eq_self_iff]
    intro pre hmem
    have hrange := h.range pre hmem
    simp [fillable, hrange.1, hrange.2]
  have hdrop : (cap :: rest).drop ((cap :: rest).length + 1) = [] :=
    List.drop_eq_nil_of_le (Nat.le_succ _)
  simp only [matchTrace, hall, hdrop, interleave, List.length_singleton, List.append_assoc]
  rfl

theorem Prefillable.verdicts_eq {cap : Mscap} {rest : List Mscap} (h : Prefillable cap rest)
    (post0 : Mscap) (posts : List Mscap) :
    verdicts .empty (matchTrace cap rest (post0 :: posts)) = join (cap :: rest) (post0 :: posts) := by
  rw [h.matchTrace_eq, verdicts_append, verdicts_inserts, List.nil_append]
  -- the second insertion of the first record leaves its slot as it is
  have hagain : (Slots.empty.after ((cap :: rest).map .insert)).apply (.insert cap) =
      Slots.empty.after ((cap :: rest).map .insert) := by
    funext i
    rw [Slots.apply, Slots.set]
    split
    · rename_i hi
      rw [hi, after_inserts h.distinct, List.find?_cons_of_pos (by simp)]
    · rfl
  change verdicts ((Slots.empty.after ((cap :: rest).map .insert)).apply (.insert cap)) _ = _
  rw [hagain]
  apply verdicts_lookups h.stamped
  intro i
  rw [after_inserts h.distinct]
  simp

/-- A run over a pre-DuT capture that the prefill takes as a whole computes the join:
the histogram gets the latencies of the join in order, and every other post-DuT record
is discarded or missed as the join says. -/
theorem match_computes_join (pre post : List UInt8) (cap : Mscap) (rest : List Mscap)
    (hpre : records pre = cap :: rest) (h : Prefillable cap rest) :
    ∃ outcome, matchFiles (pre.length + post.length) pre post = some outcome ∧
      outcome.state.updates = (join (records pre) (records post)).filterMap Verdict.update? ∧
      outcome.state.misses = (join (records pre) (records post)).count .miss ∧
      outcome.state.postPkts = (records post).length := by
  cases hpost : records post with
  | nil => exact ⟨_, matchFiles_aborts _ (.inr hpost), rfl, rfl, rfl⟩
  | cons post0 posts =>
      rcases matchFiles_trace hpre hpost with ⟨m, hrun, htrace, _⟩
      have hjudged := matchFiles_judged hrun
      have hverdicts := h.verdicts_eq post0 posts
      rw [← htrace, ← hpre] at hverdicts
      refine ⟨⟨false, m⟩, hrun, ?_, ?_, ?_⟩
      · rw [hjudged.updates, hverdicts]
      · rw [hjudged.misses, hverdicts]
      · rw [hjudged.postPkts, hverdicts, join, joinFrom_length]

/-- Of two records with one slot the second is missed, and so is one with another
identifier in the bits above the mask. -/
theorem match_computes_join_three :
    Prefillable ⟨1000, 1⟩ [⟨2000, 2⟩] ∧
      ∃ outcome, matchFiles 60 ([⟨1000, 1⟩, ⟨2000, 2⟩].flatMap writeMscap)
          ([⟨1500, 1⟩, ⟨1600, 1⟩, ⟨2500, 0x10000002⟩].flatMap writeMscap) = some outcome ∧
        outcome.state.updates = [500] ∧ outcome.state.misses = 2 ∧ outcome.state.postPkts = 3 := by
  have hpre : Prefillable ⟨1000, 1⟩ [⟨2000, 2⟩] := ⟨by decide, by decide, by decide⟩
  have hrun := match_computes_join ([⟨1000, 1⟩, ⟨2000, 2⟩].flatMap writeMscap)
    ([⟨1500, 1⟩, ⟨1600, 1⟩, ⟨2500, 0x10000002⟩].flatMap writeMscap) ⟨1000, 1⟩ [⟨2000, 2⟩]
    (records_write _) hpre
  rw [records_write, records_write] at hrun
  exact ⟨hpre, hrun⟩

/-- A difference of `-(2^64 - 2)` is counted as a latency of 2, and without a pre-DuT
record the script ends before it counts anything. -/
theorem match_join_exceptions :
    (matchFiles 24 ([⟨18446744073709551615, 5⟩].flatMap writeMscap)
        ([⟨1, 5⟩].flatMap writeMscap)).map (fun o => o.state.updates) = some [2] ∧
    (matchFiles 12 [] ([⟨1, 5⟩].flatMap writeMscap)).map
        (fun o => (o.state.misses, o.state.postPkts)) = some (0, 0) := by
  decide

end MoonGen.Moonsniff

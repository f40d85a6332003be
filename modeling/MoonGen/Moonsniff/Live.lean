import Mathlib.Algebra.Field.Rat
import Mathlib.Data.List.Induction
import MoonGen.Lib.Moments

/-! # Live matching

The embedding of `add_entry`, `test_for` and `fetch_stats` in `moonsniff.cpp`.
Both operations hold the mutex of their slot while they touch `hit_list`, so the
two threads' calls on a slot are one sequence of atomic operations. The array is
a function of the 24-bit index, and the doubles are exact rationals.
-/

namespace MoonGen.Moonsniff.Live

def indexMask : UInt32 := 0x00FFFFFF

/-- `struct entry`; the 32-bit identification is widened when it is stored. -/
structure Entry where
  timestamp : UInt64
  identifier : UInt64
deriving Repr, DecidableEq

/-- The file-level variables. `warnings` counts the lines that `test_for` prints about the
threshold. -/
structure Sniff where
  thresh : Int64
  hitList : UInt32 → Entry
  hits : UInt32
  misses : UInt32
  count : UInt64
  mean : Rat
  m2 : Rat
  variance : Rat
  warnings : Nat

def init (thresh : Int64) : Sniff := ⟨thresh, fun _ => ⟨0, 0⟩, 0, 0, 0, 0, 0, 0, 0⟩

def slot (identification : UInt32) : UInt32 := identification &&& indexMask

def store (s : Sniff) (index : UInt32) (entry : Entry) : Sniff :=
  { s with hitList := fun i => if i = index then entry else s.hitList i }

def addEntry (s : Sniff) (identification : UInt32) (timestamp : UInt64) : Sniff :=
  store s (slot identification) ⟨timestamp, identification.toUInt64⟩

def Entry.timestampFor (entry : Entry) (identification : UInt32) : UInt64 :=
  if entry.identifier = identification.toUInt64 then entry.timestamp else 0

def oldTs (s : Sniff) (identification : UInt32) : UInt64 :=
  (s.hitList (slot identification)).timestampFor identification

/-- The latency of a hit, `none` for a miss. -/
def outcome (s : Sniff) (identification : UInt32) (timestamp : UInt64) : Option Int64 :=
  if oldTs s identification ≠ 0 then some (timestamp - oldTs s identification).toInt64 else none

/-- What `test_for` does with a hit. A latency below the threshold is reported on
`stderr`, and the statistics are updated all the same. -/
def recordHit (s : Sniff) (diff : Int64) : Sniff :=
  let s := { s with hits := s.hits + 1 }
  let s := if diff < s.thresh then { s with warnings := s.warnings + 1 } else s
  let count := s.count + 1
  let delta := (diff.toInt : Rat) - s.mean
  let mean := s.mean + delta / count.toNat
  let delta2 := (diff.toInt : Rat) - mean
  { s with count := count, mean := mean, m2 := s.m2 + delta * delta2 }

def testFor (s : Sniff) (identification : UInt32) (timestamp : UInt64) : Sniff :=
  let cleared := store s (slot identification) ⟨0, 0⟩
  match outcome s identification timestamp with
  | some diff => recordHit cleared diff
  | none => { cleared with misses := cleared.misses + 1 }

/-- The conversion of a double to `int64_t` discards the fraction. -/
def truncate (q : Rat) : Int64 := Int64.ofInt (q.num.tdiv q.den)

/-- The fields of `ms_stats` that are ever set. -/
structure MsStats where
  averageLatency : Int64
  varianceLatency : Int64
  hits : UInt32
  misses : UInt32
deriving Repr, DecidableEq

def fetchStats (s : Sniff) : MsStats × Sniff :=
  let s := if s.count < 2 then s else { s with variance := s.m2 / (s.count - 1).toNat }
  (⟨truncate s.mean, truncate s.variance, s.hits, s.misses⟩, s)

def Sniff.moments (s : Sniff) : Moments Rat := ⟨s.count.toNat, s.mean, s.m2⟩

/-! ## Histories -/

inductive Op where
  | addEntry (identification : UInt32) (timestamp : UInt64)
  | testFor (identification : UInt32) (timestamp : UInt64)
deriving Repr, DecidableEq

namespace Op

def slot : Op → UInt32
  | addEntry identification _ | testFor identification _ => Live.slot identification

def isTest : Op → Bool
  | addEntry _ _ => false
  | testFor _ _ => true

end Op

def apply (s : Sniff) : Op → Sniff
  | .addEntry identification timestamp => addEntry s identification timestamp
  | .testFor identification timestamp => testFor s identification timestamp

def run (thresh : Int64) (ops : List Op) : Sniff := ops.foldl apply (init thresh)

def tests (ops : List Op) : Nat := ops.countP Op.isTest

def lastOn (index : UInt32) (ops : List Op) : Option Op :=
  ops.reverse.find? fun op => op.slot = index

def entryOf : Option Op → Entry
  | some (.addEntry identification timestamp) => ⟨timestamp, identification.toUInt64⟩
  | some (.testFor _ _) | none => ⟨0, 0⟩

/-- The latency of an operation that comes after the history `before`, if it is a hit. -/
def latencyAfter (before : List Op) : Op → Option Int64
  | .addEntry _ _ => none
  | .testFor identification timestamp =>
      match lastOn (Live.slot identification) before with
      | some (.addEntry added ts) =>
          if added = identification ∧ ts ≠ 0 then some (timestamp - ts).toInt64 else none
      | some (.testFor _ _) | none => none

def latenciesAfter (before : List Op) : List Op → List Int64
  | [] => []
  | op :: rest => (latencyAfter before op).toList ++ latenciesAfter (before ++ [op]) rest

def latencies (ops : List Op) : List Int64 := latenciesAfter [] ops

/-! ## Small lemmas -/

@[simp] theorem store_count (s : Sniff) (index : UInt32) (entry : Entry) :
    (store s index entry).count = s.count := rfl

@[simp] theorem store_hitList (s : Sniff) (index : UInt32) (entry : Entry) (i : UInt32) :
    (store s index entry).hitList i = if i = index then entry else s.hitList i := rfl

@[simp] theorem recordHit_hitList (s : Sniff) (diff : Int64) :
    (recordHit s diff).hitList = s.hitList := by
  simp only [recordHit]
  split <;> rfl

@[simp] theorem recordHit_count (s : Sniff) (diff : Int64) :
    (recordHit s diff).count = s.count + 1 := by
  simp only [recordHit]
  split <;> rfl

theorem recordHit_moments {s : Sniff} (hcount : s.count.toNat + 1 < 2 ^ 64) (diff : Int64) :
    (recordHit s diff).moments = s.moments.push (diff.toInt : Rat) := by
  have hnext : (s.count + 1).toNat = s.count.toNat + 1 := by
    rw [UInt64.toNat_add]
    exact Nat.mod_eq_of_lt hcount
  have hfields : (recordHit s diff).moments = ⟨(s.count + 1).toNat,
      s.mean + ((diff.toInt : Rat) - s.mean) / (s.count + 1).toNat,
      s.m2 + ((diff.toInt : Rat) - s.mean) *
        (diff.toInt - (s.mean + ((diff.toInt : Rat) - s.mean) / (s.count + 1).toNat))⟩ := by
    simp only [recordHit]
    split <;> rfl
  rw [hfields, hnext]
  rfl

@[simp] theorem recordHit_hits (s : Sniff) (diff : Int64) :
    (recordHit s diff).hits = s.hits + 1 := by
  simp only [recordHit]
  split <;> rfl

@[simp] theorem recordHit_misses (s : Sniff) (diff : Int64) :
    (recordHit s diff).misses = s.misses := by
  simp only [recordHit]
  split <;> rfl

@[simp] theorem Entry.timestampFor_cleared (identification : UInt32) :
    (⟨0, 0⟩ : Entry).timestampFor identification = 0 := by
  simp [Entry.timestampFor]

@[simp] theorem Entry.timestampFor_added (added identification : UInt32) (ts : UInt64) :
    (⟨ts, added.toUInt64⟩ : Entry).timestampFor identification =
      if added = identification then ts else 0 := by
  simp only [Entry.timestampFor, UInt32.toUInt64_inj]

theorem run_concat (thresh : Int64) (ops : List Op) (op : Op) :
    run thresh (ops ++ [op]) = apply (run thresh ops) op := by
  simp [run]

theorem lastOn_concat (index : UInt32) (ops : List Op) (op : Op) :
    lastOn index (ops ++ [op]) = if op.slot = index then some op else lastOn index ops := by
  unfold lastOn
  rw [List.reverse_concat, List.find?_cons]
  by_cases h : op.slot = index
  · simp [h]
  · simp [h]

theorem apply_hitList (s : Sniff) (op : Op) (index : UInt32) :
    (apply s op).hitList index = if op.slot = index then entryOf (some op) else s.hitList index := by
  cases op with
  | addEntry identification timestamp =>
      simp only [apply, addEntry, store_hitList, Op.slot, eq_comm (a := index)]
      rfl
  | testFor identification timestamp =>
      have hcleared : (testFor s identification timestamp).hitList index =
          (store s (slot identification) ⟨0, 0⟩).hitList index := by
        unfold testFor
        cases outcome s identification timestamp <;> simp
      simp only [apply, hcleared, store_hitList, Op.slot, eq_comm (a := index)]
      rfl

/-- Every slot holds what its most recent operation left there. -/
theorem run_hitList (thresh : Int64) (ops : List Op) (index : UInt32) :
    (run thresh ops).hitList index = entryOf (lastOn index ops) := by
  induction ops using List.reverseRecOn with
  | nil => rfl
  | append_singleton ops op ih =>
      rw [run_concat, apply_hitList, lastOn_concat, ih]
      split <;> rfl

theorem outcome_run (thresh : Int64) (before : List Op) (identification : UInt32)
    (timestamp : UInt64) :
    outcome (run thresh before) identification timestamp =
      latencyAfter before (.testFor identification timestamp) := by
  simp only [outcome, oldTs, latencyAfter, run_hitList]
  cases lastOn (slot identification) before with
  | none => simp [entryOf]
  | some op =>
      cases op with
      | testFor _ _ => simp [entryOf]
      | addEntry added ts =>
          by_cases h : added = identification
          · simp [entryOf, h]
          · simp [entryOf, h]

theorem latenciesAfter_concat (before ops : List Op) (op : Op) :
    latenciesAfter before (ops ++ [op]) =
      latenciesAfter before ops ++ (latencyAfter (before ++ ops) op).toList := by
  induction ops generalizing before with
  | nil => simp [latenciesAfter]
  | cons first rest ih =>
      simp only [List.cons_append, latenciesAfter]
      rw [ih, List.append_assoc, List.append_assoc, List.singleton_append]

theorem latencies_concat (ops : List Op) (op : Op) :
    latencies (ops ++ [op]) = latencies ops ++ (latencyAfter ops op).toList := by
  simpa [latencies] using latenciesAfter_concat [] ops op

theorem tests_concat (ops : List Op) (op : Op) :
    tests (ops ++ [op]) = tests ops + if op.isTest then 1 else 0 := by
  simp [tests, List.countP_append, List.countP_singleton]

/-- Both counters over a whole history: hits are its latencies, misses its other tests. -/
theorem run_counters (thresh : Int64) (ops : List Op) :
    (latencies ops).length ≤ tests ops ∧
      (run thresh ops).hits = UInt32.ofNat (latencies ops).length ∧
      (run thresh ops).misses = UInt32.ofNat (tests ops - (latencies ops).length) := by
  induction ops using List.reverseRecOn with
  | nil => exact ⟨Nat.le_refl 0, rfl, rfl⟩
  | append_singleton ops op ih =>
      obtain ⟨hle, hhits, hmisses⟩ := ih
      rw [run_concat, latencies_concat, tests_concat]
      cases op with
      | addEntry identification timestamp =>
          simp only [latencyAfter, Option.toList_none, List.append_nil, Op.isTest, apply, addEntry]
          exact ⟨hle, hhits, hmisses⟩
      | testFor identification timestamp =>
          simp only [apply, testFor, outcome_run]
          cases latencyAfter ops (.testFor identification timestamp) with
          | none =>
              have hsub : tests ops + 1 - (latencies ops).length =
                  tests ops - (latencies ops).length + 1 := by omega
              simp only [Option.toList_none, List.append_nil, Op.isTest, if_true, hsub]
              refine ⟨by omega, hhits, ?_⟩
              rw [UInt32.ofNat_add, ← hmisses]
              rfl
          | some diff =>
              simp only [Option.toList_some, List.length_append, List.length_singleton, Op.isTest,
                if_true, Nat.add_sub_add_right, recordHit_hits, recordHit_misses]
              refine ⟨by omega, ?_, hmisses⟩
              rw [UInt32.ofNat_add, ← hhits]
              rfl

/-! ## Exact matching -/

theorem lastOn_eq_some {index : UInt32} {ops : List Op} {op : Op} (h : lastOn index ops = some op) :
    op.slot = index ∧ ∃ earlier later, ops = earlier ++ op :: later ∧
      ∀ x ∈ later, x.slot ≠ index := by
  obtain ⟨hslot, newer, older, hsplit, hnewer⟩ := List.find?_eq_some_iff_append.mp h
  refine ⟨by simpa using hslot, older.reverse, newer.reverse, ?_, ?_⟩
  · have hops := congrArg List.reverse hsplit
    simpa using hops
  · intro x hx
    simpa using hnewer x (List.mem_reverse.mp hx)

theorem latencyAfter_eq_some {before : List Op} {identification : UInt32} {timestamp : UInt64}
    {l : Int64} :
    latencyAfter before (.testFor identification timestamp) = some l ↔
      ∃ ts, lastOn (slot identification) before = some (.addEntry identification ts) ∧ ts ≠ 0 ∧
        l = (timestamp - ts).toInt64 := by
  simp only [latencyAfter]
  constructor
  · intro h
    split at h
    next added ts hlast =>
      split at h
      next hsame =>
        obtain ⟨rfl, hne⟩ := hsame
        cases h
        exact ⟨ts, hlast, hne, rfl⟩
      next => cases h
    all_goals cases h
  · rintro ⟨ts, hlast, hne, rfl⟩
    simp [hlast, hne]

/-- The test at position `j` is a hit on the entry that the operation at `i` added. -/
def MatchedBy (thresh : Int64) (ops : List Op) (i j : Nat) : Prop :=
  ∃ identification ts timestamp, ops[i]? = some (.addEntry identification ts) ∧
    ops[j]? = some (.testFor identification timestamp) ∧ i < j ∧
    outcome (run thresh (ops.take j)) identification timestamp = some (timestamp - ts).toInt64 ∧
    ∀ k op, i < k → k < j → ops[k]? = some op → op.slot ≠ slot identification

theorem MatchedBy.not_again {thresh : Int64} {ops : List Op} {i j k : Nat}
    (hj : MatchedBy thresh ops i j) (hk : MatchedBy thresh ops i k) : ¬ j < k := by
  intro hlt
  obtain ⟨identification, ts, timestamp, hadd, htest, hij, _, _⟩ := hj
  obtain ⟨identification', ts', timestamp', hadd', _, _, _, hbetween⟩ := hk
  obtain ⟨rfl, rfl⟩ : identification = identification' ∧ ts = ts' := by
    simpa [hadd] using hadd'
  exact hbetween j _ hij hlt htest rfl

theorem matchedBy_of_hit {thresh : Int64} {before after : List Op} {identification : UInt32}
    {timestamp : UInt64} {l : Int64}
    (h : outcome (run thresh before) identification timestamp = some l) :
    ∃ i, MatchedBy thresh (before ++ .testFor identification timestamp :: after) i before.length := by
  have hhit := h
  rw [outcome_run, latencyAfter_eq_some] at hhit
  obtain ⟨ts, hlast, hne, rfl⟩ := hhit
  obtain ⟨-, earlier, later, rfl, hlater⟩ := lastOn_eq_some hlast
  refine ⟨earlier.length, identification, ts, timestamp, ?_, ?_, ?_, ?_, ?_⟩
  · simp
  · simp
  · simp
  · rw [List.take_left]
    exact h
  · intro k op hik hkj hop
    -- position `k` lies in `later`, behind the entry
    apply hlater
    have hk : k < (earlier ++ .addEntry identification ts :: later).length := hkj
    rw [List.getElem?_append_left hk, List.getElem?_append_right (by omega)] at hop
    obtain ⟨d, hd⟩ : ∃ d, k - earlier.length = d + 1 := ⟨k - earlier.length - 1, by omega⟩
    rw [hd, List.getElem?_cons_succ] at hop
    exact List.mem_of_getElem? hop

structure ExactMatching (thresh : Int64) (ops : List Op) : Prop where
  hit_iff : ∀ before identification timestamp after l,
    ops = before ++ .testFor identification timestamp :: after →
    (outcome (run thresh before) identification timestamp = some l ↔
      ∃ ts, lastOn (slot identification) before = some (.addEntry identification ts) ∧ ts ≠ 0 ∧
        l = (timestamp - ts).toInt64)
  matched : ∀ before identification timestamp after l,
    ops = before ++ .testFor identification timestamp :: after →
    outcome (run thresh before) identification timestamp = some l →
    ∃ i, MatchedBy thresh ops i before.length
  once : ∀ i j k, MatchedBy thresh ops i j → MatchedBy thresh ops i k → j = k
  counted : tests ops < 2 ^ 32 →
    (run thresh ops).hits.toNat = (latencies ops).length ∧
      (run thresh ops).hits.toNat + (run thresh ops).misses.toNat = tests ops

theorem run_matches_exactly (thresh : Int64) (ops : List Op) : ExactMatching thresh ops := by
  refine ⟨?_, ?_, ?_, ?_⟩
  · intro before identification timestamp after l _
    rw [outcome_run]
    exact latencyAfter_eq_some
  · rintro before identification timestamp after l rfl hhit
    exact matchedBy_of_hit hhit
  · intro i j k hj hk
    exact Nat.le_antisymm (Nat.le_of_not_lt (hk.not_again hj)) (Nat.le_of_not_lt (hj.not_again hk))
  · intro hsmall
    obtain ⟨hle, hhits, hmisses⟩ := run_counters thresh ops
    rw [hhits, hmisses, UInt32.toNat_ofNat', UInt32.toNat_ofNat', Nat.mod_eq_of_lt (by omega),
      Nat.mod_eq_of_lt (by omega)]
    omega

end MoonGen.Moonsniff.Live

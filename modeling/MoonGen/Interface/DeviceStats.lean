import Mathlib.Data.List.Nodup
import MoonGen.Interface.Counter
import MoonGen.Lib.Compaction
import MoonGen.Lib.Loop

/-! # Device statistics

`deviceStatsThread` of `threads/deviceStats.lua` has one counter for each direction of
each device that a flow uses. It updates the counters of the devices on which a flow is
active. A counter without an active flow is finalized and removed from the array, which
the same loop compacts while it goes through it.
-/

namespace MoonGen.Interface.DeviceStats

open Loop Compaction

inductive Direction where
  | tx
  | rx
deriving Repr, DecidableEq

structure DevFlows (D F : Type) where
  dev : D
  flows : List F

/-- A counter of libmoon. Each call of `getCounter` makes another one; `number` says which. -/
structure DevCounter (D : Type) where
  direction : Direction
  dev : D
  number : Nat
deriving Repr, DecidableEq

structure Ctr (D F : Type) where
  flows : List F
  counter : DevCounter D

inductive Call (D : Type) where
  | update (counter : DevCounter D)
  | finalize (counter : DevCounter D)
deriving Repr, DecidableEq

def Call.counter {D : Type} : Call D → DevCounter D
  | .update counter => counter
  | .finalize counter => counter

section Script

variable {D F : Type}

/-- `read` has what `isZero` reads of the counter of each flow, the first of which has
number `k`. -/
def isActive (read : Nat → F → UInt8 × UInt32) : Nat → List F → Bool
  | _, [] => false
  | k, flow :: rest =>
      if !isZero (read k flow).1 (read k flow).2 then true else isActive read (k + 1) rest

structure Sweep (D F : Type) where
  counters : Slots (Ctr D F)
  offset : Nat
  calls : List (Call D)

/-- The body of the loop for the slot `i`. Reading the flows of an empty slot is an error. -/
def visit (active : Nat → Ctr D F → Bool) (s : Sweep D F) (i : Nat) : Option (Sweep D F) :=
  match s.counters i with
  | none => none
  | some ctr =>
      let isActive := active i ctr
      let s := if isActive then { s with calls := s.calls ++ [.update ctr.counter] } else s
      if !isActive then
        some { counters := Function.update s.counters i none
               offset := s.offset + 1
               calls := s.calls ++ [.finalize ctr.counter] }
      else if s.offset > 0 then
        some { s with
          counters :=
            Function.update (Function.update s.counters i none) (i - s.offset) (some ctr) }
      else some s

/-- One pass of the loop over the slots `1` to `len`. -/
def pass (active : Nat → Ctr D F → Bool) (counters : Slots (Ctr D F)) (len : Nat) :
    Option (Sweep D F) :=
  runs (visit active) ⟨counters, 0, []⟩ (List.range' 1 len)

/-- What the thread finds in its surroundings: the answer of `mg.running` before each pass,
and what `isZero` reads in a pass, at a slot, for a flow of the slot. -/
structure StatsEnv (F : Type) where
  running : Nat → Bool
  read : Nat → Nat → Nat → F → UInt8 × UInt32

def StatsEnv.active (env : StatsEnv F) (n i : Nat) (ctr : Ctr D F) : Bool :=
  isActive (env.read n i) 1 ctr.flows

structure StatsState (D F : Type) where
  counters : Slots (Ctr D F)
  len : Nat
  calls : List (Call D)
  passes : Nat

/-- The array that the thread builds from the two tables of `devs`, in the order in which
`pairs` lists them. -/
def newCounters (tx rx : List (DevFlows D F)) : List (Ctr D F) :=
  (tx.map (Prod.mk Direction.tx) ++ rx.map (Prod.mk Direction.rx)).zipIdx.map
    fun (p, number) => ⟨p.2.flows, p.1, p.2.dev, number⟩

def StatsState.start (ctrs : List (Ctr D F)) : StatsState D F := ⟨ofList ctrs, ctrs.length, [], 0⟩

def StatsEnv.step (env : StatsEnv F) (s : StatsState D F) : Option (StatsState D F) :=
  if env.running s.passes && decide (s.len > 0) then
    (pass (env.active s.passes) s.counters s.len).map fun t =>
      ⟨t.counters, s.len - t.offset, s.calls ++ t.calls, s.passes + 1⟩
  else some s

/-- The thread after `n` passes, or where it has left the loop before. -/
def deviceStatsThread (env : StatsEnv F) (tx rx : List (DevFlows D F)) :
    Nat → Option (StatsState D F)
  | 0 => some (.start (newCounters tx rx))
  | n + 1 => (deviceStatsThread env tx rx n).bind env.step

end Script

/-! ## One pass -/

section Pass

variable {D F : Type} (active : Nat → Ctr D F → Bool)

/-- One call for each entry, in the order of the array: active counters are updated, the
others finalized. The first entry is in slot `i`. -/
def sweepCalls (i : Nat) (ctrs : List (Ctr D F)) : List (Call D) :=
  (ctrs.zipIdx i).map fun p =>
    if active p.2 p.1 then .update p.1.counter else .finalize p.1.counter

def activeCtrs (i : Nat) (ctrs : List (Ctr D F)) : List (Ctr D F) :=
  ((ctrs.zipIdx i).filter fun p => active p.2 p.1).map Prod.fst

theorem sweepCalls_cons (i : Nat) (ctr : Ctr D F) (rest : List (Ctr D F)) :
    sweepCalls active i (ctr :: rest) =
      (if active i ctr then .update ctr.counter else .finalize ctr.counter) ::
        sweepCalls active (i + 1) rest := rfl

theorem activeCtrs_cons_of_active {i : Nat} {ctr : Ctr D F} (h : active i ctr = true)
    (rest : List (Ctr D F)) :
    activeCtrs active i (ctr :: rest) = ctr :: activeCtrs active (i + 1) rest := by
  simp [activeCtrs, List.zipIdx_cons, h]

theorem activeCtrs_cons_of_not_active {i : Nat} {ctr : Ctr D F} (h : active i ctr = false)
    (rest : List (Ctr D F)) :
    activeCtrs active i (ctr :: rest) = activeCtrs active (i + 1) rest := by
  simp [activeCtrs, List.zipIdx_cons, h]

variable {kept : List (Ctr D F)} {gap i : Nat} {ctr : Ctr D F} {calls : List (Call D)}

theorem visit_of_not_active (hi : i = kept.length + gap + 1) (h : active i ctr = false)
    (rest : List (Ctr D F)) :
    visit active ⟨layout kept gap (ctr :: rest), gap, calls⟩ i =
      some ⟨layout kept (gap + 1) rest, gap + 1, calls ++ [.finalize ctr.counter]⟩ := by
  subst hi
  simp only [visit, layout_read, h, Bool.not_false, Bool.false_eq_true, if_true, if_false,
    layout_clear]

theorem visit_of_active (hi : i = kept.length + gap + 1) (h : active i ctr = true)
    (rest : List (Ctr D F)) :
    visit active ⟨layout kept gap (ctr :: rest), gap, calls⟩ i =
      some ⟨layout (kept ++ [ctr]) gap rest, gap, calls ++ [.update ctr.counter]⟩ := by
  subst hi
  simp only [visit, layout_read, h, Bool.not_true, Bool.false_eq_true, if_true, if_false]
  rcases Nat.eq_zero_or_pos gap with rfl | hgap
  · rw [layout_keep]
    rfl
  · have hslot : kept.length + gap + 1 - gap = kept.length + 1 := by omega
    rw [if_pos hgap, hslot, layout_move kept gap ctr rest hgap]

/-- The rest of a pass, from any point in the array. -/
theorem runs_visit (rest : List (Ctr D F)) (hi : i = kept.length + gap + 1) :
    runs (visit active) ⟨layout kept gap rest, gap, calls⟩ (List.range' i rest.length) =
      some ⟨ofList (kept ++ activeCtrs active i rest),
        gap + (rest.length - (activeCtrs active i rest).length),
        calls ++ sweepCalls active i rest⟩ := by
  induction rest generalizing kept gap i calls with
  | nil =>
      simp [runs, layout_end, activeCtrs, sweepCalls]
  | cons ctr rest ih =>
      have hle : (activeCtrs active (i + 1) rest).length ≤ rest.length := by
        rw [activeCtrs, List.length_map]
        exact (List.length_filter_le _ _).trans (List.length_zipIdx).le
      rw [List.length_cons, List.range'_succ, runs, sweepCalls_cons]
      cases h : active i ctr with
      | false =>
          rw [visit_of_not_active active hi h, Option.bind_some, ih (by omega),
            activeCtrs_cons_of_not_active active h, List.append_assoc]
          have hgap : gap + 1 + (rest.length - (activeCtrs active (i + 1) rest).length) =
              gap + (rest.length + 1 - (activeCtrs active (i + 1) rest).length) := by omega
          rw [hgap]
          rfl
      | true =>
          have hnext : i + 1 = (kept ++ [ctr]).length + gap + 1 := by
            rw [List.length_append, List.length_singleton]
            omega
          rw [visit_of_active active hi h, Option.bind_some, ih hnext,
            activeCtrs_cons_of_active active h, List.append_assoc, List.append_assoc,
            List.length_cons, Nat.add_sub_add_right]
          rfl

theorem pass_eq (ctrs : List (Ctr D F)) :
    pass active (ofList ctrs) ctrs.length =
      some ⟨ofList (activeCtrs active 1 ctrs),
        ctrs.length - (activeCtrs active 1 ctrs).length, sweepCalls active 1 ctrs⟩ := by
  have hrun : runs (visit active) ⟨layout [] 0 ctrs, 0, []⟩ (List.range' 1 ctrs.length) = _ :=
    runs_visit active ctrs rfl
  rw [layout_start, Nat.zero_add] at hrun
  exact hrun

end Pass

/-! ## Whole runs -/

section Run

variable {D F : Type}

def ClosedOnce (calls : List (Call D)) : Prop :=
  ∀ counter before after, calls = before ++ .finalize counter :: after →
    .finalize counter ∉ after ∧ .update counter ∉ after

def MayFollow (a b : Call D) : Prop := ∀ counter, a = .finalize counter → b.counter ≠ counter

theorem closedOnce_of_pairwise {calls : List (Call D)} (h : calls.Pairwise MayFollow) :
    ClosedOnce calls := by
  intro counter before after hsplit
  rw [hsplit] at h
  have hafter : ∀ b ∈ after, b.counter ≠ counter := by
    intro b hb
    have htail := List.pairwise_cons.mp (List.pairwise_append.mp h).2.1
    exact htail.1 b hb counter rfl
  constructor
  · intro hmem
    exact hafter _ hmem rfl
  · intro hmem
    exact hafter _ hmem rfl

theorem map_counter_sweepCalls (active : Nat → Ctr D F → Bool) (i : Nat) (ctrs : List (Ctr D F)) :
    (sweepCalls active i ctrs).map Call.counter = ctrs.map Ctr.counter := by
  induction ctrs generalizing i with
  | nil => rfl
  | cons ctr rest ih =>
      rw [sweepCalls_cons, List.map_cons, List.map_cons, ih]
      cases active i ctr <;> rfl

theorem activeCtrs_sublist (active : Nat → Ctr D F → Bool) (i : Nat) (ctrs : List (Ctr D F)) :
    (activeCtrs active i ctrs).Sublist ctrs := by
  have hfilter : (activeCtrs active i ctrs).Sublist ((ctrs.zipIdx i).map Prod.fst) :=
    List.filter_sublist.map Prod.fst
  rwa [List.zipIdx_map_fst] at hfilter

theorem finalize_notMem_sweepCalls (active : Nat → Ctr D F → Bool) (i : Nat)
    {ctrs : List (Ctr D F)} (hdistinct : (ctrs.map Ctr.counter).Nodup) {ctr : Ctr D F}
    (h : ctr ∈ activeCtrs active i ctrs) : .finalize ctr.counter ∉ sweepCalls active i ctrs := by
  intro hmem
  obtain ⟨p, hp, rfl⟩ := List.mem_map.mp h
  obtain ⟨hslot, hactive⟩ := List.mem_filter.mp hp
  obtain ⟨q, hq, hcall⟩ := List.mem_map.mp hmem
  have hnodup : ((ctrs.zipIdx i).map fun p => p.1.counter).Nodup := by
    have hmap : ((ctrs.zipIdx i).map fun p => p.1.counter) = ctrs.map Ctr.counter := by
      conv_rhs => rw [← List.zipIdx_map_fst i ctrs, List.map_map]
      rfl
    rw [hmap]
    exact hdistinct
  -- the finalized entry is an inactive one, and it has the counter of an active one
  cases hq' : active q.2 q.1 with
  | true =>
      rw [hq', if_pos rfl] at hcall
      cases hcall
  | false =>
      rw [hq', if_neg Bool.false_ne_true] at hcall
      have hcounter : q.1.counter = p.1.counter := Call.finalize.inj hcall
      have hsame : q = p := List.inj_on_of_nodup_map hnodup hq hslot hcounter
      rw [hsame, hactive] at hq'
      cases hq'

theorem pairwise_sweepCalls (active : Nat → Ctr D F → Bool) (i : Nat) {ctrs : List (Ctr D F)}
    (hdistinct : (ctrs.map Ctr.counter).Nodup) :
    (sweepCalls active i ctrs).Pairwise MayFollow := by
  rw [← map_counter_sweepCalls active i] at hdistinct
  refine (List.pairwise_map.mp hdistinct).imp ?_
  intro a b hne counter ha hb
  rw [ha] at hne
  exact hne hb.symm

structure Holds (s : StatsState D F) (ctrs : List (Ctr D F)) : Prop where
  counters : s.counters = ofList ctrs
  len : s.len = ctrs.length
  distinct : (ctrs.map Ctr.counter).Nodup
  unfinished : ∀ ctr ∈ ctrs, .finalize ctr.counter ∉ s.calls
  ordered : s.calls.Pairwise MayFollow

theorem newCounters_distinct (tx rx : List (DevFlows D F)) :
    ((newCounters tx rx).map Ctr.counter).Nodup := by
  have hnumbers : ((newCounters tx rx).map Ctr.counter).map DevCounter.number =
      List.range' 0 (tx.map (Prod.mk Direction.tx) ++ rx.map (Prod.mk Direction.rx)).length := by
    rw [← List.zipIdx_map_snd, newCounters, List.map_map, List.map_map]
    rfl
  apply List.Nodup.of_map DevCounter.number
  rw [hnumbers]
  exact List.nodup_range'

theorem holds_start (tx rx : List (DevFlows D F)) :
    Holds (.start (newCounters tx rx)) (newCounters tx rx) where
  counters := rfl
  len := rfl
  distinct := newCounters_distinct tx rx
  unfinished := fun _ _ => List.not_mem_nil
  ordered := .nil

theorem Holds.mayFollow {s : StatsState D F} {ctrs : List (Ctr D F)} (h : Holds s ctrs)
    (active : Nat → Ctr D F → Bool) (i : Nat) {a b : Call D} (ha : a ∈ s.calls)
    (hb : b ∈ sweepCalls active i ctrs) : MayFollow a b := by
  intro counter hfinal hcounter
  have hmem : b.counter ∈ ctrs.map Ctr.counter := by
    rw [← map_counter_sweepCalls active i ctrs]
    exact List.mem_map_of_mem hb
  obtain ⟨ctr, hctr, heq⟩ := List.mem_map.mp hmem
  apply h.unfinished ctr hctr
  rw [heq, hcounter, ← hfinal]
  exact ha

theorem Holds.step {s : StatsState D F} {ctrs : List (Ctr D F)} (h : Holds s ctrs)
    (env : StatsEnv F) : ∃ s' ctrs', env.step s = some s' ∧ Holds s' ctrs' := by
  rw [StatsEnv.step]
  split
  · rw [h.counters, h.len, pass_eq, Option.map_some]
    refine ⟨_, activeCtrs (env.active s.passes) 1 ctrs, rfl, ?_⟩
    have hsublist := activeCtrs_sublist (env.active s.passes) 1 ctrs
    constructor
    · rfl
    · exact Nat.sub_sub_self hsublist.length_le
    · exact h.distinct.sublist (hsublist.map _)
    · intro ctr hctr
      rw [List.mem_append, not_or]
      exact ⟨h.unfinished ctr (hsublist.subset hctr),
        finalize_notMem_sweepCalls _ _ h.distinct hctr⟩
    · rw [List.pairwise_append]
      exact ⟨h.ordered, pairwise_sweepCalls _ _ h.distinct,
        fun _ ha _ hb => h.mayFollow _ _ ha hb⟩
  · exact ⟨s, ctrs, rfl, h⟩

theorem holds_run (env : StatsEnv F) (tx rx : List (DevFlows D F)) (n : Nat) :
    ∃ s ctrs, deviceStatsThread env tx rx n = some s ∧ Holds s ctrs := by
  induction n with
  | zero => exact ⟨_, _, rfl, holds_start tx rx⟩
  | succ n ih =>
      obtain ⟨s, ctrs, hs, hholds⟩ := ih
      obtain ⟨s', ctrs', hstep, hholds'⟩ := hholds.step env
      refine ⟨s', ctrs', ?_, hholds'⟩
      rw [deviceStatsThread, hs, Option.bind_some, hstep]

/-- For every array and every pattern of activity, a pass updates the active counters,
finalizes the others and leaves the active entries in their order, with nothing behind
them. The thread never reads an empty slot, and closes no counter twice and uses none
that it has closed. -/
theorem deviceStats_compacts {D F : Type} :
    (∀ (active : Nat → Ctr D F → Bool) (ctrs : List (Ctr D F)),
      ∃ t, pass active (ofList ctrs) ctrs.length = some t ∧
        t.calls = sweepCalls active 1 ctrs ∧
        t.counters = ofList (activeCtrs active 1 ctrs) ∧
        ctrs.length - t.offset = (activeCtrs active 1 ctrs).length) ∧
      ∀ (env : StatsEnv F) (tx rx : List (DevFlows D F)) (n : Nat),
        ∃ s, deviceStatsThread env tx rx n = some s ∧ ClosedOnce s.calls := by
  constructor
  · intro active ctrs
    exact ⟨_, pass_eq active ctrs, rfl, rfl,
      Nat.sub_sub_self (activeCtrs_sublist active 1 ctrs).length_le⟩
  · intro env tx rx n
    obtain ⟨s, ctrs, hs, hholds⟩ := holds_run env tx rx n
    exact ⟨s, hs, closedOnce_of_pairwise hholds.ordered⟩

end Run

end MoonGen.Interface.DeviceStats

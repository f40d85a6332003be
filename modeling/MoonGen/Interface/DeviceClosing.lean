import Mathlib.Data.List.Induction
import MoonGen.Interface.Activity
import MoonGen.Interface.DeviceStats
import MoonGen.Interface.Queues

/-! # When the counters of a device are closed

`deviceStatsThread` closes a counter in the first pass that finds no flow of its device
active. The flows of a device and direction are collected by `prepare` and `start`. A counter
is closed after the load threads of all its flows are finished, in the next pass.
-/

namespace MoonGen.Interface.DeviceStats

open Loop Compaction

/-! ## The tables of the devices -/

def devs (flow : Flow) : Direction → List Nat
  | .tx => flow.tx
  | .rx => flow.rx

/-- What `prepare` inserts into `thread.devices`. A flow is known by its number. -/
def prepare (flows : List Flow) : List (Direction × Nat × Nat) :=
  flows.zipIdx.flatMap fun p =>
    [Direction.tx, Direction.rx].flatMap fun v => (devs p.1 v).map fun id => (v, id, p.2)

def addFlow (key flow : Nat) : List (DevFlows Nat Nat) → List (DevFlows Nat Nat)
  | [] => [⟨key, [flow]⟩]
  | e :: rest =>
      if e.dev = key then ⟨e.dev, e.flows ++ [flow]⟩ :: rest else e :: addFlow key flow rest

/-- One of the tables that `start` makes from `thread.devices`. -/
def table (v : Direction) (devices : List (Direction × Nat × Nat)) : List (DevFlows Nat Nat) :=
  devices.foldl (fun tbl d => if d.1 = v then addFlow d.2.1 d.2.2 tbl else tbl) []

def Lists (tbl : List (DevFlows Nat Nat)) (key flow : Nat) : Prop :=
  ∃ e ∈ tbl, e.dev = key ∧ flow ∈ e.flows

theorem lists_cons (e : DevFlows Nat Nat) (rest : List (DevFlows Nat Nat)) (key flow : Nat) :
    Lists (e :: rest) key flow ↔ e.dev = key ∧ flow ∈ e.flows ∨ Lists rest key flow := by
  simp [Lists]

theorem lists_addFlow (key flow k f : Nat) (tbl : List (DevFlows Nat Nat)) :
    Lists (addFlow key flow tbl) k f ↔ Lists tbl k f ∨ k = key ∧ f = flow := by
  induction tbl with
  | nil => simp [addFlow, Lists, eq_comm]
  | cons e rest ih =>
      rw [addFlow]
      split
      · rename_i hkey
        rw [lists_cons, lists_cons, List.mem_append, List.mem_singleton, ← hkey]
        constructor
        · rintro (⟨rfl, hf | rfl⟩ | hrest)
          · exact .inl (.inl ⟨rfl, hf⟩)
          · exact .inr ⟨rfl, rfl⟩
          · exact .inl (.inr hrest)
        · rintro ((⟨rfl, hf⟩ | hrest) | ⟨rfl, rfl⟩)
          · exact .inl ⟨rfl, .inl hf⟩
          · exact .inr hrest
          · exact .inl ⟨rfl, .inr rfl⟩
      · rw [lists_cons, lists_cons, ih, or_assoc]

theorem devs_addFlow (key flow : Nat) (tbl : List (DevFlows Nat Nat)) :
    (addFlow key flow tbl).map DevFlows.dev =
      if key ∈ tbl.map DevFlows.dev then tbl.map DevFlows.dev
      else tbl.map DevFlows.dev ++ [key] := by
  induction tbl with
  | nil => rfl
  | cons e rest ih =>
      rw [addFlow]
      by_cases hkey : e.dev = key
      · simp [hkey]
      · have hne : key ≠ e.dev := fun h => hkey h.symm
        rw [if_neg hkey, List.map_cons, ih, List.map_cons]
        by_cases hmem : key ∈ rest.map DevFlows.dev
        · rw [if_pos hmem, if_pos (List.mem_cons_of_mem _ hmem)]
        · rw [if_neg hmem, if_neg (by simp [hne, hmem])]
          rfl

/-- The table of a direction has one entry for each device that is used, with the flows that
use it. -/
theorem table_spec (v : Direction) (devices : List (Direction × Nat × Nat)) :
    ((table v devices).map DevFlows.dev).Nodup ∧
      ∀ key flow, Lists (table v devices) key flow ↔ (v, key, flow) ∈ devices := by
  induction devices using List.reverseRecOn with
  | nil => simp [table, Lists]
  | append_singleton devices d ih =>
      obtain ⟨hnodup, hlists⟩ := ih
      have hlast : table v (devices ++ [d]) =
          if d.1 = v then addFlow d.2.1 d.2.2 (table v devices) else table v devices := by
        rw [table, List.foldl_append]
        rfl
      obtain ⟨w, id, i⟩ := d
      rw [hlast]
      by_cases hv : w = v
      · subst hv
        rw [if_pos rfl]
        refine ⟨?_, ?_⟩
        · rw [devs_addFlow]
          split
          · exact hnodup
          · rename_i hnew
            exact List.nodup_append.mpr ⟨hnodup, List.nodup_singleton _, by
              intro a ha b hb hab
              rw [hab, List.mem_singleton.mp hb] at ha
              exact hnew ha⟩
        · intro key flow
          rw [lists_addFlow, hlists]
          simp
      · rw [if_neg hv]
        refine ⟨hnodup, ?_⟩
        intro key flow
        have hne : (v, key, flow) ≠ (w, id, i) := fun h => hv (congrArg Prod.fst h).symm
        rw [hlists, List.mem_append, List.mem_singleton]
        simp [hne]

theorem mem_prepare (flows : List Flow) (v : Direction) (id i : Nat) :
    (v, id, i) ∈ prepare flows ↔ ∃ flow, flows[i]? = some flow ∧ id ∈ devs flow v := by
  simp only [prepare, List.mem_flatMap, List.mem_map, Prod.exists, List.mem_zipIdx_iff_getElem?]
  constructor
  · rintro ⟨flow, j, hget, w, _, _, hid, heq⟩
    cases heq
    exact ⟨flow, hget, hid⟩
  · rintro ⟨flow, hget, hid⟩
    exact ⟨flow, i, hget, v, by cases v <;> simp, id, hid, rfl⟩

theorem exists_entry {flows : List Flow} {v : Direction} {id i : Nat} {flow : Flow}
    (hget : flows[i]? = some flow) (hid : id ∈ devs flow v) :
    ∃ e ∈ table v (prepare flows), e.dev = id ∧
      ∀ j, j ∈ e.flows ↔ ∃ flow, flows[j]? = some flow ∧ id ∈ devs flow v := by
  obtain ⟨hnodup, hlists⟩ := table_spec v (prepare flows)
  obtain ⟨e, he, hdev, _⟩ := (hlists id i).mpr ((mem_prepare flows v id i).mpr ⟨flow, hget, hid⟩)
  refine ⟨e, he, hdev, ?_⟩
  intro j
  rw [← mem_prepare, ← hlists]
  constructor
  · exact fun hj => ⟨e, he, hdev, hj⟩
  · rintro ⟨e', he', hdev', hj⟩
    have hsame : e' = e := List.inj_on_of_nodup_map hnodup he' he (hdev'.trans hdev.symm)
    rw [← hsame]
    exact hj

/-! ## The passes -/

theorem isActive_eq_false {F : Type} (read : Nat → F → UInt8 × UInt32) (flows : List F) (k : Nat) :
    isActive read k flows = false ↔
      ∀ p ∈ flows.zipIdx k, isZero (read p.2 p.1).1 (read p.2 p.1).2 = true := by
  induction flows generalizing k with
  | nil => simp [isActive]
  | cons flow rest ih =>
      rw [isActive, List.zipIdx_cons, List.forall_mem_cons]
      cases isZero (read k flow).1 (read k flow).2 with
      | true => simpa using ih (k + 1)
      | false => simp

theorem finalize_mem_sweepCalls {D F : Type} (active : Nat → Ctr D F → Bool) (i : Nat)
    (ctrs : List (Ctr D F)) (counter : DevCounter D) :
    .finalize counter ∈ sweepCalls active i ctrs ↔
      ∃ p ∈ ctrs.zipIdx i, active p.2 p.1 = false ∧ p.1.counter = counter := by
  rw [sweepCalls, List.mem_map]
  apply exists_congr
  intro p
  cases active p.2 p.1 <;> simp

theorem mem_activeCtrs {D F : Type} (active : Nat → Ctr D F → Bool) (i : Nat)
    (ctrs : List (Ctr D F)) (ctr : Ctr D F) :
    ctr ∈ activeCtrs active i ctrs ↔ ∃ k, (ctr, k) ∈ ctrs.zipIdx i ∧ active k ctr = true := by
  simp [activeCtrs]

section Closing

variable {D : Type} (tl : Timeline Nat) (passes : Timeline.Passes) (env : StatsEnv Nat)

/-- After `n` turns of the loop: the entries that are left, and what is known of the others. -/
structure Closing (all : List (Ctr D Nat)) (n : Nat) (s : StatsState D Nat)
    (ctrs : List (Ctr D Nat)) : Prop where
  counters : s.counters = Compaction.ofList ctrs
  len : s.len = ctrs.length
  sub : ∀ ctr ∈ ctrs, ctr ∈ all
  passes_le : s.passes ≤ n
  /-- The thread is in its next pass, unless it was stopped or has nothing left to do. -/
  passes_eq : (∀ k < n, env.running k = true) → s.passes = n ∨ ctrs = []
  split : ∀ ctr ∈ all, ctr ∈ ctrs ∨ .finalize ctr.counter ∈ s.calls
  done : ∀ ctr ∈ all, .finalize ctr.counter ∈ s.calls →
    ∀ f ∈ ctr.flows, 0 < tl.senders f ∧ (tl.InTurn → tl.Done (passes.start s.passes) f)

variable {tl passes env} {all : List (Ctr D Nat)} {n : Nat} {s : StatsState D Nat}
  {ctrs : List (Ctr D Nat)}

theorem closing_start (all : List (Ctr D Nat)) : Closing tl passes env all 0 (.start all) all where
  counters := rfl
  len := rfl
  sub := fun _ h => h
  passes_le := Nat.le_refl _
  passes_eq := fun _ => .inl rfl
  split := fun _ h => .inl h
  done := fun _ _ h => absurd h List.not_mem_nil

theorem done_of_not_active (hread : ∀ n i k f, passes.Sees tl n f (env.read n i k f)) {i : Nat}
    {ctr : Ctr D Nat} (h : env.active n i ctr = false) :
    ∀ f ∈ ctr.flows, 0 < tl.senders f ∧ (tl.InTurn → tl.Done (passes.start (n + 1)) f) := by
  intro f hf
  obtain ⟨k, hk⟩ := Arp.exists_zipIdx hf 1
  exact (hread n i k f).done ((isActive_eq_false _ _ _).mp h _ hk)

theorem not_active_of_done (hread : ∀ n i k f, passes.Sees tl n f (env.read n i k f)) {i : Nat}
    {ctr : Ctr D Nat} (h : ∀ f ∈ ctr.flows, tl.Done (passes.start n) f) :
    env.active n i ctr = false := by
  rw [StatsEnv.active, isActive_eq_false]
  intro p hp
  exact (hread n i p.2 p.1).isZero (h p.1 (List.fst_mem_of_mem_zipIdx hp))

theorem Closing.nil_of_stop (h : Closing tl passes env all n s ctrs)
    (hrunning : ∀ k ≤ n, env.running k = true)
    (hstop : ¬(env.running s.passes && decide (s.len > 0)) = true) : ctrs = [] := by
  rcases h.passes_eq fun k hk => hrunning k hk.le with heq | hnil
  · rw [heq, hrunning n (Nat.le_refl n), h.len] at hstop
    simpa using hstop
  · exact hnil

theorem Closing.step (hread : ∀ n i k f, passes.Sees tl n f (env.read n i k f))
    (hdistinct : (all.map Ctr.counter).Nodup) (h : Closing tl passes env all n s ctrs) :
    ∃ s' ctrs', env.step s = some s' ∧ Closing tl passes env all (n + 1) s' ctrs' := by
  rw [StatsEnv.step]
  split
  · rename_i hgo
    have hpos : ctrs ≠ [] := by
      intro hnil
      simp [h.len, hnil] at hgo
    have hsub := activeCtrs_sublist (env.active s.passes) 1 ctrs
    rw [h.counters, h.len, pass_eq, Option.map_some]
    refine ⟨_, activeCtrs (env.active s.passes) 1 ctrs, rfl, ?_⟩
    constructor
    · rfl
    · exact Nat.sub_sub_self hsub.length_le
    · exact fun ctr hctr => h.sub ctr (hsub.subset hctr)
    · exact Nat.succ_le_succ h.passes_le
    · intro hrunning
      rcases h.passes_eq fun k hk => hrunning k (Nat.lt_succ_of_lt hk) with heq | hnil
      · exact .inl (congrArg (· + 1) heq)
      · exact absurd hnil hpos
    · intro ctr hctr
      rcases h.split ctr hctr with hmem | hcall
      · obtain ⟨k, hk⟩ := Arp.exists_zipIdx hmem 1
        cases hactive : env.active s.passes k ctr with
        | true => exact .inl ((mem_activeCtrs _ _ _ _).mpr ⟨k, hk, hactive⟩)
        | false =>
            exact .inr (List.mem_append_right _
              ((finalize_mem_sweepCalls _ _ _ _).mpr ⟨_, hk, hactive, rfl⟩))
      · exact .inr (List.mem_append_left _ hcall)
    · intro ctr hctr hcall f hf
      rcases List.mem_append.mp hcall with hbefore | hnow
      · obtain ⟨hpos, hdone⟩ := h.done ctr hctr hbefore f hf
        exact ⟨hpos, fun hturn => (hdone hturn).mono (passes.lt _).le⟩
      · obtain ⟨p, hp, hidle, hcounter⟩ := (finalize_mem_sweepCalls _ _ _ _).mp hnow
        -- another entry has another counter
        have hsame : p.1 = ctr := List.inj_on_of_nodup_map hdistinct
          (h.sub _ (List.fst_mem_of_mem_zipIdx hp)) hctr hcounter
        rw [hsame] at hidle
        exact done_of_not_active hread hidle f hf
  · rename_i hstop
    refine ⟨s, ctrs, rfl, { h with passes_le := h.passes_le.trans (Nat.le_succ n), passes_eq := ?_ }⟩
    intro hrunning
    exact .inr (h.nil_of_stop (fun k hk => hrunning k (Nat.lt_succ_of_le hk)) hstop)

theorem closing_run (hread : ∀ n i k f, passes.Sees tl n f (env.read n i k f))
    (tx rx : List (DevFlows D Nat)) (n : Nat) :
    ∃ s ctrs, deviceStatsThread env tx rx n = some s ∧
      Closing tl passes env (newCounters tx rx) n s ctrs := by
  induction n with
  | zero => exact ⟨_, _, rfl, closing_start _⟩
  | succ n ih =>
      obtain ⟨s, ctrs, hs, hclosing⟩ := ih
      obtain ⟨s', ctrs', hstep, hclosing'⟩ :=
        hclosing.step hread (newCounters_distinct tx rx)
      exact ⟨s', ctrs', by rw [deviceStatsThread, hs, Option.bind_some, hstep], hclosing'⟩

theorem Closing.closed (hread : ∀ n i k f, passes.Sees tl n f (env.read n i k f))
    (h : Closing tl passes env all n s ctrs) (hrunning : ∀ k ≤ n, env.running k = true)
    {s' : StatsState D Nat} (hstep : env.step s = some s') {ctr : Ctr D Nat} (hctr : ctr ∈ all)
    (hdone : ∀ f ∈ ctr.flows, tl.Done (passes.start n) f) : .finalize ctr.counter ∈ s'.calls := by
  rw [StatsEnv.step] at hstep
  split at hstep
  · rw [h.counters, h.len, pass_eq, Option.map_some] at hstep
    cases hstep
    rcases h.split ctr hctr with hmem | hcall
    · obtain ⟨k, hk⟩ := Arp.exists_zipIdx hmem 1
      rcases h.passes_eq fun k hk => hrunning k hk.le with heq | hnil
      · rw [← heq] at hdone
        exact List.mem_append_right _ ((finalize_mem_sweepCalls _ _ _ _).mpr
          ⟨_, hk, not_active_of_done hread hdone, rfl⟩)
      · rw [hnil] at hmem
        cases hmem
    · exact List.mem_append_left _ hcall
  · rename_i hstop
    cases hstep
    rcases h.split ctr hctr with hmem | hcall
    · rw [h.nil_of_stop hrunning hstop] at hmem
      cases hmem
    · exact hcall

end Closing

theorem exists_newCounter {tx rx : List (DevFlows Nat Nat)} {v : Direction} {e : DevFlows Nat Nat}
    (h : e ∈ match v with | .tx => tx | .rx => rx) :
    ∃ ctr ∈ newCounters tx rx, ctr.flows = e.flows ∧ ctr.counter.direction = v ∧
      ctr.counter.dev = e.dev := by
  have hmem : (v, e) ∈ tx.map (Prod.mk Direction.tx) ++ rx.map (Prod.mk Direction.rx) := by
    cases v with
    | tx => exact List.mem_append_left _ (List.mem_map_of_mem h)
    | rx => exact List.mem_append_right _ (List.mem_map_of_mem h)
  obtain ⟨k, hk⟩ := Arp.exists_zipIdx hmem 0
  exact ⟨_, List.mem_map_of_mem hk, rfl, rfl, rfl⟩

/-- Whatever the load threads do while the thread goes through the flows, as long as their steps
are in turn, the counter of a device and direction is closed only after all load threads of all
flows that use the device in that direction are finished. It is closed one pass after that at the
latest, and never when a flow that only receives uses the device. -/
theorem deviceCounter_closes (flows : List Flow) (tl : Timeline Nat)
    (hsenders : ∀ i flow, flows[i]? = some flow → tl.senders i = flow.tx.length)
    (passes : Timeline.Passes) (env : StatsEnv Nat)
    (hread : ∀ n i k f, passes.Sees tl n f (env.read n i k f)) {tx rx : List (DevFlows Nat Nat)}
    (htx : tx.Perm (table .tx (prepare flows))) (hrx : rx.Perm (table .rx (prepare flows)))
    {v : Direction} {id j : Nat} {user : Flow} (huser : flows[j]? = some user)
    (hid : id ∈ devs user v) :
    ∃ counter : DevCounter Nat, counter.direction = v ∧ counter.dev = id ∧
      (∀ n s, deviceStatsThread env tx rx n = some s → .finalize counter ∈ s.calls →
        ∀ i flow, flows[i]? = some flow → id ∈ devs flow v →
          flow.tx ≠ [] ∧ (tl.InTurn → (tl.state (passes.start n) i).AllFinished)) ∧
      ∀ n, (∀ k ≤ n, env.running k = true) →
        (∀ i flow, flows[i]? = some flow → id ∈ devs flow v →
          flow.tx ≠ [] ∧ (tl.state (passes.start n) i).AllFinished) →
        ∃ s, deviceStatsThread env tx rx (n + 1) = some s ∧ .finalize counter ∈ s.calls := by
  have hdone : ∀ t i flow, flows[i]? = some flow →
      (tl.Done t i ↔ flow.tx ≠ [] ∧ (tl.state t i).AllFinished) := by
    intro t i flow hget
    rw [Timeline.Done, hsenders i flow hget, List.length_pos_iff]
  obtain ⟨e, he, hdev, hflows⟩ := exists_entry huser hid
  obtain ⟨ctr, hctr, hctrFlows, hdirection, hctrDev⟩ :
      ∃ ctr ∈ newCounters tx rx, ctr.flows = e.flows ∧ ctr.counter.direction = v ∧
        ctr.counter.dev = e.dev := by
    apply exists_newCounter
    cases v with
    | tx => exact htx.mem_iff.mpr he
    | rx => exact hrx.mem_iff.mpr he
  refine ⟨ctr.counter, hdirection, hctrDev.trans hdev, ?_, ?_⟩
  · intro n s hs hcall i flow hget hi
    obtain ⟨s', ctrs, hs', hclosing⟩ := closing_run hread tx rx n
    cases hs.symm.trans hs'
    have hmem : i ∈ ctr.flows := by
      rw [hctrFlows]
      exact (hflows i).mpr ⟨flow, hget, hi⟩
    obtain ⟨hpos, hend⟩ := hclosing.done ctr hctr hcall i hmem
    rw [hsenders i flow hget] at hpos
    refine ⟨List.length_pos_iff.mp hpos, ?_⟩
    intro hturn
    exact ((hend hturn).mono (passes.mono hclosing.passes_le)).2
  · intro n hrunning hall
    obtain ⟨s, ctrs, hs, hclosing⟩ := closing_run hread tx rx n
    obtain ⟨s', _, hstep, -⟩ := hclosing.step hread (newCounters_distinct tx rx)
    refine ⟨s', by rw [deviceStatsThread, hs, Option.bind_some, hstep], ?_⟩
    apply hclosing.closed hread hrunning hstep hctr
    intro i hi
    rw [hctrFlows] at hi
    obtain ⟨flow, hget, hdevs⟩ := (hflows i).mp hi
    exact (hdone _ i flow hget).mpr (hall i flow hget hdevs)

/-- Device 1 receives what two flows send, and the two load threads make their last steps
before the third pass. -/
theorem deviceCounter_closes_two_flows :
    ∃ counter : DevCounter Nat, counter.direction = .rx ∧ counter.dev = 1 ∧
      ∃ s, deviceStatsThread
        ⟨fun _ => true, fun n _ _ f => (((Timeline.threeSteps Nat).state (2 * n) f).active,
          ((Timeline.threeSteps Nat).state (2 * n) f).count)⟩
        [⟨0, [0]⟩, ⟨2, [1]⟩] [⟨1, [0, 1]⟩] 3 = some s ∧ .finalize counter ∈ s.calls := by
  let flows : List Flow := [⟨[0], [1], false, [], none, none, none⟩,
    ⟨[2], [1], false, [], none, none, none⟩]
  have hone : ∀ (i : Nat) (flow : Flow), flows[i]? = some flow → flow.tx.length = 1 := by
    intro i flow hget
    rcases List.mem_cons.mp (List.mem_of_getElem? hget) with rfl | hmem
    · rfl
    · rw [List.mem_singleton.mp hmem]
      rfl
  obtain ⟨counter, hdirection, hdev, -, hclosed⟩ := deviceCounter_closes flows
    (Timeline.threeSteps Nat) (fun i flow hget => (hone i flow hget).symm)
    ⟨fun n => 2 * n, fun n => by omega⟩
    ⟨fun _ => true, fun n _ _ f => (((Timeline.threeSteps Nat).state (2 * n) f).active,
      ((Timeline.threeSteps Nat).state (2 * n) f).count)⟩
    (fun n _ _ f => ⟨2 * n, 2 * n, Nat.le_refl _, by show 2 * n ≤ 2 * (n + 1); omega,
      Nat.le_refl _, rfl, rfl⟩)
    (.refl (table .tx (prepare flows))) (.refl (table .rx (prepare flows)))
    (v := .rx) (j := 0) rfl (List.mem_singleton.mpr rfl)
  refine ⟨counter, hdirection, hdev, hclosed 2 (fun _ _ => rfl) ?_⟩
  intro i flow hget _
  refine ⟨List.ne_nil_of_length_pos (by rw [hone i flow hget]; exact Nat.one_pos), ?_⟩
  intro p hp
  exact List.mem_singleton.mp hp

end MoonGen.Interface.DeviceStats

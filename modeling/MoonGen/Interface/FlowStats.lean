import Mathlib.Algebra.BigOperators.Fin
import MoonGen.Interface.CountThread
import MoonGen.Interface.Uid
import MoonGen.Lib.Interleave

/-! # The statistics of flows

From the uid option to the counters that are printed at the end: flows take their uids, write them
into their packets, and the device spreads the packets that arrive over its RSS queues, each of
which has a count thread. All threads count all uids. The counters that carry a uid of a flow in
their names should show, together, the packets of the flow.
-/

namespace MoonGen.Interface

open Loop Interleave

/-! ## Packets with tags -/

/-- The last four bytes are those that `setPayload` writes for a uid. -/
def Carries (uid : UInt32) (p : Delivery) : Prop :=
  4 ≤ p.bytes.length ∧ tagged uid p.bytes = p.bytes

instance (uid : UInt32) (p : Delivery) : Decidable (Carries uid p) :=
  inferInstanceAs (Decidable (_ ∧ _))

def counterKey (uid : UInt32) : Nat := uid.toNat - upperBytes uid

theorem counterKey_of_lt {uid : UInt32} (h : uid < 256) : counterKey uid = uid.toNat := by
  rw [counterKey, (upperBytes_eq_zero_iff uid).mpr h, Nat.sub_zero]

theorem Carries.uid_eq {uid : UInt32} {p : Delivery} (h : Carries uid p) :
    p.uid = counterKey uid := by
  have hread := getUid_tagged uid h.1
  rw [h.2] at hread
  rw [Delivery.uid, counterKey, ← hread, Nat.add_sub_cancel]

theorem counterKey_eq_iff (uid : UInt32) : counterKey uid = uid.toNat ↔ uid < 256 := by
  have hread := getUid_tagged uid (show 4 ≤ (List.replicate 4 (0 : UInt8)).length by decide)
  rw [← upperBytes_eq_zero_iff, counterKey]
  omega

theorem carries_tagged (uid : UInt32) {bytes : List UInt8} (h : 4 ≤ bytes.length) (time : Rat) :
    Carries uid ⟨time, tagged uid bytes⟩ := by
  constructor
  · rw [tagged_length]
    exact h
  · show tagged uid (tagged uid bytes) = tagged uid bytes
    rw [tagged, tagged_length]
    apply List.ext_getElem?
    intro i
    simp only [tagged, setPayload, List.getElem?_set, List.length_set]
    grind

/-! ## The count threads of a device -/

section Threads

variable {k : Nat} {env : Fin k → CountEnv}

/-- The count threads and their queues. They share nothing, and the device may put any packet into
any of the queues. -/
def threadsStep (env : Fin k → CountEnv) :
    (Fin k → CountState) → Fin k × CountEvent → Option (Fin k → CountState) :=
  Interleave.step fun i => (env i).step

def shown (s : Fin k → CountState) (key : Nat) : Nat := ∑ i, (s i).counters key

def Owned (bit : ToBit) (uids owners : List LuaNumber) (delivered : List Delivery) : Prop :=
  List.Forall₂ (fun owner p => owner ∈ uids ∧ Carries (bit.apply owner) p) owners delivered

/-- The counters with the name of a uid show the packets of its flow that were taken, on every
device that only gets packets of the flows in use. -/
def StatsRight (bit : ToBit) (uids : List LuaNumber) (uid : Nat) : Prop :=
  ∀ (k : Nat) (env : Fin k → CountEnv) (senders : Fin k → Nat)
    (events : List (Fin k × CountEvent)) (s : Fin k → CountState)
    (owners : Fin k → List LuaNumber),
    runs (threadsStep env) (fun i => .init (senders i)) events = some s →
    (∀ i, Owned bit uids (owners i) (s i).delivered) →
    shown s uid = ∑ i, ((owners i).take (s i).received).count (.ofNat uid)

theorem tracked_threads {senders : Fin k → Nat} {events : List (Fin k × CountEvent)}
    {s : Fin k → CountState}
    (h : runs (threadsStep env) (fun i => .init (senders i)) events = some s) (i : Fin k) :
    (env i).Tracked (s i) :=
  CountEnv.tracked_run (runs_component h i)

theorem countP_eq_of_forall₂ {α β : Type} {R : α → β → Prop} {P : α → Bool} {Q : β → Bool}
    (hPQ : ∀ a b, R a b → P a = Q b) {as : List α} {bs : List β} (h : List.Forall₂ R as bs) :
    as.countP P = bs.countP Q := by
  induction h with
  | nil => rfl
  | cons hab _ ih => rw [List.countP_cons, List.countP_cons, hPQ _ _ hab, ih]

/-! ## When the statistics are right -/

theorem counterKey_ofNat (bit : ToBit) {uid : Nat} (h : uid < 256) :
    counterKey (bit.apply (.ofNat uid)) = uid := by
  have hlt : uid < 2 ^ 32 := by omega
  rw [bit.integers uid (by omega), counterKey_of_lt, UInt32.toNat_ofNat_of_lt' hlt]
  rw [UInt32.lt_iff_toNat_lt, UInt32.toNat_ofNat_of_lt' hlt]
  exact h

theorem statsRight_of_alone {bit : ToBit} {uids : List LuaNumber} {uid : Nat} (hsmall : uid < 256)
    (halone : ∀ other ∈ uids, other ≠ .ofNat uid → counterKey (bit.apply other) ≠ uid) :
    StatsRight bit uids uid := by
  intro k env senders events s owners hrun howned
  apply Finset.sum_congr rfl
  intro i _
  rw [(tracked_threads hrun i).counted, List.count]
  refine (countP_eq_of_forall₂ ?_ (List.forall₂_take _ (howned i))).symm
  rintro owner p ⟨hused, hcarries⟩
  rw [hcarries.uid_eq]
  by_cases hown : owner = .ofNat uid
  · simp [hown, counterKey_ofNat bit hsmall]
  · simp [hown, halone owner hused hown]

theorem one_packet (bytes : List UInt8) :
    ∃ s : Fin 1 → CountState,
      runs (threadsStep fun _ => CountEnv.second) (fun _ => .init 0)
        [(0, .deliver 0 bytes), (0, .check 0), (0, .recv 1)] = some s ∧
      (s 0).delivered = [⟨0, bytes⟩] ∧ (s 0).received = 1 ∧
      (s 0).counters = countBufs (fun _ => 0) [bytes] :=
  ⟨_, rfl, rfl, rfl, rfl⟩

theorem counterKey_of_statsRight {bit : ToBit} {uids : List LuaNumber} {uid : Nat}
    {other : LuaNumber} (h : StatsRight bit uids uid) (hother : other ∈ uids) :
    counterKey (bit.apply other) = uid ↔ other = .ofNat uid := by
  obtain ⟨s, hrun, hdelivered, hreceived, hcounters⟩ :=
    one_packet (tagged (bit.apply other) (List.replicate 60 0))
  have hcarries := carries_tagged (bit.apply other)
    (show 4 ≤ (List.replicate 60 (0 : UInt8)).length by decide) 0
  have hright := h 1 (fun _ => CountEnv.second) (fun _ => 0) _ s (fun _ => [other]) hrun (by
    intro i
    rw [Fin.eq_zero i, hdelivered]
    exact .cons ⟨hother, hcarries⟩ .nil)
  have hkey := hcarries.uid_eq
  rw [Delivery.uid] at hkey
  simp only [shown, Fin.sum_univ_one, hreceived, hcounters, countBufs_eq, List.countP_singleton,
    List.take_succ_cons, List.take_zero, List.count_singleton, hkey, decide_eq_true_eq,
    beq_iff_eq] at hright
  by_cases hsame : counterKey (bit.apply other) = uid
  · by_cases heq : other = .ofNat uid
    · exact ⟨fun _ => heq, fun _ => hsame⟩
    · rw [if_pos hsame, if_neg heq] at hright
      cases hright
  · by_cases heq : other = .ofNat uid
    · rw [if_neg hsame, if_pos heq] at hright
      cases hright
    · exact ⟨fun h => absurd h hsame, fun h => absurd h heq⟩

theorem lt_of_counterKey_eq {bit : ToBit} {uid : Nat}
    (h : counterKey (bit.apply (.ofNat uid)) = uid) : uid < 256 := by
  have hlt : uid < 2 ^ 32 := by
    rw [← h]
    exact Nat.lt_of_le_of_lt (Nat.sub_le _ _) (UInt32.toNat_lt _)
  rw [bit.integers uid (by omega)] at h
  have hself : counterKey (UInt32.ofNat uid) = (UInt32.ofNat uid).toNat := by
    rw [h, UInt32.toNat_ofNat_of_lt' hlt]
  have hbyte := (counterKey_eq_iff _).mp hself
  rw [UInt32.lt_iff_toNat_lt, UInt32.toNat_ofNat_of_lt' hlt] at hbyte
  exact hbyte

theorem statsRight_iff {bit : ToBit} {uids : List LuaNumber} {uid : Nat} (hmem : .ofNat uid ∈ uids) :
    StatsRight bit uids uid ↔
      uid < 256 ∧ ∀ other ∈ uids, other ≠ .ofNat uid → counterKey (bit.apply other) ≠ uid := by
  constructor
  · intro h
    constructor
    · exact lt_of_counterKey_eq ((counterKey_of_statsRight h hmem).mpr rfl)
    · intro other hother hne hkey
      exact hne ((counterKey_of_statsRight h hother).mp hkey)
  · intro h
    exact statsRight_of_alone h.1 h.2

/-! ## Uids by default -/

namespace Instances

def byDefault (tonumber : String → Option LuaNumber) (n : Nat) : Instances :=
  empty.run tonumber (List.replicate n .nil)

theorem uids_instantiate_nil (tonumber : String → Option LuaNumber) (s : Instances) :
    (s.instantiate tonumber .nil).uids = .ofNat (nextUid s.uids) :: s.uids := rfl

theorem mem_uids_byDefault (tonumber : String → Option LuaNumber) (n : Nat) (number : LuaNumber) :
    number ∈ (byDefault tonumber n).uids ↔ ∃ m, 0 < m ∧ m ≤ n ∧ number = .ofNat m := by
  induction n generalizing number with
  | zero =>
      constructor
      · intro h
        cases h
      · rintro ⟨m, hpos, hle, -⟩
        omega
  | succ n ih =>
      have hrun : byDefault tonumber (n + 1) = (byDefault tonumber n).instantiate tonumber .nil := by
        rw [byDefault, byDefault, run, List.replicate_succ', List.foldl_append]
        rfl
      have hfree : IsLeast (freeUids (byDefault tonumber n).uids) (n + 1) := by
        constructor
        · refine ⟨Nat.succ_pos n, ?_⟩
          rw [ih]
          rintro ⟨m, -, hle, heq⟩
          have := LuaNumber.ofNat_injective heq
          omega
        · intro m hm
          by_contra hlt
          exact hm.2 ((ih _).mpr ⟨m, hm.1, by omega, rfl⟩)
      have hnext := (nextUid_isLeast (byDefault tonumber n).uids).unique hfree
      rw [hrun, uids_instantiate_nil, hnext, List.mem_cons, ih]
      constructor
      · rintro (rfl | ⟨m, hpos, hle, rfl⟩)
        · exact ⟨n + 1, Nat.succ_pos n, Nat.le_refl _, rfl⟩
        · exact ⟨m, hpos, Nat.le_succ_of_le hle, rfl⟩
      · rintro ⟨m, hpos, hle, rfl⟩
        rcases Nat.lt_or_eq_of_le hle with hlt | rfl
        · exact .inr ⟨m, hpos, Nat.le_of_lt_succ hlt, rfl⟩
        · exact .inl rfl

theorem statsRight_byDefault (bit : ToBit) (tonumber : String → Option LuaNumber) {n : Nat}
    (hn : n ≤ 255) {uid : Nat} (huid : .ofNat uid ∈ (byDefault tonumber n).uids) :
    StatsRight bit (byDefault tonumber n).uids uid := by
  have hbyte : ∀ m, .ofNat m ∈ (byDefault tonumber n).uids → m < 256 := by
    intro m hm
    obtain ⟨l, -, hle, heq⟩ := (mem_uids_byDefault tonumber n _).mp hm
    have hml := LuaNumber.ofNat_injective heq
    omega
  apply statsRight_of_alone (hbyte uid huid)
  intro other hother hne hkey
  obtain ⟨m, -, -, rfl⟩ := (mem_uids_byDefault tonumber n other).mp hother
  rw [counterKey_ofNat bit (hbyte m hother)] at hkey
  exact hne (congrArg LuaNumber.ofNat hkey)

/-- The flows with the uids 255 and 256 share a counter. -/
theorem not_statsRight_byDefault (bit : ToBit) (tonumber : String → Option LuaNumber) {n : Nat}
    (hn : 255 < n) :
    .ofNat 255 ∈ (byDefault tonumber n).uids ∧ ¬ StatsRight bit (byDefault tonumber n).uids 255 := by
  have hmem : ∀ m, 0 < m → m ≤ 256 → .ofNat m ∈ (byDefault tonumber n).uids := by
    intro m hpos hle
    exact (mem_uids_byDefault tonumber n _).mpr ⟨m, hpos, by omega, rfl⟩
  refine ⟨hmem 255 (by decide) (by decide), ?_⟩
  intro hright
  have hshared := (counterKey_of_statsRight hright (hmem 256 (by decide) (by decide))).mp
  rw [bit.integers 256 (by decide)] at hshared
  have hequal := LuaNumber.ofNat_injective (hshared (by decide))
  cases hequal

end Instances

/-! ## Threads that have ended -/

theorem ended_thread {s u : Fin k → CountState} {senders : Fin k → Nat}
    {events later : List (Fin k × CountEvent)}
    (hrun : runs (threadsStep env) (fun i => .init (senders i)) events = some s)
    (hlater : runs (threadsStep env) s later = some u) {i : Fin k} (hended : (s i).place = .ended) :
    (u i).counters = (s i).counters ∧
      (u i).rxQueue = (s i).rxQueue ++ deliveries (inputsOf i later) := by
  have hs := tracked_threads hrun i
  have hwhole : runs (threadsStep env) (fun i => .init (senders i)) (events ++ later) = some u := by
    rw [runs_append, hrun]
    exact hlater
  have hu := tracked_threads hwhole i
  have hreceived := (CountEnv.ended_run hended (runs_component hlater i)).2
  have hdelivered := (CountEnv.runs_sums (runs_component hlater i)).2
  constructor
  · funext key
    rw [hu.counted, hs.counted, hreceived, hdelivered, List.take_append_of_le_length hs.within]
  · rw [hu.queue, hs.queue, hreceived, hdelivered, List.drop_append_of_le_length hs.within]

/-- The statistics of a device. For any flows, the counters of one of them are right in every run
exactly when its uid has one byte and no other uid in use has its key; of flows with uids by
default, all are right exactly when there are no more than 255. A thread that has ended does
not count any more, and the packets of all flows that come into its queue stay there. -/
theorem flow_stats (bit : ToBit) (tonumber : String → Option LuaNumber) :
    (∀ (args : List UidArg) (uid : Nat), .ofNat uid ∈ (Instances.empty.run tonumber args).uids →
      (StatsRight bit (Instances.empty.run tonumber args).uids uid ↔
        uid < 256 ∧ ∀ other ∈ (Instances.empty.run tonumber args).uids, other ≠ .ofNat uid →
          counterKey (bit.apply other) ≠ uid)) ∧
      (∀ n, (∀ uid, .ofNat uid ∈ (Instances.byDefault tonumber n).uids →
        StatsRight bit (Instances.byDefault tonumber n).uids uid) ↔ n ≤ 255) ∧
      ∀ (k : Nat) (env : Fin k → CountEnv) (senders : Fin k → Nat)
        (events later : List (Fin k × CountEvent)) (s u : Fin k → CountState) (i : Fin k),
        runs (threadsStep env) (fun i => .init (senders i)) events = some s →
        runs (threadsStep env) s later = some u → (s i).place = .ended →
        (u i).counters = (s i).counters ∧
          (u i).rxQueue = (s i).rxQueue ++ deliveries (inputsOf i later) := by
  refine ⟨fun args uid huid => statsRight_iff huid, ?_, ?_⟩
  · intro n
    constructor
    · intro hall
      by_contra hn
      obtain ⟨hmem, hwrong⟩ := Instances.not_statsRight_byDefault bit tonumber (Nat.lt_of_not_le hn)
      exact hwrong (hall 255 hmem)
    · intro hn uid huid
      exact Instances.statsRight_byDefault bit tonumber hn huid
  · intro k env senders events later s u i hrun hlater hended
    exact ended_thread hrun hlater hended

theorem flow_stats_ended :
    ∃ s u : Fin 1 → CountState,
      runs (threadsStep fun _ => CountEnv.second) (fun _ => .init 1)
        (finding.map (Prod.mk 0) ++ [(0, .check 10)]) = some s ∧
      runs (threadsStep fun _ => CountEnv.second) s
        [(0, .deliver 11 (tagged 7 (List.replicate 60 0)))] = some u ∧
      (s 0).place = .ended ∧ (u 0).counters = (s 0).counters ∧
      (u 0).rxQueue = (s 0).rxQueue ++ [⟨11, tagged 7 (List.replicate 60 0)⟩] := by
  have hend : (runs (threadsStep fun _ => CountEnv.second) (fun _ => .init 1)
      (finding.map (Prod.mk (0 : Fin 1)) ++ [(0, .check 10)])).map
        (fun s => ((s 0).place, (s 0).clock)) = some (.ended, 10) := by
    decide +kernel
  obtain ⟨s, hrun, hs⟩ := Option.map_eq_some_iff.mp hend
  simp only [Prod.mk.injEq] at hs
  have hstep : ∃ u, runs (threadsStep fun _ => CountEnv.second) s
      [(0, .deliver 11 (tagged 7 (List.replicate 60 0)))] = some u := by
    have hclock : (s 0).clock ≤ 11 := by
      rw [hs.2]
      decide +kernel
    simp [runs, threadsStep, Interleave.step, CountEnv.step, hclock]
  obtain ⟨u, hu⟩ := hstep
  exact ⟨s, u, hrun, hu, hs.1,
    (flow_stats default fun _ => none).2.2 1 _ (fun _ => 1) _ _ s u 0 hrun hu hs.1⟩

end Threads

end MoonGen.Interface

import MoonGen.Interface.Counter

/-! # Threads that wait for the load threads

Three threads of the interface look at the counters of the flows, again and again, to find
out when the load threads are finished. They look at one counter after the other while the
load threads go on, and each look takes two reads. The manager of the ARP task, here, does
nothing else; it does not ask `mg.running`.
-/

namespace MoonGen.Interface

open Loop

/-- The counters of the flows over time. From one instant to the next a counter may make a
step or none. -/
structure Timeline (F : Type) where
  /-- The number of load threads, one for each transmitting device of the flow. -/
  senders : F → Nat
  state : Nat → F → Tracker
  start : ∀ f, state 0 f = Tracker.new (senders f)
  next : ∀ t f, state (t + 1) f = state t f ∨ ∃ a, (state t f).step a = some (state (t + 1) f)

namespace Timeline

variable {F : Type} (tl : Timeline F)

def InTurn : Prop :=
  ∀ t f a, (tl.state t f).step a = some (tl.state (t + 1) f) → (tl.state t f).InTurn a

theorem keeps (inv : F → Tracker → Prop) (init : ∀ f, inv f (Tracker.new (tl.senders f)))
    (step : ∀ t f a, inv f (tl.state t f) → (tl.state t f).step a = some (tl.state (t + 1) f) →
      inv f (tl.state (t + 1) f)) (t : Nat) (f : F) : inv f (tl.state t f) := by
  induction t with
  | zero =>
      rw [tl.start]
      exact init f
  | succ t ih =>
      rcases tl.next t f with hsame | ⟨a, ha⟩
      · rw [hsame]
        exact ih
      · exact step t f a ih ha

theorem inv (t : Nat) (f : F) : (tl.state t f).Inv :=
  tl.keeps (fun _ s => s.Inv) (fun _ => Tracker.new_inv _) (fun _ _ _ h hstep => h.step hstep) t f

theorem length_senders (t : Nat) (f : F) : (tl.state t f).senders.length = tl.senders f := by
  refine tl.keeps (fun f s => s.senders.length = tl.senders f) ?_ ?_ t f
  · intro f
    exact List.length_replicate
  · intro t f a h hstep
    rcases Tracker.step_cases hstep with ⟨i, -, -, -, hs, -⟩ | ⟨i, -, -, hs, -⟩ | ⟨i, -, -, -, hs, -⟩
    all_goals
      rw [hs]
      simpa using h

theorem active_of_finished (t : Nat) (f : F) (h : Phase.finished ∈ (tl.state t f).senders) :
    (tl.state t f).active = 1 := by
  refine tl.keeps (fun _ s => Phase.finished ∈ s.senders → s.active = 1) ?_ ?_ t f h
  · intro f hmem
    have hwaiting := List.eq_of_mem_replicate hmem
    cases hwaiting
  · intro t f a h hstep hmem
    rcases Tracker.step_cases hstep with ⟨i, -, -, -, hs, -⟩ | ⟨i, -, -, hs, -⟩ |
      ⟨i, -, hget, -, hs, -⟩
    · rw [hs] at hmem ⊢
      rcases List.mem_or_eq_of_mem_set hmem with hmem | heq
      · exact h hmem
      · cases heq
    · rw [hs]
    · rw [hs]
      exact (tl.inv t f).active_set (List.mem_of_getElem? hget)

variable {tl}

theorem InTurn.neverEarly (h : tl.InTurn) (t : Nat) (f : F) :
    (tl.state t f).holding < 2 ^ 32 ∧ (tl.state t f).NeverEarly := by
  refine tl.keeps (fun _ s => s.holding < 2 ^ 32 ∧ s.NeverEarly) ?_ ?_ t f
  · intro f
    exact ⟨by rw [Tracker.holding_new]; decide, Tracker.new_neverEarly _⟩
  · intro t f a hs hstep
    have hturn := h t f a hstep
    exact ⟨hturn.small hs.1 hstep, (Tracker.neverEarly_step (tl.inv t f) hs.1 hstep).mpr hturn⟩

/-- With one transmitting device for each flow at most, all steps are in turn. -/
theorem inTurn_of_one_sender (h : ∀ f, tl.senders f ≤ 1) : tl.InTurn := by
  intro t f a hstep
  have hlen : (tl.state t f).senders.length ≤ 1 := by
    rw [tl.length_senders]
    exact h f
  have hfew : (tl.state t f).holding ≤ 1 := List.countP_le_length.trans hlen
  cases a with
  | inc i =>
      show (tl.state t f).holding + 1 < 2 ^ 32
      omega
  | activate i => trivial
  | dec i =>
      intro _ hwaiting
      rcases Tracker.step_cases hstep with ⟨j, hj, -⟩ | ⟨j, hj, -⟩ | ⟨j, -, hget, -⟩
      · cases hj
      · cases hj
      · -- the only load thread is sending
        obtain ⟨p, hp⟩ := List.length_eq_one_iff.mp
          (Nat.le_antisymm hlen (List.length_pos_of_mem hwaiting))
        rw [hp] at hget hwaiting
        have hsending : Phase.sending = p := List.mem_singleton.mp (List.mem_of_getElem? hget)
        rw [← hsending, List.mem_singleton] at hwaiting
        cases hwaiting

theorem allFinished_mono {t t' : Nat} {f : F} (hle : t ≤ t')
    (h : (tl.state t f).AllFinished) : (tl.state t' f).AllFinished := by
  induction hle with
  | refl => exact h
  | step _ ih =>
      rename_i m _
      rcases tl.next m f with hsame | ⟨a, ha⟩
      · rw [hsame]
        exact ih
      · rcases Tracker.step_cases ha with ⟨i, -, hget, -⟩ | ⟨i, -, hget, -⟩ | ⟨i, -, hget, -⟩
        all_goals
          have hbad := ih _ (List.mem_of_getElem? hget)
          cases hbad

theorem active_mono {t t' : Nat} {f : F} (hle : t ≤ t') (h : (tl.state t f).active = 1) :
    (tl.state t' f).active = 1 := by
  induction hle with
  | refl => exact h
  | step _ ih =>
      rename_i m _
      rcases tl.next m f with hsame | ⟨a, ha⟩
      · rw [hsame]
        exact ih
      · exact Tracker.active_step ha ih

/-- What `isZero` reads of a counter: `active` at one time and `count` at another, not before. -/
structure Reads (tl : Timeline F) (f : F) (first second : Nat) (v : UInt8 × UInt32) : Prop where
  le : first ≤ second
  active : v.1 = (tl.state first f).active
  count : v.2 = (tl.state second f).count

theorem Reads.finished {f : F} {first second : Nat} {v : UInt8 × UInt32}
    (h : tl.Reads f first second v) (hzero : isZero v.1 v.2 = true) :
    0 < tl.senders f ∧ (tl.InTurn → (tl.state second f).AllFinished) := by
  obtain ⟨hactive, hcount⟩ : v.1 = 1 ∧ v.2 = 0 := by simpa [isZero] using hzero
  rw [h.active] at hactive
  rw [h.count] at hcount
  have hstill := active_mono h.le hactive
  refine ⟨?_, fun hturn => (hturn.neverEarly second f).2 hstill hcount⟩
  -- a counter without load threads has never been set active
  have hsome : ∀ t, 0 < tl.senders f ∨ (tl.state t f).active = 0 := by
    intro t
    refine tl.keeps (fun f s => 0 < tl.senders f ∨ s.active = 0) ?_ ?_ t f
    · exact fun f => .inr rfl
    · intro t f a _ hstep
      left
      rw [← tl.length_senders t f]
      rcases Tracker.step_cases hstep with ⟨i, -, hget, -⟩ | ⟨i, -, hget, -⟩ | ⟨i, -, hget, -⟩
      all_goals exact List.length_pos_of_mem (List.mem_of_getElem? hget)
  rcases hsome first with hpos | hzero
  · exact hpos
  · rw [hactive] at hzero
    cases hzero

theorem Reads.isZero {f : F} {first second : Nat} {v : UInt8 × UInt32}
    (h : tl.Reads f first second v) (hpos : 0 < tl.senders f)
    (hall : (tl.state first f).AllFinished) : isZero v.1 v.2 = true := by
  have hactive : (tl.state first f).active = 1 := by
    obtain ⟨p, hp⟩ := List.exists_mem_of_length_pos
      (show 0 < (tl.state first f).senders.length by rw [tl.length_senders]; exact hpos)
    rw [hall p hp] at hp
    exact tl.active_of_finished first f hp
  have hidle : (tl.state second f).holding = 0 := by
    refine List.countP_eq_zero.mpr ?_
    intro p hp
    rw [allFinished_mono h.le hall p hp]
    decide
  have hcount : (tl.state second f).count = 0 := by
    rw [(tl.inv second f).count_eq, hidle]
    rfl
  simp [Interface.isZero, h.active, h.count, hactive, hcount]

def Done (tl : Timeline F) (t : Nat) (f : F) : Prop :=
  0 < tl.senders f ∧ (tl.state t f).AllFinished

theorem Done.mono {t t' : Nat} {f : F} (h : tl.Done t f) (hle : t ≤ t') : tl.Done t' f :=
  ⟨h.1, allFinished_mono hle h.2⟩

structure Passes where
  start : Nat → Nat
  lt : ∀ n, start n < start (n + 1)

def Passes.Sees (passes : Passes) (tl : Timeline F) (n : Nat) (f : F) (v : UInt8 × UInt32) : Prop :=
  ∃ first second, passes.start n ≤ first ∧ second ≤ passes.start (n + 1) ∧
    tl.Reads f first second v

theorem Passes.mono (passes : Passes) {m n : Nat} (h : m ≤ n) : passes.start m ≤ passes.start n := by
  induction h with
  | refl => exact Nat.le_refl _
  | step _ ih => exact ih.trans (passes.lt _).le

theorem Passes.Sees.done {passes : Passes} {n : Nat} {f : F} {v : UInt8 × UInt32}
    (h : passes.Sees tl n f v) (hzero : Interface.isZero v.1 v.2 = true) :
    0 < tl.senders f ∧ (tl.InTurn → tl.Done (passes.start (n + 1)) f) := by
  obtain ⟨first, second, _, hsecond, hreads⟩ := h
  obtain ⟨hpos, hall⟩ := hreads.finished hzero
  exact ⟨hpos, fun hturn => ⟨hpos, allFinished_mono hsecond (hall hturn)⟩⟩

theorem Passes.Sees.isZero {passes : Passes} {n : Nat} {f : F} {v : UInt8 × UInt32}
    (h : passes.Sees tl n f v) (hdone : tl.Done (passes.start n) f) :
    Interface.isZero v.1 v.2 = true := by
  obtain ⟨first, second, hfirst, _, hreads⟩ := h
  exact hreads.isZero hdone.1 (allFinished_mono hfirst hdone.2)

def threeSteps (F : Type) : Timeline F where
  senders := fun _ => 1
  state := fun t _ =>
    match t with
    | 0 => .new 1
    | 1 => ⟨0, 1, [.raised]⟩
    | 2 => ⟨1, 1, [.sending]⟩
    | _ => ⟨1, 0, [.finished]⟩
  start := fun _ => rfl
  next := fun t _ =>
    match t with
    | 0 => .inr ⟨.inc 0, by decide +kernel⟩
    | 1 => .inr ⟨.activate 0, by decide +kernel⟩
    | 2 => .inr ⟨.dec 0, by decide +kernel⟩
    | _ + 3 => .inl rfl

end Timeline

/-! ## The manager of the ARP task -/

namespace Arp

variable {F : Type}

/-- The loop over the flows: `read` has what `isZero` reads for the flow with a number. -/
def anyActive (read : Nat → F → UInt8 × UInt32) (flows : List F) : Bool :=
  flows.zipIdx.foldl
    (fun isActive p => if !isZero (read p.2 p.1).1 (read p.2 p.1).2 then true else isActive) false

structure Manager where
  isActive : Bool
  passes : Nat

def pass (read : Nat → Nat → F → UInt8 × UInt32) (flows : List F) (s : Manager) : Manager :=
  ⟨anyActive (read s.passes) flows, s.passes + 1⟩

/-- The number of passes after which `arp.stopArpTask` is called. -/
def arpManagerThread (read : Nat → Nat → F → UInt8 × UInt32) (flows : List F) (fuel : Nat) :
    Option Nat :=
  (whileFuel Manager.isActive (pass read flows) fuel ⟨true, 0⟩).map Manager.passes

theorem anyActive_eq_false_iff (read : Nat → F → UInt8 × UInt32) (flows : List F) :
    anyActive read flows = false ↔
      ∀ p ∈ flows.zipIdx, isZero (read p.2 p.1).1 (read p.2 p.1).2 = true := by
  have hfold : ∀ (ps : List (F × Nat)) (isActive : Bool),
      ps.foldl (fun isActive p =>
        if !isZero (read p.2 p.1).1 (read p.2 p.1).2 then true else isActive) isActive = false ↔
        isActive = false ∧ ∀ p ∈ ps, isZero (read p.2 p.1).1 (read p.2 p.1).2 = true := by
    intro ps
    induction ps with
    | nil => simp
    | cons p rest ih =>
        intro isActive
        rw [List.foldl_cons, ih, List.forall_mem_cons]
        cases isZero (read p.2 p.1).1 (read p.2 p.1).2 with
        | true => simp
        | false => simp
  rw [anyActive, hfold]
  simp

theorem exists_zipIdx {flows : List F} {f : F} (h : f ∈ flows) (i : Nat) :
    ∃ k, (f, k) ∈ flows.zipIdx i := by
  rw [← List.zipIdx_map_fst i flows] at h
  obtain ⟨p, hp, rfl⟩ := List.mem_map.mp h
  exact ⟨p.2, hp⟩

/-- A pass that finds a flow active starts before the last one is finished. -/
theorem lt_of_anyActive {tl : Timeline F} {passes : Timeline.Passes} {flows : List F}
    {read : Nat → Nat → F → UInt8 × UInt32} (hread : ∀ n k f, passes.Sees tl n f (read n k f))
    {m n : Nat} (hdone : ∀ f ∈ flows, tl.Done (passes.start m) f)
    (hactive : anyActive (read n) flows = true) : n < m := by
  by_contra hlate
  have hidle : anyActive (read n) flows = false := by
    rw [anyActive_eq_false_iff]
    intro p hp
    have hf : p.1 ∈ flows := List.fst_mem_of_mem_zipIdx hp
    exact (hread n p.2 p.1).isZero ((hdone p.1 hf).mono (passes.mono (by omega)))
  rw [hidle] at hactive
  cases hactive

/-- Where the steps of the load threads are in turn, the manager calls `stopArpTask` only after
all load threads of all its flows are finished, whatever they did while it went from counter to
counter. It does so one pass after the last one at the latest. A flow without load threads, which
only receives, keeps it from ever stopping. -/
theorem arpManager_stops (tl : Timeline F) (passes : Timeline.Passes) (flows : List F)
    (read : Nat → Nat → F → UInt8 × UInt32) (hread : ∀ n k f, passes.Sees tl n f (read n k f)) :
    (∀ fuel n, arpManagerThread read flows fuel = some n →
      ∀ f ∈ flows, 0 < tl.senders f ∧ (tl.InTurn → tl.Done (passes.start n) f)) ∧
    ∀ m, (∀ f ∈ flows, tl.Done (passes.start m) f) →
      ∃ n ≤ m + 1, arpManagerThread read flows (m + 1) = some n := by
  constructor
  · intro fuel n hend f hf
    obtain ⟨s, hs, rfl⟩ := Option.map_eq_some_iff.mp hend
    -- after a pass that found nothing active, the flows were finished when it ended
    have hinv := whileFuel_invariant
      (fun s : Manager => s.isActive = false → ∀ f ∈ flows,
        0 < tl.senders f ∧ (tl.InTurn → tl.Done (passes.start s.passes) f))
      (by
        intro s _ _ hidle f hf
        obtain ⟨k, hk⟩ := exists_zipIdx hf 0
        exact (hread s.passes k f).done ((anyActive_eq_false_iff _ _).mp hidle _ hk))
      (s := ⟨true, 0⟩) (by intro h; cases h) hs
    exact hinv.1 hinv.2 f hf
  · intro m hdone
    let inv : Manager → Prop := fun s => s.passes ≤ m + 1 ∧ (s.isActive = true → s.passes ≤ m)
    have hbody : ∀ s, inv s → s.isActive = true → inv (pass read flows s) :=
      fun s hs hg => ⟨Nat.succ_le_succ (hs.2 hg), lt_of_anyActive hread hdone⟩
    have hinit : inv ⟨true, 0⟩ := ⟨Nat.zero_le _, fun _ => Nat.zero_le m⟩
    have hdown : ∀ s, inv s → s.isActive = true →
        inv (pass read flows s) ∧ m + 1 - (pass read flows s).passes < m + 1 - s.passes := by
      intro s hs hg
      have hle := hs.2 hg
      refine ⟨hbody s hs hg, ?_⟩
      show m + 1 - (s.passes + 1) < m + 1 - s.passes
      omega
    obtain ⟨s, hs⟩ := whileFuel_terminates inv (fun s => m + 1 - s.passes) hdown hinit
      (Nat.le_refl _)
    exact ⟨s.passes, (whileFuel_invariant inv hbody hinit hs).1.1,
      congrArg (Option.map Manager.passes) hs⟩

theorem arpManager_stops_one_flow :
    ∃ n ≤ 3, arpManagerThread (fun n _ f => (((Timeline.threeSteps Unit).state (2 * n) f).active,
        ((Timeline.threeSteps Unit).state (2 * n) f).count)) [()] 3 = some n ∧
      (Timeline.threeSteps Unit).Done (2 * n) () := by
  have hmain := arpManager_stops (Timeline.threeSteps Unit) ⟨fun n => 2 * n, fun n => by omega⟩ [()]
    (fun n _ f => (((Timeline.threeSteps Unit).state (2 * n) f).active,
      ((Timeline.threeSteps Unit).state (2 * n) f).count)) (by
    intro n k f
    exact ⟨2 * n, 2 * n, Nat.le_refl _, by show 2 * n ≤ 2 * (n + 1); omega, Nat.le_refl _, rfl, rfl⟩)
  have hturn : (Timeline.threeSteps Unit).InTurn :=
    Timeline.inTurn_of_one_sender fun _ => Nat.le_refl 1
  obtain ⟨n, hn, hend⟩ := hmain.2 2 (by
    intro f _
    refine ⟨Nat.one_pos, ?_⟩
    intro p hp
    exact List.mem_singleton.mp hp)
  exact ⟨n, hn, hend, (hmain.1 3 n hend () (List.mem_singleton.mpr rfl)).2 hturn⟩

end Arp

end MoonGen.Interface

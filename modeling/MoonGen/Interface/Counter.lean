import Mathlib.Algebra.Order.Ring.Nat
import MoonGen.Lib.Loop

/-! # Activity tracking

The load threads of a flow share one `counter`: each calls `inc` before its send
loop and `dec` after it. Other threads call `isZero` to find out whether the flow
is finished. `inc` and `dec` hold the lock, `isZero` does not, and it reads
`active` before `count`.
-/

namespace MoonGen.Interface

open Loop

/-- Where a load thread stands. `raised` is inside `inc`, after its write of `count`
and before its write of `active`. -/
inductive Phase where
  | waiting
  | raised
  | sending
  | finished
deriving Repr, DecidableEq

def Phase.holds : Phase → Bool
  | .raised | .sending => true
  | .waiting | .finished => false

/-- `struct counter` and the load threads that share it. -/
structure Tracker where
  active : UInt8
  count : UInt32
  senders : List Phase
deriving Repr, DecidableEq

/-- `mod.new`, with `n` load threads that have not started. -/
def Tracker.new (n : Nat) : Tracker := ⟨0, 0, List.replicate n .waiting⟩

/-- `isZero`, for the values that it reads. -/
def isZero (active : UInt8) (count : UInt32) : Bool := active == 1 && count == 0

inductive CounterStep where
  /-- Load thread `i` takes the lock and writes `count`. -/
  | inc (i : Nat)
  /-- It writes `active` and releases the lock. -/
  | activate (i : Nat)
  /-- Load thread `i` runs `dec`. -/
  | dec (i : Nat)
deriving Repr, DecidableEq

namespace Tracker

def step (s : Tracker) : CounterStep → Option Tracker
  | .inc i =>
      if s.senders[i]? = some .waiting ∧ Phase.raised ∉ s.senders then
        some { s with count := s.count + 1, senders := s.senders.set i .raised }
      else none
  | .activate i =>
      if s.senders[i]? = some .raised then
        some { s with active := 1, senders := s.senders.set i .sending }
      else none
  | .dec i =>
      if s.senders[i]? = some .sending ∧ Phase.raised ∉ s.senders then
        some { s with count := s.count - 1, senders := s.senders.set i .finished }
      else none

def holding (s : Tracker) : Nat := s.senders.countP Phase.holds

/-! ## What every interleaving keeps -/

structure Inv (s : Tracker) : Prop where
  count_eq : s.count = UInt32.ofNat s.holding
  active_set : Phase.sending ∈ s.senders → s.active = 1

theorem holding_set {s : Tracker} {i : Nat} {before after : Phase}
    (h : s.senders[i]? = some before) :
    (s.senders.set i after).countP Phase.holds + (if before.holds then 1 else 0) =
      s.holding + if after.holds then 1 else 0 := by
  obtain ⟨hi, hget⟩ := List.getElem?_eq_some_iff.mp h
  have hpos : before.holds = true → 0 < s.senders.countP Phase.holds := by
    intro hholds
    exact List.countP_pos_iff.mpr ⟨before, List.mem_of_getElem? h, hholds⟩
  rw [List.countP_set hi, hget, holding]
  by_cases hb : before.holds = true
  · have := hpos hb
    simp only [hb, if_true]
    omega
  · simp only [hb, Bool.false_eq_true, if_false]
    omega

theorem holding_new (n : Nat) : (new n).holding = 0 := by
  rw [holding, List.countP_eq_zero]
  intro p hp
  rw [List.eq_of_mem_replicate hp]
  decide

theorem new_inv (n : Nat) : Inv (new n) := by
  refine ⟨?_, ?_⟩
  · rw [holding_new]
    rfl
  · intro h
    have hw := List.eq_of_mem_replicate h
    cases hw

theorem step_cases {s t : Tracker} {a : CounterStep} (h : s.step a = some t) :
    (∃ i, a = .inc i ∧ s.senders[i]? = some .waiting ∧ Phase.raised ∉ s.senders ∧
      t = { s with count := s.count + 1, senders := s.senders.set i .raised } ∧
      t.holding = s.holding + 1) ∨
    (∃ i, a = .activate i ∧ s.senders[i]? = some .raised ∧
      t = { s with active := 1, senders := s.senders.set i .sending } ∧ t.holding = s.holding) ∨
    (∃ i, a = .dec i ∧ s.senders[i]? = some .sending ∧ Phase.raised ∉ s.senders ∧
      t = { s with count := s.count - 1, senders := s.senders.set i .finished } ∧
      t.holding + 1 = s.holding) := by
  cases a with
  | inc i =>
      simp only [step] at h
      split at h
      next hg =>
        cases h
        exact .inl ⟨i, rfl, hg.1, hg.2, rfl, holding_set hg.1⟩
      next => cases h
  | activate i =>
      simp only [step] at h
      split at h
      next hg =>
        cases h
        exact .inr (.inl ⟨i, rfl, hg, rfl, Nat.succ.inj (holding_set hg)⟩)
      next => cases h
  | dec i =>
      simp only [step] at h
      split at h
      next hg =>
        cases h
        exact .inr (.inr ⟨i, rfl, hg.1, hg.2, rfl, holding_set hg.1⟩)
      next => cases h

theorem Inv.step {s t : Tracker} {a : CounterStep} (h : Inv s) (hstep : s.step a = some t) :
    Inv t := by
  rcases step_cases hstep with ⟨i, -, -, -, rfl, hhold⟩ | ⟨i, -, -, rfl, hhold⟩ |
    ⟨i, -, hget, -, ht, hhold⟩
  · refine ⟨?_, ?_⟩
    · rw [hhold, UInt32.ofNat_add, ← h.count_eq]
      rfl
    · intro hmem
      rcases List.mem_or_eq_of_mem_set hmem with hmem | heq
      · exact h.active_set hmem
      · cases heq
  · refine ⟨?_, fun _ => rfl⟩
    rw [hhold]
    exact h.count_eq
  · have hcount : s.count = UInt32.ofNat t.holding + 1 := by
      rw [h.count_eq, ← hhold, UInt32.ofNat_add]
      rfl
    subst ht
    refine ⟨?_, fun _ => h.active_set (List.mem_of_getElem? hget)⟩
    exact (congrArg (· - 1) hcount).trans (UInt32.add_sub_cancel _ _)

theorem Inv.count_eq_zero_iff {s : Tracker} (h : Inv s) (hsmall : s.holding < 2 ^ 32) :
    s.count = 0 ↔ s.holding = 0 := by
  rw [h.count_eq, ← UInt32.toNat_inj, UInt32.toNat_ofNat', Nat.mod_eq_of_lt hsmall]
  rfl

theorem active_step {s t : Tracker} {a : CounterStep} (h : s.step a = some t)
    (hactive : s.active = 1) : t.active = 1 := by
  rcases step_cases h with ⟨i, -, -, -, rfl, -⟩ | ⟨i, -, -, rfl, -⟩ | ⟨i, -, -, -, rfl, -⟩
  · exact hactive
  · rfl
  · exact hactive

/-! ## When `isZero` is right -/

def AllFinished (s : Tracker) : Prop := ∀ p ∈ s.senders, p = .finished

/-- In this state the counter reads as zero only if all load threads are finished. -/
def NeverEarly (s : Tracker) : Prop := s.active = 1 → s.count = 0 → s.AllFinished

/-- The condition on the state before a step: no load thread lowers the count to zero
while another has yet to raise it, and no load thread raises it beyond 32 bits. -/
def InTurn (s : Tracker) : CounterStep → Prop
  | .inc _ => s.holding + 1 < 2 ^ 32
  | .activate _ => True
  | .dec _ => s.holding = 1 → Phase.waiting ∉ s.senders

theorem holding_pos {s : Tracker} {i : Nat} {p : Phase} (h : s.senders[i]? = some p)
    (hholds : p.holds = true) : 0 < s.holding :=
  List.countP_pos_iff.mpr ⟨p, List.mem_of_getElem? h, hholds⟩

theorem allFinished_of_idle {s : Tracker} (hidle : s.holding = 0)
    (hnone : Phase.waiting ∉ s.senders) : s.AllFinished := by
  intro p hp
  have hfree := List.countP_eq_zero.mp hidle p hp
  cases p with
  | waiting => exact absurd hp hnone
  | raised => exact absurd rfl hfree
  | sending => exact absurd rfl hfree
  | finished => rfl

theorem neverEarly_inc {s t : Tracker} {i : Nat} (h : Inv s) (hsmall : s.holding < 2 ^ 32)
    (hstep : s.step (.inc i) = some t) : t.NeverEarly ↔ s.InTurn (.inc i) := by
  have hinv := h.step hstep
  rcases step_cases hstep with ⟨k, hk, hget, hfree, ht, hhold⟩ | ⟨k, hk, -⟩ | ⟨k, hk, -⟩
  · have hlen := (List.getElem?_eq_some_iff.mp hget).1
    have hraised : Phase.raised ∈ t.senders := by
      rw [ht]
      exact List.mem_set hlen _
    constructor
    · -- a count that wraps to zero is read while this thread is in `inc`
      intro hearly
      by_cases hwrap : s.holding + 1 < 2 ^ 32
      · exact hwrap
      · obtain ⟨p, hp, hholds⟩ : ∃ p ∈ s.senders, p.holds = true :=
          List.countP_pos_iff.mp (show 0 < s.holding by omega)
        have hsending : Phase.sending ∈ s.senders := by
          cases p with
          | raised => exact absurd hp hfree
          | sending => exact hp
          | waiting => cases hholds
          | finished => cases hholds
        have hactive : t.active = 1 := by
          rw [ht]
          exact h.active_set hsending
        have hzero : t.count = 0 := by
          rw [hinv.count_eq, hhold, show s.holding + 1 = 2 ^ 32 by omega]
          rfl
        have hbad := hearly hactive hzero .raised hraised
        cases hbad
    · intro hturn _ hzero
      have hturn : s.holding + 1 < 2 ^ 32 := hturn
      have hnone := (hinv.count_eq_zero_iff (by omega)).mp hzero
      omega
  · cases hk
  · cases hk

theorem neverEarly_activate {s t : Tracker} {i : Nat} (h : Inv s) (hsmall : s.holding < 2 ^ 32)
    (hstep : s.step (.activate i) = some t) : t.NeverEarly := by
  have hinv := h.step hstep
  rcases step_cases hstep with ⟨k, hk, -⟩ | ⟨k, hk, hget, ht, hhold⟩ | ⟨k, hk, -⟩
  · cases hk
  · intro _ hzero
    have hnone := (hinv.count_eq_zero_iff (by omega)).mp hzero
    have hpos := holding_pos hget rfl
    omega
  · cases hk

theorem neverEarly_dec {s t : Tracker} {i : Nat} (h : Inv s) (hsmall : s.holding < 2 ^ 32)
    (hstep : s.step (.dec i) = some t) : t.NeverEarly ↔ s.InTurn (.dec i) := by
  have hinv := h.step hstep
  rcases step_cases hstep with ⟨k, hk, -⟩ | ⟨k, hk, -⟩ | ⟨k, hk, hget, hfree, ht, hhold⟩
  · cases hk
  · cases hk
  · have hzero_iff := hinv.count_eq_zero_iff (by omega)
    have hactive : t.active = 1 := by
      rw [ht]
      exact h.active_set (List.mem_of_getElem? hget)
    constructor
    · intro hearly hone hwaiting
      have hall := hearly hactive (hzero_iff.mpr (by omega))
      -- the waiting thread is not the one that lowers the count
      obtain ⟨j, hj, hjget⟩ := List.getElem_of_mem hwaiting
      have hne : k ≠ j := by
        intro heq
        subst heq
        rw [List.getElem?_eq_getElem hj, hjget] at hget
        cases hget
      have hmem : Phase.waiting ∈ t.senders := by
        rw [ht]
        refine List.mem_of_getElem? (i := j) ?_
        rw [List.getElem?_set_ne hne, List.getElem?_eq_getElem hj, hjget]
      have hbad := hall .waiting hmem
      cases hbad
    · intro hturn _ hzero
      have hidle := hzero_iff.mp hzero
      apply allFinished_of_idle hidle
      intro hmem
      rw [ht] at hmem
      rcases List.mem_or_eq_of_mem_set hmem with hmem | heq
      · exact hturn (by omega) hmem
      · cases heq

/-- One step: the state it leaves is never early exactly when it was in turn. -/
theorem neverEarly_step {s t : Tracker} {a : CounterStep} (h : Inv s)
    (hsmall : s.holding < 2 ^ 32) (hstep : s.step a = some t) : t.NeverEarly ↔ s.InTurn a := by
  cases a with
  | inc i => exact neverEarly_inc h hsmall hstep
  | activate i => exact iff_of_true (neverEarly_activate h hsmall hstep) trivial
  | dec i => exact neverEarly_dec h hsmall hstep

theorem InTurn.small {s t : Tracker} {a : CounterStep} (h : s.InTurn a)
    (hsmall : s.holding < 2 ^ 32) (hstep : s.step a = some t) : t.holding < 2 ^ 32 := by
  rcases step_cases hstep with ⟨i, rfl, -, -, -, hhold⟩ | ⟨i, rfl, -, -, hhold⟩ |
    ⟨i, rfl, -, -, -, hhold⟩
  · rw [hhold]
    exact h
  · omega
  · omega

/-! ## Whole runs -/

/-- `isZero` returns true only after all load threads are finished, whenever in the run it
reads `active` and, later or at once, `count`. -/
def Sound (n : Nat) (actions : List CounterStep) : Prop :=
  ∀ i j first second, i ≤ j → runs step (new n) (actions.take i) = some first →
    runs step (new n) (actions.take j) = some second →
    isZero first.active second.count = true → second.AllFinished

theorem new_neverEarly (n : Nat) : (new n).NeverEarly := by
  intro hactive
  cases hactive

theorem neverEarly_run {s t : Tracker} {actions : List CounterStep} (hinv : Inv s)
    (hsmall : s.holding < 2 ^ 32) (hearly : s.NeverEarly) (hrun : runs step s actions = some t) :
    (∀ j mid, runs step s (actions.take j) = some mid → mid.NeverEarly) ↔
      Along step InTurn s actions := by
  induction actions generalizing s with
  | nil =>
      refine iff_of_true ?_ trivial
      intro j mid hmid
      rw [List.take_nil] at hmid
      cases hmid
      exact hearly
  | cons a rest ih =>
      obtain ⟨s', hstep, hrest⟩ := Option.bind_eq_some_iff.mp hrun
      have hiff := neverEarly_step hinv hsmall hstep
      constructor
      · intro hall
        have hturn : s.InTurn a := by
          apply hiff.mp
          exact hall 1 s' (by simp [runs, hstep])
        refine ⟨hturn, ?_⟩
        intro s'' hstep'
        rw [hstep] at hstep'
        cases hstep'
        apply (ih (hinv.step hstep) (hturn.small hsmall hstep) (hiff.mpr hturn) hrest).mp
        intro j mid hmid
        exact hall (j + 1) mid (by simpa [runs, hstep] using hmid)
      · intro halong j mid hmid
        cases j with
        | zero =>
            cases hmid
            exact hearly
        | succ j =>
            have hrec := (ih (hinv.step hstep) (halong.1.small hsmall hstep)
              (hiff.mpr halong.1) hrest).mpr (halong.2 s' hstep)
            exact hrec j mid (by simpa [runs, hstep] using hmid)

/-- The two unlocked reads of `isZero` see no more than one look at the later state. -/
theorem sound_iff_neverEarly (n : Nat) (actions : List CounterStep) :
    Sound n actions ↔
      ∀ j mid, runs step (new n) (actions.take j) = some mid → mid.NeverEarly := by
  constructor
  · intro h j mid hmid hactive hzero
    exact h j j mid mid (Nat.le_refl j) hmid hmid (by simp [isZero, hactive, hzero])
  · intro h i j first second hij hfirst hsecond hboth
    obtain ⟨hactive, hzero⟩ : first.active = 1 ∧ second.count = 0 := by
      simpa [isZero] using hboth
    have hsplit : actions.take j = actions.take i ++ (actions.take j).drop i := by
      have htake : (actions.take j).take i = actions.take i := by
        rw [List.take_take, Nat.min_eq_left hij]
      rw [← htake, List.take_append_drop]
    have hlater : runs step first ((actions.take j).drop i) = some second := by
      rw [hsplit, runs_append, hfirst] at hsecond
      exact hsecond
    have hstill : second.active = 1 :=
      runs_keeps (fun s => s.active = 1) (fun _ _ _ hs hst => active_step hst hs) hactive hlater
    exact h j second hsecond hstill hzero

theorem sound_iff_inTurn (n : Nat) (actions : List CounterStep) (t : Tracker)
    (hrun : runs step (new n) actions = some t) :
    Sound n actions ↔ Along step InTurn (new n) actions := by
  rw [sound_iff_neverEarly]
  exact neverEarly_run (new_inv n) (by rw [holding_new]; decide) (new_neverEarly n) hrun

theorem sound_iff_inTurn_one_sender :
    runs step (new 1) [.inc 0, .activate 0, .dec 0] = some ⟨1, 0, [.finished]⟩ ∧
      (Sound 1 [.inc 0, .activate 0, .dec 0] ↔
        Along step InTurn (new 1) [.inc 0, .activate 0, .dec 0]) := by
  have hrun : runs step (new 1) [.inc 0, .activate 0, .dec 0] = some ⟨1, 0, [.finished]⟩ := by
    decide +kernel
  exact ⟨hrun, sound_iff_inTurn 1 _ _ hrun⟩

/-- The first of two load threads is done before the second starts. -/
theorem isZero_before_second_sender :
    runs step (new 2) [.inc 0, .activate 0, .dec 0] = some ⟨1, 0, [.finished, .waiting]⟩ ∧
      isZero 1 0 = true ∧ ¬ Sound 2 [.inc 0, .activate 0, .dec 0] := by
  have hrun : runs step (new 2) [.inc 0, .activate 0, .dec 0] =
      some ⟨1, 0, [.finished, .waiting]⟩ := by
    decide +kernel
  refine ⟨hrun, rfl, ?_⟩
  intro h
  have hbad := h 3 3 _ _ (Nat.le_refl 3) hrun hrun rfl .waiting (by decide)
  cases hbad

theorem sound_of_one_sender {actions : List CounterStep} {t : Tracker}
    (hrun : runs step (new 1) actions = some t) : Sound 1 actions := by
  rw [sound_iff_neverEarly, neverEarly_run (new_inv 1) (by rw [holding_new]; decide)
    (new_neverEarly 1) hrun]
  refine along_of_runs (fun s => s.senders.length = 1) ?_ rfl hrun
  intro s a s' hlen hstep
  have hfew : s.holding ≤ 1 := hlen ▸ List.countP_le_length
  rcases step_cases hstep with ⟨i, rfl, -, -, rfl, -⟩ | ⟨i, rfl, -, rfl, -⟩ |
    ⟨i, rfl, hget, -, rfl, -⟩
  · refine ⟨?_, by simpa using hlen⟩
    show s.holding + 1 < 2 ^ 32
    omega
  · exact ⟨trivial, by simpa using hlen⟩
  · refine ⟨?_, by simpa using hlen⟩
    intro _ hwaiting
    obtain ⟨p, hp⟩ := List.length_eq_one_iff.mp hlen
    rw [hp] at hget hwaiting
    have hsending : Phase.sending = p := List.mem_singleton.mp (List.mem_of_getElem? hget)
    rw [← hsending, List.mem_singleton] at hwaiting
    cases hwaiting

end Tracker

end MoonGen.Interface

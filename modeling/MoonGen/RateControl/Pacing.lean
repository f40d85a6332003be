import MoonGen.Double
import MoonGen.Lib.Spacing
import MoonGen.Lib.Words
import MoonGen.Mbuf
import MoonGen.RateControl.SoftwareLimiter

/-! # The clock of the software rate limiters

`main_loop_cbr` and `main_loop_poisson` read the clock after every dequeue, to restart
the schedule after a pause, and before every packet, to wait for `next_send`. Here the
two loops run against a clock, around the untimed limiter thread. They differ in what
they add to `next_send` for a packet. Every step of the thread carries the time at
which it is taken.
-/

namespace MoonGen.RateLimiter

open Loop

variable {α : Type u} {δ : Type v}

inductive Wait where
  | none
  /-- Before the reading and the restart check that follow a dequeue. -/
  | restart
  /-- In `while ((cur = rte_get_tsc_cycles()) < next_send)`. -/
  | nextSend
  /-- A division by zero has ended the program. -/
  | crashed
deriving Repr, DecidableEq

structure Timed (α : Type u) where
  limiter : Limiter α
  nextSend : UInt64
  wait : Wait
  /-- The time of the last step. -/
  clock : UInt64
  /-- The times at which packets were handed to the NIC. -/
  handed : List UInt64

def Timed.init (capacity : Nat) : Timed α := ⟨RateLimiter.init capacity, 0, .none, 0, []⟩

/-- `draw` is what the random engine gives if it is asked. -/
inductive TimedAction (α : Type u) (δ : Type v) where
  | enqueue (bufs : List α)
  | stop
  | limiter (now : UInt64) (isRunning accepted : Bool) (draw : δ)
deriving Repr, DecidableEq

/-- The restart check; both sides of the comparison are signed. -/
def restart (tscHz cur nextSend : UInt64) : UInt64 :=
  if cur.toInt64 - nextSend.toInt64 > tscHz.toInt64 / 100 then cur else nextSend

namespace Timed

/-- The clock comes into play after a dequeue and before the next packet of a batch. -/
def waitAfter : Pc α → Bool → Wait
  | .dequeue _, _ => .restart
  | .transmit _ (_ :: _ :: _), true => .nextSend
  | _, _ => .none

def handsOver : Pc α → Bool → Bool
  | .transmit _ (_ :: _), true => true
  | _, _ => false

/-- One step of the limiter thread at a time. `advance` computes the next `next_send`
for a packet, unless it divides by zero. -/
def limiterStep (advance : α → δ → UInt64 → Option UInt64) (mode : Mode) (tscHz : UInt64)
    (s : Timed α) (now : UInt64) (isRunning accepted : Bool) (draw : δ) : Option (Timed α) :=
  match s.wait with
  | .crashed => none
  | .restart =>
      some { s with
        clock := now
        nextSend := restart tscHz now s.nextSend
        wait := if s.limiter.pc.held.isEmpty then .none else .nextSend }
  | .nextSend =>
      match s.limiter.pc.held with
      | [] => none
      | p :: _ =>
          match advance p draw s.nextSend with
          | none => some { s with clock := now, wait := .crashed }
          | some next =>
              if now < s.nextSend then some { s with clock := now }
              else some { s with clock := now, nextSend := next, wait := .none }
  | .none =>
      (s.limiter.limiterStep mode isRunning accepted).map fun limiter =>
        { s with
          limiter := limiter
          clock := now
          wait := waitAfter s.limiter.pc accepted
          handed := if handsOver s.limiter.pc accepted then s.handed ++ [now] else s.handed }

end Timed

/-- The clock does not go back, and it stays below `2^63`. -/
def timedStep (advance : α → δ → UInt64 → Option UInt64) (mode : Mode) (tscHz : UInt64)
    (s : Timed α) : TimedAction α δ → Option (Timed α)
  | .enqueue bufs => (step mode s.limiter (.enqueue bufs)).map fun l => { s with limiter := l }
  | .stop => (step mode s.limiter .stop).map fun l => { s with limiter := l }
  | .limiter now isRunning accepted draw =>
      if s.clock ≤ now ∧ now < 9223372036854775808 then
        s.limiterStep advance mode tscHz now isRunning accepted draw
      else none

/-! ## The two loops -/

/-- `id_cycles` of `main_loop_cbr`. -/
def idCycles (D : Type) [Double D] (target : UInt32) (tscHz : UInt64) : UInt64 :=
  Double.toUInt64 (Double.div (Double.ofUInt64 target.toUInt64 : D)
    (Double.div (Double.ofUInt64 1000000000) (Double.ofUInt64 tscHz)))

def cbrAdvance (idCycles : UInt64) (_ : α) (_ : Unit) (nextSend : UInt64) : Option UInt64 :=
  some (nextSend + idCycles)

def cbrStep (D : Type) [Double D] (target : UInt32) (tscHz : UInt64) :
    Timed α → TimedAction α Unit → Option (Timed α) :=
  timedStep (cbrAdvance (idCycles D target tscHz)) .cbr tscHz

/-- The time a packet takes on the wire, as `main_loop_poisson` computes it in 32 bits
before the conversion to cycles. A divisor of zero gives nothing. -/
def pktTime (linkSpeed pktLen : UInt32) : Option UInt32 :=
  if linkSpeed / 1000 = 0 then none else some ((pktLen + 24) * 8 / (linkSpeed / 1000))

/-- The gap behind a packet is drawn, unless the average is not positive. -/
def poissonAdvance {D : Type} [Double D] (target linkSpeed : UInt32) (tscHz : UInt64) (buf : Mbuf)
    (draw : D) (nextSend : UInt64) : Option UInt64 :=
  (pktTime linkSpeed buf.pktLen).map fun time =>
    let billion : D := Double.ofUInt64 1000000000
    let pktTime := Double.toUInt64 (Double.mul (Double.ofUInt64 time.toUInt64)
      (Double.div (Double.ofUInt64 tscHz) billion))
    let avg := Double.sub (Double.div (Double.ofUInt64 tscHz)
      (Double.div billion (Double.ofUInt64 target.toUInt64))) (Double.ofUInt64 pktTime)
    let delay := if Double.lt avg (Double.ofUInt64 1) then Double.ofUInt64 0 else draw
    Double.toUInt64 (Double.add (Double.ofUInt64 nextSend)
      (Double.add (Double.ofUInt64 pktTime) delay))

def poissonStep (D : Type) [Double D] (target linkSpeed : UInt32) (tscHz : UInt64) :
    Timed Mbuf → TimedAction Mbuf D → Option (Timed Mbuf) :=
  timedStep (poissonAdvance target linkSpeed tscHz) .poisson tscHz

/-! ## What a step can do -/

section Moves

variable {advance : α → δ → UInt64 → Option UInt64} {mode : Mode} {tscHz : UInt64} {s t : Timed α}

inductive TimedMove (advance : α → δ → UInt64 → Option UInt64) (mode : Mode) (tscHz : UInt64)
    (s : Timed α) (now : UInt64) : Timed α → Prop where
  | producer (a : Action α) (limiter : Limiter α) (hnow : now = s.clock)
      (hstep : step mode s.limiter a = some limiter) (hpc : limiter.pc = s.limiter.pc) :
      TimedMove advance mode tscHz s now { s with limiter := limiter }
  | restart (hwait : s.wait = .restart) :
      TimedMove advance mode tscHz s now
        { s with
          clock := now
          nextSend := RateLimiter.restart tscHz now s.nextSend
          wait := if s.limiter.pc.held.isEmpty then .none else .nextSend }
  | crash (p : α) (rest : List α) (draw : δ) (hwait : s.wait = .nextSend)
      (hheld : s.limiter.pc.held = p :: rest) (hadvance : advance p draw s.nextSend = none) :
      TimedMove advance mode tscHz s now { s with clock := now, wait := .crashed }
  | spin (hwait : s.wait = .nextSend) :
      TimedMove advance mode tscHz s now { s with clock := now }
  | release (p : α) (rest : List α) (draw : δ) (next : UInt64) (hwait : s.wait = .nextSend)
      (hheld : s.limiter.pc.held = p :: rest) (hadvance : advance p draw s.nextSend = some next)
      (hdue : s.nextSend ≤ now) :
      TimedMove advance mode tscHz s now { s with clock := now, nextSend := next, wait := .none }
  | untimed (isRunning accepted : Bool) (limiter : Limiter α) (hwait : s.wait = .none)
      (hstep : s.limiter.limiterStep mode isRunning accepted = some limiter) :
      TimedMove advance mode tscHz s now
        { s with
          limiter := limiter
          clock := now
          wait := Timed.waitAfter s.limiter.pc accepted
          handed :=
            if Timed.handsOver s.limiter.pc accepted then s.handed ++ [now] else s.handed }

theorem Timed.limiterStep_move {now : UInt64} {isRunning accepted : Bool} {draw : δ}
    (h : s.limiterStep advance mode tscHz now isRunning accepted draw = some t) :
    TimedMove advance mode tscHz s now t := by
  unfold Timed.limiterStep at h
  split at h
  · cases h
  · rename_i hwait
    cases h
    exact .restart hwait
  · rename_i hwait
    split at h
    · cases h
    · rename_i p rest hheld
      split at h
      · rename_i hadvance
        cases h
        exact .crash p rest draw hwait hheld hadvance
      · rename_i next hadvance
        split at h
        · cases h
          exact .spin hwait
        · rename_i hdue
          cases h
          exact .release p rest draw next hwait hheld hadvance (UInt64.not_lt.mp hdue)
  · rename_i hwait
    rcases Option.map_eq_some_iff.mp h with ⟨limiter, hstep, rfl⟩
    exact .untimed isRunning accepted limiter hwait hstep

theorem enqueue_pc (l : Limiter α) (bufs : List α) : (l.enqueue bufs).pc = l.pc := by
  unfold Limiter.enqueue
  split <;> rfl

theorem timedStep_move {a : TimedAction α δ} (h : timedStep advance mode tscHz s a = some t) :
    ∃ now, TimedMove advance mode tscHz s now t ∧ s.clock ≤ now ∧
      (now = s.clock ∨ now.toNat < 2 ^ 63) := by
  cases a with
  | enqueue bufs =>
      rcases Option.map_eq_some_iff.mp h with ⟨limiter, hstep, rfl⟩
      refine ⟨s.clock, .producer _ limiter rfl hstep ?_, UInt64.le_refl _, .inl rfl⟩
      simp only [step, Option.ite_none_left_eq_some, Option.some.injEq] at hstep
      rw [← hstep.2]
      exact enqueue_pc _ _
  | stop =>
      rcases Option.map_eq_some_iff.mp h with ⟨limiter, hstep, rfl⟩
      refine ⟨s.clock, .producer _ limiter rfl hstep ?_, UInt64.le_refl _, .inl rfl⟩
      simp only [step, Option.ite_none_left_eq_some, Option.some.injEq] at hstep
      rw [← hstep.2]
  | limiter now isRunning accepted draw =>
      simp only [timedStep, Option.ite_none_right_eq_some] at h
      exact ⟨now, Timed.limiterStep_move h.2, h.1.1, .inr (UInt64.lt_iff_toNat_lt.mp h.1.2)⟩

theorem TimedMove.erases {now : UInt64} (h : TimedMove advance mode tscHz s now t) :
    t.limiter = s.limiter ∨ ∃ a, step mode s.limiter a = some t.limiter := by
  cases h with
  | producer a limiter _ hstep _ => exact .inr ⟨a, hstep⟩
  | untimed isRunning accepted limiter _ hstep => exact .inr ⟨.limiter isRunning accepted, hstep⟩
  | _ => exact .inl rfl

/-- The clock only delays the limiter thread: what it does in a timed run, it can do
without the clock. -/
theorem timed_run_erases {actions : List (TimedAction α δ)}
    (h : runs (timedStep advance mode tscHz) s actions = some t) :
    ∃ untimed, runs (step mode) s.limiter untimed = some t.limiter := by
  induction actions generalizing s with
  | nil =>
      cases h
      exact ⟨[], rfl⟩
  | cons a rest ih =>
      rcases Option.bind_eq_some_iff.mp h with ⟨s', hstep, hrest⟩
      rcases ih hrest with ⟨untimed, huntimed⟩
      rcases timedStep_move hstep with ⟨now, hmove, _⟩
      rcases hmove.erases with hsame | ⟨a', ha'⟩
      · rw [hsame] at huntimed
        exact ⟨untimed, huntimed⟩
      · refine ⟨a' :: untimed, ?_⟩
        rw [runs, ha', Option.bind_some]
        exact huntimed

end Moves

/-! ## Packets between the wait and the NIC -/

/-- One if a packet has passed the wait and the NIC has not taken it yet. -/
def Timed.released (s : Timed α) : Nat :=
  match s.wait, s.limiter.pc with
  | .none, .transmit _ (_ :: _) | .none, .refused _ (_ :: _) => 1
  | _, _ => 0

theorem Timed.released_of_waiting {s : Timed α} (h : s.wait ≠ .none) : s.released = 0 := by
  unfold released
  split
  · exact absurd ‹_› h
  · exact absurd ‹_› h
  · rfl

theorem Timed.released_le_one (s : Timed α) : s.released ≤ 1 := by
  unfold released
  split <;> decide

theorem Timed.released_of_nothing_held {s : Timed α} (h : s.limiter.pc.held = []) :
    s.released = 0 := by
  unfold released
  split
  · rename_i hpc
    simp [hpc, Pc.held] at h
  · rename_i hpc
    simp [hpc, Pc.held] at h
  · rfl

theorem untimed_released {mode : Mode} {s : Timed α} (now : UInt64) {isRunning accepted : Bool}
    {limiter : Limiter α} (hwait : s.wait = .none)
    (hstep : s.limiter.limiterStep mode isRunning accepted = some limiter) {t : Timed α}
    (ht : t = { s with
      limiter := limiter
      clock := now
      wait := Timed.waitAfter s.limiter.pc accepted
      handed := if Timed.handsOver s.limiter.pc accepted then s.handed ++ [now] else s.handed }) :
    (t.handed = s.handed ∧ t.released ≤ s.released) ∨
      (t.handed = s.handed ++ [now] ∧ s.released = 1 ∧ t.released = 0) := by
  unfold Limiter.limiterStep at hstep
  split at hstep
  next hpc =>
    cases hstep
    left
    rw [ht]
    constructor
    · simp [hpc, Timed.handsOver]
    · cases isRunning <;> simp [Timed.released]
  next size hpc =>
    left
    have hwaiting : t.wait ≠ .none := by simp [ht, hpc, Timed.waitAfter]
    constructor
    · simp [ht, hpc, Timed.handsOver]
    · simp [Timed.released_of_waiting hwaiting]
  next n hpc =>
    cases hstep
    left
    rw [ht]
    simp [hpc, Timed.handsOver, Timed.released]
  next n p rest hpc =>
    cases accepted with
    | true =>
        cases hstep
        right
        rw [ht]
        cases rest with
        | nil => simp [hpc, Timed.handsOver, Timed.waitAfter, Timed.released, hwait]
        | cons q rest => simp [hpc, Timed.handsOver, Timed.waitAfter, Timed.released, hwait]
    | false =>
        cases hstep
        left
        rw [ht]
        simp [hpc, Timed.handsOver, Timed.waitAfter, Timed.released, hwait]
  next n pending hpc =>
    cases hstep
    left
    rw [ht]
    cases s.limiter.running isRunning with
    | true => cases pending <;> simp [hpc, Timed.handsOver, Timed.waitAfter, Timed.released, hwait]
    | false => simp [hpc, Timed.handsOver, Timed.released]
  next hpc =>
    cases hstep
    left
    rw [ht]
    cases s.limiter.running isRunning <;> simp [hpc, Timed.handsOver, Timed.released]
  next => cases hstep

/-! ## The schedule of `main_loop_cbr` -/

section Cbr

variable {idCycles tscHz : UInt64} {s t : Timed α} {mode : Mode} {now : UInt64}

/-- The signed comparison is that of the numbers, and a restart only moves the schedule on. -/
theorem restart_cases {cur nextSend : UInt64} (htsc : tscHz.toNat < 2 ^ 63)
    (hcur : cur.toNat < 2 ^ 63) (hahead : nextSend.toNat ≤ cur.toNat + 2 ^ 63) :
    (restart tscHz cur nextSend = cur ∧ nextSend.toNat + tscHz.toNat / 100 < cur.toNat) ∨
      (restart tscHz cur nextSend = nextSend ∧
        cur.toNat ≤ nextSend.toNat + tscHz.toNat / 100) := by
  have hdiff : (cur.toInt64 - nextSend.toInt64).toInt = (cur.toNat : Int) - nextSend.toNat := by
    rw [← UInt64.toInt64_sub]
    exact toInt_sub_toInt64 (by omega) (by omega)
  have hpause : (tscHz.toInt64 / 100).toInt = (tscHz.toNat : Int) / 100 := by
    have hhundred : (100 : Int64).toInt = 100 := rfl
    rw [Int64.toInt_div, toInt_toInt64 htsc, hhundred, Int.tdiv_eq_ediv_of_nonneg (by omega)]
    exact bmod_of_signed (by omega) (by omega)
  have hcheck : cur.toInt64 - nextSend.toInt64 > tscHz.toInt64 / 100 ↔
      nextSend.toNat + tscHz.toNat / 100 < cur.toNat := by
    rw [gt_iff_lt, Int64.lt_iff_toInt_lt, hdiff, hpause]
    omega
  unfold restart
  split
  · exact .inl ⟨rfl, hcheck.mp ‹_›⟩
  · exact .inr ⟨rfl, Nat.not_lt.mp (mt hcheck.mpr ‹_›)⟩

/-- The schedule is at most one packet ahead of the clock. -/
structure OnTime (idCycles : UInt64) (s : Timed α) : Prop where
  clock_lt : s.clock.toNat < 2 ^ 63
  ahead : s.nextSend.toNat ≤ s.clock.toNat + idCycles.toNat

theorem onTime_init (idCycles : UInt64) (capacity : Nat) :
    OnTime idCycles (Timed.init capacity : Timed α) :=
  ⟨by simp [Timed.init], by simp [Timed.init]⟩

theorem toNat_add_idCycles {nextSend : UInt64} (hid : idCycles.toNat ≤ 2 ^ 63)
    (hnext : nextSend.toNat < 2 ^ 63) :
    (nextSend + idCycles).toNat = nextSend.toNat + idCycles.toNat := by
  rw [UInt64.toNat_add]
  exact Nat.mod_eq_of_lt (by omega)

theorem OnTime.move (h : OnTime idCycles s) (htsc : tscHz.toNat < 2 ^ 63)
    (hid : idCycles.toNat ≤ 2 ^ 63) (hmove : TimedMove (cbrAdvance idCycles) mode tscHz s now t)
    (hle : s.clock ≤ now) (hnow : now = s.clock ∨ now.toNat < 2 ^ 63) :
    OnTime idCycles t ∧ s.nextSend.toNat ≤ t.nextSend.toNat := by
  have hclock := h.clock_lt
  have hahead := h.ahead
  have hle : s.clock.toNat ≤ now.toNat := UInt64.le_iff_toNat_le.mp hle
  have hlt : now.toNat < 2 ^ 63 := by
    rcases hnow with rfl | hlt
    · exact hclock
    · exact hlt
  have hkept : s.nextSend.toNat ≤ now.toNat + idCycles.toNat := by omega
  cases hmove with
  | producer a limiter _ _ _ => exact ⟨⟨hclock, hahead⟩, Nat.le_refl _⟩
  | restart _ =>
      have hnear : s.nextSend.toNat ≤ now.toNat + 2 ^ 63 := by omega
      rcases restart_cases htsc hlt hnear with ⟨heq, hlate⟩ | ⟨heq, _⟩
      · rw [heq]
        exact ⟨⟨hlt, Nat.le_add_right _ _⟩, Nat.le_of_lt (Nat.lt_of_le_of_lt (Nat.le_add_right _ _) hlate)⟩
      · rw [heq]
        exact ⟨⟨hlt, hkept⟩, Nat.le_refl _⟩
  | crash p rest draw _ _ _ => exact ⟨⟨hlt, hkept⟩, Nat.le_refl _⟩
  | spin _ => exact ⟨⟨hlt, hkept⟩, Nat.le_refl _⟩
  | release p rest draw next _ _ hadvance hdue =>
      have hdue : s.nextSend.toNat ≤ now.toNat := UInt64.le_iff_toNat_le.mp hdue
      have hsum : next.toNat = s.nextSend.toNat + idCycles.toNat := by
        rw [← Option.some.inj hadvance]
        exact toNat_add_idCycles hid (Nat.lt_of_le_of_lt hdue hlt)
      constructor
      · exact ⟨hlt, hsum ▸ Nat.add_le_add_right hdue _⟩
      · exact hsum ▸ Nat.le_add_right _ _
  | untimed _ _ _ _ _ => exact ⟨⟨hlt, hkept⟩, Nat.le_refl _⟩

/-- The packets handed over since the schedule stood at `start` come no faster than one
in `id_cycles`, and the schedule has moved on for each of them and for a released one. -/
structure Burst (idCycles : UInt64) (start : Nat) (before since : List UInt64) (s : Timed α) :
    Prop where
  handed : s.handed = before ++ since
  noFaster : NoFaster start idCycles.toNat (since.map UInt64.toNat)
  scheduled : start + (since.length + s.released) * idCycles.toNat ≤ s.nextSend.toNat
  due : s.released = 1 → start + since.length * idCycles.toNat ≤ s.clock.toNat

theorem Burst.keep {start : Nat} {before since : List UInt64}
    (h : Burst idCycles start before since s) (hhanded : t.handed = s.handed)
    (hreleased : t.released ≤ s.released) (hnext : s.nextSend.toNat ≤ t.nextSend.toNat)
    (hclock : s.clock.toNat ≤ t.clock.toNat) : Burst idCycles start before since t := by
  have hone := s.released_le_one
  constructor
  · exact hhanded.trans h.handed
  · exact h.noFaster
  · have hmul := Nat.mul_le_mul_right idCycles.toNat (Nat.add_le_add_left hreleased since.length)
    have hscheduled := h.scheduled
    omega
  · intro ht
    exact (h.due (by omega)).trans hclock

theorem Burst.keep_of_waiting {start : Nat} {before since : List UInt64}
    (h : Burst idCycles start before since s) (hhanded : t.handed = s.handed)
    (hwait : t.wait ≠ .none) (hnext : s.nextSend.toNat ≤ t.nextSend.toNat)
    (hclock : s.clock.toNat ≤ t.clock.toNat) : Burst idCycles start before since t := by
  have hreleased : t.released ≤ s.released := by
    rw [Timed.released_of_waiting hwait]
    exact Nat.zero_le _
  exact h.keep hhanded hreleased hnext hclock

theorem Burst.release {start : Nat} {before since : List UInt64}
    (h : Burst idCycles start before since s) (hhanded : t.handed = s.handed)
    (hwait : s.wait ≠ .none) (hnext : t.nextSend.toNat = s.nextSend.toNat + idCycles.toNat)
    (hdue : s.nextSend.toNat ≤ t.clock.toNat) : Burst idCycles start before since t := by
  have hscheduled := h.scheduled
  rw [Timed.released_of_waiting hwait, Nat.add_zero] at hscheduled
  constructor
  · exact hhanded.trans h.handed
  · exact h.noFaster
  · have hone := t.released_le_one
    have hmul := Nat.mul_le_mul_right idCycles.toNat (Nat.add_le_add_left hone since.length)
    rw [Nat.succ_mul] at hmul
    rw [hnext]
    omega
  · intro _
    exact hscheduled.trans hdue

theorem Burst.handOver {start : Nat} {before since : List UInt64}
    (h : Burst idCycles start before since s) (hhanded : t.handed = s.handed ++ [now])
    (hone : s.released = 1) (hzero : t.released = 0) (hnext : t.nextSend = s.nextSend)
    (hclock : s.clock.toNat ≤ now.toNat) : Burst idCycles start before (since ++ [now]) t := by
  constructor
  · rw [hhanded, h.handed, List.append_assoc]
  · rw [List.map_append, List.map_singleton]
    apply h.noFaster.snoc
    rw [List.length_map]
    exact (h.due hone).trans hclock
  · have hscheduled := h.scheduled
    rw [hone] at hscheduled
    rw [hzero, hnext, List.length_append, List.length_singleton, Nat.add_zero]
    exact hscheduled
  · intro ht
    rw [hzero] at ht
    cases ht

theorem Burst.move {start : Nat} {before since : List UInt64}
    (h : Burst idCycles start before since s) (hs : OnTime idCycles s)
    (htsc : tscHz.toNat < 2 ^ 63) (hid : idCycles.toNat ≤ 2 ^ 63)
    (hmove : TimedMove (cbrAdvance idCycles) mode tscHz s now t) (hle : s.clock ≤ now)
    (hnow : now = s.clock ∨ now.toNat < 2 ^ 63) :
    ∃ since', Burst idCycles start before since' t := by
  have hmono := (hs.move htsc hid hmove hle hnow).2
  have hclock := hs.clock_lt
  have hle : s.clock.toNat ≤ now.toNat := UInt64.le_iff_toNat_le.mp hle
  cases hmove with
  | producer a limiter _ _ hpc =>
      have hsame : Timed.released { s with limiter := limiter } = s.released := by
        simp only [Timed.released, hpc]
      exact ⟨since, h.keep rfl hsame.le hmono (Nat.le_refl _)⟩
  | restart hwait =>
      by_cases hheld : s.limiter.pc.held = []
      · have hnothing := Timed.released_of_nothing_held (s := { s with
          clock := now
          nextSend := RateLimiter.restart tscHz now s.nextSend
          wait := if s.limiter.pc.held.isEmpty then .none else .nextSend }) hheld
        exact ⟨since, h.keep rfl (hnothing.le.trans (Nat.zero_le _)) hmono hle⟩
      · exact ⟨since, h.keep_of_waiting rfl (by simp [hheld]) hmono hle⟩
  | crash p rest draw _ _ _ => exact ⟨since, h.keep_of_waiting rfl (by simp) hmono hle⟩
  | spin hwait => exact ⟨since, h.keep_of_waiting rfl (by simp [hwait]) hmono hle⟩
  | release p rest draw next hwait hheld hadvance hdue =>
      have hdue : s.nextSend.toNat ≤ now.toNat := UInt64.le_iff_toNat_le.mp hdue
      have hlt : s.nextSend.toNat < 2 ^ 63 := by
        rcases hnow with rfl | hlt
        · exact Nat.lt_of_le_of_lt hdue hclock
        · exact Nat.lt_of_le_of_lt hdue hlt
      have hsum : next.toNat = s.nextSend.toNat + idCycles.toNat := by
        rw [← Option.some.inj hadvance]
        exact toNat_add_idCycles hid hlt
      exact ⟨since, h.release rfl (by simp [hwait]) hsum hdue⟩
  | untimed isRunning accepted limiter hwait hstep =>
      rcases untimed_released now hwait hstep rfl with ⟨hhanded, hreleased⟩ |
        ⟨hhanded, hone, hzero⟩
      · exact ⟨since, h.keep hhanded hreleased hmono hle⟩
      · exact ⟨since ++ [now], h.handOver hhanded hone hzero rfl hle⟩

/-- Right after a restart check the schedule lies at most the length of a pause back. -/
theorem OnTime.burst_start (hs : OnTime idCycles s) (htsc : tscHz.toNat < 2 ^ 63)
    (hid : idCycles.toNat ≤ 2 ^ 63) (hwait : s.wait = .restart) {isRunning accepted : Bool}
    (hle : s.clock ≤ now) (hlt : now.toNat < 2 ^ 63)
    (ht : s.limiterStep (cbrAdvance idCycles) mode tscHz now isRunning accepted () = some t) :
    Burst idCycles t.nextSend.toNat t.handed [] t ∧
      now.toNat ≤ t.nextSend.toNat + tscHz.toNat / 100 := by
  have hahead := hs.ahead
  have hle : s.clock.toNat ≤ now.toNat := UInt64.le_iff_toNat_le.mp hle
  simp only [Timed.limiterStep, hwait, Option.some.injEq] at ht
  have hzero : t.released = 0 := by
    rw [← ht]
    by_cases hheld : s.limiter.pc.held = []
    · exact Timed.released_of_nothing_held hheld
    · exact Timed.released_of_waiting (by simp [hheld])
  constructor
  · constructor
    · exact (List.append_nil _).symm
    · exact .nil _ _
    · simp [hzero]
    · intro hone
      rw [hzero] at hone
      cases hone
  · rw [← ht]
    have hnear : s.nextSend.toNat ≤ now.toNat + 2 ^ 63 := by omega
    rcases restart_cases htsc hlt hnear with ⟨heq, _⟩ | ⟨heq, hpause⟩
    · simp only [heq]
      exact Nat.le_add_right _ _
    · simp only [heq]
      exact hpause

theorem OnTime.run (htsc : tscHz.toNat < 2 ^ 63) (hid : idCycles.toNat ≤ 2 ^ 63)
    {actions : List (TimedAction α Unit)} (hs : OnTime idCycles s)
    (h : runs (timedStep (cbrAdvance idCycles) mode tscHz) s actions = some t) :
    OnTime idCycles t ∧ s.nextSend.toNat ≤ t.nextSend.toNat ∧
      ∀ start before since, Burst idCycles start before since s →
        ∃ since', Burst idCycles start before since' t := by
  induction actions generalizing s with
  | nil =>
      cases h
      exact ⟨hs, Nat.le_refl _, fun _ _ since hburst => ⟨since, hburst⟩⟩
  | cons a rest ih =>
      rcases Option.bind_eq_some_iff.mp h with ⟨s', hstep, hrest⟩
      rcases timedStep_move hstep with ⟨now, hmove, hle, hnow⟩
      have hnext := hs.move htsc hid hmove hle hnow
      have hlater := ih hnext.1 hrest
      refine ⟨hlater.1, hnext.2.trans hlater.2.1, ?_⟩
      intro start before since hburst
      rcases hburst.move hs htsc hid hmove hle hnow with ⟨since', hburst'⟩
      exact hlater.2.2 start before since' hburst'

theorem Burst.countP_le {start : Nat} {before since : List UInt64}
    (h : Burst idCycles start before since s) (hid : 0 < idCycles.toNat) {c : Nat}
    (hstart : c ≤ start + tscHz.toNat / 100) {time : Nat} (htime : c ≤ time) :
    (s.handed.drop before.length).countP (fun τ => τ.toNat ≤ time) ≤
      (time - c + tscHz.toNat / 100) / idCycles.toNat + 1 := by
  have hcount := h.noFaster.countP_le hid time
  rw [List.countP_map] at hcount
  rw [h.handed, List.drop_left]
  refine hcount.trans (Nat.add_le_add_right (Nat.div_le_div_right ?_) 1)
  omega

end Cbr

/-- In every run of `main_loop_cbr` with `id_cycles` and the frequency of the clock not
above `2^63`, `next_send` never decreases, and for each restart check, at a time `c`, and
each later time, the packets handed to the NIC since the check and up to that time are at
most one in `id_cycles` of the time since `c` and a hundredth of a second, and one more. -/
theorem cbr_burst_bound (D : Type) [Double D] (target : UInt32) (tscHz : UInt64)
    (hid : 1 ≤ (idCycles D target tscHz).toNat) (hid' : (idCycles D target tscHz).toNat ≤ 2 ^ 63)
    (htsc : tscHz.toNat < 2 ^ 63) (capacity : Nat) (before : List (TimedAction α Unit))
    (s : Timed α) (hrun : runs (cbrStep D target tscHz) (Timed.init capacity) before = some s) :
    (∀ after u, runs (cbrStep D target tscHz) s after = some u → s.nextSend ≤ u.nextSend) ∧
      (s.wait = .restart → ∀ c isRunning accepted s',
        cbrStep D target tscHz s (.limiter c isRunning accepted ()) = some s' →
        ∀ after u, runs (cbrStep D target tscHz) s' after = some u →
        ∀ time, c.toNat ≤ time →
          (u.handed.drop s'.handed.length).countP (fun τ => τ.toNat ≤ time) ≤
            (time - c.toNat + tscHz.toNat / 100) / (idCycles D target tscHz).toNat + 1) := by
  have hs := ((onTime_init _ capacity).run htsc hid' hrun).1
  constructor
  · intro after u hafter
    exact UInt64.le_iff_toNat_le.mpr (hs.run htsc hid' hafter).2.1
  · intro hwait c isRunning accepted s' hstart after u hafter time htime
    have hmove := timedStep_move hstart
    simp only [cbrStep, timedStep, Option.ite_none_right_eq_some] at hstart
    have hc : c.toNat < 2 ^ 63 := UInt64.lt_iff_toNat_lt.mp hstart.1.2
    have hburst := hs.burst_start htsc hid' hwait hstart.1.1 hc hstart.2
    rcases hmove with ⟨now, hmove, hle, hnow⟩
    have hs' := (hs.move htsc hid' hmove hle hnow).1
    rcases (hs'.run htsc hid' hafter).2.2 _ _ _ hburst.1 with ⟨since, hburst'⟩
    exact hburst'.countP_le hid hburst.2 htime

/-- A producer gives the limiter two batches of packets, and the limiter dequeues the first of
them. The restart check comes next. -/
def firstBatch : List (TimedAction Nat Unit) :=
  .enqueue (List.range 128) :: List.replicate 2 (.limiter 0 true true ())

def stepsAt (now : UInt64) (n : Nat) : List (TimedAction Nat Unit) :=
  List.replicate n (.limiter now true true ())

theorem idCycles_one_second : idCycles Rat 1000000000 3000000000 = 3000000000 := by
  decide +kernel

theorem cbr_burst_bound_one_second :
    ∃ s : Timed Nat, runs (cbrStep Rat 1000000000 3000000000) (Timed.init 128) firstBatch = some s ∧
      s.wait = .restart ∧
      ∀ s', cbrStep Rat 1000000000 3000000000 s (.limiter 5 true true ()) = some s' →
        ∀ after u, runs (cbrStep Rat 1000000000 3000000000) s' after = some u →
          (u.handed.drop s'.handed.length).countP (fun τ => τ.toNat ≤ 6000000005) ≤ 3 := by
  have hwait : (runs (cbrStep Rat 1000000000 3000000000) (Timed.init 128) firstBatch).map
      Timed.wait = some .restart := by
    decide +kernel
  rcases Option.map_eq_some_iff.mp hwait with ⟨s, hrun, hwait⟩
  refine ⟨s, hrun, hwait, ?_⟩
  intro s' hstart after u hafter
  have hbound := (cbr_burst_bound Rat 1000000000 3000000000 (by rw [idCycles_one_second]; decide)
    (by rw [idCycles_one_second]; decide) (by decide) 128 firstBatch s hrun).2 hwait 5 true true s'
    hstart after u hafter 6000000005 (by decide)
  rw [idCycles_one_second] at hbound
  exact hbound

/-- Three runs that the bound does not cover. A pause of 64 seconds within the first batch makes
it late, and all of it is handed over at the time of the next restart check, with a packet of
the second batch: 65 packets at that time, where the bound is one. With `id_cycles` above `2^63`
the schedule wraps around, and two packets go out at once, where the bound is one. With a clock
of `2^63` Hz the pause is a negative number, and the second restart check moves the schedule
back. -/
theorem cbr_burst_exceptions :
    (runs (cbrStep Rat 1000000000 3000000000) (Timed.init 128)
        (firstBatch ++ stepsAt 0 1 ++ stepsAt 192000000000 (2 * 64 + 3 + 3))).map
          (fun u => (u.wait, u.nextSend, u.handed)) =
        some (.nextSend, 195000000000, List.replicate 65 192000000000) ∧
      (runs (cbrStep Rat 3000000000 4611686018427387904) (Timed.init 128)
        (firstBatch ++ stepsAt 4611686018427387904 1)).map (fun u => (u.nextSend, u.handed)) =
        some (4611686018427387904, []) ∧
      (runs (cbrStep Rat 3000000000 4611686018427387904) (Timed.init 128)
        (firstBatch ++ stepsAt 4611686018427387904 2)).map (fun u => (u.nextSend, u.handed)) =
        some (0, []) ∧
      (runs (cbrStep Rat 3000000000 4611686018427387904) (Timed.init 128)
        (firstBatch ++ stepsAt 4611686018427387904 5)).map (fun u => u.handed) =
        some [4611686018427387904, 4611686018427387904] ∧
      (runs (cbrStep Rat 1 9223372036854775808) (Timed.init 128)
        (firstBatch ++ stepsAt 0 1 ++ stepsAt 585000000000 (2 * 64 + 3))).map
          (fun u => (u.wait, u.nextSend)) =
        some (.restart, 590295810304) ∧
      (runs (cbrStep Rat 1 9223372036854775808) (Timed.init 128)
        (firstBatch ++ stepsAt 0 1 ++ stepsAt 585000000000 (2 * 64 + 4))).map
          (fun u => (u.wait, u.nextSend)) =
        some (.nextSend, 585000000000) := by
  have hlong : idCycles Rat 3000000000 4611686018427387904 = 13835058055282163712 := by
    decide +kernel
  have hfast : idCycles Rat 1 9223372036854775808 = 9223372036 := by decide +kernel
  simp only [cbrStep, idCycles_one_second, hlong, hfast]
  decide +kernel

end MoonGen.RateLimiter

import Mathlib.Algebra.Order.Field.Rat
import Mathlib.Tactic.NormNum
import MoonGen.Interface.Counter
import MoonGen.Interface.FlowTag

/-! # The count thread

`countThread` of `threads/count.lua` receives the packets of one queue and counts
them by uid. It polls the `counter` that the load threads of its flow share, and
creates a timer for the grace period the first time that it finds the counter
zero. The state below holds the thread, the queue that the device fills and the
load threads, whose steps interleave in any order. Times are in seconds, as
libmoon's timers have them; the grace delay is in milliseconds.
-/

namespace MoonGen.Interface

open Loop

/-- A timer of libmoon, with the time at which `timer:new` made it. -/
structure Timer where
  start : Rat
  time : Rat
deriving Repr, DecidableEq

def Timer.running (timer : Timer) (now : Rat) : Bool := decide (now < timer.start + timer.time)

structure Delivery where
  time : Rat
  bytes : List UInt8
deriving Repr, DecidableEq

def Delivery.uid (p : Delivery) : Nat := getUid p.bytes p.bytes.length

/-- What a count thread runs with: its grace delay, what `mg.running(delay)` answers at
each time, and the size of its buffer array. -/
structure CountEnv where
  delay : Rat
  running : Rat → Bool
  size : Nat

/-- Where the thread stands. `reading` is inside `isZero`, after its read of `active`. -/
inductive Place where
  | head
  | receive
  | poll
  | reading (active : UInt8)
  | ended
deriving Repr, DecidableEq

/-- The count thread, its queue and the load threads of its flow. `delivered` and
`received` are no variables of the program: the packets that the device has
delivered so far, and how many of them the thread has taken. -/
structure CountState where
  place : Place
  runtime : Option Timer
  rxQueue : List Delivery
  counters : Counters
  tracker : Tracker
  clock : Rat
  delivered : List Delivery
  received : Nat

def CountState.init (n : Nat) : CountState where
  place := .head
  runtime := none
  rxQueue := []
  counters := fun _ => 0
  tracker := Tracker.new n
  clock := 0
  delivered := []
  received := 0

inductive CountEvent where
  /-- The device delivers a packet. -/
  | deliver (now : Rat) (bytes : List UInt8)
  /-- A load thread works on the counter. -/
  | sender (a : CounterStep)
  /-- The thread tests the condition of its loop. -/
  | check (now : Rat)
  /-- `rxQueue:recv` returns `rx` packets, which are counted and freed. -/
  | recv (rx : Nat)
  /-- `isZero` reads `active`, unless the timer exists. -/
  | readActive
  /-- It reads `count`, and the thread makes the timer if the counter is zero. -/
  | readCount (now : Rat)

namespace CountEnv

variable (env : CountEnv)

/-- The condition of the loop. -/
def test (runtime : Option Timer) (now : Rat) : Bool :=
  env.running now && (match runtime with
    | none => true
    | some timer => !timer.running now)

def step (s : CountState) : CountEvent → Option CountState
  | .deliver now bytes =>
      if s.clock ≤ now then
        some { s with clock := now, rxQueue := s.rxQueue ++ [⟨now, bytes⟩],
                      delivered := s.delivered ++ [⟨now, bytes⟩] }
      else none
  | .sender a => (s.tracker.step a).map fun tracker => { s with tracker := tracker }
  | .check now =>
      if s.place = .head ∧ s.clock ≤ now then
        some { s with clock := now,
                      place := if env.test s.runtime now then .receive else .ended }
      else none
  | .recv rx =>
      if s.place = .receive ∧ rx ≤ env.size ∧ rx ≤ s.rxQueue.length then
        some { s with place := .poll, rxQueue := s.rxQueue.drop rx,
                      counters := countBufs s.counters ((s.rxQueue.take rx).map (·.bytes)),
                      received := s.received + rx }
      else none
  | .readActive =>
      if s.place = .poll then
        some { s with place := if s.runtime.isNone then .reading s.tracker.active else .head }
      else none
  | .readCount now =>
      match s.place with
      | .reading active =>
          if s.clock ≤ now then
            some { s with clock := now, place := .head,
                          runtime := if isZero active s.tracker.count then
                            some ⟨now, env.delay / 1000⟩ else s.runtime }
          else none
      | _ => none

end CountEnv

/-! ## What a step does -/

def CountEvent.delivery : CountEvent → Option Delivery
  | .deliver now bytes => some ⟨now, bytes⟩
  | _ => none

def deliveries (events : List CountEvent) : List Delivery := events.filterMap CountEvent.delivery

/-- What `rxQueue:recv` returns. -/
def CountEvent.recvSize : CountEvent → Nat
  | .recv rx => rx
  | _ => 0

def recvSizes (events : List CountEvent) : Nat := (events.map CountEvent.recvSize).sum

structure Idle (s s' : CountState) : Prop where
  rxQueue : s'.rxQueue = s.rxQueue
  counters : s'.counters = s.counters
  delivered : s'.delivered = s.delivered
  received : s'.received = s.received

namespace CountEnv

variable {env : CountEnv} {s s' u : CountState} {e : CountEvent}

theorem step_cases (h : env.step s e = some s') :
    (∃ p, e.delivery = some p ∧ e.recvSize = 0 ∧
        s' = { s with clock := p.time, rxQueue := s.rxQueue ++ [p],
                      delivered := s.delivered ++ [p] }) ∨
      (e.delivery = none ∧ s.place = .receive ∧ e.recvSize ≤ s.rxQueue.length ∧
        s' = { s with place := .poll, rxQueue := s.rxQueue.drop e.recvSize,
                      counters :=
                        countBufs s.counters ((s.rxQueue.take e.recvSize).map (·.bytes)),
                      received := s.received + e.recvSize }) ∨
      (e.delivery = none ∧ e.recvSize = 0 ∧ Idle s s' ∧
        (s'.runtime = s.runtime ∧ (s.place = .ended → s'.place = .ended) ∨
          s.place ≠ .ended ∧ ∃ now, s'.runtime = some ⟨now, env.delay / 1000⟩)) := by
  cases e with
  | deliver now bytes =>
      obtain ⟨-, hs⟩ := Option.ite_none_right_eq_some.mp h
      cases hs
      exact .inl ⟨⟨now, bytes⟩, rfl, rfl, rfl⟩
  | sender a =>
      obtain ⟨tracker, -, rfl⟩ := Option.map_eq_some_iff.mp h
      exact .inr (.inr ⟨rfl, rfl, ⟨rfl, rfl, rfl, rfl⟩, .inl ⟨rfl, id⟩⟩)
  | check now =>
      obtain ⟨⟨hplace, -⟩, hs⟩ := Option.ite_none_right_eq_some.mp h
      cases hs
      exact .inr (.inr ⟨rfl, rfl, ⟨rfl, rfl, rfl, rfl⟩, .inl ⟨rfl, by simp [hplace]⟩⟩)
  | recv rx =>
      obtain ⟨⟨hplace, -, hrx⟩, hs⟩ := Option.ite_none_right_eq_some.mp h
      cases hs
      exact .inr (.inl ⟨rfl, hplace, hrx, rfl⟩)
  | readActive =>
      obtain ⟨hplace, hs⟩ := Option.ite_none_right_eq_some.mp h
      cases hs
      exact .inr (.inr ⟨rfl, rfl, ⟨rfl, rfl, rfl, rfl⟩, .inl ⟨rfl, by simp [hplace]⟩⟩)
  | readCount now =>
      rw [step] at h
      cases hplace : s.place with
      | reading active =>
          rw [hplace] at h
          obtain ⟨-, hs⟩ := Option.ite_none_right_eq_some.mp h
          cases hs
          cases hzero : isZero active s.tracker.count with
          | true =>
              exact .inr (.inr
                ⟨rfl, rfl, ⟨rfl, rfl, rfl, rfl⟩, .inr ⟨Place.noConfusion, now, rfl⟩⟩)
          | false =>
              exact .inr (.inr ⟨rfl, rfl, ⟨rfl, rfl, rfl, rfl⟩, .inl ⟨rfl, Place.noConfusion⟩⟩)
      | head => simp [hplace] at h
      | receive => simp [hplace] at h
      | poll => simp [hplace] at h
      | ended => simp [hplace] at h

/-! ## What every run keeps -/

/-- The counters hold the packets taken so far, the queue holds the others, and the
timer runs for the grace delay. -/
structure Tracked (env : CountEnv) (s : CountState) : Prop where
  within : s.received ≤ s.delivered.length
  queue : s.rxQueue = s.delivered.drop s.received
  counted : ∀ key, s.counters key = (s.delivered.take s.received).countP fun p => p.uid = key
  timed : ∀ timer, s.runtime = some timer → timer.time = env.delay / 1000

theorem tracked_init (n : Nat) : Tracked env (.init n) where
  within := Nat.le_refl 0
  queue := rfl
  counted := fun _ => rfl
  timed := by
    intro timer h
    cases h

theorem counters_take {counters : Counters} {taken batch : List Delivery}
    (h : ∀ key, counters key = taken.countP fun p => p.uid = key) (key : Nat) :
    countBufs counters (batch.map (·.bytes)) key =
      (taken ++ batch).countP fun p => p.uid = key := by
  rw [countBufs_eq, h, List.countP_append, List.countP_map]
  rfl

theorem Tracked.deliver (hs : Tracked env s) (p : Delivery) :
    Tracked env { s with clock := p.time, rxQueue := s.rxQueue ++ [p],
                         delivered := s.delivered ++ [p] } := by
  constructor
  · show s.received ≤ (s.delivered ++ [p]).length
    rw [List.length_append]
    exact Nat.le_add_right_of_le hs.within
  · show s.rxQueue ++ [p] = (s.delivered ++ [p]).drop s.received
    rw [List.drop_append_of_le_length hs.within, hs.queue]
  · intro key
    show s.counters key = ((s.delivered ++ [p]).take s.received).countP fun p => p.uid = key
    rw [List.take_append_of_le_length hs.within]
    exact hs.counted key
  · exact hs.timed

theorem Tracked.take (hs : Tracked env s) {rx : Nat} (hrx : rx ≤ s.rxQueue.length) :
    Tracked env { s with place := .poll, rxQueue := s.rxQueue.drop rx,
                         counters := countBufs s.counters ((s.rxQueue.take rx).map (·.bytes)),
                         received := s.received + rx } := by
  have hlength : s.rxQueue.length = s.delivered.length - s.received := by
    rw [hs.queue, List.length_drop]
  constructor
  · show s.received + rx ≤ s.delivered.length
    have hwithin := hs.within
    omega
  · show s.rxQueue.drop rx = s.delivered.drop (s.received + rx)
    rw [hs.queue, List.drop_drop]
  · intro key
    show countBufs s.counters ((s.rxQueue.take rx).map (·.bytes)) key =
      (s.delivered.take (s.received + rx)).countP fun p => p.uid = key
    rw [List.take_add, ← hs.queue]
    exact counters_take hs.counted key
  · exact hs.timed

theorem Tracked.idle (hs : Tracked env s) (h : Idle s s')
    (htimed : ∀ timer, s'.runtime = some timer → timer.time = env.delay / 1000) :
    Tracked env s' := by
  constructor
  · rw [h.received, h.delivered]
    exact hs.within
  · rw [h.rxQueue, h.received, h.delivered]
    exact hs.queue
  · rw [h.counters, h.received, h.delivered]
    exact hs.counted
  · exact htimed

theorem tracked_step (hs : Tracked env s) (h : env.step s e = some s') : Tracked env s' := by
  rcases step_cases h with ⟨p, -, -, rfl⟩ | ⟨-, -, hrx, rfl⟩ | ⟨-, -, hidle, hruntime⟩
  · exact hs.deliver p
  · exact hs.take hrx
  · apply hs.idle hidle
    intro timer htimer
    rcases hruntime with ⟨hsame, -⟩ | ⟨-, now, hnew⟩
    · exact hs.timed timer (hsame ▸ htimer)
    · rw [hnew] at htimer
      cases htimer
      rfl

theorem tracked_run {n : Nat} {events : List CountEvent}
    (h : runs env.step (.init n) events = some s) : Tracked env s :=
  runs_keeps (Tracked env) (fun _ _ _ => tracked_step) (tracked_init n) h

theorem step_sums (h : env.step s e = some s') :
    s'.received = s.received + e.recvSize ∧ s'.delivered = s.delivered ++ e.delivery.toList := by
  rcases step_cases h with ⟨p, hp, hsize, rfl⟩ | ⟨hnone, -, -, rfl⟩ | ⟨hnone, hsize, hidle, -⟩
  · rw [hp, hsize]
    exact ⟨rfl, rfl⟩
  · rw [hnone]
    exact ⟨rfl, (List.append_nil _).symm⟩
  · rw [hnone, hsize, hidle.received, hidle.delivered]
    exact ⟨rfl, (List.append_nil _).symm⟩

theorem deliveries_cons (e : CountEvent) (rest : List CountEvent) :
    deliveries (e :: rest) = e.delivery.toList ++ deliveries rest := by
  rw [deliveries, deliveries, List.filterMap_cons]
  cases e.delivery <;> rfl

theorem runs_sums {events : List CountEvent} (h : runs env.step s events = some u) :
    u.received = s.received + recvSizes events ∧
      u.delivered = s.delivered ++ deliveries events := by
  induction events generalizing s with
  | nil =>
      cases h
      exact ⟨rfl, (List.append_nil _).symm⟩
  | cons e rest ih =>
      obtain ⟨s', hstep, hrest⟩ := Option.bind_eq_some_iff.mp h
      obtain ⟨hreceived, hdelivered⟩ := step_sums hstep
      obtain ⟨ihreceived, ihdelivered⟩ := ih hrest
      rw [hreceived] at ihreceived
      rw [hdelivered, List.append_assoc, ← deliveries_cons] at ihdelivered
      refine ⟨?_, ihdelivered⟩
      rw [ihreceived, recvSizes, recvSizes, List.map_cons, List.sum_cons, Nat.add_assoc]

/-! ## After the loop -/

theorem ended_step (hplace : s.place = .ended) (h : env.step s e = some s') :
    s'.place = .ended ∧ s'.runtime = s.runtime ∧ s'.received = s.received := by
  rcases step_cases h with ⟨p, hp, -, rfl⟩ | ⟨-, hreceive, -, -⟩ | ⟨-, -, hidle, hruntime⟩
  · exact ⟨hplace, rfl, rfl⟩
  · rw [hplace] at hreceive
    cases hreceive
  · rcases hruntime with ⟨hsame, hends⟩ | ⟨hgoing, -⟩
    · exact ⟨hends hplace, hsame, hidle.received⟩
    · exact absurd hplace hgoing

theorem ended_run {later : List CountEvent} (hplace : s.place = .ended)
    (h : runs env.step s later = some u) : u.runtime = s.runtime ∧ u.received = s.received := by
  have hkept := runs_keeps
    (fun t => t.place = .ended ∧ t.runtime = s.runtime ∧ t.received = s.received)
    (fun t e t' ht hstep => by
      obtain ⟨hended, hruntime, hreceived⟩ := ended_step ht.1 hstep
      exact ⟨hended, hruntime.trans ht.2.1, hreceived.trans ht.2.2⟩)
    ⟨hplace, rfl, rfl⟩ h
  exact hkept.2

/-! ## The grace period -/

/-- A packet of the grace period, when the thread first finds the counter zero at `z`. -/
def Due (env : CountEnv) (z : Rat) (p : Delivery) : Prop :=
  p.time < z + env.delay / 1000 ∧ env.running p.time = true

/-- The thread has taken every packet of the grace period, and has counted what it took
under its uid. -/
def Grace (env : CountEnv) (s : CountState) : Prop :=
  (∀ timer, s.runtime = some timer → ∀ i p, s.delivered[i]? = some p → env.Due timer.start p →
    i < s.received) ∧
  ∀ key, s.counters key = (s.delivered.take s.received).countP fun p => p.uid = key

/-- The tests that end a loop which has found the counter zero at `z`: while the timer runs, not
after it. -/
def Ends (env : CountEnv) (z : Rat) : CountEvent → Bool
  | .check now => !env.running now || decide (now < z + env.delay / 1000)
  | _ => false

def upToEnd (env : CountEnv) (z : Rat) (after : List CountEvent) : List CountEvent :=
  after.takeWhile fun e => !env.Ends z e

def fromEnd (env : CountEnv) (z : Rat) (after : List CountEvent) : List CountEvent :=
  after.dropWhile fun e => !env.Ends z e

structure Timed (timer : Timer) (s : CountState) : Prop where
  runtime : s.runtime = some timer
  place : ∀ active, s.place ≠ .reading active

variable {timer : Timer}

theorem timed_step (hs : Timed timer s) (h : env.step s e = some s') : Timed timer s' := by
  cases e with
  | deliver now bytes =>
      obtain ⟨-, hs'⟩ := Option.ite_none_right_eq_some.mp h
      cases hs'
      exact ⟨hs.runtime, hs.place⟩
  | sender a =>
      obtain ⟨tracker, -, rfl⟩ := Option.map_eq_some_iff.mp h
      exact ⟨hs.runtime, hs.place⟩
  | check now =>
      obtain ⟨-, hs'⟩ := Option.ite_none_right_eq_some.mp h
      cases hs'
      refine ⟨hs.runtime, ?_⟩
      intro active
      show (if env.test s.runtime now then Place.receive else Place.ended) ≠ _
      split <;> exact Place.noConfusion
  | recv rx =>
      obtain ⟨-, hs'⟩ := Option.ite_none_right_eq_some.mp h
      cases hs'
      exact ⟨hs.runtime, fun _ => Place.noConfusion⟩
  | readActive =>
      obtain ⟨-, hs'⟩ := Option.ite_none_right_eq_some.mp h
      cases hs'
      refine ⟨hs.runtime, ?_⟩
      intro active
      simp [hs.runtime]
  | readCount now =>
      rw [step] at h
      cases hplace : s.place with
      | reading active => exact absurd hplace (hs.place active)
      | head => simp [hplace] at h
      | receive => simp [hplace] at h
      | poll => simp [hplace] at h
      | ended => simp [hplace] at h

theorem test_eq_not_ends (z now : Rat) :
    env.test (some ⟨z, env.delay / 1000⟩) now = !env.Ends z (.check now) := by
  simp only [test, Ends, Timer.running, Bool.not_or, Bool.not_not]

theorem fromEnd_received {z : Rat} {after : List CountEvent}
    (hs : Timed ⟨z, env.delay / 1000⟩ s) (h : runs env.step s (env.fromEnd z after) = some u) :
    u.received = s.received := by
  cases hrest : env.fromEnd z after with
  | nil =>
      rw [hrest] at h
      cases h
      rfl
  | cons e rest =>
      have hends : env.Ends z e = true := by
        have hhead := List.head?_dropWhile_not (fun e => !env.Ends z e) after
        rw [← fromEnd, hrest] at hhead
        simpa using hhead
      cases e with
      | check now =>
          rw [hrest] at h
          obtain ⟨v, hcheck, hlater⟩ := Option.bind_eq_some_iff.mp h
          obtain ⟨-, hv⟩ := Option.ite_none_right_eq_some.mp hcheck
          have htest : env.test s.runtime now = false := by
            rw [hs.runtime, test_eq_not_ends, hends]
            rfl
          cases hv
          exact (ended_run (by simp [htest]) hlater).2
      | deliver now bytes => cases hends
      | sender a => cases hends
      | recv rx => cases hends
      | readActive => cases hends
      | readCount now => cases hends

theorem taken_append_iff (P : Delivery → Prop) (delivered later : List Delivery) {received : Nat}
    (hwithin : received ≤ delivered.length) :
    (∀ i p, (delivered ++ later)[i]? = some p → P p → i < received) ↔
      (∀ p ∈ later, ¬ P p) ∧ ∀ i p, delivered[i]? = some p → P p → i < received := by
  constructor
  · intro htaken
    constructor
    · intro p hp hdue
      obtain ⟨i, hi⟩ := List.mem_iff_getElem?.mp hp
      have hindex : (delivered ++ later)[delivered.length + i]? = some p := by
        rw [List.getElem?_append_right (Nat.le_add_right _ _), Nat.add_sub_cancel_left, hi]
      have hlt := htaken _ p hindex hdue
      omega
    · intro i p hi hdue
      refine htaken i p ?_ hdue
      rw [List.getElem?_append_left (List.getElem?_eq_some_iff.mp hi).1]
      exact hi
  · rintro ⟨hlater, hdelivered⟩ i p hi hdue
    by_cases hlt : i < delivered.length
    · rw [List.getElem?_append_left hlt] at hi
      exact hdelivered i p hi hdue
    · rw [List.getElem?_append_right (Nat.le_of_not_lt hlt)] at hi
      exact absurd hdue (hlater p (List.mem_of_getElem? hi))

theorem readCount_found {z : Rat} (hnone : s.runtime = none)
    (h : env.step s (.readCount z) = some s') (hfound : s'.runtime.isSome) :
    Timed ⟨z, env.delay / 1000⟩ s' ∧ s'.received = s.received ∧ s'.delivered = s.delivered := by
  rw [step] at h
  cases hplace : s.place with
  | reading active =>
      rw [hplace] at h
      obtain ⟨-, heq⟩ := Option.ite_none_right_eq_some.mp h
      cases heq
      refine ⟨⟨?_, fun _ => Place.noConfusion⟩, rfl, rfl⟩
      cases hzero : isZero active s.tracker.count with
      | true => simp
      | false => simp [hzero, hnone] at hfound
  | head => simp [hplace] at h
  | receive => simp [hplace] at h
  | poll => simp [hplace] at h
  | ended => simp [hplace] at h

/-- The condition of the loop asks for a timer that does not run, so the first test of the grace
period ends the loop. What the grace period promises holds exactly when no packet of it arrives
from that test on, and the calls of `recv` before it return as many packets as arrived up to the
last one of the grace period. -/
theorem grace_iff (env : CountEnv) (n : Nat) (before after : List CountEvent)
    (r s u : CountState) (z : Rat) (hbefore : runs env.step (.init n) before = some r)
    (hnone : r.runtime = none) (hfinds : env.step r (.readCount z) = some s)
    (hfound : s.runtime.isSome) (hafter : runs env.step s after = some u) :
    env.Grace u ↔
      (∀ p ∈ deliveries (env.fromEnd z after), ¬ env.Due z p) ∧
        ∀ i p, (deliveries (before ++ env.upToEnd z after))[i]? = some p → env.Due z p →
          i < recvSizes (before ++ env.upToEnd z after) := by
  obtain ⟨htimed, hsreceived, hsdelivered⟩ := readCount_found hnone hfinds hfound
  -- the state in which the loop is tested for the last time
  rw [← List.takeWhile_append_dropWhile (p := fun e => !env.Ends z e) (l := after), runs_append]
    at hafter
  obtain ⟨v, hv, hlast⟩ := Option.bind_eq_some_iff.mp hafter
  have hvtimed := runs_keeps (Timed ⟨z, env.delay / 1000⟩) (fun _ _ _ => timed_step) htimed hv
  have hvtracked : Tracked env v :=
    runs_keeps (Tracked env) (fun _ _ _ => tracked_step) (tracked_step (tracked_run hbefore) hfinds)
      hv
  have hutracked : Tracked env u := runs_keeps (Tracked env) (fun _ _ _ => tracked_step) hvtracked hlast
  have hruntime : u.runtime = some ⟨z, env.delay / 1000⟩ :=
    (runs_keeps (Timed ⟨z, env.delay / 1000⟩) (fun _ _ _ => timed_step) hvtimed hlast).runtime
  obtain ⟨hrreceived, hrdelivered⟩ := runs_sums hbefore
  obtain ⟨hvreceived, hvdelivered⟩ := runs_sums hv
  have hdelivered : v.delivered = deliveries (before ++ env.upToEnd z after) := by
    rw [hvdelivered, hsdelivered, hrdelivered, deliveries, deliveries, deliveries,
      List.filterMap_append]
    rfl
  have hreceived : v.received = recvSizes (before ++ env.upToEnd z after) := by
    rw [hvreceived, hsreceived, hrreceived, recvSizes, recvSizes, recvSizes, List.map_append,
      List.sum_append]
    exact congrArg (· + _) (Nat.zero_add _)
  rw [Grace, and_iff_left hutracked.counted, hruntime, (runs_sums hlast).2,
    fromEnd_received hvtimed hlast, ← hdelivered, ← hreceived]
  constructor
  · intro h
    exact (taken_append_iff _ _ _ hvtracked.within).mp (h _ rfl)
  · intro h timer htimer
    cases htimer
    exact (taken_append_iff _ _ _ hvtracked.within).mpr h

end CountEnv

def CountEnv.second : CountEnv where
  delay := 1000
  running := fun _ => true
  size := 64

/-- The load thread runs from its start to its end, and the count thread finds the counter
zero at 10. -/
def searching : List CountEvent :=
  [.sender (.inc 0), .sender (.activate 0), .sender (.dec 0), .check 9, .recv 0, .readActive]

def finding : List CountEvent := searching ++ [.readCount 10]

def found : CountState where
  place := .head
  runtime := some ⟨10, CountEnv.second.delay / 1000⟩
  rxQueue := []
  counters := fun _ => 0
  tracker := ⟨1, 0, [.finished]⟩
  clock := 10
  delivered := []
  received := 0

theorem runs_searching : runs CountEnv.second.step (.init 1) searching =
    some { found with place := .reading 1, runtime := none, clock := 9 } := rfl

theorem runs_finding : runs CountEnv.second.step (.init 1) finding = some found := rfl

theorem test_found : CountEnv.second.test found.runtime (21 / 2) = false := by
  norm_num [CountEnv.test, found, Timer.running, CountEnv.second]

theorem runs_found (now : Rat) (h : 21 / 2 ≤ now) (bytes : List UInt8) :
    runs CountEnv.second.step found [.check (21 / 2), .deliver now bytes] =
      some { found with place := .ended, clock := now, rxQueue := [⟨now, bytes⟩],
                        delivered := [⟨now, bytes⟩] } := by
  have hclock : found.clock ≤ 21 / 2 := by norm_num [found]
  simp only [runs, CountEnv.step, test_found, show found.place = .head from rfl, hclock, h, and_self,
    if_true, Option.bind_some]
  rfl

theorem grace_iff_late :
    runs CountEnv.second.step (.init 1) finding = some found ∧
      ∃ u, runs CountEnv.second.step found [.check (21 / 2), .deliver 12 []] = some u ∧
        u.place = .ended ∧ CountEnv.second.Grace u := by
  have hlater := runs_found 12 (by norm_num) []
  have hsplit : CountEnv.second.upToEnd 10 [.check (21 / 2), .deliver 12 []] = [] ∧
      CountEnv.second.fromEnd 10 [.check (21 / 2), .deliver 12 []] =
        [.check (21 / 2), .deliver 12 []] := by
    norm_num [CountEnv.upToEnd, CountEnv.fromEnd, CountEnv.Ends, CountEnv.second]
  refine ⟨runs_finding, _, hlater, rfl, ?_⟩
  refine (CountEnv.grace_iff CountEnv.second 1 searching [.check (21 / 2), .deliver 12 []] _ found _
    10 runs_searching rfl rfl rfl hlater).mpr ?_
  rw [hsplit.1, hsplit.2]
  constructor
  · intro p hp hdue
    rw [List.mem_singleton.mp hp] at hdue
    norm_num [CountEnv.Due, CountEnv.second] at hdue
  · intro i p hi
    have hnone : deliveries (searching ++ []) = [] := rfl
    rw [hnone, List.getElem?_nil] at hi
    cases hi

/-- The loop ends half a second after the thread has found the counter zero, and a packet
that arrives in the other half of the grace period is never counted. -/
theorem grace_lost :
    ∃ u, runs CountEnv.second.step (.init 1)
        (finding ++ [.check (21 / 2), .deliver (43 / 4) (tagged 1 (List.replicate 60 0))]) = some u ∧
      u.place = .ended ∧ u.counters 1 = 0 ∧ ¬ CountEnv.second.Grace u := by
  have hlater := runs_found (43 / 4) (by norm_num) (tagged 1 (List.replicate 60 0))
  rw [runs_append, runs_finding, Option.bind_some, hlater]
  refine ⟨_, rfl, rfl, rfl, ?_⟩
  intro hgrace
  have hdue : CountEnv.second.Due 10 ⟨43 / 4, tagged 1 (List.replicate 60 0)⟩ := by
    norm_num [CountEnv.Due, CountEnv.second]
  exact absurd (hgrace.1 _ rfl 0 _ rfl hdue) (Nat.lt_irrefl 0)

end MoonGen.Interface

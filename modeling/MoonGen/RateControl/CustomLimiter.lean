import Mathlib.Algebra.Order.Ring.Nat
import MoonGen.RateControl.Pacing

/-! # The clock of the rate limiter with custom delays

`main_loop` reads the clock once, before its first dequeue, and from then on adds the
delay of each packet to `next_send` before it waits for the packet. It never restarts
its schedule: a packet that is late does not move the packets behind it.
-/

namespace MoonGen.RateLimiter

open Loop

variable {α : Type u}

/-- `id_cycles` of `main_loop`: the timestamp field holds the delay in bytes on the wire. -/
def customCycles (D : Type) [Double D] (linkSpeed : UInt32) (tscHz : UInt64) (buf : Mbuf) :
    UInt64 :=
  let linkBps : D := Double.mul (Double.ofUInt64 linkSpeed.toUInt64) (Double.ofUInt64 1000000)
  Double.toUInt64 (Double.mul (Double.div (Double.ofUInt64 (buf.timestamp * 8)) linkBps)
    (Double.ofUInt64 tscHz))

/-- The packet the loop comes to with a step: the first one of a batch or the one behind a
packet that the NIC has taken. A packet that was refused is not a new one. -/
def Pc.reached : Pc α → Pc α → Option α
  | .refused _ _, _ => none
  | _, .transmit _ (p :: _) => some p
  | _, _ => none

def Timed.start (capacity : Nat) (cur : UInt64) : Timed α :=
  ⟨RateLimiter.init capacity, cur, .none, cur, []⟩

/-- One step of `main_loop` at a time. The addition to `next_send` is part of the step that
comes to the packet. -/
def Timed.customStep (idCycles : α → UInt64) (s : Timed α) (now : UInt64)
    (isRunning accepted : Bool) : Option (Timed α) :=
  match s.wait with
  | .restart | .crashed => none
  | .nextSend =>
      if now < s.nextSend then some { s with clock := now }
      else some { s with clock := now, wait := .none }
  | .none =>
      (s.limiter.limiterStep .custom isRunning accepted).map fun limiter =>
        let next := s.limiter.pc.reached limiter.pc
        { limiter := limiter
          nextSend := s.nextSend + (next.map idCycles).getD 0
          wait := if next.isSome then .nextSend else .none
          clock := now
          handed := if Timed.handsOver s.limiter.pc accepted then s.handed ++ [now] else s.handed }

def customStep (idCycles : α → UInt64) (s : Timed α) : TimedAction α Unit → Option (Timed α)
  | .enqueue bufs => (step .custom s.limiter (.enqueue bufs)).map fun l => { s with limiter := l }
  | .stop => (step .custom s.limiter .stop).map fun l => { s with limiter := l }
  | .limiter now isRunning accepted _ =>
      if s.clock ≤ now then s.customStep idCycles now isRunning accepted else none

/-! ## What a step of the thread does to the packets -/

/-- The effect of a step of the limiter thread, with the packet it comes to and whether it
hands one over. -/
inductive Moved (s t : Limiter α) : Option α → Bool → Prop where
  | idle (hsent : t.sent = s.sent) (hheld : t.pc.held = s.pc.held) (hring : t.ring = s.ring) :
      Moved s t none false
  | fetched (p : α) (rest : List α) (hsent : t.sent = s.sent) (hnone : s.pc.held = [])
      (hheld : t.pc.held = p :: rest)
      (hring : s.ring.contents = p :: rest ++ t.ring.contents) : Moved s t (some p) false
  | handed (p : α) (rest : List α) (hsent : t.sent = s.sent ++ [p])
      (hbefore : s.pc.held = p :: rest) (hheld : t.pc.held = rest) (hring : t.ring = s.ring) :
      Moved s t rest.head? true
  /-- The thread returns and leaves the packets of its batch behind. -/
  | dropped (hsent : t.sent = s.sent) (hpc : t.pc = .returned) : Moved s t none false

theorem dequeue_moved {s : Limiter α} {size : Nat} (hpc : s.pc = .dequeue size) (b : Bool) :
    Moved s (s.dequeue .custom size) (s.pc.reached (s.dequeue .custom size).pc)
      (Timed.handsOver s.pc b) := by
  rw [hpc]
  unfold Limiter.dequeue
  split
  next hsize =>
    cases htake : s.ring.contents.take size with
    | nil =>
        have hdrop : s.ring.dequeued size = s.ring := by
          have hcontents := List.take_append_drop size s.ring.contents
          rw [htake, List.nil_append] at hcontents
          unfold Ring.dequeued
          simp only [hcontents]
        exact .idle rfl (by rw [hpc]; rfl) hdrop
    | cons p rest =>
        refine .fetched p rest rfl (by rw [hpc]; rfl) rfl ?_
        rw [← htake]
        exact (List.take_append_drop size s.ring.contents).symm
  next =>
    split
    next => exact .idle rfl (by rw [hpc]; rfl) rfl
    next => exact .idle rfl (by rw [hpc]; rfl) rfl

theorem limiterStep_moved {s t : Limiter α} {isRunning accepted : Bool}
    (h : s.limiterStep .custom isRunning accepted = some t) :
    s.pc ≠ .returned ∧ t.enqueued = s.enqueued ∧
      Moved s t (s.pc.reached t.pc) (Timed.handsOver s.pc accepted) := by
  unfold Limiter.limiterStep at h
  split at h
  next hpc =>
    cases h
    refine ⟨by simp [hpc], rfl, ?_⟩
    rw [hpc]
    cases isRunning with
    | true => exact .idle rfl (by rw [hpc]; rfl) rfl
    | false => exact .dropped rfl rfl
  next size hpc =>
    cases h
    refine ⟨by simp [hpc], ?_, dequeue_moved hpc accepted⟩
    unfold Limiter.dequeue
    split
    · rfl
    · split <;> rfl
  next n hpc =>
    cases h
    refine ⟨by simp [hpc], rfl, ?_⟩
    rw [hpc]
    exact .idle rfl (by rw [hpc]; rfl) rfl
  next n p rest hpc =>
    cases accepted with
    | true =>
        cases h
        refine ⟨by simp [hpc], rfl, ?_⟩
        rw [hpc]
        have hmoved : Moved s { s with sent := s.sent ++ [p], pc := .transmit n rest }
            rest.head? true :=
          .handed p rest rfl (by rw [hpc]; rfl) rfl rfl
        cases rest with
        | nil => exact hmoved
        | cons q rest => exact hmoved
    | false =>
        cases h
        refine ⟨by simp [hpc], rfl, ?_⟩
        rw [hpc]
        exact .idle rfl (by rw [hpc]; rfl) rfl
  next n pending hpc =>
    cases h
    refine ⟨by simp [hpc], rfl, ?_⟩
    rw [hpc]
    cases s.running isRunning with
    | true => exact .idle rfl (by rw [hpc]; rfl) rfl
    | false => exact .dropped rfl rfl
  next hpc =>
    cases h
    refine ⟨by simp [hpc], rfl, ?_⟩
    rw [hpc]
    cases s.running isRunning with
    | true => exact .idle rfl (by rw [hpc]; rfl) rfl
    | false => exact .dropped rfl rfl
  next => cases h

inductive CustomMove (idCycles : α → UInt64) (s : Timed α) (now : UInt64) : Timed α → Prop where
  | producer (limiter : Limiter α) (more : List α) (hsent : limiter.sent = s.limiter.sent)
      (hpc : limiter.pc = s.limiter.pc)
      (hring : limiter.ring.contents = s.limiter.ring.contents ++ more)
      (henqueued : limiter.enqueued = s.limiter.enqueued ++ more) :
      CustomMove idCycles s now { s with limiter := limiter }
  | spin (hwait : s.wait = .nextSend) (hearly : now < s.nextSend) :
      CustomMove idCycles s now { s with clock := now }
  | release (hwait : s.wait = .nextSend) (hdue : s.nextSend ≤ now) :
      CustomMove idCycles s now { s with clock := now, wait := .none }
  | untimed (isRunning accepted : Bool) (limiter : Limiter α) (hwait : s.wait = .none)
      (hstep : s.limiter.limiterStep .custom isRunning accepted = some limiter) :
      CustomMove idCycles s now
        { limiter := limiter
          nextSend := s.nextSend + ((s.limiter.pc.reached limiter.pc).map idCycles).getD 0
          wait := if (s.limiter.pc.reached limiter.pc).isSome then .nextSend else .none
          clock := now
          handed :=
            if Timed.handsOver s.limiter.pc accepted then s.handed ++ [now] else s.handed }

theorem Timed.customStep_move {idCycles : α → UInt64} {s t : Timed α} {now : UInt64}
    {isRunning accepted : Bool} (h : s.customStep idCycles now isRunning accepted = some t) :
    CustomMove idCycles s now t := by
  unfold Timed.customStep at h
  split at h
  next => cases h
  next => cases h
  next hwait =>
    split at h
    next hearly =>
      cases h
      exact .spin hwait hearly
    next hdue =>
      cases h
      exact .release hwait (UInt64.not_lt.mp hdue)
  next hwait =>
    rcases Option.map_eq_some_iff.mp h with ⟨limiter, hstep, rfl⟩
    exact .untimed isRunning accepted limiter hwait hstep

theorem customStep_move {idCycles : α → UInt64} {s t : Timed α} {a : TimedAction α Unit}
    (h : customStep idCycles s a = some t) :
    ∃ now, CustomMove idCycles s now t ∧ s.clock ≤ now := by
  cases a with
  | enqueue bufs =>
      rcases Option.map_eq_some_iff.mp h with ⟨limiter, hstep, rfl⟩
      simp only [step, Option.ite_none_left_eq_some, Option.some.injEq] at hstep
      refine ⟨s.clock, ?_, UInt64.le_refl _⟩
      rw [← hstep.2]
      unfold Limiter.enqueue
      split
      next hroom => exact .producer _ bufs rfl rfl (Ring.enqueueBulk_of_room hroom) rfl
      next => exact .producer _ [] rfl rfl (List.append_nil _).symm (List.append_nil _).symm
  | stop =>
      rcases Option.map_eq_some_iff.mp h with ⟨limiter, hstep, rfl⟩
      simp only [step, Option.ite_none_left_eq_some, Option.some.injEq] at hstep
      refine ⟨s.clock, ?_, UInt64.le_refl _⟩
      rw [← hstep.2]
      exact .producer _ [] rfl rfl (List.append_nil _).symm (List.append_nil _).symm
  | limiter now isRunning accepted _ =>
      simp only [customStep, Option.ite_none_right_eq_some] at h
      exact ⟨now, Timed.customStep_move h.2, h.1⟩

theorem CustomMove.enqueued_grows {idCycles : α → UInt64} {s t : Timed α} {now : UInt64}
    (h : CustomMove idCycles s now t) : s.limiter.enqueued <+: t.limiter.enqueued := by
  cases h with
  | producer limiter more _ _ _ henqueued => exact ⟨more, henqueued.symm⟩
  | spin _ _ => exact List.prefix_rfl
  | release _ _ => exact List.prefix_rfl
  | untimed isRunning accepted limiter _ hstep =>
      exact ⟨[], (List.append_nil _).trans (limiterStep_moved hstep).2.1.symm⟩

/-! ## The schedule -/

section Schedule

variable (idCycles : α → UInt64)

def cycles (packets : List α) : Nat := (packets.map fun p => (idCycles p).toNat).sum

@[simp] theorem cycles_nil : cycles idCycles [] = 0 := rfl

@[simp] theorem cycles_append (xs ys : List α) :
    cycles idCycles (xs ++ ys) = cycles idCycles xs + cycles idCycles ys := by
  simp [cycles]

@[simp] theorem cycles_singleton (p : α) : cycles idCycles [p] = (idCycles p).toNat := by
  simp [cycles]

theorem cycles_le_of_prefix {xs ys : List α} (h : xs <+: ys) :
    cycles idCycles xs ≤ cycles idCycles ys := by
  rcases h with ⟨rest, rfl⟩
  rw [cycles_append]
  exact Nat.le_add_right _ _

theorem cycles_le_of_fifo {sent ahead behind enqueued : List α}
    (h : sent ++ (ahead ++ behind) = enqueued) :
    cycles idCycles (sent ++ ahead.head?.toList) ≤ cycles idCycles enqueued := by
  rw [← h]
  cases ahead with
  | nil => simp
  | cons p rest =>
      rw [show p :: rest ++ behind = [p] ++ (rest ++ behind) from rfl]
      simp only [cycles_append, List.head?_cons, Option.toList_some]
      omega

/-- While the thread runs, `next_send` is what the delays of the packets up to the current
one give, and a packet that does not wait any more is due. -/
structure Underway (start : Nat) (s : Timed α) : Prop where
  fifo : s.limiter.sent ++ (s.limiter.pc.held ++ s.limiter.ring.contents) = s.limiter.enqueued
  scheduled : s.nextSend.toNat =
    start + cycles idCycles (s.limiter.sent ++ s.limiter.pc.held.head?.toList)
  due : s.wait = .none → s.limiter.pc.held ≠ [] → s.nextSend ≤ s.clock

/-- Packets go out in the order of the ring and not before the delays up to them are over. -/
structure Scheduled (start : Nat) (s : Timed α) : Prop where
  fifo : s.limiter.sent <+: s.limiter.enqueued
  handed_length : s.handed.length = s.limiter.sent.length
  not_early : ∀ (k : Nat) (τ : UInt64), s.handed[k]? = some τ →
    start + cycles idCycles (s.limiter.sent.take (k + 1)) ≤ τ.toNat
  waiting : s.wait ≠ .none → s.limiter.pc.held ≠ []
  underway : s.limiter.pc ≠ .returned → Underway idCycles start s

variable {idCycles} {start : Nat} {s t : Timed α}

theorem start_scheduled (capacity : Nat) (cur : UInt64) :
    Scheduled idCycles cur.toNat (Timed.start capacity cur : Timed α) := by
  constructor
  · exact List.prefix_rfl
  · rfl
  · intro k τ h
    cases h
  · intro hwait
    exact absurd rfl hwait
  · intro _
    exact ⟨rfl, rfl, fun _ hheld => absurd rfl hheld⟩

theorem toNat_advance {nextSend : UInt64} {next : Option α}
    (h : nextSend.toNat + cycles idCycles next.toList < 2 ^ 64) :
    (nextSend + (next.map idCycles).getD 0).toNat =
      nextSend.toNat + cycles idCycles next.toList := by
  cases next with
  | none => simp
  | some p =>
      simp only [Option.toList_some, cycles_singleton] at h
      simp only [Option.map_some, Option.getD_some, Option.toList_some, cycles_singleton]
      rw [UInt64.toNat_add, Nat.mod_eq_of_lt h]

/-- The thread has come to the packet at the front, and `next_send` was right for those before. -/
theorem Underway.of_reached (nextSend : UInt64)
    (hfifo : s.limiter.sent ++ (s.limiter.pc.held ++ s.limiter.ring.contents) =
      s.limiter.enqueued)
    (hbound : start + cycles idCycles s.limiter.enqueued < 2 ^ 64)
    (hbefore : nextSend.toNat = start + cycles idCycles s.limiter.sent)
    (hnext : s.nextSend = nextSend + (s.limiter.pc.held.head?.map idCycles).getD 0)
    (hwaits : s.wait = .none → s.limiter.pc.held = []) : Underway idCycles start s := by
  have hle := cycles_le_of_fifo idCycles hfifo
  rw [cycles_append] at hle
  refine ⟨hfifo, ?_, fun hwait hnonempty => absurd (hwaits hwait) hnonempty⟩
  rw [hnext, toNat_advance (by omega), cycles_append]
  omega

theorem Scheduled.producer {limiter : Limiter α} {more : List α} (h : Scheduled idCycles start s)
    (hsent : limiter.sent = s.limiter.sent) (hpc : limiter.pc = s.limiter.pc)
    (hring : limiter.ring.contents = s.limiter.ring.contents ++ more)
    (henqueued : limiter.enqueued = s.limiter.enqueued ++ more) :
    Scheduled idCycles start { s with limiter := limiter } := by
  constructor
  · simp only [hsent, henqueued]
    exact h.fifo.trans (List.prefix_append _ _)
  · simp only [hsent]
    exact h.handed_length
  · simp only [hsent]
    exact h.not_early
  · simp only [hpc]
    exact h.waiting
  · simp only [hpc]
    intro hrunning
    have hs := h.underway hrunning
    constructor
    · simp only [hsent, hpc, hring, henqueued]
      rw [← hs.fifo]
      simp only [List.append_assoc]
    · simp only [hsent, hpc]
      exact hs.scheduled
    · simp only [hpc]
      exact hs.due

theorem not_early_snoc {sent : List α} {handed : List UInt64} {p : α} {now : UInt64}
    (hlength : handed.length = sent.length)
    (h : ∀ (k : Nat) (τ : UInt64), handed[k]? = some τ →
      start + cycles idCycles (sent.take (k + 1)) ≤ τ.toNat)
    (hnow : start + cycles idCycles (sent ++ [p]) ≤ now.toNat) (k : Nat) (τ : UInt64)
    (hk : (handed ++ [now])[k]? = some τ) :
    start + cycles idCycles ((sent ++ [p]).take (k + 1)) ≤ τ.toNat := by
  rcases Nat.lt_or_ge k handed.length with hold | hnew
  · rw [List.getElem?_append_left hold] at hk
    rw [List.take_append_of_le_length (by omega)]
    exact h k τ hk
  · rw [List.getElem?_append_right hnew] at hk
    rcases List.getElem?_eq_some_iff.mp hk with ⟨hlt, rfl⟩
    rw [List.take_of_length_le (by simp; omega)]
    simpa using hnow

theorem Scheduled.keep (h : Scheduled idCycles start s) (hsent : t.limiter.sent = s.limiter.sent)
    (henqueued : t.limiter.enqueued = s.limiter.enqueued) (hhanded : t.handed = s.handed)
    (hwaiting : t.wait ≠ .none → t.limiter.pc.held ≠ [])
    (hunderway : t.limiter.pc ≠ .returned → Underway idCycles start t) :
    Scheduled idCycles start t := by
  constructor
  · rw [hsent, henqueued]
    exact h.fifo
  · rw [hsent, hhanded]
    exact h.handed_length
  · rw [hsent, hhanded]
    exact h.not_early
  · exact hwaiting
  · exact hunderway

theorem Scheduled.untimed {now : UInt64} {isRunning accepted : Bool} {limiter : Limiter α}
    (h : Scheduled idCycles start s) (hwait : s.wait = .none) (hle : s.clock ≤ now)
    (hstep : s.limiter.limiterStep .custom isRunning accepted = some limiter)
    (hbound : start + cycles idCycles s.limiter.enqueued < 2 ^ 64) :
    Scheduled idCycles start
      { limiter := limiter
        nextSend := s.nextSend + ((s.limiter.pc.reached limiter.pc).map idCycles).getD 0
        wait := if (s.limiter.pc.reached limiter.pc).isSome then .nextSend else .none
        clock := now
        handed :=
          if Timed.handsOver s.limiter.pc accepted then s.handed ++ [now] else s.handed } := by
  have hmoved := limiterStep_moved hstep
  have hs := h.underway hmoved.1
  have henqueued := hmoved.2.1
  generalize s.limiter.pc.reached limiter.pc = next at hmoved ⊢
  generalize Timed.handsOver s.limiter.pc accepted = handsOver at hmoved ⊢
  have hfifo := hs.fifo
  have hscheduled := hs.scheduled
  cases hmoved.2.2 with
  | idle hsent hheld hring =>
      refine h.keep hsent henqueued rfl (fun hnot => absurd rfl hnot) ?_
      intro _
      constructor
      · rw [hsent, hheld, hring, henqueued]
        exact hfifo
      · simpa [hsent, hheld] using hscheduled
      · intro _ hnonempty
        rw [hheld] at hnonempty
        simpa using UInt64.le_trans (hs.due hwait hnonempty) hle
  | fetched p rest hsent hnone hheld hring =>
      have hfifo' : limiter.sent ++ (limiter.pc.held ++ limiter.ring.contents) =
          limiter.enqueued := by
        rw [hsent, hheld, henqueued, ← hring]
        rw [hnone] at hfifo
        exact hfifo
      refine h.keep hsent henqueued rfl (fun _ => by simp [hheld]) ?_
      intro _
      refine .of_reached s.nextSend hfifo' (henqueued ▸ hbound) ?_ ?_ ?_
      · simpa [hnone, hsent] using hscheduled
      · simp [hheld]
      · simp
  | handed p rest hsent hbefore hheld hring =>
      have hfifo' : limiter.sent ++ (limiter.pc.held ++ limiter.ring.contents) =
          limiter.enqueued := by
        rw [hsent, hheld, hring, henqueued, ← hfifo, hbefore]
        simp
      have hdue : s.nextSend.toNat ≤ now.toNat := by
        have hnonempty : s.limiter.pc.held ≠ [] := by simp [hbefore]
        exact UInt64.le_iff_toNat_le.mp (UInt64.le_trans (hs.due hwait hnonempty) hle)
      rw [hbefore] at hscheduled
      simp only [List.head?_cons, Option.toList_some] at hscheduled
      constructor
      · rw [← hfifo']
        exact List.prefix_append _ _
      · simp [hsent, h.handed_length]
      · simp only [if_true, hsent]
        exact not_early_snoc h.handed_length h.not_early (hscheduled ▸ hdue)
      · simp only [hheld]
        rintro hnot rfl
        exact hnot rfl
      · intro _
        refine .of_reached s.nextSend hfifo' (henqueued ▸ hbound) ?_ ?_ ?_
        · rw [hsent]
          exact hscheduled
        · rw [hheld]
        · cases rest with
          | nil => simp [hheld]
          | cons q rest => simp
  | dropped hsent hpc =>
      exact h.keep hsent henqueued rfl (fun hnot => absurd rfl hnot)
        (fun hrunning => absurd hpc hrunning)

theorem Scheduled.wait {now : UInt64} (h : Scheduled idCycles start s) (hle : s.clock ≤ now) :
    Scheduled idCycles start { s with clock := now } ∧
      (s.nextSend ≤ now → Scheduled idCycles start { s with clock := now, wait := .none }) := by
  constructor
  · refine h.keep rfl rfl rfl h.waiting ?_
    intro hrunning
    have hs := h.underway hrunning
    refine ⟨hs.fifo, hs.scheduled, ?_⟩
    intro hwait hheld
    exact UInt64.le_trans (hs.due hwait hheld) hle
  · intro hdue
    refine h.keep rfl rfl rfl (fun hnot => absurd rfl hnot) ?_
    intro hrunning
    have hs := h.underway hrunning
    exact ⟨hs.fifo, hs.scheduled, fun _ _ => hdue⟩

theorem Scheduled.move {now : UInt64} (h : Scheduled idCycles start s)
    (hmove : CustomMove idCycles s now t) (hle : s.clock ≤ now)
    (hbound : start + cycles idCycles s.limiter.enqueued < 2 ^ 64) :
    Scheduled idCycles start t := by
  cases hmove with
  | producer limiter more hsent hpc hring henqueued => exact h.producer hsent hpc hring henqueued
  | spin _ _ => exact (h.wait hle).1
  | release _ hdue => exact (h.wait hle).2 hdue
  | untimed isRunning accepted limiter hwait hstep => exact h.untimed hwait hle hstep hbound

theorem runs_enqueued {actions : List (TimedAction α Unit)}
    (hrun : runs (customStep idCycles) s actions = some t) :
    s.limiter.enqueued <+: t.limiter.enqueued := by
  have hkeeps : ∀ u a v, s.limiter.enqueued <+: u.limiter.enqueued →
      customStep idCycles u a = some v → s.limiter.enqueued <+: v.limiter.enqueued := by
    intro u a v hu hstep
    rcases customStep_move hstep with ⟨now, hmove, _⟩
    exact hu.trans hmove.enqueued_grows
  exact runs_keeps (fun u => s.limiter.enqueued <+: u.limiter.enqueued) hkeeps List.prefix_rfl hrun

theorem runs_scheduled {actions : List (TimedAction α Unit)} (h : Scheduled idCycles start s)
    (hrun : runs (customStep idCycles) s actions = some t)
    (hbound : start + cycles idCycles t.limiter.enqueued < 2 ^ 64) :
    Scheduled idCycles start t := by
  induction actions generalizing s with
  | nil =>
      cases hrun
      exact h
  | cons a rest ih =>
      have hle := cycles_le_of_prefix idCycles (runs_enqueued hrun)
      rcases Option.bind_eq_some_iff.mp hrun with ⟨s', hstep, hrest⟩
      rcases customStep_move hstep with ⟨now, hmove, hnow⟩
      exact ih (h.move hmove hnow (by omega)) hrest

theorem Scheduled.waits_iff (hs : Scheduled idCycles start s) (hwait : s.wait = .nextSend)
    {now : UInt64} {isRunning accepted : Bool}
    (hstep : customStep idCycles s (.limiter now isRunning accepted ()) = some t) :
    t.wait = .nextSend ↔ now.toNat <
      start + cycles idCycles (s.limiter.sent ++ s.limiter.pc.held.head?.toList) := by
  have hrunning : s.limiter.pc ≠ .returned := by
    intro hpc
    exact hs.waiting (by simp [hwait]) (by rw [hpc]; rfl)
  rw [← (hs.underway hrunning).scheduled, ← UInt64.lt_iff_toNat_lt]
  simp only [customStep, Timed.customStep, hwait, Option.ite_none_right_eq_some] at hstep
  have hstep := hstep.2
  split at hstep
  next hearly =>
    cases hstep
    simp [hearly]
  next hdue =>
    cases hstep
    simp [hdue]

end Schedule

section Bytes

variable (D : Type) [Double D] (linkSpeed : UInt32) (tscHz : UInt64)

end Bytes

/-- Three packets with delays of 14, 26 and 5 bytes, 11.2, 20.8 and 4 cycles at 10 Gbit/s and
1 GHz. The thread dequeues two of them at the time 100, when the loop starts, and then does not
run until 200. -/
def lateRun : List (TimedAction Mbuf Unit) :=
  .enqueue [⟨1, 60, 14, 0⟩, ⟨2, 60, 26, 0⟩, ⟨3, 60, 5, 0⟩] ::
    List.replicate 7 (.limiter 100 true true ()) ++
      .limiter 105 true true () :: List.replicate 4 (.limiter 200 true true ())

end MoonGen.RateLimiter

import Mathlib.Algebra.Order.Ring.Nat
import MoonGen.Lib.Loop
import MoonGen.Lib.Ring

/-! # Software rate limiters

A producer calls `send`, `sendN` and then `stop` of `software-ratecontrol.lua`; a
limiter thread runs one of the three loops of `software-rate-limiter.cpp`. The two
interleave freely. The waits for `next_send` only delay the limiter and are left
out. What `libmoon::is_running(0)` and `rte_eth_tx_burst` answer is an input of
the step that asks.
-/

namespace MoonGen.RateLimiter

open Loop

variable {α : Type u}

def batchSize : Nat := 64

/-- The mode given to `mod:new`: which loop the limiter thread runs. -/
inductive Mode where
  | custom
  | poisson
  | cbr
deriving Repr, DecidableEq

/-- The batch size to try after a dequeue of `size` has failed. Only `main_loop` tries again. -/
def Mode.retry : Mode → Nat → Option Nat
  | .custom, size => if 1 < size then some (size / 2) else none
  | .poisson, _ | .cbr, _ => none

inductive Pc (α : Type u) where
  /-- At `while (libmoon::is_running(0))`. -/
  | head
  /-- Before a `ring_dequeue` of `size`. -/
  | dequeue (size : Nat)
  /-- In the loop over a batch of `n`, of which `pending` is left to transmit. -/
  | transmit (n : Nat) (pending : List α)
  /-- The NIC has not taken the first pending packet; before `ctl->running()`. -/
  | refused (n : Nat) (pending : List α)
  /-- The last dequeue has failed; before `ctl->running()`. -/
  | emptied
  | returned
deriving Repr, DecidableEq

structure Limiter (α : Type u) where
  ring : Ring α
  stop : Bool
  count : UInt64
  pc : Pc α
  /-- All packets handed to the NIC. -/
  sent : List α
  /-- All packets the producer has put into the ring. -/
  enqueued : List α

def init (capacity : Nat) : Limiter α := ⟨Ring.empty capacity, false, 0, .head, [], []⟩

inductive Action (α : Type u) where
  /-- One attempt of `sendToPacketRing`; without room it changes nothing and is repeated. -/
  | enqueue (bufs : List α)
  | stop
  /-- One step of the limiter thread, with the answers it gets if it asks. -/
  | limiter (isRunning accepted : Bool)
deriving Repr, DecidableEq

namespace Limiter

def enqueue (s : Limiter α) (bufs : List α) : Limiter α :=
  if bufs.length ≤ s.ring.free then
    { s with ring := s.ring.enqueueBulk bufs, enqueued := s.enqueued ++ bufs }
  else s

def running (s : Limiter α) (isRunning : Bool) : Bool := isRunning && !s.stop

/-- `ring_dequeue` removes `size` packets or none. -/
def dequeue (mode : Mode) (s : Limiter α) (size : Nat) : Limiter α :=
  if size ≤ s.ring.contents.length then
    { s with ring := s.ring.dequeued size, pc := .transmit size (s.ring.contents.take size) }
  else match mode.retry size with
    | some smaller => { s with pc := .dequeue smaller }
    | none => { s with pc := .emptied }

def limiterStep (mode : Mode) (s : Limiter α) (isRunning accepted : Bool) : Option (Limiter α) :=
  match s.pc with
  | .head => some { s with pc := if isRunning then .dequeue batchSize else .returned }
  | .dequeue size => some (s.dequeue mode size)
  | .transmit n [] => some { s with count := s.count + UInt64.ofNat n, pc := .head }
  | .transmit n (p :: rest) =>
      if accepted then some { s with sent := s.sent ++ [p], pc := .transmit n rest }
      else some { s with pc := .refused n (p :: rest) }
  | .refused n pending =>
      some { s with pc := if s.running isRunning then .transmit n pending else .returned }
  | .emptied => some { s with pc := if s.running isRunning then .head else .returned }
  | .returned => none

end Limiter

/-- A stopped rate limiter must not be used any more, so `stop` is the producer's last call. -/
def step (mode : Mode) (s : Limiter α) : Action α → Option (Limiter α)
  | .enqueue bufs => if s.stop then none else some (s.enqueue bufs)
  | .stop => if s.stop then none else some { s with stop := true }
  | .limiter isRunning accepted => s.limiterStep mode isRunning accepted

theorem step_cases {mode : Mode} {s t : Limiter α} {a : Action α} (h : step mode s a = some t) :
    (∃ bufs, a = .enqueue bufs ∧ s.stop = false ∧ t = s.enqueue bufs) ∨
      (a = .stop ∧ s.stop = false ∧ t = { s with stop := true }) ∨
      ∃ isRunning accepted, a = .limiter isRunning accepted ∧
        s.limiterStep mode isRunning accepted = some t := by
  cases a with
  | enqueue bufs =>
      simp only [step, Option.ite_none_left_eq_some, Bool.not_eq_true, Option.some.injEq] at h
      exact .inl ⟨bufs, rfl, h.1, h.2.symm⟩
  | stop =>
      simp only [step, Option.ite_none_left_eq_some, Bool.not_eq_true, Option.some.injEq] at h
      exact .inr (.inl ⟨rfl, h.1, h.2.symm⟩)
  | limiter isRunning accepted => exact .inr (.inr ⟨isRunning, accepted, rfl, h⟩)

/-! ## What every run keeps -/

/-- libmoon keeps running and the NIC accepts every packet. -/
def Action.Undisturbed : Action α → Prop
  | .limiter isRunning accepted => isRunning = true ∧ accepted = true
  | .enqueue _ | .stop => True

/-- The packets the limiter thread has dequeued and not transmitted. -/
def Pc.held : Pc α → List α
  | .transmit _ pending | .refused _ pending => pending
  | .head | .dequeue _ | .emptied | .returned => []

def Pc.batch : Pc α → Nat
  | .transmit n _ | .refused n _ => n
  | .head | .dequeue _ | .emptied | .returned => 0

def Mode.Tries : Mode → Nat → Prop
  | .custom, size => 0 < size
  | .poisson, size | .cbr, size => size = batchSize

def Pc.Undisturbed (mode : Mode) (stop : Bool) : Pc α → Prop
  | .dequeue size => mode.Tries size
  | .refused _ _ => False
  | .returned => stop = true
  | .head | .transmit _ _ | .emptied => True

structure Inv (mode : Mode) (s : Limiter α) : Prop where
  fifo : s.sent ++ (s.pc.held ++ s.ring.contents) = s.enqueued
  counted : s.count + UInt64.ofNat s.pc.batch =
    UInt64.ofNat (s.sent.length + s.pc.held.length)
  pc : s.pc.Undisturbed mode s.stop

theorem tries_batchSize (mode : Mode) : mode.Tries batchSize := by
  cases mode with
  | custom => exact (by decide : 0 < batchSize)
  | poisson => rfl
  | cbr => rfl

theorem tries_retry {mode : Mode} {size smaller : Nat} (h : mode.retry size = some smaller) :
    mode.Tries smaller := by
  cases mode with
  | custom =>
      simp only [Mode.retry] at h
      split at h
      next hsize =>
        cases h
        exact Nat.div_pos hsize (by decide)
      next => cases h
  | poisson => cases h
  | cbr => cases h

theorem init_inv (mode : Mode) (capacity : Nat) : Inv mode (init capacity : Limiter α) :=
  ⟨rfl, rfl, trivial⟩

theorem Inv.move {mode : Mode} {s : Limiter α} (h : Inv mode s) {pc : Pc α}
    (hheld : pc.held = s.pc.held) (hbatch : pc.batch = s.pc.batch)
    (hpc : pc.Undisturbed mode s.stop) : Inv mode { s with pc := pc } := by
  refine ⟨?_, ?_, hpc⟩
  · simpa only [hheld] using h.fifo
  · simpa only [hheld, hbatch] using h.counted

theorem Inv.enqueue {mode : Mode} {s : Limiter α} (h : Inv mode s) (bufs : List α) :
    Inv mode (s.enqueue bufs) := by
  unfold Limiter.enqueue
  split
  next hroom =>
    refine ⟨?_, h.counted, h.pc⟩
    simp only [Ring.enqueueBulk_of_room hroom]
    rw [← h.fifo]
    simp
  next => exact h

theorem Inv.dequeue {mode : Mode} {s : Limiter α} {size : Nat} (h : Inv mode s)
    (hpc : s.pc = .dequeue size) : Inv mode (s.dequeue mode size) := by
  unfold Limiter.dequeue
  split
  next hsize =>
    have hfifo := h.fifo
    have hcounted := h.counted
    rw [hpc] at hfifo hcounted
    refine ⟨?_, ?_, trivial⟩
    · simpa [Pc.held] using hfifo
    · have hcount : s.count = UInt64.ofNat s.sent.length := by
        simpa [Pc.batch, Pc.held] using hcounted
      simp only [Pc.batch, Pc.held, List.length_take_of_le hsize, hcount, UInt64.ofNat_add]
  next =>
    split
    next smaller hretry => exact h.move (by rw [hpc]; rfl) (by rw [hpc]; rfl) (tries_retry hretry)
    next => exact h.move (by rw [hpc]; rfl) (by rw [hpc]; rfl) trivial

/-- The steps of an undisturbed limiter thread. It returns exactly when it sees the flag. -/
inductive LimiterMove (mode : Mode) (s : Limiter α) : Limiter α → Prop where
  | head (hpc : s.pc = .head) : LimiterMove mode s { s with pc := .dequeue batchSize }
  | dequeue (size : Nat) (hpc : s.pc = .dequeue size) : LimiterMove mode s (s.dequeue mode size)
  | transmit (n : Nat) (p : α) (rest : List α) (hpc : s.pc = .transmit n (p :: rest)) :
      LimiterMove mode s { s with sent := s.sent ++ [p], pc := .transmit n rest }
  | counted (n : Nat) (hpc : s.pc = .transmit n []) :
      LimiterMove mode s { s with count := s.count + UInt64.ofNat n, pc := .head }
  | resume (hpc : s.pc = .emptied) (hstop : s.stop = false) :
      LimiterMove mode s { s with pc := .head }
  | leave (hpc : s.pc = .emptied) (hstop : s.stop = true) :
      LimiterMove mode s { s with pc := .returned }

theorem Inv.limiterMove {mode : Mode} {s t : Limiter α} (h : Inv mode s)
    (hstep : s.limiterStep mode true true = some t) : LimiterMove mode s t := by
  unfold Limiter.limiterStep at hstep
  split at hstep
  next hpc =>
    cases hstep
    exact .head hpc
  next size hpc =>
    cases hstep
    exact .dequeue size hpc
  next n hpc =>
    cases hstep
    exact .counted n hpc
  next n p rest hpc =>
    cases hstep
    exact .transmit n p rest hpc
  next n pending hpc =>
    have habsurd := h.pc
    rw [hpc] at habsurd
    exact absurd habsurd not_false
  next hpc =>
    cases hstep
    by_cases hstop : s.stop = true
    · rw [if_neg (by simp [Limiter.running, hstop])]
      exact .leave hpc hstop
    · rw [if_pos (by simpa [Limiter.running] using hstop)]
      exact .resume hpc (by simpa using hstop)
  next => cases hstep

theorem LimiterMove.stop_eq {mode : Mode} {s t : Limiter α} (h : LimiterMove mode s t) :
    t.stop = s.stop := by
  cases h with
  | dequeue size _ =>
      unfold Limiter.dequeue
      split
      · rfl
      · split <;> rfl
  | _ => rfl

theorem Inv.limiterStep {mode : Mode} {s t : Limiter α} (h : Inv mode s)
    (hmove : LimiterMove mode s t) : Inv mode t := by
  have hfifo := h.fifo
  have hcounted := h.counted
  cases hmove with
  | head hpc => exact h.move (by rw [hpc]; rfl) (by rw [hpc]; rfl) (tries_batchSize mode)
  | dequeue size hpc => exact h.dequeue hpc
  | transmit n p rest hpc =>
      rw [hpc] at hfifo hcounted
      refine ⟨?_, ?_, trivial⟩
      · simpa [Pc.held] using hfifo
      · simp only [Pc.batch, Pc.held] at hcounted ⊢
        rw [hcounted]
        congr 1
        simp only [List.length_cons, List.length_append, List.length_nil]
        omega
  | counted n hpc =>
      rw [hpc] at hfifo hcounted
      refine ⟨hfifo, ?_, trivial⟩
      simpa [Pc.batch, Pc.held] using hcounted
  | resume hpc _ => exact h.move (by rw [hpc]; rfl) (by rw [hpc]; rfl) trivial
  | leave hpc hstop => exact h.move (by rw [hpc]; rfl) (by rw [hpc]; rfl) hstop

theorem Inv.step {mode : Mode} {s t : Limiter α} {a : Action α} (h : Inv mode s)
    (ha : a.Undisturbed) (hstep : step mode s a = some t) : Inv mode t := by
  rcases step_cases hstep with ⟨bufs, _, _, rfl⟩ | ⟨_, _, rfl⟩ | ⟨_, _, rfl, hlimiter⟩
  · exact h.enqueue bufs
  · refine ⟨h.fifo, h.counted, ?_⟩
    have hpc := h.pc
    revert hpc
    cases s.pc <;> simp [Pc.Undisturbed]
  · obtain ⟨rfl, rfl⟩ := ha
    exact h.limiterStep (h.limiterMove hlimiter)

/-! ## Draining -/

/-- Every packet that was enqueued has been transmitted once, in order, and counted. -/
def Drained (s : Limiter α) : Prop := s.sent = s.enqueued ∧ s.count.toNat = s.enqueued.length

/-- A stopped limiter in this state leaves nothing behind: it does not stand between a
failed dequeue and its check of the flag with packets in the ring, and a loop that
dequeues whole batches only finds whole batches. -/
structure Clean (mode : Mode) (s : Limiter α) : Prop where
  checked : s.pc = .emptied ∨ s.pc = .returned → s.ring.contents = []
  whole : mode ≠ .custom → batchSize ∣ s.ring.contents.length

def StopsClean (mode : Mode) (s : Limiter α) (a : Action α) : Prop := a = .stop → Clean mode s

theorem clean_of_busy (mode : Mode) (s : Limiter α) (hemptied : s.pc ≠ .emptied)
    (hreturned : s.pc ≠ .returned) :
    Clean mode s ↔ (mode ≠ .custom → batchSize ∣ s.ring.contents.length) := by
  constructor
  · intro h
    exact h.whole
  · intro h
    refine ⟨?_, h⟩
    rintro (hpc | hpc)
    · exact absurd hpc hemptied
    · exact absurd hpc hreturned

theorem clean_of_checked {mode : Mode} {s : Limiter α} (h : s.pc = .emptied ∨ s.pc = .returned) :
    Clean mode s ↔ s.ring.contents = [] := by
  constructor
  · intro hc
    exact hc.checked h
  · intro hempty
    refine ⟨fun _ => hempty, ?_⟩
    intro _
    simp [hempty]

/-- A failed dequeue that is not tried again has seen fewer packets than the mode leaves
behind only if it has seen none. -/
theorem whole_iff_nil {mode : Mode} {size : Nat} {l : List α} (htries : mode.Tries size)
    (hretry : mode.retry size = none) (hfew : ¬ size ≤ l.length) :
    (mode ≠ .custom → batchSize ∣ l.length) ↔ l = [] := by
  have hfixed : size = batchSize → (batchSize ∣ l.length ↔ l = []) := by
    rintro rfl
    constructor
    · intro hdvd
      exact List.length_eq_zero_iff.mp (Nat.eq_zero_of_dvd_of_lt hdvd (by omega))
    · rintro rfl
      simp
  cases mode with
  | custom =>
      have hone : size = 1 := by
        have hpos : 0 < size := htries
        simp only [Mode.retry] at hretry
        split at hretry
        next => cases hretry
        next => omega
      have hnil : l = [] := List.length_eq_zero_iff.mp (by omega)
      simp [hnil]
  | poisson => simpa using hfixed htries
  | cbr => simpa using hfixed htries

theorem clean_dequeue {mode : Mode} {s : Limiter α} {size : Nat} (h : Inv mode s)
    (hpc : s.pc = .dequeue size) : Clean mode (s.dequeue mode size) ↔ Clean mode s := by
  have htries := h.pc
  rw [hpc] at htries
  have hbusy := clean_of_busy mode s (by simp [hpc]) (by simp [hpc])
  unfold Limiter.dequeue
  split
  next hsize =>
    rw [clean_of_busy _ _ (by simp) (by simp), hbusy]
    apply imp_congr_right
    intro hmode
    -- outside the custom mode a whole batch is taken
    have hwhole : size = batchSize := by
      cases mode with
      | custom => exact absurd rfl hmode
      | poisson => exact htries
      | cbr => exact htries
    rw [hwhole] at hsize
    simp only [Ring.dequeued_contents, List.length_drop, hwhole]
    rw [Nat.dvd_sub_iff_left hsize (Nat.dvd_refl _)]
  next hfew =>
    split
    next smaller hretry => rw [clean_of_busy _ _ (by simp) (by simp), hbusy]
    next hretry =>
      rw [clean_of_checked (.inl rfl), hbusy]
      exact (whole_iff_nil htries hretry hfew).symm

theorem clean_limiterMove {mode : Mode} {s t : Limiter α} (h : Inv mode s) (hstop : s.stop = true)
    (hmove : LimiterMove mode s t) : Clean mode t ↔ Clean mode s := by
  have hbusy := clean_of_busy mode s
  cases hmove with
  | head hpc | transmit n p rest hpc | counted n hpc =>
      rw [clean_of_busy _ _ (by simp) (by simp), hbusy (by simp [hpc]) (by simp [hpc])]
  | dequeue size hpc => exact clean_dequeue h hpc
  | resume _ hgo =>
      rw [hstop] at hgo
      cases hgo
  | leave hpc _ => rw [clean_of_checked (.inl hpc), clean_of_checked (.inr rfl)]

/-- What a step says about the state it leaves, it says about the state it starts from. -/
theorem clean_step {mode : Mode} {s t : Limiter α} {a : Action α} (h : Inv mode s)
    (ha : a.Undisturbed) (hstep : step mode s a = some t) :
    (t.stop = true → Clean mode t) ↔ (s.stop = true → Clean mode s) ∧ StopsClean mode s a := by
  rcases step_cases hstep with ⟨bufs, rfl, hstop, rfl⟩ | ⟨rfl, hstop, rfl⟩ | ⟨_, _, rfl, hlimiter⟩
  · have hsame : (s.enqueue bufs).stop = s.stop := by
      unfold Limiter.enqueue
      split <;> rfl
    simp [hsame, hstop, StopsClean]
  · have hsame : Clean mode { s with stop := true } ↔ Clean mode s :=
      ⟨fun hc => ⟨hc.checked, hc.whole⟩, fun hc => ⟨hc.checked, hc.whole⟩⟩
    simp [hstop, StopsClean, hsame]
  · obtain ⟨rfl, rfl⟩ := ha
    have hmove := h.limiterMove hlimiter
    have hclean : StopsClean mode s (.limiter true true) := fun heq => by cases heq
    by_cases hstop : s.stop = true
    · simp [hmove.stop_eq, hstop, clean_limiterMove h hstop hmove, hclean]
    · simp [hmove.stop_eq, hstop, hclean]

theorem drained_iff_of_returned {mode : Mode} {s : Limiter α} (h : Inv mode s)
    (hpc : s.pc = .returned) : Drained s ↔ Clean mode s ∧ s.enqueued.length < 2 ^ 64 := by
  have hfifo := h.fifo
  have hcounted := h.counted
  simp only [hpc, Pc.held, Pc.batch, List.nil_append, List.length_nil, Nat.add_zero] at hfifo hcounted
  have hcount : s.count = UInt64.ofNat s.sent.length := by simpa using hcounted
  rw [clean_of_checked (.inr hpc), Drained, ← hfifo]
  constructor
  · rintro ⟨hsent, hexact⟩
    refine ⟨by simpa using hsent, ?_⟩
    rw [← hexact]
    exact s.count.toNat_lt
  · rintro ⟨hempty, hfew⟩
    rw [hempty, List.append_nil] at hfew ⊢
    refine ⟨rfl, ?_⟩
    rw [hcount, UInt64.toNat_ofNat']
    exact Nat.mod_eq_of_lt hfew

/-- A loop that returns has drained the ring exactly when `stop` came in a clean state and the
packets can be counted in 64 bits. -/
theorem drained_iff_stopsClean (mode : Mode) (capacity : Nat) (actions : List (Action α))
    (t : Limiter α) (hundisturbed : ∀ a ∈ actions, a.Undisturbed)
    (hrun : runs (step mode) (init capacity) actions = some t) (hreturned : t.pc = .returned) :
    Drained t ↔ Along (step mode) (StopsClean mode) (init capacity) actions ∧
      t.enqueued.length < 2 ^ 64 := by
  -- the induction carries what a flag that is already set says
  suffices h : ∀ s : Limiter α, Inv mode s → runs (step mode) s actions = some t →
      (Drained t ↔ ((s.stop = true → Clean mode s) ∧
        Along (step mode) (StopsClean mode) s actions) ∧ t.enqueued.length < 2 ^ 64) by
    rw [h (init capacity) (init_inv mode capacity) hrun]
    simp [init]
  clear hrun
  induction actions with
  | nil =>
      intro s hinv hrun
      cases hrun
      have hstop : t.stop = true := by
        have hpc := hinv.pc
        rw [hreturned] at hpc
        exact hpc
      rw [drained_iff_of_returned hinv hreturned]
      simp [Along, hstop]
  | cons a rest ih =>
      intro s hinv hrun
      obtain ⟨s', hstep, hrest⟩ := Option.bind_eq_some_iff.mp hrun
      have ha := hundisturbed a List.mem_cons_self
      have hrest := ih (fun x hx => hundisturbed x (List.mem_cons_of_mem a hx)) s'
        (hinv.step ha hstep) hrest
      rw [hrest, clean_step hinv ha hstep, Along, and_assoc (a := s.stop = true → Clean mode s)]
      simp [hstep]

def quietRun : List (Action Nat) :=
  [.enqueue [5], .stop] ++ List.replicate 19 (.limiter true true)

theorem quietRun_drained_iff : ∃ t, runs (step .custom) (init 64) quietRun = some t ∧
    t.pc = .returned ∧
    (Drained t ↔ Along (step .custom) (StopsClean .custom) (init 64) quietRun ∧
      t.enqueued.length < 2 ^ 64) := by
  have hpc : (runs (step .custom) (init 64) quietRun).map Limiter.pc = some .returned := by
    decide +kernel
  obtain ⟨t, hrun, hreturned⟩ := Option.map_eq_some_iff.mp hpc
  refine ⟨t, hrun, hreturned, drained_iff_stopsClean .custom 64 quietRun t ?_ hrun hreturned⟩
  intro a ha
  simp only [quietRun, List.cons_append, List.nil_append, List.mem_cons, List.mem_replicate] at ha
  obtain rfl | rfl | ⟨_, rfl⟩ := ha
  · trivial
  · trivial
  · exact ⟨rfl, rfl⟩

/-- A packet left behind: by the loops that only dequeue whole batches, and by
`main_loop` when it is enqueued after the last dequeue and before the check. -/
theorem packet_stranded :
    (∀ mode ∈ [Mode.poisson, Mode.cbr],
      (runs (step mode) (init 64) ([.enqueue [5], .stop] ++ List.replicate 3 (.limiter true true))).map
          (fun t => (t.pc, t.sent, t.enqueued)) = some (.returned, [], [5])) ∧
      (runs (step .custom) (init 64)
          (List.replicate 8 (.limiter true true) ++ [.enqueue [5], .stop, .limiter true true])).map
          (fun t => (t.pc, t.sent, t.enqueued)) = some (.returned, [], [5]) := by
  decide +kernel

end MoonGen.RateLimiter

import MoonGen.Moonem.Ownership
import MoonGen.RateControl.ByteClock

/-! # The hardware path from receive loop to wire

A hardware receive loop stamps each packet with its goal time and enqueues it; the transmit loop
of `DelayEmulator` dequeues bursts, drops what is too late and leaves the rest to the CRC rate
limiter. The two threads interleave freely. A packet can get lost at five places: the rate limit,
the loss model, a full ring, the test for late packets, and the array of the limiter, which is not
handed over when the last packet of a burst was dropped.
-/

namespace MoonGen

open Loop Sieve Moonem

/-! ## What the transmit loop does with a burst -/

def Port.loads (port : Port) : List Mbuf := port.handed.flatten.filterMap Frame.load?

namespace RateLimiterCRC

/-- The packets that stay in the local array of `send_packets` when it returns. -/
def abandoned (l : RateLimiterCRC) (fuel : Nat) (loadPkts : List (Option Mbuf)) : List Mbuf :=
  ((l.sendLoop fuel loadPkts (.start l)).map fun s => s.batch.slots.filterMap Frame.load?).getD []

theorem sendPackets_abandoned {l : RateLimiterCRC} {fuel : Nat} {port : Port}
    {loadPkts : List (Option Mbuf)} {out : SendOutcome}
    (h : l.sendPackets fuel port loadPkts = some out) :
    ∃ g, l.framesFor fuel l.previousMissingDelay loadPkts = some g ∧
      out.port.handed = port.handed ++ (finalBatch loadPkts g).handed ∧
      l.abandoned fuel loadPkts = (finalBatch loadPkts g).slots.filterMap Frame.load? := by
  obtain ⟨g, hg, -, hhanded, -⟩ := sendPackets_spec h
  refine ⟨g, hg, hhanded, ?_⟩
  have hloop := congrArg (Option.map Prod.snd) (sendLoop_eq l fuel loadPkts (.start l))
  have hmissing : (SendState.start l).previousMissingDelay = l.previousMissingDelay := rfl
  rw [hmissing, hg, Option.map_map, Option.map_some, Option.map_some] at hloop
  obtain ⟨s, hs, hbatch⟩ := Option.map_eq_some_iff.mp hloop
  have hfinal : s.batch = finalBatch loadPkts g := hbatch
  simp only [abandoned, hs, Option.map_some, Option.getD_some, hfinal]

theorem sendPackets_loads {l : RateLimiterCRC} {fuel : Nat} {port : Port}
    {loadPkts : List (Option Mbuf)} {out : SendOutcome}
    (h : l.sendPackets fuel port loadPkts = some out) :
    ∃ handed, out.port.loads = port.loads ++ handed ∧
      handed ++ l.abandoned fuel loadPkts = loadPkts.filterMap id := by
  obtain ⟨g, hg, hhanded, hslots⟩ := sendPackets_abandoned h
  refine ⟨(finalBatch loadPkts g).handed.flatten.filterMap Frame.load?, ?_, ?_⟩
  · rw [Port.loads, hhanded, List.flatten_append, List.filterMap_append]
    rfl
  · rw [hslots, ← List.filterMap_append, ← framesFor_loads hg, ← finalBatch_contents loadPkts g]
    rfl

theorem abandoned_eq_nil {l : RateLimiterCRC} {fuel : Nat} {port : Port}
    {loadPkts : List (Option Mbuf)} {out : SendOutcome}
    (h : l.sendPackets fuel port loadPkts = some out) (hlast : loadPkts.getLast? ≠ some none) :
    l.abandoned fuel loadPkts = [] := by
  obtain ⟨g, hg, -, hslots⟩ := sendPackets_abandoned h
  rw [hslots, (finalBatch_slots_eq_nil_iff loadPkts g (framesFor_nil hg)).mpr
    (fun hnull => absurd hnull hlast)]
  rfl

end RateLimiterCRC

namespace DelayEmulator

/-- The loop of `send_batch` is a sieve on the byte clock. -/
theorem schedule_eq_sift (time : ByteTime) (e : DelayEmulator) (offset : UInt64)
    (pkts : List Mbuf) :
    (e.schedule time offset pkts).1 = (sift (e.schedulePacket time) offset pkts).state ∧
      (e.schedule time offset pkts).2.filterMap id =
        (sift (e.schedulePacket time) offset pkts).kept := by
  induction pkts generalizing offset with
  | nil => exact ⟨rfl, rfl⟩
  | cons pkt rest ih =>
      obtain ⟨hclock, hkept⟩ := ih (e.schedulePacket time offset pkt).1
      rw [sift_cons_state]
      refine ⟨hclock, ?_⟩
      cases hentry : (e.schedulePacket time offset pkt).2 with
      | none =>
          rw [sift_cons_none hentry]
          simpa [schedule, hentry] using hkept
      | some pkt' =>
          rw [sift_cons_some hentry]
          simpa [schedule, hentry] using hkept

theorem schedulePacket_addr (time : ByteTime) (e : DelayEmulator) (offset : UInt64)
    (pkt pkt' : Mbuf) (h : (e.schedulePacket time offset pkt).2 = some pkt') :
    pkt'.addr = pkt.addr := by
  unfold schedulePacket at h
  dsimp only at h
  split at h
  · split at h
    · cases h
    · cases h
      rfl
  · cases h
    rfl

def late (time : ByteTime) (e : DelayEmulator) (pkts : List Mbuf) : List Mbuf :=
  (sift (e.schedulePacket time) e.currentByteOffset pkts).dropped

def launched (time : ByteTime) (e : DelayEmulator) (pkts : List Mbuf) : List Mbuf :=
  select (decisions (e.schedulePacket time) e.currentByteOffset pkts) pkts

def abandoned (time : ByteTime) (fuel : Nat) (e : DelayEmulator) (pkts : List Mbuf) : List Mbuf :=
  (e.setInvalidPacketSize 9000).ratelimiter.abandoned fuel
    ((e.setInvalidPacketSize 9000).schedule time e.currentByteOffset pkts).2

theorem fillers_loads (l : RateLimiterCRC) (port : Port) :
    (l.emptyDelay port 64).1.loads = port.loads := by
  simp [RateLimiterCRC.emptyDelay, Port.loads, Port.dpdkSendAllPackets, RateLimiterCRC.allocMbufs,
    Frame.load?]

theorem emptyDelay_loads (e : DelayEmulator) : e.emptyDelay.port.loads = e.port.loads :=
  fillers_loads e.ratelimiter e.port

def timestamped (txTimestamp : UInt64) (e : DelayEmulator) : DelayEmulator :=
  { e with firstTimestamp := txTimestamp }

@[simp] theorem timestamped_port (txTimestamp : UInt64) (e : DelayEmulator) :
    (e.timestamped txTimestamp).port = e.port := rfl

/-- The transmit loop before its first dequeue: warmup, timestamp packet, wait and the time read
back from the NIC. -/
def ready (txTimestamp : UInt64) (e : DelayEmulator) : DelayEmulator :=
  (emptyDelay^[100] e.started).timestamped txTimestamp

theorem iterate_emptyDelay_loads (n : Nat) (e : DelayEmulator) :
    (emptyDelay^[n] e).port.loads = e.port.loads := by
  induction n generalizing e with
  | zero => rfl
  | succ n ih => exact (ih e.emptyDelay).trans (emptyDelay_loads e)

theorem started_loads (e : DelayEmulator) : e.started.port.loads = e.port.loads := by
  have hwarmup : ∀ (l : RateLimiterCRC) (rounds : List Nat) (port : Port),
      (rounds.foldl (fun port _ => (l.emptyDelay port 64).1) port).loads = port.loads := by
    intro l rounds
    induction rounds with
    | nil => exact fun _ => rfl
    | cons _ rounds ih => exact fun port => (ih _).trans (fillers_loads l port)
  exact (fillers_loads _ _).trans (hwarmup _ _ _)

theorem ready_loads (txTimestamp : UInt64) (e : DelayEmulator) :
    (e.ready txTimestamp).port.loads = e.port.loads := by
  rw [ready, timestamped_port, iterate_emptyDelay_loads, started_loads]

/-- What the sieve keeps of a burst is handed over or left in the array, in this order. -/
theorem step_ring_kept {time : ByteTime} {fuel : Nat} {e e' : DelayEmulator} {pkts : List Mbuf}
    (h : e.step time fuel (.ring pkts) = some e') :
    ∃ handed, e'.port.loads = e.port.loads ++ handed ∧
      handed ++ e.abandoned time fuel pkts =
        (sift (e.schedulePacket time) e.currentByteOffset pkts).kept := by
  cases pkts with
  | nil =>
      cases h
      refine ⟨[], ?_, rfl⟩
      rw [List.append_nil]
      exact emptyDelay_loads _
  | cons pkt pkts =>
      obtain ⟨out, hout, rfl⟩ := Option.map_eq_some_iff.mp h
      obtain ⟨handed, hloads, hsplit⟩ := RateLimiterCRC.sendPackets_loads hout
      have hkept := (schedule_eq_sift time (e.setInvalidPacketSize 9000) e.currentByteOffset
        (pkt :: pkts)).2
      exact ⟨handed, hloads, hsplit.trans hkept⟩

/-- Every packet of a burst is handed over, left in the array or freed, and those that are handed
over are in the order of the burst. -/
theorem step_ring_loads {time : ByteTime} {fuel : Nat} {e e' : DelayEmulator} {pkts : List Mbuf}
    (h : e.step time fuel (.ring pkts) = some e') :
    ∃ handed, e'.port.loads = e.port.loads ++ handed ∧
      (addrs handed).Sublist (addrs pkts) ∧
      (addrs (handed ++ e.abandoned time fuel pkts) ++ addrs (e.late time pkts)).Perm
        (addrs pkts) := by
  obtain ⟨handed, hloads, hkept⟩ := step_ring_kept h
  have hkey : ∀ offset p p', (e.schedulePacket time offset p).2 = some p' → p'.addr = p.addr :=
    schedulePacket_addr time e
  refine ⟨handed, hloads, ?_, ?_⟩
  · have hsublist := sift_sublist hkey e.currentByteOffset pkts
    rw [← hkept, List.map_append] at hsublist
    exact (List.sublist_append_left _ _).trans hsublist
  · rw [hkept]
    exact sift_perm hkey e.currentByteOffset pkts

end DelayEmulator

namespace Moonem

open Double

variable {D : Type}

/-! ## What a receive loop passes on -/

def ReceiveLoop.Hardware : ReceiveLoop → Prop
  | .delay | .rateTokenBucket | .rateLeakyBucket => True
  | _ => False

theorem iterate_sublist [Double D] (tscHz : UInt64) (config : MoonemConfig) {loop : ReceiveLoop}
    (hhw : loop.Hardware) (s : loop.State D) (rx : RxBurst) :
    (addrs (loop.iterate tscHz config s rx).out).Sublist (addrs rx.pkts) := by
  cases loop with
  | swDelay | swRateTokenBucket | swRateLeakyBucket => cases hhw
  | delay =>
      have hloss := (lossStage_sublist config s (rx.pkts.map fun m =>
        m.setTimestampDynfield (m.timestamp + config.delay))).map Mbuf.addr
      simpa [ReceiveLoop.iterate, receiverLoopDelay, addrs, Function.comp_def] using hloss
  | rateTokenBucket =>
      have hbucket : (addrs (sift (tokenBucketPacket (tokenRate config) (ofUInt64 config.capacity))
          s.bucket rx.pkts).kept).Sublist (addrs rx.pkts) :=
        sift_sublist (fun _ _ _ h => congrArg Mbuf.addr (tokenBucketPacket_some h)) _ _
      refine List.Sublist.trans ((lossStage_sublist config s.loss _).map Mbuf.addr) ?_
      simpa [addrs, Function.comp_def] using hbucket
  | rateLeakyBucket =>
      have hbucket : ((sift (leakyBucketPacket (backlogBound config (bitsPerNs config))
          (fun len => div (frameBits len) (bitsPerNs config)) Mbuf.timestamp config.delay) s.nextAt
          rx.pkts).kept.map fun a : Shaped D => a.pkt.addr).Sublist (rx.pkts.map Mbuf.addr) :=
        sift_sublist (fun _ _ _ h => congrArg Mbuf.addr (leakyBucketPacket_some h)) _ _
      refine List.Sublist.trans ((lossStage_sublist config s.loss _).map Mbuf.addr) ?_
      simpa [addrs, Function.comp_def] using hbucket

/-! ## The two threads -/

/-- Receive loop, ring and emulator, and where the received packets have gone: freed by rate limit
or loss model, refused by the ring, freed as late, and left in the array of the limiter. -/
structure HwPath (D : Type) (loop : ReceiveLoop) where
  rx : loop.State D
  ring : Ring Mbuf
  emulator : DelayEmulator
  /-- The packets that were not late, with their goal times. -/
  launched : List Mbuf
  received : List Mbuf
  freed : List Mbuf
  refused : List Mbuf
  late : List Mbuf
  abandoned : List Mbuf

inductive HwAction where
  | receive (burst : RxBurst)
  /-- An iteration of the transmit loop whose dequeue finds `n` packets. -/
  | transmit (n : Nat)

namespace HwPath

variable {loop : ReceiveLoop}

def transmit (time : ByteTime) (fuel : Nat) (s : HwPath D loop) (n : Nat) :
    Option (HwPath D loop) :=
  let pkts := s.ring.contents.take n
  (s.emulator.step time fuel (.ring pkts)).map fun e =>
    { s with
      ring := s.ring.dequeued n
      emulator := e
      launched := s.launched ++ s.emulator.launched time pkts
      late := s.late ++ s.emulator.late time pkts
      abandoned := s.abandoned ++ s.emulator.abandoned time fuel pkts }

def wire (s : HwPath D loop) : List Mbuf := s.emulator.port.loads

/-! ## Every packet is in one place -/

/-- The received buffers are those on the wire, in the ring and at the places where packets get
lost; wire and ring have them in the order of reception. -/
structure Inv (s : HwPath D loop) : Prop where
  owned : (addrs (s.wire ++ s.ring.contents) ++
    addrs (s.abandoned ++ s.late ++ s.refused ++ s.freed)).Perm (addrs s.received)
  order : (addrs (s.wire ++ s.ring.contents)).Sublist (addrs s.received)

theorem Inv.transmit {s t : HwPath D loop} (h : s.Inv) {time : ByteTime} {fuel n : Nat}
    (hstep : s.transmit time fuel n = some t) : t.Inv := by
  obtain ⟨e, he, rfl⟩ := Option.map_eq_some_iff.mp hstep
  obtain ⟨handed, hloads, horder, hsplit⟩ := DelayEmulator.step_ring_loads he
  have hring : addrs s.ring.contents =
      addrs (s.ring.contents.take n) ++ addrs (s.ring.contents.drop n) := by
    rw [← addrs_append, List.take_append_drop]
  constructor
  · apply List.perm_iff_count.mpr
    intro a
    have hold := h.owned.count_eq a
    have hnew := hsplit.count_eq a
    simp only [wire, hloads, Ring.dequeued_contents, addrs_append, List.count_append, hring]
      at hold hnew ⊢
    omega
  · have hle := h.order
    simp only [wire, hloads, Ring.dequeued_contents, addrs_append, hring] at hle ⊢
    refine List.Sublist.trans ?_ hle
    rw [List.append_assoc]
    exact (List.Sublist.refl _).append (List.Sublist.append horder (List.Sublist.refl _))

def LastKept (time : ByteTime) (s : HwPath D loop) : HwAction → Prop
  | .receive _ => True
  | .transmit n =>
      ((s.emulator.setInvalidPacketSize 9000).schedule time s.emulator.currentByteOffset
        (s.ring.contents.take n)).2.getLast? ≠ some none

theorem abandoned_of_lastKept {time : ByteTime} {fuel : Nat} {e e' : DelayEmulator}
    {pkts : List Mbuf} (h : e.step time fuel (.ring pkts) = some e')
    (hlast : ((e.setInvalidPacketSize 9000).schedule time e.currentByteOffset pkts).2.getLast? ≠
      some none) : e.abandoned time fuel pkts = [] := by
  cases pkts with
  | nil => rfl
  | cons pkt pkts =>
      obtain ⟨out, hout, -⟩ := Option.map_eq_some_iff.mp h
      exact RateLimiterCRC.abandoned_eq_nil hout hlast

/-! ## Runs -/

section Runs

variable [Double D]

def init (config : MoonemConfig) (capacity : Nat) (emulator : DelayEmulator) : HwPath D loop :=
  ⟨loop.init config, .empty capacity, emulator, [], [], [], [], [], []⟩

def receive (tscHz : UInt64) (config : MoonemConfig) (s : HwPath D loop) (burst : RxBurst) :
    HwPath D loop :=
  let it := loop.iterate tscHz config s.rx burst
  { s with
    rx := it.state
    ring := s.ring.enqueueBulk it.out
    received := s.received ++ burst.pkts
    freed := s.freed ++ it.freed
    refused := if it.out.length ≤ s.ring.free then s.refused else s.refused ++ it.out }

/-- The dequeue takes at most `TRANSMIT_BUFFER_SIZE` packets. -/
def step (tscHz : UInt64) (config : MoonemConfig) (time : ByteTime) (fuel : Nat)
    (s : HwPath D loop) : HwAction → Option (HwPath D loop)
  | .receive burst => some (s.receive tscHz config burst)
  | .transmit n =>
      if n ≤ RateLimiterCRC.transmitBufferSize then s.transmit time fuel n else none

theorem init_inv (config : MoonemConfig) (capacity : Nat) {emulator : DelayEmulator}
    (h : emulator.port.loads = []) : (init config capacity emulator : HwPath D loop).Inv := by
  constructor
  · simp [init, wire, h, Ring.empty, addrs]
  · simp [init, wire, h, Ring.empty, addrs]

theorem Inv.receive {s : HwPath D loop} (h : s.Inv) (hhw : loop.Hardware) (tscHz : UInt64)
    (config : MoonemConfig) (burst : RxBurst) : (s.receive tscHz config burst).Inv := by
  have hsplit := iterate_splits tscHz config loop s.rx burst
  have horder := iterate_sublist tscHz config hhw s.rx burst
  by_cases hroom : (loop.iterate tscHz config s.rx burst).out.length ≤ s.ring.free
  · have hring := Ring.enqueueBulk_of_room hroom
    constructor
    · apply List.perm_iff_count.mpr
      intro a
      have hold := h.owned.count_eq a
      have hnew := hsplit.count_eq a
      simp only [HwPath.receive, wire, hring, if_pos hroom, addrs_append, List.count_append]
        at hold hnew ⊢
      omega
    · simp only [HwPath.receive, wire, hring, addrs_append]
      rw [← List.append_assoc, ← addrs_append]
      exact h.order.append horder
  · have hring := Ring.enqueueBulk_of_full hroom
    constructor
    · apply List.perm_iff_count.mpr
      intro a
      have hold := h.owned.count_eq a
      have hnew := hsplit.count_eq a
      simp only [HwPath.receive, wire, hring, if_neg hroom, addrs_append, List.count_append]
        at hold hnew ⊢
      omega
    · simp only [HwPath.receive, wire, hring]
      rw [addrs_append s.received]
      exact h.order.trans (List.sublist_append_left _ _)

theorem Inv.step {s t : HwPath D loop} (h : s.Inv) (hhw : loop.Hardware) {tscHz : UInt64}
    {config : MoonemConfig} {time : ByteTime} {fuel : Nat} {a : HwAction}
    (hstep : s.step tscHz config time fuel a = some t) : t.Inv := by
  cases a with
  | receive burst =>
      cases hstep
      exact h.receive hhw tscHz config burst
  | transmit n =>
      simp only [HwPath.step, Option.ite_none_right_eq_some] at hstep
      exact h.transmit hstep.2

theorem abandoned_step {s t : HwPath D loop} {tscHz : UInt64} {config : MoonemConfig}
    {time : ByteTime} {fuel : Nat} {a : HwAction} (h : s.abandoned = [])
    (hlast : s.LastKept time a) (hstep : s.step tscHz config time fuel a = some t) :
    t.abandoned = [] := by
  cases a with
  | receive burst =>
      cases hstep
      exact h
  | transmit n =>
      simp only [HwPath.step, Option.ite_none_right_eq_some] at hstep
      obtain ⟨e, he, rfl⟩ := Option.map_eq_some_iff.mp hstep.2
      simp only [h, List.nil_append]
      exact abandoned_of_lastKept he hlast

/-- For every interleaving of a hardware receive loop and the transmit loop, in every configuration
and with any loss, rounding and ring size: each received buffer is in exactly one place, which is
the wire, the ring, or one of the five places where packets get lost, and wire and ring have their
packets in the order of reception. The array of the limiter is such a place only after a burst
whose last packet was dropped as late. -/
theorem hwPath_accounts (tscHz : UInt64) (config : MoonemConfig) (hhw : loop.Hardware)
    (time : ByteTime) (fuel capacity : Nat) (minPktSize pktOverhead txTimestamp : UInt64)
    (actions : List HwAction) (s : HwPath D loop)
    (hrun : runs (step tscHz config time fuel)
      (init config capacity ((DelayEmulator.new ⟨[], 0, 0⟩ minPktSize pktOverhead).ready txTimestamp))
      actions = some s) :
    (addrs (s.wire ++ s.ring.contents) ++
        addrs (s.abandoned ++ s.late ++ s.refused ++ s.freed)).Perm (addrs s.received) ∧
      (addrs (s.wire ++ s.ring.contents)).Sublist (addrs s.received) ∧
      (Along (step tscHz config time fuel) (LastKept time)
        (init config capacity
          ((DelayEmulator.new ⟨[], 0, 0⟩ minPktSize pktOverhead).ready txTimestamp) :
            HwPath D loop) actions → s.abandoned = []) := by
  have hinit : (init config capacity
      ((DelayEmulator.new ⟨[], 0, 0⟩ minPktSize pktOverhead).ready txTimestamp) :
        HwPath D loop).Inv := by
    apply init_inv
    rw [DelayEmulator.ready_loads]
    rfl
  have hinv := runs_keeps Inv (fun _ _ _ h hstep => h.step hhw hstep) hinit hrun
  refine ⟨hinv.owned, hinv.order, ?_⟩
  intro hlast
  exact runs_invariant (fun s => s.abandoned = []) (fun _ _ _ h hl hs => abandoned_step h hl hs) rfl
    hlast hrun

/-- A packet that is on time and one that is too late, in one burst. The second one is freed, and
the first one stays in the array of the limiter. -/
theorem hwPath_accounts_abandoned :
    ∃ s : HwPath Rat .delay, runs (step 1000000000 (delayOnly 5) (.exact 10000) 0)
        (init (delayOnly 5) 4 ((DelayEmulator.new ⟨[], 0, 0⟩ 84 20).ready 0))
        [.receive ⟨[⟨1, 60, 7859995, 0⟩, ⟨2, 60, 0, 0⟩], 0, by decide⟩, .transmit 2] = some s ∧
      s.wire = [] ∧ addrs s.abandoned = [1] ∧ addrs s.late = [2] ∧
      (addrs (s.wire ++ s.ring.contents) ++
        addrs (s.abandoned ++ s.late ++ s.refused ++ s.freed)).Perm (addrs s.received) := by
  have hvalues : (runs (step 1000000000 (delayOnly 5) (.exact 10000) 0)
      (init (delayOnly 5) 4 ((DelayEmulator.new ⟨[], 0, 0⟩ 84 20).ready 0) : HwPath Rat .delay)
      [.receive ⟨[⟨1, 60, 7859995, 0⟩, ⟨2, 60, 0, 0⟩], 0, by decide⟩, .transmit 2]).map
        (fun s => (s.wire, addrs s.abandoned, addrs s.late)) = some ([], [1], [2]) := by
    decide +kernel
  obtain ⟨s, hrun, hs⟩ := Option.map_eq_some_iff.mp hvalues
  simp only [Prod.mk.injEq] at hs
  have hhw : ReceiveLoop.delay.Hardware := trivial
  exact ⟨s, hrun, hs.1, hs.2.1, hs.2.2,
    (hwPath_accounts 1000000000 (delayOnly 5) hhw (.exact 10000) 0 4 84 20 0 _ s hrun).1⟩

end Runs

end HwPath

end Moonem

end MoonGen

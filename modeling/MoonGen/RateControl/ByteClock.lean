import MoonGen.RateControl.LaunchTimestamp

/-! # The byte clock and the wire

Emulator and limiter keep separate books. Every frame the limiter stores is paid
for by a delay or a packet that the emulator has booked, so clock and stored
bytes agree up to the carried remainder. Clock and wire agree as long as the
limiter hands over what it stores.
-/

namespace MoonGen

open Loop

def wireBytes (overhead : UInt64) (frames : List Frame) : Nat :=
  (frames.map fun f => f.pktLen.toNat + overhead.toNat).sum

@[simp] theorem wireBytes_nil (overhead : UInt64) : wireBytes overhead [] = 0 := rfl

@[simp] theorem wireBytes_append (overhead : UInt64) (frames more : List Frame) :
    wireBytes overhead (frames ++ more) = wireBytes overhead frames + wireBytes overhead more := by
  simp [wireBytes]

theorem wireBytes_cons (overhead : UInt64) (f : Frame) (frames : List Frame) :
    wireBytes overhead (f :: frames) =
      f.pktLen.toNat + overhead.toNat + wireBytes overhead frames := by
  simp [wireBytes]

theorem ofNat_wireBytes_cons (overhead : UInt64) (f : Frame) (frames : List Frame) :
    UInt64.ofNat (wireBytes overhead (f :: frames)) =
      f.pktLen.toUInt64 + overhead + UInt64.ofNat (wireBytes overhead frames) := by
  have hlen : UInt64.ofNat f.pktLen.toNat = f.pktLen.toUInt64 := by simp
  rw [wireBytes_cons, UInt64.ofNat_add, UInt64.ofNat_add, hlen, UInt64.ofNat_toNat]

namespace RateLimiterCRC

/-- Bytes a marked batch asks for: every surviving packet and its delay. -/
def demand (overhead : UInt64) : List (Option Mbuf) → UInt64
  | [] => 0
  | none :: rest => demand overhead rest
  | some pkt :: rest => pkt.timestamp + (pkt.pktLen.toUInt64 + overhead) + demand overhead rest

/-- Fillers move bytes from the delay to the wire, in 64-bit arithmetic. -/
theorem gap_account {l : RateLimiterCRC} {fuel : Nat} {delay : UInt64} {g : Gap}
    (h : l.gap fuel delay = some g) :
    UInt64.ofNat (wireBytes l.packetOverhead g.frames) + g.delay = delay := by
  have hstep : ∀ g : Gap, UInt64.ofNat (wireBytes l.packetOverhead g.frames) + g.delay = delay →
      l.needsDelayPacket g.delay = true →
      UInt64.ofNat (wireBytes l.packetOverhead (l.gapStep g).frames) + (l.gapStep g).delay =
        delay := by
    intro g hg _
    have hone := ofNat_wireBytes_cons l.packetOverhead (l.getDelayPacket g.delay) []
    simp only [gapStep, wireBytes_append, UInt64.ofNat_add, hone, wireBytes_nil, wireSize]
    rw [← hg]
    grind
  exact (whileFuel_invariant _ hstep (by simp) h).1

theorem framesFor_account {l : RateLimiterCRC} {fuel : Nat} {missing : UInt64}
    {entries : List (Option Mbuf)} {g : Gap} (h : l.framesFor fuel missing entries = some g) :
    UInt64.ofNat (wireBytes l.packetOverhead g.frames) + g.delay =
      missing + demand l.packetOverhead entries := by
  refine framesFor_induction
    (motive := fun missing entries g => UInt64.ofNat (wireBytes l.packetOverhead g.frames) +
      g.delay = missing + demand l.packetOverhead entries) ?_ ?_ ?_ h
  · intro missing
    simp [demand]
  · intro missing rest g ih
    exact ih
  · intro missing pkt rest gap tail hgap ih
    have hfillers := gap_account hgap
    have hload := ofNat_wireBytes_cons l.packetOverhead (.load pkt) tail.frames
    simp only [wireBytes_append, UInt64.ofNat_add, hload, demand, Frame.pktLen]
    grind

end RateLimiterCRC

namespace DelayEmulator

open RateLimiterCRC

theorem schedulePacket_account (time : ByteTime) (e : DelayEmulator) (offset : UInt64)
    (pkt : Mbuf) :
    (e.schedulePacket time offset pkt).1 =
      offset + demand e.packetOverhead [(e.schedulePacket time offset pkt).2] := by
  unfold schedulePacket
  dsimp only
  split
  · split
    · simp [demand]
    · simp [demand]
  · simp only [demand, Mbuf.setTimestampDynfield_timestamp, Mbuf.setTimestampDynfield_pktLen]
    grind

theorem demand_cons (overhead : UInt64) (entry : Option Mbuf) (entries : List (Option Mbuf)) :
    demand overhead (entry :: entries) = demand overhead [entry] + demand overhead entries := by
  cases entry with
  | none => simp [demand]
  | some pkt => simp [demand]

theorem schedule_account (time : ByteTime) (e : DelayEmulator) (offset : UInt64)
    (pkts : List Mbuf) :
    (e.schedule time offset pkts).1 =
      offset + demand e.packetOverhead (e.schedule time offset pkts).2 := by
  induction pkts generalizing offset with
  | nil => simp [schedule, demand]
  | cons pkt rest ih =>
      have hhead := schedulePacket_account time e offset pkt
      have hrest := ih (e.schedulePacket time offset pkt).1
      simp only [schedule]
      rw [hrest, demand_cons, ← UInt64.add_assoc, ← hhead]

/-! ## The invariant of a run -/

/-- Since the bursts in `mark`, the clock has counted every byte on the wire and
the remainder the limiter still owes, modulo the clock's 64 bits. -/
def Booked (mark : List (List Frame)) (e : DelayEmulator) : Prop :=
  ∃ bursts, e.port.handed = mark ++ bursts ∧
    e.currentByteOffset = UInt64.ofNat (wireBytes e.packetOverhead bursts.flatten) +
      e.ratelimiter.previousMissingDelay

structure Consistent (mark : List (List Frame)) (e : DelayEmulator) : Prop where
  overhead : e.ratelimiter.packetOverhead = e.packetOverhead
  size : e.ratelimiter.invalidPacketSize = 1500 ∨ e.ratelimiter.invalidPacketSize = 9000
  booked : e.Booked mark

def BurstLeavesNothing (time : ByteTime) (e : DelayEmulator) : Event → Prop
  | .ring (pkt :: pkts) =>
      (e.setInvalidPacketSize 9000).ratelimiter.LeavesNothing
        ((e.setInvalidPacketSize 9000).schedule time e.currentByteOffset (pkt :: pkts)).2
  | _ => True

theorem wireBytes_allocMbufs (overhead : UInt64) (numPackets : UInt16) (size : UInt64)
    (hsize : size.toNat < 2 ^ 16) :
    UInt64.ofNat (wireBytes overhead (allocMbufs numPackets size.toUInt16)) =
      numPackets.toUInt64 * (size + overhead) := by
  have hlen : size.toUInt16.toUInt32.toNat = size.toNat := by
    simp only [UInt16.toNat_toUInt32, UInt64.toNat_toUInt16]
    exact Nat.mod_eq_of_lt hsize
  have hsum : wireBytes overhead (allocMbufs numPackets size.toUInt16) =
      numPackets.toNat * (size.toNat + overhead.toNat) := by
    simp only [wireBytes, allocMbufs, List.map_replicate, List.sum_replicate_nat, Frame.pktLen,
      hlen]
  have hcount : UInt64.ofNat numPackets.toNat = numPackets.toUInt64 := by simp
  rw [hsum, UInt64.ofNat_mul, UInt64.ofNat_add, UInt64.ofNat_toNat, UInt64.ofNat_toNat, hcount]

theorem Consistent.setInvalidPacketSize {mark : List (List Frame)} {e : DelayEmulator}
    (h : e.Consistent mark) {size : UInt64} (hsize : size = 1500 ∨ size = 9000) :
    (e.setInvalidPacketSize size).Consistent mark :=
  ⟨h.overhead, hsize, h.booked⟩

theorem Consistent.emptyDelay {mark : List (List Frame)} {e : DelayEmulator}
    (h : e.Consistent mark) : e.emptyDelay.Consistent mark := by
  obtain ⟨bursts, hport, hclock⟩ := h.booked
  have hlt : e.ratelimiter.invalidPacketSize.toNat < 2 ^ 16 := by
    rcases h.size with hs | hs <;> rw [hs] <;> decide
  have hbytes := wireBytes_allocMbufs e.packetOverhead 64 e.ratelimiter.invalidPacketSize hlt
  refine ⟨h.overhead, h.size, ?_⟩
  refine ⟨bursts ++ [allocMbufs 64 e.ratelimiter.invalidPacketSize.toUInt16], ?_, ?_⟩
  · simp [DelayEmulator.emptyDelay, RateLimiterCRC.emptyDelay, Port.dpdkSendAllPackets, hport]
  · simp only [DelayEmulator.emptyDelay, RateLimiterCRC.emptyDelay, List.flatten_append,
      List.flatten_singleton, wireBytes_append, UInt64.ofNat_add, hbytes, hclock, h.overhead]
    grind

theorem Consistent.sendBatch {mark : List (List Frame)} {e e' : DelayEmulator}
    (h : e.Consistent mark) {time : ByteTime} {fuel : Nat} {pkts : List Mbuf}
    (hleaves : e.ratelimiter.LeavesNothing (e.schedule time e.currentByteOffset pkts).2)
    (hsend : e.sendBatch time fuel pkts = some e') : e'.Consistent mark := by
  obtain ⟨bursts, hport, hclock⟩ := h.booked
  obtain ⟨out, hout, heq⟩ := Option.map_eq_some_iff.mp hsend
  obtain ⟨g, hg, hlimiter, hhanded, _⟩ := sendPackets_spec hout
  obtain ⟨fuel', g', hg', hwhole⟩ := hleaves
  obtain rfl : g' = g := framesFor_unique hg' hg
  have hslots := (finalBatch_slots_eq_nil_iff _ _ (framesFor_nil hg)).mpr hwhole
  have hframes := finalBatch_contents (e.schedule time e.currentByteOffset pkts).2 g'
  rw [Batch.contents, hslots, List.append_nil] at hframes
  have hpaid := framesFor_account hg
  have hbooked := schedule_account time e e.currentByteOffset pkts
  subst heq
  refine ⟨by simpa [hlimiter] using h.overhead, by simpa [hlimiter] using h.size, ?_⟩
  refine ⟨bursts ++ (finalBatch (e.schedule time e.currentByteOffset pkts).2 g').handed, ?_, ?_⟩
  · simp [hhanded, hport]
  · rw [h.overhead] at hpaid
    rw [List.flatten_append, hframes, wireBytes_append, UInt64.ofNat_add, hbooked, hlimiter]
    grind

theorem Consistent.step {mark : List (List Frame)} {e e' : DelayEmulator} {event : Event}
    {time : ByteTime} {fuel : Nat} (h : e.Consistent mark)
    (hleaves : e.BurstLeavesNothing time event) (hstep : e.step time fuel event = some e') :
    e'.Consistent mark := by
  cases event with
  | wait =>
      cases hstep
      exact h.emptyDelay
  | readTxTimestamp timestamp =>
      cases hstep
      exact ⟨h.overhead, h.size, h.booked⟩
  | ring pkts =>
      cases pkts with
      | nil =>
          cases hstep
          exact (h.setInvalidPacketSize (.inl rfl)).emptyDelay
      | cons pkt pkts => exact (h.setInvalidPacketSize (.inr rfl)).sendBatch hleaves hstep

theorem started_consistent (port : Port) (minPktSize pktOverhead : UInt64) :
    (new port minPktSize pktOverhead).started.Consistent
      ((new port minPktSize pktOverhead).setInvalidPacketSize 1500).warmup.port.handed := by
  have hclock : (new port minPktSize pktOverhead).started.currentByteOffset =
      UInt16.toUInt64 64 * (1500 + pktOverhead) := rfl
  have hmissing : (new port minPktSize pktOverhead).started.ratelimiter.previousMissingDelay =
      0 := rfl
  have hoverhead : (new port minPktSize pktOverhead).started.packetOverhead = pktOverhead := rfl
  have hbytes := wireBytes_allocMbufs pktOverhead 64 1500 (by decide)
  refine ⟨rfl, .inl rfl, [allocMbufs 64 (UInt64.toUInt16 1500)], rfl, ?_⟩
  rw [hclock, hmissing, hoverhead, List.flatten_singleton, hbytes, UInt64.add_zero]

/-! ## Clock and wire -/

/-- Bytes of all frames handed over after the first `mark` bursts. -/
def wireSince (mark : Nat) (e : DelayEmulator) : Nat :=
  wireBytes e.packetOverhead (e.port.handed.drop mark).flatten

def warmupBursts (e : DelayEmulator) : Nat :=
  (e.setInvalidPacketSize 1500).warmup.port.handed.length

/-- The byte clock shows the bytes on the wire and the remainder still owed. -/
def ClockMatchesWire (mark : Nat) (e : DelayEmulator) : Prop :=
  e.currentByteOffset.toNat = wireSince mark e + e.ratelimiter.previousMissingDelay.toNat

theorem Booked.clockMatchesWire {mark : List (List Frame)} {e : DelayEmulator}
    (h : e.Booked mark)
    (hwrap : wireSince mark.length e + e.ratelimiter.previousMissingDelay.toNat < 2 ^ 64) :
    e.ClockMatchesWire mark.length := by
  obtain ⟨bursts, hport, hclock⟩ := h
  have hwire : wireSince mark.length e = wireBytes e.packetOverhead bursts.flatten := by
    rw [wireSince, hport, List.drop_left]
  rw [hwire] at hwrap
  rw [ClockMatchesWire, hwire, hclock, UInt64.toNat_add, UInt64.toNat_ofNat']
  rw [Nat.mod_add_mod]
  exact Nat.mod_eq_of_lt hwrap

/-- In a run whose bursts all leave the limiter's array empty, the byte clock
equals the wire in every state reached after the timestamp packet, as long as 64
bits hold the total. -/
theorem byteClock_eq_wire (time : ByteTime) (fuel : Nat) (port : Port)
    (minPktSize pktOverhead : UInt64) (events : List Event) (e : DelayEmulator)
    (hrun : runs (step time fuel) (new port minPktSize pktOverhead).started events = some e)
    (hleaves : Along (step time fuel) (BurstLeavesNothing time)
      (new port minPktSize pktOverhead).started events)
    (hwrap : wireSince (new port minPktSize pktOverhead).warmupBursts e +
      e.ratelimiter.previousMissingDelay.toNat < 2 ^ 64) :
    e.ClockMatchesWire (new port minPktSize pktOverhead).warmupBursts := by
  have hfinal := runs_invariant (Consistent _) (fun _ _ _ hc hp hs => hc.step hp hs)
    (started_consistent port minPktSize pktOverhead) hleaves hrun
  exact hfinal.booked.clockMatchesWire hwrap

theorem byteClock_eq_wire_on_time :
    ∃ e, runs (step (.exact 10000) 1) (new ⟨[], 0, 0⟩ 84 20).started
        [.readTxTimestamp 0, .ring [⟨1, 60, 77900, 0⟩], .ring []] = some e ∧
      e.ClockMatchesWire (new ⟨[], 0, 0⟩ 84 20).warmupBursts := by
  have htotal : (runs (step (.exact 10000) 1) (new ⟨[], 0, 0⟩ 84 20).started
      [.readTxTimestamp 0, .ring [⟨1, 60, 77900, 0⟩], .ring []]).map
        (fun e => wireSince (new ⟨[], 0, 0⟩ 84 20).warmupBursts e +
          e.ratelimiter.previousMissingDelay.toNat) = some 194735 := by
    decide +kernel
  obtain ⟨e, hrun, hbytes⟩ := Option.map_eq_some_iff.mp htotal
  refine ⟨e, hrun, byteClock_eq_wire (.exact 10000) 1 ⟨[], 0, 0⟩ 84 20 _ e hrun ?_ ?_⟩
  · refine ⟨trivial, ?_⟩
    intro s hs
    cases hs
    refine ⟨leavesNothing_of_last ⟨?_, ?_, ?_, ?_, ?_⟩ ?_, fun _ _ => ⟨trivial, fun _ _ => trivial⟩⟩
    all_goals decide +kernel
  · rw [hbytes]
    decide

/-- A packet sent at once, followed by one more than 100 us late, is booked but
never handed over: the clock runs ahead of the wire by its 80 bytes. -/
theorem byteClock_ahead_of_wire :
    ∃ e, transmitLoop (.exact 10000) 0 0 [[⟨1, 60, 7860000, 0⟩, ⟨2, 60, 0, 0⟩]]
        (new ⟨[], 0, 0⟩ 84 20) = some e ∧
      wireSince (new ⟨[], 0, 0⟩ 84 20).warmupBursts e +
        e.ratelimiter.previousMissingDelay.toNat < 2 ^ 64 ∧
      ¬ e.ClockMatchesWire (new ⟨[], 0, 0⟩ 84 20).warmupBursts := by
  have hbooks : (transmitLoop (.exact 10000) 0 0 [[⟨1, 60, 7860000, 0⟩, ⟨2, 60, 0, 0⟩]]
      (new ⟨[], 0, 0⟩ 84 20)).map (fun e => (e.currentByteOffset.toNat,
        wireSince (new ⟨[], 0, 0⟩ 84 20).warmupBursts e,
        e.ratelimiter.previousMissingDelay.toNat)) = some (9825360, 9825280, 0) := by
    decide +kernel
  obtain ⟨e, hrun, heq⟩ := Option.map_eq_some_iff.mp hbooks
  simp only [Prod.mk.injEq] at heq
  obtain ⟨hclock, hwire, hmissing⟩ := heq
  refine ⟨e, hrun, ?_, ?_⟩
  · rw [hwire, hmissing]
    decide
  · rw [ClockMatchesWire, hclock, hwire, hmissing]
    decide

end DelayEmulator

end MoonGen

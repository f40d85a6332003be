import Mathlib.Data.List.Forall2
import MoonGen.Moonem.HwPath
import MoonGen.RateControl.Placement

/-! # The delay that a packet gets

From end to end: a packet that a hardware receive loop has stamped with its receive time and the
delay, and that the transmit loop has not dropped, starts on the wire close to that time. The time
of a byte on the wire is that of the timestamp packet and the bytes since then.
-/

namespace MoonGen

open Loop Sieve Moonem

/-! ## Positions of packets -/

/-- Where the load packets among frames start, the first frame starting at `offset`. -/
def starts (overhead : UInt64) : Nat → List Frame → List Nat
  | _, [] => []
  | offset, .load pkt :: frames =>
      offset :: starts overhead (offset + (pkt.pktLen.toNat + overhead.toNat)) frames
  | offset, .invalid _ len :: frames => starts overhead (offset + (len.toNat + overhead.toNat)) frames

theorem starts_append (overhead : UInt64) (offset : Nat) (frames more : List Frame) :
    starts overhead offset (frames ++ more) =
      starts overhead offset frames ++ starts overhead (offset + wireBytes overhead frames) more := by
  induction frames generalizing offset with
  | nil => simp [starts]
  | cons f frames ih =>
      cases f with
      | load pkt => simp [starts, ih, wireBytes_cons, Frame.pktLen, Nat.add_assoc]
      | invalid dataLen len => simp [starts, ih, wireBytes_cons, Frame.pktLen, Nat.add_assoc]

theorem starts_fillers (overhead : UInt64) (offset : Nat) {frames : List Frame}
    (h : frames.filterMap Frame.load? = []) : starts overhead offset frames = [] := by
  induction frames generalizing offset with
  | nil => rfl
  | cons f frames ih =>
      cases f with
      | load pkt => simp [Frame.load?] at h
      | invalid dataLen len => exact ih _ (by simpa [Frame.load?] using h)

namespace DelayEmulator

variable {npb : Rat} {e : DelayEmulator} {mark : Nat}

/-- A packet starts less than `leastWire` bytes and one byte before its goal time, and less than
100 microseconds and a nanosecond behind it. -/
def Near (npb : Rat) (e : DelayEmulator) (start : Nat) (pkt : Mbuf) : Prop :=
  (pkt.timestamp.toNat : Rat) <
      e.firstTimestamp.toNat + start * npb + (e.ratelimiter.leastWire + 1) * npb ∧
    (e.firstTimestamp.toNat + start * npb : Rat) < pkt.timestamp.toNat + 100001

theorem toNat_floor_bounds {q : Rat} (h : 0 ≤ q) :
    (q.floor.toNat : Rat) ≤ q ∧ q < q.floor.toNat + 1 := by
  have hfloor : 0 ≤ ⌊q⌋ := Int.floor_nonneg.mpr h
  have hcast : ((q.floor.toNat : Nat) : Rat) = (⌊q⌋ : Rat) := by
    exact_mod_cast congrArg (fun i : Int => (i : Rat)) (Int.toNat_of_nonneg hfloor)
  rw [hcast]
  exact ⟨Int.floor_le q, Int.lt_floor_add_one q⟩

theorem goalByte_time (hpos : 0 < npb) {offset : UInt64} {pkt : Mbuf}
    (hkept : e.currentTime npb offset ≤ pkt.timestamp.toNat + 100000) :
    (pkt.timestamp.toNat : Rat) <
        e.firstTimestamp.toNat + e.goalByte npb offset pkt * npb + npb ∧
      (e.firstTimestamp.toNat + e.goalByte npb offset pkt * npb : Rat) <
        pkt.timestamp.toNat + 100001 := by
  have hclock : (0 : Rat) ≤ e.firstTimestamp.toNat + offset.toNat * npb := by positivity
  obtain ⟨hdown, hup⟩ := toNat_floor_bounds hclock
  rw [← currentTime] at hdown hup
  have hkept' : (e.currentTime npb offset : Rat) ≤ pkt.timestamp.toNat + 100000 := by
    exact_mod_cast hkept
  rcases Nat.lt_or_ge pkt.timestamp.toNat (e.currentTime npb offset) with hlate | hontime
  · have hlate' : (pkt.timestamp.toNat : Rat) < e.currentTime npb offset := by exact_mod_cast hlate
    rw [goalByte_of_late hpos hlate]
    constructor
    · linarith
    · linarith
  · have hontime' : (e.currentTime npb offset : Rat) ≤ pkt.timestamp.toNat := by
      exact_mod_cast hontime
    have hbytes : 0 ≤ ((pkt.timestamp.toNat : Rat) - e.currentTime npb offset) / npb :=
      div_nonneg (by linarith) hpos.le
    obtain ⟨hfew, hmany⟩ := toNat_floor_bounds hbytes
    rw [le_div_iff₀ hpos] at hfew
    rw [div_lt_iff₀ hpos] at hmany
    rw [goalByte]
    push_cast
    constructor
    · linarith
    · linarith

theorem near_of_goal (hpos : 0 < npb) {offset : UInt64} {pkt : Mbuf} {start owed : Nat}
    (hkept : e.currentTime npb offset ≤ pkt.timestamp.toNat + 100000)
    (hgoal : start + owed = e.goalByte npb offset pkt) (howed : owed < e.ratelimiter.leastWire) :
    e.Near npb start pkt := by
  obtain ⟨hlow, hhigh⟩ := goalByte_time hpos hkept
  have hsum : (e.goalByte npb offset pkt : Rat) = start + owed := by exact_mod_cast hgoal.symm
  have howed' : (owed : Rat) * npb ≤ e.ratelimiter.leastWire * npb := by
    gcongr
  have howed0 : (0 : Rat) ≤ owed * npb := by positivity
  rw [hsum] at hlow hhigh
  constructor
  · linarith
  · linarith

theorem AtTurn.near (hpos : 0 < npb) (hl : e.ratelimiter.Sized)
    (hover : e.ratelimiter.packetOverhead = e.packetOverhead) {wire : Nat}
    {offset missing : UInt64} {fuel : Nat} {pkts : List Mbuf} {g : RateLimiterCRC.Gap}
    (h : e.AtTurn wire offset missing) (hfits : e.BatchFits npb offset pkts)
    (hg : e.ratelimiter.framesFor fuel missing (e.schedule (.rational npb) offset pkts).2 =
      some g) :
    List.Forall₂ (e.Near npb) (starts e.packetOverhead wire g.frames)
      (select (decisions (e.schedulePacket (.rational npb)) offset pkts) pkts) := by
  induction pkts generalizing wire offset missing g with
  | nil =>
      cases hg
      exact List.Forall₂.nil
  | cons pkt rest ih =>
      obtain ⟨hturn, hrest⟩ := hfits
      rcases schedulePacket_cases hpos hturn with
        ⟨_, heq⟩ | ⟨delay, offset', hkept, heq, hgoal, hclock, _⟩
      · simp only [DelayEmulator.schedule, heq, RateLimiterCRC.framesFor] at hg hrest
        simp only [decisions, heq, Option.isSome_none, select]
        exact ih h hrest hg
      · simp only [DelayEmulator.schedule, heq, RateLimiterCRC.framesFor, Mbuf.setTimestampDynfield_timestamp]
          at hg hrest
        obtain ⟨gap, hgap, hmap⟩ := Option.bind_eq_some_iff.mp hg
        obtain ⟨tail, htail, rfl⟩ := Option.map_eq_some_iff.mp hmap
        obtain ⟨hled, hnext⟩ := h.kept hl hover hgoal hclock hgap
        have hlater := ih hnext hrest htail
        have hfillers := RateLimiterCRC.gap_frames_invalid hgap
        simp only [decisions, heq, Option.isSome_some, select]
        rw [starts_append, starts_fillers _ _ hfillers, List.nil_append, starts]
        refine List.Forall₂.cons (near_of_goal hpos hkept hled hnext.owed) ?_
        rw [wireBytes_append, wireBytes_cons, wireBytes_nil] at hlater
        simpa [Frame.pktLen, Nat.add_assoc] using hlater

/-! ## Bursts and idle time -/

def framesSince (mark : Nat) (e : DelayEmulator) : List Frame := (e.port.handed.drop mark).flatten

/-- Clock and wire agree, and the packets on the wire are near the goals of the launched ones. -/
structure Timing (npb : Rat) (mark : Nat) (e : DelayEmulator) (launched : List Mbuf) : Prop where
  placeable : (e.setInvalidPacketSize 9000).Placeable mark
  near : List.Forall₂ (e.Near npb) (starts e.packetOverhead 0 (e.framesSince mark)) launched

theorem wireBytes_idle (overhead : UInt64) :
    wireBytes overhead (RateLimiterCRC.allocMbufs 64 (UInt64.toUInt16 1500)) =
      64 * (1500 + overhead.toNat) := by
  have hlen : (UInt64.toUInt16 1500).toUInt32.toNat = 1500 := by decide
  have hcount : (64 : UInt16).toNat = 64 := rfl
  simp only [wireBytes, RateLimiterCRC.allocMbufs, List.map_replicate, List.sum_replicate_nat,
    Frame.pktLen, hlen, hcount]

theorem toNat_idle (hover : e.ratelimiter.packetOverhead = e.packetOverhead)
    (hfits : e.currentByteOffset.toNat + 64 * (1500 + e.packetOverhead.toNat) < 2 ^ 64) :
    (e.setInvalidPacketSize 1500).emptyDelay.currentByteOffset.toNat =
      e.currentByteOffset.toNat + 64 * (1500 + e.packetOverhead.toNat) := by
  have hsixty : (UInt16.toUInt64 64).toNat = 64 := rfl
  have hfifteen : (1500 : UInt64).toNat = 1500 := rfl
  show (e.currentByteOffset +
    UInt16.toUInt64 64 * ((1500 : UInt64) + e.ratelimiter.packetOverhead)).toNat = _
  rw [hover, UInt64.toNat_add, UInt64.toNat_mul, UInt64.toNat_add, hsixty, hfifteen]
  omega

theorem Placeable.idle {size : UInt64} (h : (e.setInvalidPacketSize size).Placeable mark)
    (hfits : e.currentByteOffset.toNat + 64 * (1500 + e.packetOverhead.toNat) < 2 ^ 64) :
    (((e.setInvalidPacketSize 1500).emptyDelay).setInvalidPacketSize size).Placeable mark ∧
      ((e.setInvalidPacketSize 1500).emptyDelay).framesSince mark =
        e.framesSince mark ++ RateLimiterCRC.allocMbufs 64 (UInt64.toUInt16 1500) := by
  have hmarked : mark ≤ e.port.handed.length := h.marked
  have hframes : ((e.setInvalidPacketSize 1500).emptyDelay).framesSince mark =
      e.framesSince mark ++ RateLimiterCRC.allocMbufs 64 (UInt64.toUInt16 1500) := by
    show ((e.port.handed ++ [RateLimiterCRC.allocMbufs 64 (UInt64.toUInt16 1500)]).drop mark).flatten = _
    rw [List.drop_append_of_le_length hmarked, List.flatten_append, List.flatten_singleton]
    rfl
  refine ⟨⟨h.overhead, h.size, h.small, ?_, h.noWrap, ?_, h.owed⟩, hframes⟩
  · show mark ≤ (e.port.handed ++ [_]).length
    rw [List.length_append]
    exact Nat.le_add_right_of_le hmarked
  · have hclock : e.currentByteOffset.toNat =
        wireBytes e.packetOverhead (e.framesSince mark) +
          e.ratelimiter.previousMissingDelay.toNat := h.clock
    show (e.setInvalidPacketSize 1500).emptyDelay.currentByteOffset.toNat =
      wireBytes e.packetOverhead (((e.setInvalidPacketSize 1500).emptyDelay).framesSince mark) +
        e.ratelimiter.previousMissingDelay.toNat
    rw [toNat_idle (e := e) h.overhead hfits, hframes, wireBytes_append, wireBytes_idle]
    omega

theorem Placeable.burst (hpos : 0 < npb) (h : e.Placeable mark) {fuel : Nat} {pkts : List Mbuf}
    {e' : DelayEmulator}
    (hlast : (e.schedule (.rational npb) e.currentByteOffset pkts).2.getLast? ≠ some none)
    (hfits : e.BatchFits npb e.currentByteOffset pkts)
    (hsend : e.sendBatch (.rational npb) fuel pkts = some e') :
    e'.Placeable mark ∧ e'.firstTimestamp = e.firstTimestamp ∧
      e'.packetOverhead = e.packetOverhead ∧ e'.ratelimiter.leastWire = e.ratelimiter.leastWire ∧
      ∃ frames, e'.framesSince mark = e.framesSince mark ++ frames ∧
        List.Forall₂ (e.Near npb)
          (starts e.packetOverhead (wireBytes e.packetOverhead (e.framesSince mark)) frames)
          (e.launched (.rational npb) pkts) := by
  obtain ⟨out, hout, rfl⟩ := Option.map_eq_some_iff.mp hsend
  obtain ⟨g, hg, hlimiter, hhanded, -⟩ := RateLimiterCRC.sendPackets_spec hout
  have hslots := (RateLimiterCRC.finalBatch_slots_eq_nil_iff _ _
    (RateLimiterCRC.framesFor_nil hg)).mpr fun hnull => absurd hnull hlast
  have hframes := RateLimiterCRC.finalBatch_contents
    (e.schedule (.rational npb) e.currentByteOffset pkts).2 g
  rw [Batch.contents, hslots, List.append_nil] at hframes
  have hwire : (out.port.handed.drop mark).flatten = e.framesSince mark ++ g.frames := by
    rw [hhanded, List.drop_append_of_le_length h.marked, List.flatten_append, hframes]
    rfl
  have hstart : e.AtTurn (e.wireSince mark) e.currentByteOffset
      e.ratelimiter.previousMissingDelay := ⟨h.clock, h.owed⟩
  have hend := hstart.schedule hpos h.sized h.overhead hfits hg
  refine ⟨?_, rfl, rfl, ?_, g.frames, hwire, hstart.near hpos h.sized h.overhead hfits hg⟩
  · refine ⟨?_, ?_, h.small, ?_, ?_, ?_, ?_⟩
    · rw [hlimiter]
      exact h.overhead
    · rw [hlimiter]
      exact h.size
    · rw [hhanded, List.length_append]
      exact Nat.le_add_right_of_le h.marked
    · rw [hlimiter]
      exact h.noWrap
    · show (e.schedule (.rational npb) e.currentByteOffset pkts).1.toNat =
        wireBytes e.packetOverhead (out.port.handed.drop mark).flatten +
          out.limiter.previousMissingDelay.toNat
      rw [hwire, hlimiter, wireBytes_append]
      exact hend.clock
    · rw [hlimiter]
      exact hend.owed
  · rw [hlimiter]
    rfl

theorem Timing.ring (hpos : 0 < npb) {launched : List Mbuf} (h : e.Timing npb mark launched)
    {fuel : Nat} {pkts : List Mbuf} {e' : DelayEmulator}
    (hlast : ((e.setInvalidPacketSize 9000).schedule (.rational npb) e.currentByteOffset
      pkts).2.getLast? ≠ some none)
    (hfits : (e.setInvalidPacketSize 9000).BatchFits npb e.currentByteOffset pkts)
    (hidle : pkts = [] → e.currentByteOffset.toNat + 64 * (1500 + e.packetOverhead.toNat) < 2 ^ 64)
    (hstep : e.step (.rational npb) fuel (.ring pkts) = some e') :
    e'.Timing npb mark (launched ++ e.launched (.rational npb) pkts) ∧
      e'.firstTimestamp = e.firstTimestamp ∧ e'.packetOverhead = e.packetOverhead ∧
      e'.ratelimiter.leastWire = e.ratelimiter.leastWire := by
  cases pkts with
  | nil =>
      cases hstep
      obtain ⟨hplace, hframes⟩ := h.placeable.idle (hidle rfl)
      refine ⟨⟨hplace, ?_⟩, rfl, rfl, rfl⟩
      have hfillers : (RateLimiterCRC.allocMbufs 64 (UInt64.toUInt16 1500)).filterMap Frame.load? =
          [] := by
        simp [RateLimiterCRC.allocMbufs, Frame.load?]
      rw [hframes, starts_append, starts_fillers _ _ hfillers, List.append_nil]
      have hnone : e.launched (.rational npb) [] = [] := rfl
      rw [hnone, List.append_nil]
      exact h.near
  | cons pkt pkts =>
      obtain ⟨hplace, hfirst, hover, hleast, frames, hframes, hnear⟩ :=
        h.placeable.burst hpos hlast hfits hstep
      refine ⟨⟨?_, ?_⟩, hfirst, hover, hleast⟩
      · exact ⟨hplace.overhead, rfl, hplace.small, hplace.marked, hplace.noWrap, hplace.clock,
          hplace.owed⟩
      · have hsame : e'.Near npb = e.Near npb := by
          funext start pkt
          simp only [Near, hfirst, hleast]
          rfl
        rw [hsame, hframes, hover, starts_append, Nat.zero_add]
        exact List.rel_append h.near hnear

instance turnFitsDecidable (npb : Rat) (e : DelayEmulator) (offset : UInt64) (pkt : Mbuf) :
    Decidable (e.TurnFits npb offset pkt) :=
  decidable_of_iff
    (pkt.timestamp.toNat < 2 ^ 63 ∧ e.currentTime npb offset < 2 ^ 63 ∧
      (e.currentTime npb offset ≤ pkt.timestamp.toNat + 100000 →
        e.goalByte npb offset pkt + (pkt.pktLen.toNat + e.packetOverhead.toNat) < 2 ^ 64))
    ⟨fun h => ⟨h.1, h.2.1, h.2.2⟩, fun h => ⟨h.goal, h.current, h.clock⟩⟩

instance batchFitsDecidable (npb : Rat) (e : DelayEmulator) :
    (offset : UInt64) → (pkts : List Mbuf) → Decidable (e.BatchFits npb offset pkts)
  | _, [] => isTrue trivial
  | offset, pkt :: rest =>
      have : Decidable (e.BatchFits npb (e.schedulePacket (.rational npb) offset pkt).1 rest) :=
        batchFitsDecidable npb e _ rest
      inferInstanceAs (Decidable (e.TurnFits npb offset pkt ∧
        e.BatchFits npb (e.schedulePacket (.rational npb) offset pkt).1 rest))

/-! ## The start of the transmit loop -/

/-- The emulator while it waits for the timestamp packet: `n` times the clock has counted the
fillers of an idle round, and those of the timestamp packet. -/
structure Waiting (mark n : Nat) (e : DelayEmulator) : Prop where
  size : e.ratelimiter.invalidPacketSize = 1500
  clock : e.currentByteOffset.toNat = (n + 1) * (64 * (1500 + e.packetOverhead.toNat))
  placeable : (e.setInvalidPacketSize 9000).Placeable mark

theorem Waiting.emptyDelay {n : Nat} (h : e.Waiting mark n) (hn : n < 100) :
    e.emptyDelay.Waiting mark (n + 1) := by
  have hsame : e.setInvalidPacketSize 1500 = e := by
    have hlimiter : e.ratelimiter.setInvalidPacketSize 1500 = e.ratelimiter := by
      rw [RateLimiterCRC.setInvalidPacketSize, ← h.size]
    rw [setInvalidPacketSize, hlimiter]
  have hsmall : e.packetOverhead.toNat ≤ 4500 := h.placeable.small
  have hclock := h.clock
  have hfits : e.currentByteOffset.toNat + 64 * (1500 + e.packetOverhead.toNat) < 2 ^ 64 := by
    have hmul : (n + 1) * (64 * (1500 + e.packetOverhead.toNat)) ≤ 101 * (64 * 6000) :=
      Nat.mul_le_mul (by omega) (by omega)
    omega
  have hidle := (h.placeable.idle hfits).1
  have hnext := toNat_idle (e := e) h.placeable.overhead hfits
  rw [hsame] at hidle hnext
  refine ⟨h.size, ?_, hidle⟩
  rw [hnext, hclock, Nat.succ_mul (n + 1)]
  rfl

theorem waiting_iterate {e : DelayEmulator} (h : e.Waiting mark 0) {n : Nat} (hn : n ≤ 100) :
    (DelayEmulator.emptyDelay^[n] e).Waiting mark n := by
  induction n with
  | zero => exact h
  | succ n ih =>
      rw [Function.iterate_succ_apply']
      exact (ih (Nat.le_of_succ_le hn)).emptyDelay hn

/-- The sizes with which `launch_timestamp.new` makes a limiter. -/
structure SmallestFits (minPktSize pktOverhead : UInt64) : Prop where
  positive : 0 < minPktSize.toNat + pktOverhead.toNat
  noWrap : minPktSize.toNat + pktOverhead.toNat < 2 ^ 64
  small : pktOverhead.toNat ≤ 4500

theorem started_waiting (port : Port) {minPktSize pktOverhead : UInt64}
    (h : SmallestFits minPktSize pktOverhead) :
    (new port minPktSize pktOverhead).started.Waiting (new port minPktSize pktOverhead).warmupBursts
      0 := by
  have hsmall := h.small
  have hoffset : (new port minPktSize pktOverhead).started.currentByteOffset.toNat =
      64 * (1500 + pktOverhead.toNat) := by
    have hsixty : (UInt16.toUInt64 64).toNat = 64 := rfl
    have hfifteen : (1500 : UInt64).toNat = 1500 := rfl
    show (UInt16.toUInt64 64 * ((1500 : UInt64) + pktOverhead)).toNat = _
    rw [UInt64.toNat_mul, UInt64.toNat_add, hsixty, hfifteen]
    omega
  have hhanded : (new port minPktSize pktOverhead).started.port.handed =
      ((new port minPktSize pktOverhead).setInvalidPacketSize 1500).warmup.port.handed ++
        [RateLimiterCRC.allocMbufs 64 (UInt64.toUInt16 1500)] := rfl
  refine ⟨rfl, ?_, rfl, rfl, h.small, ?_, h.noWrap, ?_, h.positive⟩
  · rw [hoffset, Nat.zero_add, Nat.one_mul]
    rfl
  · show _ ≤ (new port minPktSize pktOverhead).started.port.handed.length
    rw [hhanded, List.length_append]
    exact Nat.le_add_right _ _
  · show (new port minPktSize pktOverhead).started.currentByteOffset.toNat =
      wireBytes pktOverhead (((new port minPktSize pktOverhead).started.port.handed.drop
        (new port minPktSize pktOverhead).warmupBursts).flatten) + (0 : UInt64).toNat
    rw [hoffset, hhanded, warmupBursts, List.drop_left, List.flatten_singleton, wireBytes_idle]
    rfl

theorem Waiting.timing {n : Nat} (h : e.Waiting mark n) (hloads : e.port.loads = [])
    (txTimestamp : UInt64) : (e.timestamped txTimestamp).Timing npb mark [] := by
  have hplace := h.placeable
  have hfillers : (e.framesSince mark).filterMap Frame.load? = [] := by
    apply List.filterMap_eq_nil_iff.mpr
    intro f hf
    rcases List.mem_flatten.mp hf with ⟨burst, hburst, hmem⟩
    have hhanded : f ∈ e.port.handed.flatten :=
      List.mem_flatten.mpr ⟨burst, List.mem_of_mem_drop hburst, hmem⟩
    exact List.filterMap_eq_nil_iff.mp hloads f hhanded
  constructor
  · exact ⟨hplace.overhead, rfl, hplace.small, hplace.marked, hplace.noWrap, hplace.clock,
      hplace.owed⟩
  · show List.Forall₂ _ (starts e.packetOverhead 0 (e.framesSince mark)) []
    rw [starts_fillers _ _ hfillers]
    exact List.Forall₂.nil

theorem ready_timing (npb : Rat) (txTimestamp : UInt64) {minPktSize pktOverhead : UInt64}
    (h : SmallestFits minPktSize pktOverhead) :
    ((new ⟨[], 0, 0⟩ minPktSize pktOverhead).ready txTimestamp).Timing npb
      (new ⟨[], 0, 0⟩ minPktSize pktOverhead).warmupBursts [] := by
  have hwait := waiting_iterate (started_waiting ⟨[], 0, 0⟩ h) (Nat.le_refl 100)
  apply hwait.timing
  rw [iterate_emptyDelay_loads, started_loads]
  rfl

@[simp] theorem timestamped_packetOverhead (txTimestamp : UInt64) (e : DelayEmulator) :
    (e.timestamped txTimestamp).packetOverhead = e.packetOverhead := rfl

@[simp] theorem timestamped_ratelimiter (txTimestamp : UInt64) (e : DelayEmulator) :
    (e.timestamped txTimestamp).ratelimiter = e.ratelimiter := rfl

theorem iterate_emptyDelay_sizes (n : Nat) (e : DelayEmulator) :
    (DelayEmulator.emptyDelay^[n] e).packetOverhead = e.packetOverhead ∧
      (DelayEmulator.emptyDelay^[n] e).ratelimiter.leastWire = e.ratelimiter.leastWire := by
  induction n generalizing e with
  | zero => exact ⟨rfl, rfl⟩
  | succ n ih => exact ih e.emptyDelay

theorem ready_sizes (txTimestamp : UInt64) (port : Port) (minPktSize pktOverhead : UInt64) :
    ((new port minPktSize pktOverhead).ready txTimestamp).packetOverhead = pktOverhead ∧
      ((new port minPktSize pktOverhead).ready txTimestamp).ratelimiter.leastWire =
        minPktSize.toNat + pktOverhead.toNat := by
  obtain ⟨hover, hleast⟩ := iterate_emptyDelay_sizes 100 (new port minPktSize pktOverhead).started
  rw [ready, timestamped_packetOverhead, timestamped_ratelimiter, hover, hleast]
  exact ⟨rfl, rfl⟩

end DelayEmulator

namespace Moonem

variable {D : Type}

/-! ## From reception to the wire -/

def delayed (config : MoonemConfig) (m : Mbuf) : Mbuf :=
  m.setTimestampDynfield (m.timestamp + config.delay)

/-- The loops that only add the delay. `receiver_loop_rate_leaky_bucket` also adds the time that a
packet waits in its bucket. -/
def ReceiveLoop.AddsDelay : ReceiveLoop → Prop
  | .delay | .rateTokenBucket => True
  | _ => False

theorem iterate_delayed [Double D] (tscHz : UInt64) (config : MoonemConfig) {loop : ReceiveLoop}
    (hloop : loop.AddsDelay) (s : loop.State D) (rx : RxBurst) :
    (loop.iterate tscHz config s rx).out.Sublist (rx.pkts.map (delayed config)) := by
  cases loop with
  | swDelay | swRateTokenBucket | swRateLeakyBucket | rateLeakyBucket => cases hloop
  | delay => exact lossStage_sublist config s _
  | rateTokenBucket =>
      have hbucket : ((sift (tokenBucketPacket (tokenRate config)
          (Double.ofUInt64 config.capacity)) s.bucket rx.pkts).kept).Sublist rx.pkts :=
        sift_kept_sublist (fun _ _ _ h => tokenBucketPacket_some h) _ _
      exact (lossStage_sublist config s.loss _).trans (hbucket.map (delayed config))

namespace HwPath

variable {loop : ReceiveLoop}

instance lastKeptDecidable (time : ByteTime) (s : HwPath D loop) :
    (a : HwAction) → Decidable (s.LastKept time a)
  | .receive _ => isTrue trivial
  | .transmit n =>
      inferInstanceAs (Decidable (((s.emulator.setInvalidPacketSize 9000).schedule time
        s.emulator.currentByteOffset (s.ring.contents.take n)).2.getLast? ≠ some none))

/-- The byte clock does not wrap around in this action. -/
def Fits (npb : Rat) (s : HwPath D loop) : HwAction → Prop
  | .receive _ => True
  | .transmit n =>
      (s.emulator.setInvalidPacketSize 9000).BatchFits npb s.emulator.currentByteOffset
          (s.ring.contents.take n) ∧
        (s.ring.contents.take n = [] → s.emulator.currentByteOffset.toNat +
          64 * (1500 + s.emulator.packetOverhead.toNat) < 2 ^ 64)

instance fitsDecidable (npb : Rat) (s : HwPath D loop) :
    (a : HwAction) → Decidable (s.Fits npb a)
  | .receive _ => isTrue trivial
  | .transmit n =>
      inferInstanceAs (Decidable
        ((s.emulator.setInvalidPacketSize 9000).BatchFits npb s.emulator.currentByteOffset
            (s.ring.contents.take n) ∧
          (s.ring.contents.take n = [] → s.emulator.currentByteOffset.toNat +
            64 * (1500 + s.emulator.packetOverhead.toNat) < 2 ^ 64)))

structure Delays (npb : Rat) (config : MoonemConfig) (mark : Nat) (emulator : DelayEmulator)
    (s : HwPath D loop) : Prop where
  stamped : (s.launched ++ s.ring.contents).Sublist (s.received.map (delayed config))
  sent : addrs s.wire = addrs s.launched
  timing : s.emulator.Timing npb mark s.launched
  first : s.emulator.firstTimestamp = emulator.firstTimestamp
  overhead : s.emulator.packetOverhead = emulator.packetOverhead
  least : s.emulator.ratelimiter.leastWire = emulator.ratelimiter.leastWire

variable {npb : Rat} {config : MoonemConfig} {mark : Nat} {emulator : DelayEmulator}

theorem Delays.transmit (hpos : 0 < npb) {s t : HwPath D loop}
    (h : s.Delays npb config mark emulator) {fuel n : Nat}
    (hlast : s.LastKept (.rational npb) (.transmit n)) (hfits : s.Fits npb (.transmit n))
    (hstep : s.transmit (.rational npb) fuel n = some t) : t.Delays npb config mark emulator := by
  obtain ⟨e, he, rfl⟩ := Option.map_eq_some_iff.mp hstep
  obtain ⟨htiming, hfirst, hover, hleast⟩ := h.timing.ring hpos hlast hfits.1 hfits.2 he
  obtain ⟨handed, hloads, hkept⟩ := DelayEmulator.step_ring_kept he
  rw [abandoned_of_lastKept he hlast, List.append_nil] at hkept
  have hlaunched : addrs handed =
      addrs (s.emulator.launched (.rational npb) (s.ring.contents.take n)) := by
    rw [hkept]
    exact sift_kept_map (DelayEmulator.schedulePacket_addr (.rational npb) s.emulator) _ _
  refine ⟨?_, ?_, htiming, hfirst.trans h.first, hover.trans h.overhead, hleast.trans h.least⟩
  · refine List.Sublist.trans ?_ h.stamped
    show ((s.launched ++ s.emulator.launched (.rational npb) (s.ring.contents.take n)) ++
      (s.ring.dequeued n).contents).Sublist (s.launched ++ s.ring.contents)
    rw [Ring.dequeued_contents, List.append_assoc]
    have hring : (s.emulator.launched (.rational npb) (s.ring.contents.take n) ++
        s.ring.contents.drop n).Sublist (s.ring.contents.take n ++ s.ring.contents.drop n) :=
      (select_sublist _ _).append (List.Sublist.refl _)
    rw [List.take_append_drop] at hring
    exact (List.Sublist.refl _).append hring
  · have hsent : addrs s.emulator.port.loads = addrs s.launched := h.sent
    show addrs e.port.loads = addrs (s.launched ++ _)
    rw [hloads, addrs_append, addrs_append, hsent, hlaunched]

section Runs

variable [Double D]

theorem Delays.receive (hloop : loop.AddsDelay) {s : HwPath D loop}
    (h : s.Delays npb config mark emulator) (tscHz : UInt64) (burst : RxBurst) :
    (s.receive tscHz config burst).Delays npb config mark emulator := by
  refine ⟨?_, h.sent, h.timing, h.first, h.overhead, h.least⟩
  have hout := iterate_delayed tscHz config hloop s.rx burst
  show (s.launched ++ (s.ring.enqueueBulk (loop.iterate tscHz config s.rx burst).out).contents).Sublist
    ((s.received ++ burst.pkts).map (delayed config))
  rw [List.map_append]
  by_cases hroom : (loop.iterate tscHz config s.rx burst).out.length ≤ s.ring.free
  · rw [Ring.enqueueBulk_of_room hroom, ← List.append_assoc]
    exact h.stamped.append hout
  · rw [Ring.enqueueBulk_of_full hroom]
    exact h.stamped.trans (List.sublist_append_left _ _)

theorem Delays.step (hpos : 0 < npb) (hloop : loop.AddsDelay) {s t : HwPath D loop}
    (h : s.Delays npb config mark emulator) {tscHz : UInt64} {fuel : Nat} {a : HwAction}
    (hlast : s.LastKept (.rational npb) a) (hfits : s.Fits npb a)
    (hstep : s.step tscHz config (.rational npb) fuel a = some t) :
    t.Delays npb config mark emulator := by
  cases a with
  | receive burst =>
      cases hstep
      exact h.receive hloop tscHz burst
  | transmit n =>
      simp only [HwPath.step, Option.ite_none_right_eq_some] at hstep
      exact h.transmit hpos hlast hfits hstep.2

theorem init_delays (npb : Rat) (config : MoonemConfig) (capacity : Nat)
    {minPktSize pktOverhead : UInt64}
    (hsizes : DelayEmulator.SmallestFits minPktSize pktOverhead) (txTimestamp : UInt64) :
    (init config capacity
      ((DelayEmulator.new ⟨[], 0, 0⟩ minPktSize pktOverhead).ready txTimestamp) :
        HwPath D loop).Delays npb config
      (DelayEmulator.new ⟨[], 0, 0⟩ minPktSize pktOverhead).warmupBursts
      ((DelayEmulator.new ⟨[], 0, 0⟩ minPktSize pktOverhead).ready txTimestamp) := by
  have hwire := DelayEmulator.ready_loads txTimestamp
    (DelayEmulator.new ⟨[], 0, 0⟩ minPktSize pktOverhead)
  exact ⟨List.nil_sublist _, congrArg addrs hwire,
    DelayEmulator.ready_timing npb txTimestamp hsizes, rfl, rfl, rfl⟩

/-- For every interleaving of a receive loop that adds the delay and the transmit loop in which no
burst ends with a late packet and the byte clock does not wrap around: the packets on the wire are
received ones, in the order of reception, and each starts at its receive time plus the delay, less
than `leastWire` bytes and one byte early and less than 100 microseconds and a nanosecond late.
The `i`th packet starts as many bytes after the timestamp packet as the `i`th of `starts`. -/
theorem emulated_delay (tscHz : UInt64) (config : MoonemConfig) (hloop : loop.AddsDelay)
    (npb : Rat) (hpos : 0 < npb) (fuel capacity : Nat)
    (minPktSize pktOverhead txTimestamp : UInt64)
    (hsizes : DelayEmulator.SmallestFits minPktSize pktOverhead) (actions : List HwAction)
    (s : HwPath D loop)
    (hrun : runs (step tscHz config (.rational npb) fuel)
      (init config capacity ((DelayEmulator.new ⟨[], 0, 0⟩ minPktSize pktOverhead).ready txTimestamp))
      actions = some s)
    (halong : Along (step tscHz config (.rational npb) fuel)
      (fun s a => s.LastKept (.rational npb) a ∧ s.Fits npb a)
      (init config capacity
        ((DelayEmulator.new ⟨[], 0, 0⟩ minPktSize pktOverhead).ready txTimestamp) :
          HwPath D loop) actions) :
    ∃ pkts : List Mbuf, pkts.Sublist s.received ∧ addrs s.wire = addrs pkts ∧
      List.Forall₂
        (fun (start : Nat) (pkt : Mbuf) =>
          ((pkt.timestamp + config.delay).toNat : Rat) <
              txTimestamp.toNat + start * npb + (minPktSize.toNat + pktOverhead.toNat + 1) * npb ∧
            (txTimestamp.toNat + start * npb : Rat) <
              (pkt.timestamp + config.delay).toNat + 100001)
        (starts pktOverhead 0 (s.emulator.framesSince
          (DelayEmulator.new ⟨[], 0, 0⟩ minPktSize pktOverhead).warmupBursts)) pkts := by
  have hdelays := runs_invariant
    (Delays npb config (DelayEmulator.new ⟨[], 0, 0⟩ minPktSize pktOverhead).warmupBursts
      ((DelayEmulator.new ⟨[], 0, 0⟩ minPktSize pktOverhead).ready txTimestamp))
    (fun _ _ _ h halong hstep => h.step hpos hloop halong.1 halong.2 hstep)
    (init_delays npb config capacity hsizes txTimestamp) halong hrun
  obtain ⟨pkts, hpkts, hlaunched⟩ :=
    List.sublist_map_iff.mp ((List.sublist_append_left _ _).trans hdelays.stamped)
  refine ⟨pkts, hpkts, ?_, ?_⟩
  · rw [hdelays.sent, hlaunched, addrs, List.map_map]
    rfl
  · obtain ⟨hoverhead, hleast⟩ :=
      DelayEmulator.ready_sizes txTimestamp ⟨[], 0, 0⟩ minPktSize pktOverhead
    have hover : s.emulator.packetOverhead = pktOverhead := hdelays.overhead.trans hoverhead
    have hwire : s.emulator.ratelimiter.leastWire = minPktSize.toNat + pktOverhead.toNat :=
      hdelays.least.trans hleast
    have hfirst : s.emulator.firstTimestamp = txTimestamp := hdelays.first
    have hnear := hdelays.timing.near
    rw [hlaunched, hover, List.forall₂_map_right_iff] at hnear
    refine hnear.imp ?_
    intro start pkt h
    rw [DelayEmulator.Near, hfirst, hwire] at h
    push_cast at h
    exact h

/-- Two packets that arrive within a nanosecond of each other: the second one is late when the
first one is sent. -/
def lateBurst : List HwAction :=
  [.receive ⟨[⟨1, 60, 7870219, 0⟩, ⟨2, 60, 7870220, 0⟩], 0, by decide⟩, .transmit 2, .transmit 0]

theorem emulated_delay_late :
    ∃ s : HwPath Rat .delay, runs (step 1000000000 (delayOnly 5) (.rational (4 / 5)) 8)
        (init (delayOnly 5) 4 ((DelayEmulator.new ⟨[], 0, 0⟩ 84 20).ready 0)) lateBurst = some s ∧
      addrs s.wire = [1, 2] ∧
      starts 20 0 (s.emulator.framesSince (DelayEmulator.new ⟨[], 0, 0⟩ 84 20).warmupBursts) =
        [9837780, 9837860] ∧
      ∃ pkts : List Mbuf, pkts.Sublist s.received ∧ addrs s.wire = addrs pkts ∧
        List.Forall₂
          (fun (start : Nat) (pkt : Mbuf) =>
            ((pkt.timestamp + (delayOnly 5).delay).toNat : Rat) <
                (0 : UInt64).toNat + start * (4 / 5) +
                  ((84 : UInt64).toNat + (20 : UInt64).toNat + 1) * (4 / 5) ∧
              ((0 : UInt64).toNat + start * (4 / 5) : Rat) <
                (pkt.timestamp + (delayOnly 5).delay).toNat + 100001)
          (starts 20 0 (s.emulator.framesSince
            (DelayEmulator.new ⟨[], 0, 0⟩ 84 20).warmupBursts)) pkts := by
  have hwire : (runs (step 1000000000 (delayOnly 5) (.rational (4 / 5)) 8)
      (init (delayOnly 5) 4 ((DelayEmulator.new ⟨[], 0, 0⟩ 84 20).ready 0) : HwPath Rat .delay)
      lateBurst).map (fun s => addrs s.wire) = some [1, 2] := by
    decide +kernel
  have hstarts : (runs (step 1000000000 (delayOnly 5) (.rational (4 / 5)) 8)
      (init (delayOnly 5) 4 ((DelayEmulator.new ⟨[], 0, 0⟩ 84 20).ready 0) : HwPath Rat .delay)
      lateBurst).map (fun s => starts 20 0
        (s.emulator.framesSince (DelayEmulator.new ⟨[], 0, 0⟩ 84 20).warmupBursts)) =
      some [9837780, 9837860] := by
    decide +kernel
  have halong : Along (step 1000000000 (delayOnly 5) (.rational (4 / 5)) 8)
      (fun s a => s.LastKept (.rational (4 / 5)) a ∧ s.Fits (4 / 5) a)
      (init (delayOnly 5) 4 ((DelayEmulator.new ⟨[], 0, 0⟩ 84 20).ready 0) : HwPath Rat .delay)
      lateBurst := by
    decide +kernel
  have hloop : ReceiveLoop.delay.AddsDelay := trivial
  have hsizes : DelayEmulator.SmallestFits 84 20 := ⟨by decide, by decide, by decide⟩
  obtain ⟨s, hrun, hs⟩ := Option.map_eq_some_iff.mp hwire
  rw [hrun, Option.map_some] at hstarts
  exact ⟨s, hrun, hs, Option.some.inj hstarts,
    emulated_delay 1000000000 (delayOnly 5) hloop (4 / 5) (by norm_num) 8 4 84 20 0 hsizes lateBurst
      s hrun halong⟩

end Runs

end HwPath

end Moonem

end MoonGen

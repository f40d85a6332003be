import Mathlib.Data.Rat.Floor
import MoonGen.Lib.Words
import MoonGen.RateControl.GapDecomposition

/-! # Where a packet starts on the wire

`send_batch` turns the goal time of a packet into a number of bytes after the byte
clock. The limiter covers them with fillers. It sends none for fewer than `leastWire` bytes
and carries these to the next packet, so a packet starts less than that before its goal,
and the error does not add up.
-/

namespace MoonGen

open Loop

namespace DelayEmulator

open RateLimiterCRC

variable {npb : Rat} {e : DelayEmulator} {mark : Nat}

/-! ## The goal of a packet -/

def currentTime (npb : Rat) (e : DelayEmulator) (offset : UInt64) : Nat :=
  ((e.firstTimestamp.toNat : Rat) + offset.toNat * npb).floor.toNat

/-- The byte at which a packet should start; for a late one the next byte of the clock. -/
def goalByte (npb : Rat) (e : DelayEmulator) (offset : UInt64) (pkt : Mbuf) : Nat :=
  offset.toNat + (((pkt.timestamp.toNat : Rat) - e.currentTime npb offset) / npb).floor.toNat

/-- The times at a packet's turn have 63 bits, and the clock behind the packet has 64. -/
structure TurnFits (npb : Rat) (e : DelayEmulator) (offset : UInt64) (pkt : Mbuf) : Prop where
  goal : pkt.timestamp.toNat < 2 ^ 63
  current : e.currentTime npb offset < 2 ^ 63
  clock : e.currentTime npb offset ≤ pkt.timestamp.toNat + 100000 →
    e.goalByte npb offset pkt + (pkt.pktLen.toNat + e.packetOverhead.toNat) < 2 ^ 64

def BatchFits (npb : Rat) (e : DelayEmulator) : UInt64 → List Mbuf → Prop
  | _, [] => True
  | offset, pkt :: rest =>
      e.TurnFits npb offset pkt ∧
        BatchFits npb e (e.schedulePacket (.rational npb) offset pkt).1 rest

theorem toNat_sendingTime {offset : UInt64} (h : e.currentTime npb offset < 2 ^ 63) :
    ((ByteTime.rational npb).sendingTime e.firstTimestamp offset).toNat =
      e.currentTime npb offset :=
  UInt64.toNat_ofNat_of_lt' (Nat.lt_trans h (by decide))

theorem goalByte_of_late (hpos : 0 < npb) {offset : UInt64} {pkt : Mbuf}
    (h : pkt.timestamp.toNat < e.currentTime npb offset) :
    e.goalByte npb offset pkt = offset.toNat := by
  have hcast : (pkt.timestamp.toNat : Rat) ≤ e.currentTime npb offset := by exact_mod_cast h.le
  have hneg : ((pkt.timestamp.toNat : Rat) - e.currentTime npb offset) / npb ≤ 0 :=
    div_nonpos_of_nonpos_of_nonneg (by linarith) hpos.le
  have hfloor : (((pkt.timestamp.toNat : Rat) - e.currentTime npb offset) / npb).floor ≤ 0 := by
    have hle := Int.floor_le_floor hneg
    rw [Int.floor_zero] at hle
    exact hle
  rw [goalByte, Int.toNat_of_nonpos hfloor, Nat.add_zero]

theorem toNat_clock {offset overhead : UInt64} (delay : UInt64) {len : UInt32}
    (h : offset.toNat + delay.toNat + (len.toNat + overhead.toNat) < 2 ^ 64) :
    (offset + (len.toUInt64 + overhead + delay)).toNat =
      offset.toNat + delay.toNat + (len.toNat + overhead.toNat) := by
  simp only [UInt64.toNat_add, UInt32.toNat_toUInt64]
  omega

theorem TurnFits.toInt_diff {offset : UInt64} {pkt : Mbuf} (h : e.TurnFits npb offset pkt) :
    (pkt.timestamp -
        (ByteTime.rational npb).sendingTime e.firstTimestamp offset).toInt64.toInt =
      (pkt.timestamp.toNat : Int) - e.currentTime npb offset := by
  have htime := toNat_sendingTime h.current
  have hgoal := h.goal
  have hcurrent := h.current
  have hdiff := @toInt_sub_toInt64 pkt.timestamp
    ((ByteTime.rational npb).sendingTime e.firstTimestamp offset)
  rw [htime] at hdiff
  exact hdiff (by omega) (by omega)

/-- The delay of a packet that is on time leads from the clock to its goal. -/
theorem TurnFits.clock_add_delayBytes {offset : UInt64} {pkt : Mbuf}
    (h : e.TurnFits npb offset pkt) (hontime : e.currentTime npb offset ≤ pkt.timestamp.toNat)
    {diff : Int64} (hdiff : diff.toInt = (pkt.timestamp.toNat : Int) - e.currentTime npb offset) :
    offset.toNat + ((ByteTime.rational npb).delayBytes diff).toNat =
      e.goalByte npb offset pkt := by
  have hclock := h.clock (Nat.le_add_right_of_le hontime)
  have hcast : (diff.toInt : Rat) = (pkt.timestamp.toNat : Rat) - e.currentTime npb offset := by
    rw [hdiff]
    push_cast
    rfl
  rw [goalByte] at hclock
  have hbytes : ((ByteTime.rational npb).delayBytes diff).toNat =
      (((pkt.timestamp.toNat : Rat) - e.currentTime npb offset) / npb).floor.toNat := by
    simp only [ByteTime.rational, hcast]
    exact UInt64.toNat_ofNat_of_lt' (Nat.lt_of_le_of_lt (by omega) hclock)
  rw [hbytes, goalByte]

theorem schedulePacket_cases (hpos : 0 < npb) {offset : UInt64} {pkt : Mbuf}
    (h : e.TurnFits npb offset pkt) :
    (pkt.timestamp.toNat + 100000 < e.currentTime npb offset ∧
      e.schedulePacket (.rational npb) offset pkt = (offset, none)) ∨
    ∃ delay offset', e.currentTime npb offset ≤ pkt.timestamp.toNat + 100000 ∧
      e.schedulePacket (.rational npb) offset pkt =
        (offset', some (pkt.setTimestampDynfield delay)) ∧
      offset.toNat + delay.toNat = e.goalByte npb offset pkt ∧
      offset'.toNat = e.goalByte npb offset pkt + (pkt.pktLen.toNat + e.packetOverhead.toNat) ∧
      (pkt.timestamp.toNat < e.currentTime npb offset → delay = 0) := by
  have hdiff := h.toInt_diff
  unfold schedulePacket
  generalize (pkt.timestamp -
    (ByteTime.rational npb).sendingTime e.firstTimestamp offset).toInt64 = diff at hdiff
  have hlate : diff < 0 ↔ pkt.timestamp.toNat < e.currentTime npb offset := by
    rw [Int64.lt_iff_toInt_lt, hdiff]
    simp only [Int64.toInt_zero]
    omega
  have hdropped : diff < -100000 ↔ pkt.timestamp.toNat + 100000 < e.currentTime npb offset := by
    have hconst : (-100000 : Int64).toInt = -100000 := by decide
    rw [Int64.lt_iff_toInt_lt, hdiff, hconst]
    omega
  dsimp only
  by_cases hl : diff < 0
  · rw [if_pos hl]
    have hgoal := goalByte_of_late hpos (hlate.mp hl)
    by_cases hd : diff < -100000
    · left
      rw [if_pos hd]
      exact ⟨hdropped.mp hd, rfl⟩
    · right
      have hkept := Nat.not_lt.mp (mt hdropped.mpr hd)
      have hclock := h.clock hkept
      rw [if_neg hd]
      refine ⟨0, _, hkept, rfl, ?_, ?_, fun _ => rfl⟩
      · rw [hgoal]
        rfl
      · rw [hgoal] at hclock ⊢
        have hsum := toNat_clock 0 hclock
        rw [UInt64.add_zero] at hsum
        exact hsum
  · right
    have hontime := Nat.not_lt.mp (mt hlate.mpr hl)
    have hclock := h.clock (Nat.le_add_right_of_le hontime)
    have hgoal := h.clock_add_delayBytes hontime hdiff
    rw [if_neg hl]
    refine ⟨(ByteTime.rational npb).delayBytes diff, _, Nat.le_add_right_of_le hontime, rfl, hgoal,
      ?_, ?_⟩
    · rw [← hgoal] at hclock ⊢
      exact toNat_clock _ hclock
    · intro hlt
      exact absurd hlt (Nat.not_lt.mpr hontime)

end DelayEmulator

/-! ## The turns of a batch -/

theorem RateLimiterCRC.framesFor_append (l : RateLimiterCRC) (fuel : Nat) (missing : UInt64)
    (entries more : List (Option Mbuf)) :
    l.framesFor fuel missing (entries ++ more) =
      (l.framesFor fuel missing entries).bind fun g =>
        (l.framesFor fuel g.delay more).map fun g' => ⟨g'.delay, g.frames ++ g'.frames⟩ := by
  induction entries generalizing missing with
  | nil => simp [framesFor]
  | cons entry rest ih =>
      cases entry with
      | none => exact ih missing
      | some pkt =>
          simp only [List.cons_append, framesFor, ih]
          cases l.gap fuel (pkt.timestamp + missing) with
          | none => rfl
          | some gap =>
              simp only [Option.bind_some]
              cases l.framesFor fuel gap.delay rest with
              | none => rfl
              | some tail => simp [Function.comp_def]

namespace DelayEmulator

open RateLimiterCRC

variable {npb : Rat} {e : DelayEmulator} {mark : Nat}

theorem schedule_append (time : ByteTime) (e : DelayEmulator) (offset : UInt64)
    (pkts more : List Mbuf) :
    e.schedule time offset (pkts ++ more) =
      ((e.schedule time (e.schedule time offset pkts).1 more).1,
        (e.schedule time offset pkts).2 ++
          (e.schedule time (e.schedule time offset pkts).1 more).2) := by
  induction pkts generalizing offset with
  | nil => rfl
  | cons pkt rest ih => simp [schedule, ih]

theorem BatchFits.append {offset : UInt64} {pkts more : List Mbuf}
    (h : e.BatchFits npb offset (pkts ++ more)) :
    e.BatchFits npb offset pkts ∧
      e.BatchFits npb (e.schedule (.rational npb) offset pkts).1 more := by
  induction pkts generalizing offset with
  | nil => exact ⟨trivial, h⟩
  | cons pkt rest ih =>
      obtain ⟨hturn, hrest⟩ := h
      obtain ⟨hfirst, hsecond⟩ := ih hrest
      exact ⟨⟨hturn, hfirst⟩, hsecond⟩

/-- The states that a batch can be given to: the clock shows the bytes on the wire and a
remainder of less than one filler. -/
structure Placeable (mark : Nat) (e : DelayEmulator) : Prop where
  overhead : e.ratelimiter.packetOverhead = e.packetOverhead
  size : e.ratelimiter.invalidPacketSize = 9000
  small : e.packetOverhead.toNat ≤ 4500
  marked : mark ≤ e.port.handed.length
  noWrap : e.ratelimiter.leastWire < 2 ^ 64
  clock : e.ClockMatchesWire mark
  owed : e.ratelimiter.previousMissingDelay.toNat < e.ratelimiter.leastWire

theorem Placeable.sized (h : e.Placeable mark) : e.ratelimiter.Sized := by
  have hsmall := h.small
  have howed := h.owed
  have hsize : e.ratelimiter.invalidPacketSize.toNat = 9000 := by
    rw [h.size]
    rfl
  rw [← h.overhead] at hsmall
  refine ⟨?_, h.noWrap, ?_, ?_, ?_⟩
  · exact Nat.lt_of_le_of_lt (Nat.zero_le _) howed
  · omega
  · omega
  · omega

/-- The clock before the turn of a packet, from the bytes that are then on the wire. -/
structure AtTurn (e : DelayEmulator) (wire : Nat) (offset missing : UInt64) : Prop where
  clock : offset.toNat = wire + missing.toNat
  owed : missing.toNat < e.ratelimiter.leastWire

/-- The fillers before a kept packet lead up to its goal, and behind the packet the clock
shows the wire again. -/
theorem AtTurn.kept (hl : e.ratelimiter.Sized)
    (hover : e.ratelimiter.packetOverhead = e.packetOverhead) {wire : Nat}
    {offset offset' missing delay : UInt64} {pkt : Mbuf} {fuel : Nat} {gap : Gap}
    (h : e.AtTurn wire offset missing)
    (hgoal : offset.toNat + delay.toNat = e.goalByte npb offset pkt)
    (hclock : offset'.toNat =
      e.goalByte npb offset pkt + (pkt.pktLen.toNat + e.packetOverhead.toNat))
    (hgap : e.ratelimiter.gap fuel (delay + missing) = some gap) :
    wire + wireBytes e.packetOverhead gap.frames + gap.delay.toNat = e.goalByte npb offset pkt ∧
      e.AtTurn (wire + wireBytes e.packetOverhead (gap.frames ++ [.load pkt])) offset'
        gap.delay := by
  have hoffset := offset'.toNat_lt
  have hstart := h.clock
  have hsum : (delay + missing).toNat = delay.toNat + missing.toNat := by
    rw [UInt64.toNat_add]
    omega
  obtain ⟨htotal, hrest⟩ := hl.gap_total hgap
  rw [hover, hsum] at htotal
  have hled : wire + wireBytes e.packetOverhead gap.frames + gap.delay.toNat =
      e.goalByte npb offset pkt := by omega
  refine ⟨hled, ?_, hrest⟩
  rw [wireBytes_append, wireBytes_cons, wireBytes_nil, Frame.pktLen]
  omega

theorem AtTurn.schedule (hpos : 0 < npb) (hl : e.ratelimiter.Sized)
    (hover : e.ratelimiter.packetOverhead = e.packetOverhead) {wire : Nat}
    {offset missing : UInt64} {fuel : Nat} {pkts : List Mbuf} {g : Gap}
    (h : e.AtTurn wire offset missing) (hfits : e.BatchFits npb offset pkts)
    (hg : e.ratelimiter.framesFor fuel missing (e.schedule (.rational npb) offset pkts).2 =
      some g) :
    e.AtTurn (wire + wireBytes e.packetOverhead g.frames)
      (e.schedule (.rational npb) offset pkts).1 g.delay := by
  induction pkts generalizing wire offset missing g with
  | nil =>
      cases hg
      exact h
  | cons pkt rest ih =>
      obtain ⟨hturn, hrest⟩ := hfits
      rcases schedulePacket_cases hpos hturn with
        ⟨_, heq⟩ | ⟨delay, offset', _, heq, hgoal, hclock, _⟩
      · simp only [DelayEmulator.schedule, heq, framesFor] at hg hrest ⊢
        exact ih h hrest hg
      · simp only [DelayEmulator.schedule, heq, framesFor, Mbuf.setTimestampDynfield_timestamp]
          at hg hrest ⊢
        obtain ⟨gap, hgap, hmap⟩ := Option.bind_eq_some_iff.mp hg
        obtain ⟨tail, htail, rfl⟩ := Option.map_eq_some_iff.mp hmap
        have hnext := ih (h.kept hl hover hgoal hclock hgap).2 hrest htail
        have hwire : wire + wireBytes e.packetOverhead (gap.frames ++
              .load (pkt.setTimestampDynfield delay) :: tail.frames) =
            wire + wireBytes e.packetOverhead (gap.frames ++ [.load pkt]) +
              wireBytes e.packetOverhead tail.frames := by
          simp only [wireBytes_append, wireBytes_cons, wireBytes_nil, Frame.pktLen,
            Mbuf.setTimestampDynfield_pktLen]
          omega
        rw [hwire]
        exact hnext

/-! ## Placement -/

/-- A packet of a batch that is not dropped goes out behind the packets before it, in `frames`
behind `wire` bytes. On time it starts less than one filler before its goal; late it follows
the packet before it without a filler. -/
def Placed (npb : Rat) (e : DelayEmulator) (wire : Nat) (frames : List Frame) (before : List Mbuf)
    (pkt : Mbuf) : Prop :=
  let offset := (e.schedule (.rational npb) e.currentByteOffset before).1
  e.currentTime npb offset ≤ pkt.timestamp.toNat + 100000 →
    ∃ sent fillers delay rest,
      frames = sent ++ fillers ++ .load (pkt.setTimestampDynfield delay) :: rest ∧
      (sent = [] ∨ ∃ init last, sent = init ++ [.load last]) ∧
      sent.filterMap Frame.load? =
        (e.schedule (.rational npb) e.currentByteOffset before).2.filterMap id ∧
      fillers.filterMap Frame.load? = [] ∧
      (e.currentTime npb offset ≤ pkt.timestamp.toNat →
        e.goalByte npb offset pkt <
            wire + wireBytes e.packetOverhead (sent ++ fillers) + e.ratelimiter.leastWire ∧
          wire + wireBytes e.packetOverhead (sent ++ fillers) ≤ e.goalByte npb offset pkt) ∧
      (pkt.timestamp.toNat < e.currentTime npb offset → fillers = [])

theorem placed_of_framesFor (hpos : 0 < npb) (he : e.Placeable mark) {pkts : List Mbuf}
    (hfits : e.BatchFits npb e.currentByteOffset pkts) {fuel : Nat} {g : Gap}
    (hg : e.ratelimiter.framesFor fuel e.ratelimiter.previousMissingDelay
      (e.schedule (.rational npb) e.currentByteOffset pkts).2 = some g)
    {before : List Mbuf} {pkt : Mbuf} {after : List Mbuf} (hsplit : pkts = before ++ pkt :: after) :
    e.Placed npb (e.wireSince mark) g.frames before pkt := by
  subst hsplit
  intro hkept
  have hstart : e.AtTurn (e.wireSince mark) e.currentByteOffset
      e.ratelimiter.previousMissingDelay := ⟨he.clock, he.owed⟩
  obtain ⟨hbefore, hturn, _⟩ := hfits.append
  rw [schedule_append, framesFor_append] at hg
  obtain ⟨sent, hsent, hmap⟩ := Option.bind_eq_some_iff.mp hg
  obtain ⟨tail, htail, rfl⟩ := Option.map_eq_some_iff.mp hmap
  have hat := hstart.schedule hpos he.sized he.overhead hbefore hsent
  rcases schedulePacket_cases hpos hturn with
    ⟨hdropped, _⟩ | ⟨delay, offset', _, heq, hgoal, hclock, hlate⟩
  · exact absurd hkept (Nat.not_le.mpr hdropped)
  · simp only [DelayEmulator.schedule, heq, framesFor, Mbuf.setTimestampDynfield_timestamp] at htail
    obtain ⟨gap, hgap, hrest⟩ := Option.bind_eq_some_iff.mp htail
    obtain ⟨rest, _, rfl⟩ := Option.map_eq_some_iff.mp hrest
    obtain ⟨hled, hnext⟩ := hat.kept he.sized he.overhead hgoal hclock hgap
    refine ⟨sent.frames, gap.frames, delay, rest.frames, ?_, framesFor_ends_in_load hsent,
      framesFor_loads hsent, gap_frames_invalid hgap, ?_, ?_⟩
    · simp
    · intro _
      have howed := hnext.owed
      rw [wireBytes_append]
      constructor
      · omega
      · omega
    · intro hlt
      rw [hlate hlt, UInt64.zero_add] at hgap
      rw [he.sized.gap_of_short hat.owed fuel] at hgap
      cases hgap
      rfl

/-- A batch whose last packet is kept goes out completely: the frames behind `mark` grow by
those that the limiter makes of the schedule, and the remainder and the clock are updated. -/
theorem Placeable.sendBatch_returns (he : e.Placeable mark) (time : ByteTime) (pkts : List Mbuf)
    (hlast : (e.schedule time e.currentByteOffset pkts).2.getLast? ≠ some none) :
    ∃ fuel g port, e.ratelimiter.framesFor fuel e.ratelimiter.previousMissingDelay
        (e.schedule time e.currentByteOffset pkts).2 = some g ∧
      e.sendBatch time fuel pkts = some
        { e with
          ratelimiter := { e.ratelimiter with previousMissingDelay := g.delay }
          port := port
          currentByteOffset := (e.schedule time e.currentByteOffset pkts).1 } ∧
      (port.handed.drop mark).flatten = (e.port.handed.drop mark).flatten ++ g.frames ∧
      mark ≤ port.handed.length := by
  obtain ⟨fuel, g, hg⟩ := framesFor_exists he.sized e.ratelimiter.previousMissingDelay
    (e.schedule time e.currentByteOffset pkts).2
  obtain ⟨out, hout⟩ := sendPackets_returns e.port hg
  obtain ⟨g', hg', hlimiter, hhanded, _⟩ := sendPackets_spec hout
  obtain rfl : g = g' := Option.some.inj (hg.symm.trans hg')
  have hslots := (finalBatch_slots_eq_nil_iff _ _ (framesFor_nil hg)).mpr
    fun hnull => absurd hnull hlast
  have hframes := finalBatch_contents (e.schedule time e.currentByteOffset pkts).2 g
  rw [Batch.contents, hslots, List.append_nil] at hframes
  refine ⟨fuel, g, out.port, hg, ?_, ?_, ?_⟩
  · simp only [sendBatch, hout, Option.map_some, hlimiter]
  · rw [hhanded, List.drop_append_of_le_length he.marked, List.flatten_append, hframes]
  · rw [hhanded, List.length_append]
    exact Nat.le_add_right_of_le he.marked

/-- Each packet of a batch whose last packet is kept goes out in its place, and the batch
leaves a state that the next one can be given to. -/
theorem sendBatch_places (npb : Rat) (hpos : 0 < npb) (mark : Nat) (e : DelayEmulator)
    (he : e.Placeable mark) (pkts : List Mbuf)
    (hlast : (e.schedule (.rational npb) e.currentByteOffset pkts).2.getLast? ≠ some none)
    (hfits : e.BatchFits npb e.currentByteOffset pkts) :
    ∃ fuel e' frames, e.sendBatch (.rational npb) fuel pkts = some e' ∧
      (e'.port.handed.drop mark).flatten = (e.port.handed.drop mark).flatten ++ frames ∧
      (∀ before pkt after, pkts = before ++ pkt :: after →
        e.Placed npb (e.wireSince mark) frames before pkt) ∧
      e'.Placeable mark := by
  obtain ⟨fuel, g, port, hg, hsend, hwire, hmarked⟩ :=
    he.sendBatch_returns (.rational npb) pkts hlast
  have hstart : e.AtTurn (e.wireSince mark) e.currentByteOffset
      e.ratelimiter.previousMissingDelay := ⟨he.clock, he.owed⟩
  have hend := hstart.schedule hpos he.sized he.overhead hfits hg
  refine ⟨fuel, _, g.frames, hsend, hwire, ?_, ?_⟩
  · intro before pkt after hsplit
    exact placed_of_framesFor hpos he hfits hg hsplit
  · refine ⟨he.overhead, he.size, he.small, hmarked, he.noWrap, ?_, hend.owed⟩
    rw [ClockMatchesWire, wireSince, hwire, wireBytes_append]
    exact hend.clock

/-- A fresh emulator of a ten-gigabit port, as `transmit_loop` sets it up for a batch. -/
def tenGigabitEmulator : DelayEmulator :=
  (DelayEmulator.new ⟨[], 0, 0⟩ 64 20).setInvalidPacketSize 9000

theorem tenGigabitEmulator_placeable : tenGigabitEmulator.Placeable 0 := by
  refine ⟨rfl, rfl, ?_, Nat.zero_le _, ?_, rfl, ?_⟩
  · decide
  · decide
  · decide

theorem sendBatch_places_late_packet :
    ∃ fuel e' frames, tenGigabitEmulator.sendBatch (.rational (4 / 5)) fuel
        [⟨1, 60, 1000, 0⟩, ⟨2, 60, 0, 0⟩] = some e' ∧
      (e'.port.handed.drop 0).flatten =
        (tenGigabitEmulator.port.handed.drop 0).flatten ++ frames ∧
      (∀ before pkt after, [⟨1, 60, 1000, 0⟩, ⟨2, 60, 0, 0⟩] = before ++ pkt :: after →
        tenGigabitEmulator.Placed (4 / 5) (tenGigabitEmulator.wireSince 0) frames before pkt) ∧
      e'.Placeable 0 := by
  apply sendBatch_places (4 / 5) (by norm_num) 0 tenGigabitEmulator tenGigabitEmulator_placeable
  · decide +kernel
  · refine ⟨⟨?_, ?_, ?_⟩, ⟨?_, ?_, ?_⟩, trivial⟩
    all_goals decide +kernel

/-- With a quarter of a nanosecond per byte, a packet whose time has 62 bits is kept, and the
clock behind it takes more than 64. All numbers on the way are doubles. -/
theorem clock_wraps_behind_packet :
    tenGigabitEmulator.Placeable 0 ∧ (4611686018427387392 : UInt64).toNat < 2 ^ 63 ∧
      tenGigabitEmulator.currentTime (1 / 4) 0 < 2 ^ 63 ∧
      (tenGigabitEmulator.schedule (.rational (1 / 4)) 0
        [⟨1, 2048, 4611686018427387392, 0⟩]).2.getLast? ≠ some none ∧
      ∃ fuel e', tenGigabitEmulator.sendBatch (.rational (1 / 4)) fuel
          [⟨1, 2048, 4611686018427387392, 0⟩] = some e' ∧
        ¬ e'.ClockMatchesWire 0 := by
  have hschedule : tenGigabitEmulator.schedule (.rational (1 / 4)) 0
      [⟨1, 2048, 4611686018427387392, 0⟩] = (20, [some ⟨1, 2048, 18446744073709549568, 0⟩]) := by
    decide +kernel
  have hkept : (tenGigabitEmulator.schedule (.rational (1 / 4)) 0
      [⟨1, 2048, 4611686018427387392, 0⟩]).2.getLast? ≠ some none := by
    rw [hschedule]
    decide
  refine ⟨tenGigabitEmulator_placeable, by decide, by decide +kernel, hkept, ?_⟩
  obtain ⟨fuel, g, port, hg, hsend, hwire, _⟩ := tenGigabitEmulator_placeable.sendBatch_returns
    (.rational (1 / 4)) [⟨1, 2048, 4611686018427387392, 0⟩] hkept
  have hclock : tenGigabitEmulator.currentByteOffset = 0 := rfl
  rw [hclock, hschedule] at hg
  obtain ⟨gap, hgap, hmap⟩ := Option.bind_eq_some_iff.mp hg
  obtain ⟨tail, htail, rfl⟩ := Option.map_eq_some_iff.mp hmap
  cases htail
  obtain ⟨htotal, hrest⟩ := tenGigabitEmulator_placeable.sized.gap_total hgap
  refine ⟨fuel, _, hsend, ?_⟩
  rw [ClockMatchesWire, wireSince, hwire, hclock, hschedule]
  simp only [wireBytes_append, wireBytes_cons, wireBytes_nil]
  have hleast : tenGigabitEmulator.ratelimiter.leastWire = 84 := by decide
  have hdelay : ((18446744073709549568 : UInt64) +
      tenGigabitEmulator.ratelimiter.previousMissingDelay).toNat = 18446744073709549568 := by
    decide
  have hoffset : (20 : UInt64).toNat = 20 := rfl
  have hover : tenGigabitEmulator.ratelimiter.packetOverhead =
    tenGigabitEmulator.packetOverhead := rfl
  rw [hdelay, hover] at htotal
  rw [hleast] at hrest
  rw [hoffset]
  omega

end DelayEmulator

end MoonGen

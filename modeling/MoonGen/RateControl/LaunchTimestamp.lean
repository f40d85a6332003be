import MoonGen.RateControl.Delivery

/-! # Launch-time emulation on top of the limiter

`DelayEmulator` keeps a byte clock: the number of bytes the wire will have
carried when the next packet can start. It translates a packet's goal time into
a delay in bytes, books the packet and its delay on the clock, and leaves the
spacing to the limiter. The floating-point translation between bytes and
nanoseconds is a parameter, so every statement below holds for any rounding.
-/

namespace MoonGen

open Loop

/-- The two uses of `NANOSECONDS_PER_BYTE`: the sending time of a byte offset and
the bytes of a time difference. -/
structure ByteTime where
  sendingTime : (firstTimestamp currentByteOffset : UInt64) → UInt64
  delayBytes : (sendingTimeDiff : Int64) → UInt64

def ByteTime.rational (nanosecondsPerByte : Rat) : ByteTime where
  sendingTime := fun first offset =>
    UInt64.ofNat ((first.toNat : Rat) + offset.toNat * nanosecondsPerByte).floor.toNat
  delayBytes := fun diff => UInt64.ofNat ((diff.toInt : Rat) / nanosecondsPerByte).floor.toNat

/-- Exact arithmetic with the number that a port has. -/
def ByteTime.exact (lineRate : Nat) : ByteTime := .rational (8 / 100 * (100000 / lineRate))

structure DelayEmulator where
  ratelimiter : RateLimiterCRC
  port : Port
  packetOverhead : UInt64
  firstTimestamp : UInt64
  currentByteOffset : UInt64
deriving Repr, DecidableEq

namespace DelayEmulator

/-- `launch_timestamp.new` gives limiter and emulator the same overhead. -/
def new (port : Port) (minPktSize pktOverhead : UInt64) : DelayEmulator :=
  ⟨.new minPktSize pktOverhead 1500, port, pktOverhead, 0, 0⟩

def setInvalidPacketSize (e : DelayEmulator) (size : UInt64) : DelayEmulator :=
  { e with ratelimiter := e.ratelimiter.setInvalidPacketSize size }

/-- One packet of `send_batch` at a given clock: the clock after it, and the
packet with its delay in the timestamp field, or NULL when it is dropped. -/
def schedulePacket (time : ByteTime) (e : DelayEmulator) (offset : UInt64) (pkt : Mbuf) :
    UInt64 × Option Mbuf :=
  let sendingTimeDiff := (pkt.timestamp - time.sendingTime e.firstTimestamp offset).toInt64
  if sendingTimeDiff < 0 then
    if sendingTimeDiff < -100000 then (offset, none)
    else (offset + (pkt.pktLen.toUInt64 + e.packetOverhead), some (pkt.setTimestampDynfield 0))
  else
    let delayBytes := time.delayBytes sendingTimeDiff
    (offset + (pkt.pktLen.toUInt64 + e.packetOverhead + delayBytes),
      some (pkt.setTimestampDynfield delayBytes))

def schedule (time : ByteTime) (e : DelayEmulator) :
    UInt64 → List Mbuf → UInt64 × List (Option Mbuf)
  | offset, [] => (offset, [])
  | offset, pkt :: rest =>
      let (offset, entry) := e.schedulePacket time offset pkt
      let (offset, entries) := schedule time e offset rest
      (offset, entry :: entries)

def sendBatch (time : ByteTime) (fuel : Nat) (e : DelayEmulator) (loadPkts : List Mbuf) :
    Option DelayEmulator :=
  let (offset, entries) := e.schedule time e.currentByteOffset loadPkts
  (e.ratelimiter.sendPackets fuel e.port entries).map fun out =>
    { e with ratelimiter := out.limiter, port := out.port, currentByteOffset := offset }

/-- `current_byte_offset += ratelimiter->empty_delay(64)`. -/
def emptyDelay (e : DelayEmulator) : DelayEmulator :=
  let (port, bytes) := e.ratelimiter.emptyDelay e.port 64
  { e with port := port, currentByteOffset := e.currentByteOffset + bytes }

def warmup (e : DelayEmulator) : DelayEmulator :=
  { e with
    port := (List.range 100).foldl (fun port _ => (e.ratelimiter.emptyDelay port 64).1) e.port }

/-- `current_byte_offset = ratelimiter->send_timestamp_packet(64)`. -/
def sendTimestampPacket (e : DelayEmulator) : DelayEmulator :=
  let (port, bytes) := e.ratelimiter.sendTimestampPacket e.port 64
  { e with port := port, currentByteOffset := bytes }

/-- What `transmit_loop` does after the timestamp packet: wait for it to leave,
read its timestamp, and then serve ring bursts, the empty burst being idle time. -/
inductive Event where
  | wait
  | readTxTimestamp (timestamp : UInt64)
  | ring (transmitPkts : List Mbuf)
deriving Repr, DecidableEq

def step (time : ByteTime) (fuel : Nat) (e : DelayEmulator) : Event → Option DelayEmulator
  | .wait => some e.emptyDelay
  | .readTxTimestamp timestamp => some { e with firstTimestamp := timestamp }
  | .ring [] => some (e.setInvalidPacketSize 1500).emptyDelay
  | .ring (pkt :: pkts) => (e.setInvalidPacketSize 9000).sendBatch time fuel (pkt :: pkts)

def started (e : DelayEmulator) : DelayEmulator :=
  (e.setInvalidPacketSize 1500).warmup.sendTimestampPacket

def transmitLoop (time : ByteTime) (fuel : Nat) (txTimestamp : UInt64)
    (bursts : List (List Mbuf)) (e : DelayEmulator) : Option DelayEmulator :=
  runs (step time fuel) e.started
    (List.replicate 100 .wait ++ .readTxTimestamp txTimestamp :: bursts.map .ring)

end DelayEmulator

end MoonGen

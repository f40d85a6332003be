import MoonGen.Lib.Loop
import MoonGen.Lib.Batch
import MoonGen.Mbuf

/-! # The CRC rate limiter

`RateLimiterCRC` spaces load packets with invalid filler frames. The embedding
follows `crc-ratecontrol.cpp`: all sums and differences are 64-bit and wrap, the
two length fields of a filler are truncated to their own widths, and the local
array of sixty-four frames is a `Batch`. Allocation is taken to succeed, so the
test of the allocated pointer is always true. The filler loop is fuelled, since
nothing in the source makes it end for every choice of sizes.
-/

namespace MoonGen

open Loop

/-- A frame handed to the NIC: a load packet, or a filler of the invalid pool
with its 16-bit `data_len` and 32-bit `pkt_len`. -/
inductive Frame where
  | load (pkt : Mbuf)
  | invalid (dataLen : UInt16) (pktLen : UInt32)
deriving Repr, DecidableEq

def Frame.pktLen : Frame → UInt32
  | .load pkt => pkt.pktLen
  | .invalid _ pktLen => pktLen

def Frame.load? : Frame → Option Mbuf
  | .load pkt => some pkt
  | .invalid _ _ => none

/-- What the NIC of one port has been given, and the port's filler statistics. -/
structure Port where
  handed : List (List Frame)
  badPktsSent : UInt64
  badBytesSent : UInt64
deriving Repr, DecidableEq

def Port.dpdkSendAllPackets (port : Port) (pkts : List Frame) : Port :=
  { port with handed := port.handed ++ [pkts] }

structure RateLimiterCRC where
  previousMissingDelay : UInt64
  invalidPacketSize : UInt64
  minPacketSize : UInt64
  packetOverhead : UInt64
deriving Repr, DecidableEq

namespace RateLimiterCRC

def transmitBufferSize : Nat := 64

def new (minPacketSize packetOverhead invalidPacketSize : UInt64) : RateLimiterCRC :=
  ⟨0, invalidPacketSize, minPacketSize, packetOverhead⟩

def setInvalidPacketSize (l : RateLimiterCRC) (invalidPacketSize : UInt64) : RateLimiterCRC :=
  { l with invalidPacketSize := invalidPacketSize }

/-- Bytes a frame occupies on the wire, as the source adds them up. -/
def wireSize (l : RateLimiterCRC) (f : Frame) : UInt64 :=
  f.pktLen.toUInt64 + l.packetOverhead

/-- The wire bytes the next filler is to cover. -/
def delayShare (l : RateLimiterCRC) (delay : UInt64) : UInt64 :=
  if delay ≤ l.invalidPacketSize then delay
  else if delay > 2 * l.invalidPacketSize - 100 then l.invalidPacketSize
  else delay / 2

def getDelayPacket (l : RateLimiterCRC) (delay : UInt64) : Frame :=
  let delay := l.delayShare delay
  .invalid (delay - l.packetOverhead).toUInt16 (delay - l.packetOverhead).toUInt32

/-- The locals of `send_packets` together with the field it carries over. -/
structure SendState where
  previousMissingDelay : UInt64
  delay : UInt64
  batch : Batch Frame
  numBadPkts : UInt32
  numBadBytes : UInt32
deriving Repr, DecidableEq

def SendState.start (l : RateLimiterCRC) : SendState :=
  ⟨l.previousMissingDelay, 0, .empty, 0, 0⟩

/-- One round of step 1: a filler is allocated, stored and accounted for. -/
def delayPacket (l : RateLimiterCRC) (s : SendState) : SendState :=
  let pkt := l.getDelayPacket s.delay
  { s with
    delay := s.delay - l.wireSize pkt
    batch := s.batch.emit transmitBufferSize pkt
    numBadPkts := s.numBadPkts + 1
    numBadBytes := s.numBadBytes + (l.wireSize pkt - 20).toUInt32 }

def needsDelayPacket (l : RateLimiterCRC) (delay : UInt64) : Bool :=
  l.minPacketSize + l.packetOverhead ≤ delay

def delayPackets (l : RateLimiterCRC) (fuel : Nat) (s : SendState) : Option SendState :=
  whileFuel (fun s => l.needsDelayPacket s.delay) l.delayPacket fuel s

/-- Step 2: the packet itself, and the hand-over of a full or final array. -/
def loadPacket (last : Bool) (pkt : Mbuf) (s : SendState) : SendState :=
  let batch := s.batch.put transmitBufferSize (.load pkt)
  { s with
    previousMissingDelay := s.delay
    batch := if transmitBufferSize ≤ batch.slots.length ∨ last then batch.flush else batch }

/-- The loop over the batch. A NULL entry is skipped before anything else, also
when it is the last one. -/
def sendLoop (l : RateLimiterCRC) (fuel : Nat) : List (Option Mbuf) → SendState → Option SendState
  | [], s => some s
  | none :: rest, s => sendLoop l fuel rest s
  | some pkt :: rest, s =>
      (l.delayPackets fuel { s with delay := pkt.timestamp + s.previousMissingDelay }).bind
        fun s => sendLoop l fuel rest (loadPacket rest.isEmpty pkt s)

/-- The limiter and the port after the call, and whether the array was ever
indexed past its end. -/
structure SendOutcome where
  limiter : RateLimiterCRC
  port : Port
  outOfRange : Bool
deriving Repr, DecidableEq

def finishSend (l : RateLimiterCRC) (port : Port) (s : SendState) : SendOutcome where
  limiter := { l with previousMissingDelay := s.previousMissingDelay }
  port :=
    { handed := port.handed ++ s.batch.handed
      badPktsSent := port.badPktsSent + s.numBadPkts.toUInt64
      badBytesSent := port.badBytesSent + s.numBadBytes.toUInt64 }
  outOfRange := s.batch.overrun

def sendPackets (l : RateLimiterCRC) (fuel : Nat) (port : Port) (loadPkts : List (Option Mbuf)) :
    Option SendOutcome :=
  (l.sendLoop fuel loadPkts (.start l)).map (l.finishSend port)

/-- `alloc_mbufs` takes the length as a 16-bit value. -/
def allocMbufs (numPackets : UInt16) (pktLen : UInt16) : List Frame :=
  List.replicate numPackets.toNat (.invalid pktLen pktLen.toUInt32)

def emptyDelay (l : RateLimiterCRC) (port : Port) (numPackets : UInt16) : Port × UInt64 :=
  (port.dpdkSendAllPackets (allocMbufs numPackets l.invalidPacketSize.toUInt16),
    numPackets.toUInt64 * (l.invalidPacketSize + l.packetOverhead))

/-- Same frames and same count as `emptyDelay`; the first frame also carries the
timestamp request flag. -/
def sendTimestampPacket (l : RateLimiterCRC) (port : Port) (numPackets : UInt16) :
    Port × UInt64 :=
  (port.dpdkSendAllPackets (allocMbufs numPackets l.invalidPacketSize.toUInt16),
    numPackets.toUInt64 * (l.invalidPacketSize + l.packetOverhead))

end RateLimiterCRC

end MoonGen

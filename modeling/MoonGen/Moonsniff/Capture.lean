import MoonGen.Lib.Loop
import MoonGen.Moonsniff.Mscap

/-! # Logging received packets

The embedding of `ms_log_pkts` in `moonsniff.cpp`. A packet has its timestamp in a
dynamic field or, on older cards, as two words behind its data.
-/

namespace MoonGen.Moonsniff

open Loop

/-- A received packet as the loggers read it. `data` is the memory around the packet,
counted from its first byte, since the loggers read words at computed offsets. -/
structure RxPkt where
  pktLen : UInt32
  timestamp : UInt64
  /-- `ol_flags & RTE_MBUF_F_RX_IEEE1588_TMST`. -/
  timestamped : Bool
  data : Int → UInt8

namespace RxPkt

def bytes (p : RxPkt) (offset : Int) (len : Nat) : List UInt8 :=
  (List.range len).map fun (i : Nat) => p.data (offset + i)

@[simp] theorem bytes_length (p : RxPkt) (offset : Int) (len : Nat) :
    (p.bytes offset len).length = len := by
  simp [bytes]

def word32 (p : RxPkt) (offset : Int) : UInt32 := UInt32.ofNat (ofBytes (p.bytes offset 4))

/-- `timestamp32[0]` and `timestamp32[1]` of the trailer. -/
def trailerLow (p : RxPkt) : UInt32 := p.word32 ((p.pktLen.toNat : Int) - 8)

def trailerHigh (p : RxPkt) : UInt32 := p.word32 ((p.pktLen.toNat : Int) - 4)

/-- The test that both loggers make before they look at a packet. -/
def isLogged (embeddedTimestampInPacket : Bool) (p : RxPkt) : Bool :=
  embeddedTimestampInPacket || p.timestamped

end RxPkt

/-! ## `ms_log_pkts` -/

structure MsLog where
  file : List UInt8
  cerr : List String
deriving Repr, DecidableEq

/-- The product of the trailer words has 32 bits, like its factors. -/
def msTimestamp (embeddedTimestampInPacket : Bool) (p : RxPkt) : UInt64 :=
  if embeddedTimestampInPacket then p.timestamp
  else (p.trailerHigh * 1000000000 + p.trailerLow).toUInt64

def msLogPkt (embeddedTimestampInPacket : Bool) (seqnumOffset : UInt32) (log : MsLog)
    (p : RxPkt) : MsLog :=
  if p.isLogged embeddedTimestampInPacket then
    let timestamp := msTimestamp embeddedTimestampInPacket p
    if seqnumOffset < p.pktLen then
      let identifier := p.word32 seqnumOffset.toNat
      { log with file := (log.file ++ toBytes 8 timestamp.toNat) ++ toBytes 4 identifier.toNat }
    else
      { log with cerr := log.cerr ++ ["Offset of sequence number greater than packet size\n"] }
  else log

/-- The loop over the bursts that `rte_eth_rx_burst` gives, on a file opened to append. -/
def msLogPkts (embeddedTimestampInPacket : Bool) (seqnumOffset : UInt32) (file : List UInt8)
    (bursts : List (List RxPkt)) : MsLog :=
  bursts.foldl (fun log rxPkts =>
    rxPkts.foldl (msLogPkt embeddedTimestampInPacket seqnumOffset) log) ⟨file, []⟩

def msRecord? (embeddedTimestampInPacket : Bool) (seqnumOffset : UInt32) (p : RxPkt) :
    Option Mscap :=
  if p.isLogged embeddedTimestampInPacket ∧ seqnumOffset < p.pktLen then
    some ⟨msTimestamp embeddedTimestampInPacket p, p.word32 seqnumOffset.toNat⟩
  else none

def msRecords (embeddedTimestampInPacket : Bool) (seqnumOffset : UInt32)
    (bursts : List (List RxPkt)) : List Mscap :=
  bursts.flatten.filterMap (msRecord? embeddedTimestampInPacket seqnumOffset)

theorem msLogPkt_file (embedded : Bool) (seqnumOffset : UInt32) (log : MsLog) (p : RxPkt) :
    (msLogPkt embedded seqnumOffset log p).file =
      log.file ++ (msRecord? embedded seqnumOffset p).toList.flatMap writeMscap := by
  unfold msLogPkt msRecord?
  by_cases hlogged : p.isLogged embedded
  · by_cases hinside : seqnumOffset < p.pktLen
    · simp [hlogged, hinside, writeMscap]
    · simp [hlogged, hinside]
  · simp [hlogged]

theorem msLogPkts_file (embedded : Bool) (seqnumOffset : UInt32) (file : List UInt8)
    (bursts : List (List RxPkt)) :
    (msLogPkts embedded seqnumOffset file bursts).file =
      file ++ (msRecords embedded seqnumOffset bursts).flatMap writeMscap := by
  rw [msLogPkts, ← List.foldl_flatten]
  exact foldl_appends MsLog.file (msRecord? embedded seqnumOffset) writeMscap
    (msLogPkt_file embedded seqnumOffset) ⟨file, []⟩ bursts.flatten

end MoonGen.Moonsniff

import Mathlib.Algebra.Order.BigOperators.Group.List
import Mathlib.Data.List.Forall2
import Mathlib.Data.List.Induction
import MoonGen.Lib.MappedFile
import MoonGen.Moonsniff.Capture

/-! # Capturing packets to a pcap file

The embedding of `pcap_log_pkts` in `moonsniff.cpp`, and a decoder for the format it
writes: a header of 24 bytes with the magic number of nanosecond captures, and then for
each packet a header of 16 bytes and the bytes that are kept of it.
-/

namespace MoonGen.Moonsniff

open Loop

/-! ## The format -/

structure PcapHdr where
  magicNumber : UInt32
  versionMajor : UInt16
  versionMinor : UInt16
  thiszone : Int32
  sigfigs : UInt32
  snaplen : UInt32
  network : UInt32
deriving Repr, DecidableEq

structure PcaprecHdr where
  tsSec : UInt32
  tsUsec : UInt32
  inclLen : UInt32
  origLen : UInt32
deriving Repr, DecidableEq

def PcapHdr.toBytes (h : PcapHdr) : List UInt8 :=
  Moonsniff.toBytes 4 h.magicNumber.toNat ++ (Moonsniff.toBytes 2 h.versionMajor.toNat ++
    (Moonsniff.toBytes 2 h.versionMinor.toNat ++ (Moonsniff.toBytes 4 h.thiszone.toUInt32.toNat ++
      (Moonsniff.toBytes 4 h.sigfigs.toNat ++ (Moonsniff.toBytes 4 h.snaplen.toNat ++
        Moonsniff.toBytes 4 h.network.toNat)))))

def PcaprecHdr.toBytes (h : PcaprecHdr) : List UInt8 :=
  Moonsniff.toBytes 4 h.tsSec.toNat ++ (Moonsniff.toBytes 4 h.tsUsec.toNat ++
    (Moonsniff.toBytes 4 h.inclLen.toNat ++ Moonsniff.toBytes 4 h.origLen.toNat))

def readUInt16 (bytes : List UInt8) : UInt16 × List UInt8 :=
  (.ofNat (ofBytes (bytes.take 2)), bytes.drop 2)

def readUInt32 (bytes : List UInt8) : UInt32 × List UInt8 :=
  (.ofNat (ofBytes (bytes.take 4)), bytes.drop 4)

theorem readUInt16_toBytes (n : UInt16) (rest : List UInt8) :
    readUInt16 (toBytes 2 n.toNat ++ rest) = (n, rest) := by
  have hword : ofBytes (toBytes 2 n.toNat) = n.toNat := ofBytes_toBytes n.toNat_lt
  rw [readUInt16, List.take_left' (toBytes_length 2 _), List.drop_left' (toBytes_length 2 _), hword,
    UInt16.ofNat_toNat]

theorem readUInt32_toBytes (n : UInt32) (rest : List UInt8) :
    readUInt32 (toBytes 4 n.toNat ++ rest) = (n, rest) := by
  have hword : ofBytes (toBytes 4 n.toNat) = n.toNat := ofBytes_toBytes n.toNat_lt
  rw [readUInt32, List.take_left' (toBytes_length 4 _), List.drop_left' (toBytes_length 4 _), hword,
    UInt32.ofNat_toNat]

def readPcapHdr (bytes : List UInt8) : PcapHdr × List UInt8 :=
  let (magicNumber, bytes) := readUInt32 bytes
  let (versionMajor, bytes) := readUInt16 bytes
  let (versionMinor, bytes) := readUInt16 bytes
  let (thiszone, bytes) := readUInt32 bytes
  let (sigfigs, bytes) := readUInt32 bytes
  let (snaplen, bytes) := readUInt32 bytes
  let (network, bytes) := readUInt32 bytes
  (⟨magicNumber, versionMajor, versionMinor, thiszone.toInt32, sigfigs, snaplen, network⟩, bytes)

def readPcaprecHdr (bytes : List UInt8) : PcaprecHdr × List UInt8 :=
  let (tsSec, bytes) := readUInt32 bytes
  let (tsUsec, bytes) := readUInt32 bytes
  let (inclLen, bytes) := readUInt32 bytes
  let (origLen, bytes) := readUInt32 bytes
  (⟨tsSec, tsUsec, inclLen, origLen⟩, bytes)

@[simp] theorem PcapHdr.toBytes_length (h : PcapHdr) : h.toBytes.length = 24 := by
  simp [PcapHdr.toBytes]

@[simp] theorem PcaprecHdr.toBytes_length (h : PcaprecHdr) : h.toBytes.length = 16 := by
  simp [PcaprecHdr.toBytes]

theorem readPcapHdr_toBytes (h : PcapHdr) (rest : List UInt8) :
    readPcapHdr (h.toBytes ++ rest) = (h, rest) := by
  simp only [readPcapHdr, PcapHdr.toBytes, List.append_assoc, readUInt32_toBytes,
    readUInt16_toBytes, Int32.toInt32_toUInt32]

theorem readPcaprecHdr_toBytes (h : PcaprecHdr) (rest : List UInt8) :
    readPcaprecHdr (h.toBytes ++ rest) = (h, rest) := by
  simp only [readPcaprecHdr, PcaprecHdr.toBytes, List.append_assoc, readUInt32_toBytes]

theorem readPcaprecHdr_rest (bytes : List UInt8) : (readPcaprecHdr bytes).2 = bytes.drop 16 := by
  simp only [readPcaprecHdr, readUInt32, List.drop_drop]

theorem readPcapHdr_rest (bytes : List UInt8) : (readPcapHdr bytes).2 = bytes.drop 24 := by
  simp only [readPcapHdr, readUInt32, readUInt16, List.drop_drop]

structure PcapRecord where
  hdr : PcaprecHdr
  data : List UInt8
  complete : data.length = hdr.inclLen.toNat
deriving Repr, DecidableEq

namespace PcapRecord

def toBytes (r : PcapRecord) : List UInt8 := r.hdr.toBytes ++ r.data

@[simp] theorem toBytes_length (r : PcapRecord) : r.toBytes.length = 16 + r.hdr.inclLen.toNat := by
  rw [toBytes, List.length_append, PcaprecHdr.toBytes_length, r.complete]

end PcapRecord

/-- Records up to the end of the bytes; a part of a record at the end is an error. Each
record uses up some bytes, so their number is fuel enough. -/
def decodeRecords : Nat → List UInt8 → Option (List PcapRecord)
  | 0, _ => none
  | fuel + 1, bytes =>
      if bytes = [] then some []
      else if bytes.length < 16 then none
      else
        let (hdr, rest) := readPcaprecHdr bytes
        if h : hdr.inclLen.toNat ≤ rest.length then
          (decodeRecords fuel (rest.drop hdr.inclLen.toNat)).map
            (⟨hdr, rest.take hdr.inclLen.toNat, List.length_take_of_le h⟩ :: ·)
        else none

def tcpdumpMagicNano : UInt32 := 0xA1B23C4D

def decodePcap (file : List UInt8) : Option (PcapHdr × List PcapRecord) :=
  if file.length < 24 then none
  else
    let (hdr, rest) := readPcapHdr file
    if hdr.magicNumber = tcpdumpMagicNano then
      (decodeRecords (rest.length + 1) rest).map (hdr, ·)
    else none

theorem decodeRecords_toBytes {fuel : Nat} {rs : List PcapRecord} (h : rs.length < fuel) :
    decodeRecords fuel (rs.flatMap PcapRecord.toBytes) = some rs := by
  induction fuel generalizing rs with
  | zero => exact absurd h (Nat.not_lt_zero _)
  | succ fuel ih =>
      cases rs with
      | nil => rfl
      | cons r rest =>
          have hlength : ¬ (r.toBytes ++ rest.flatMap PcapRecord.toBytes).length < 16 := by
            rw [List.length_append, PcapRecord.toBytes_length]
            omega
          have hne : r.toBytes ++ rest.flatMap PcapRecord.toBytes ≠ [] := by
            intro hnil
            rw [hnil] at hlength
            exact hlength (by decide)
          have hread : readPcaprecHdr (r.toBytes ++ rest.flatMap PcapRecord.toBytes) =
              (r.hdr, r.data ++ rest.flatMap PcapRecord.toBytes) := by
            rw [PcapRecord.toBytes, List.append_assoc, readPcaprecHdr_toBytes]
          have hfits : r.hdr.inclLen.toNat ≤
              (r.data ++ rest.flatMap PcapRecord.toBytes).length := by
            rw [List.length_append, r.complete]
            exact Nat.le_add_right _ _
          have htail := ih (Nat.lt_of_succ_lt_succ h)
          rw [List.flatMap_cons, decodeRecords, if_neg hne, if_neg hlength, hread]
          simp only [hfits, List.take_left' r.complete, List.drop_left' r.complete, dif_pos, htail,
            Option.map_some]

theorem length_le_toBytes (rs : List PcapRecord) :
    rs.length ≤ (rs.flatMap PcapRecord.toBytes).length := by
  induction rs with
  | nil => exact Nat.zero_le _
  | cons r rest ih =>
      rw [List.flatMap_cons, List.length_append, PcapRecord.toBytes_length, List.length_cons]
      omega

theorem decodeRecords_length {fuel : Nat} {bytes : List UInt8} {rs : List PcapRecord}
    (h : decodeRecords fuel bytes = some rs) :
    bytes.length = (rs.map fun r => 16 + r.hdr.inclLen.toNat).sum := by
  induction fuel generalizing bytes rs with
  | zero => cases h
  | succ fuel ih =>
      rw [decodeRecords] at h
      by_cases hnil : bytes = []
      · rw [if_pos hnil] at h
        cases h
        rw [hnil]
        rfl
      · rw [if_neg hnil] at h
        by_cases hshort : bytes.length < 16
        · rw [if_pos hshort] at h
          cases h
        · rw [if_neg hshort] at h
          dsimp only at h
          split at h
          next hfits =>
            obtain ⟨tail, htail, rfl⟩ := Option.map_eq_some_iff.mp h
            have hrest := ih htail
            rw [readPcaprecHdr_rest] at hfits hrest
            rw [List.length_drop, List.length_drop] at hrest
            rw [List.length_drop] at hfits
            simp only [List.map_cons, List.sum_cons]
            omega
          next => cases h

/-! ## `pcap_log_pkts` -/

structure PcapLog where
  file : MappedFile UInt8
  size : UInt64

/-- The variable `offset`, a word like `size`. -/
def PcapLog.offset (log : PcapLog) : UInt64 := UInt64.ofNat log.file.offset

def initialFileSize : UInt64 := 512 * 1024 * 1024

/-- The trailer of a packet is not captured. -/
def packetLengthAdjust (embeddedTimestampInPacket : Bool) : UInt32 :=
  if embeddedTimestampInPacket then 0 else 8

namespace RxPkt

def inclLen (embeddedTimestampInPacket : Bool) (snapLen : UInt32) (p : RxPkt) : UInt32 :=
  if p.pktLen - packetLengthAdjust embeddedTimestampInPacket < snapLen then
    p.pktLen - packetLengthAdjust embeddedTimestampInPacket
  else snapLen

def pcapLow (embeddedTimestampInPacket : Bool) (p : RxPkt) : UInt32 :=
  if embeddedTimestampInPacket then (p.timestamp % 1000000000).toUInt32 else p.trailerLow

def pcapHigh (embeddedTimestampInPacket : Bool) (p : RxPkt) : UInt32 :=
  if embeddedTimestampInPacket then (p.timestamp / 1000000000).toUInt32 else p.trailerHigh

end RxPkt

/-- `rechdr` and the captured bytes. -/
def pcapRecord (embeddedTimestampInPacket : Bool) (snapLen : UInt32) (p : RxPkt) : PcapRecord where
  hdr :=
    { tsSec := p.pcapHigh embeddedTimestampInPacket
      tsUsec := p.pcapLow embeddedTimestampInPacket
      inclLen := p.inclLen embeddedTimestampInPacket snapLen
      origLen := p.pktLen - packetLengthAdjust embeddedTimestampInPacket }
  data := p.bytes 0 (p.inclLen embeddedTimestampInPacket snapLen).toNat
  complete := p.bytes_length 0 _

/-- The advance of the offset behind a record, a sum of 32 bits. -/
def pcapAdvance (embeddedTimestampInPacket : Bool) (snapLen : UInt32) (p : RxPkt) : UInt32 :=
  p.inclLen embeddedTimestampInPacket snapLen + 16

theorem pcapAdvance_le (embedded : Bool) (snapLen : UInt32) (p : RxPkt) :
    (pcapAdvance embedded snapLen p).toNat ≤ (pcapRecord embedded snapLen p).toBytes.length := by
  have hsixteen : (16 : UInt32).toNat = 16 := rfl
  rw [PcapRecord.toBytes_length, pcapAdvance, UInt32.toNat_add, hsixteen, Nat.add_comm]
  exact Nat.mod_le _ _

/-- The growth step before a record, which doubles file and mapping at most once. -/
def PcapLog.makeRoom (log : PcapLog) (p : RxPkt) : PcapLog :=
  if log.offset + p.pktLen.toUInt64 + 8 ≥ log.size then
    ⟨log.file.grow 0 (2 * log.size).toNat, log.size * 2⟩
  else log

theorem PcapLog.advance_le (log : PcapLog) (embedded : Bool) (snapLen : UInt32) (p : RxPkt) :
    (log.offset + (pcapAdvance embedded snapLen p).toUInt64).toNat ≤
      log.file.offset + (pcapRecord embedded snapLen p).toBytes.length := by
  have hle := pcapAdvance_le embedded snapLen p
  rw [offset, UInt64.toNat_add, UInt64.toNat_ofNat', UInt32.toNat_toUInt64]
  omega

def pcapLogPkt (embeddedTimestampInPacket : Bool) (snapLen : UInt32) (log : PcapLog) (p : RxPkt) :
    PcapLog :=
  if p.isLogged embeddedTimestampInPacket then
    { log.makeRoom p with
      file := (log.makeRoom p).file.putTo (pcapRecord embeddedTimestampInPacket snapLen p).toBytes
        ((log.makeRoom p).offset + (pcapAdvance embeddedTimestampInPacket snapLen p).toUInt64).toNat
        ((log.makeRoom p).advance_le embeddedTimestampInPacket snapLen p) }
  else log

def pcapHdr (snapLen : UInt32) : PcapHdr := ⟨tcpdumpMagicNano, 2, 4, 0, 0, snapLen, 1⟩

def PcapLog.start (snapLen : UInt32) : PcapLog :=
  ⟨(MappedFile.create 0 initialFileSize.toNat).put (pcapHdr snapLen).toBytes, initialFileSize⟩

/-- The file left by a run over the bursts that `rte_eth_rx_burst` gives. -/
def pcapLogPkts (embeddedTimestampInPacket : Bool) (snapLen : UInt32)
    (bursts : List (List RxPkt)) : List UInt8 :=
  (bursts.foldl (fun log rxPkts =>
    rxPkts.foldl (pcapLogPkt embeddedTimestampInPacket snapLen) log)
      (PcapLog.start snapLen)).file.close

def captured (embeddedTimestampInPacket : Bool) (bursts : List (List RxPkt)) : List RxPkt :=
  bursts.flatten.filter (RxPkt.isLogged embeddedTimestampInPacket)

/-- What the closed file holds of the record of a packet. -/
def pcapChunk (embeddedTimestampInPacket : Bool) (snapLen : UInt32) (p : RxPkt) : List UInt8 :=
  (pcapRecord embeddedTimestampInPacket snapLen p).toBytes.take
    (pcapAdvance embeddedTimestampInPacket snapLen p).toNat

def pcapLogAfter (embeddedTimestampInPacket : Bool) (snapLen : UInt32) (pkts : List RxPkt) :
    PcapLog :=
  pkts.foldl (pcapLogPkt embeddedTimestampInPacket snapLen) (.start snapLen)

/-- Where the mapping is doubled, `ftruncate` succeeds: it takes a size of 63 bits. -/
def PcapLog.CanGrow (log : PcapLog) (p : RxPkt) : Prop :=
  log.size ≤ log.offset + p.pktLen.toUInt64 + 8 → 2 * log.size.toNat < 2 ^ 63

def Growable (embeddedTimestampInPacket : Bool) (snapLen : UInt32) (pkts : List RxPkt) : Prop :=
  ∀ before p after, pkts = before ++ p :: after →
    (pcapLogAfter embeddedTimestampInPacket snapLen before).CanGrow p

theorem pcapLogAfter_concat (embedded : Bool) (snapLen : UInt32) (pkts : List RxPkt) (p : RxPkt) :
    pcapLogAfter embedded snapLen (pkts ++ [p]) =
      pcapLogPkt embedded snapLen (pcapLogAfter embedded snapLen pkts) p := by
  simp [pcapLogAfter]

theorem pcapLogPkts_eq_close (embedded : Bool) (snapLen : UInt32) (bursts : List (List RxPkt)) :
    pcapLogPkts embedded snapLen bursts =
      (pcapLogAfter embedded snapLen (captured embedded bursts)).file.close := by
  have hskip (log : PcapLog) (pkts : List RxPkt) :
      pkts.foldl (pcapLogPkt embedded snapLen) log =
        (pkts.filter (RxPkt.isLogged embedded)).foldl (pcapLogPkt embedded snapLen) log := by
    induction pkts generalizing log with
    | nil => rfl
    | cons p rest ih =>
        cases hlogged : p.isLogged embedded with
        | true => rw [List.filter_cons_of_pos hlogged, List.foldl_cons, List.foldl_cons, ih]
        | false =>
            have hsame : pcapLogPkt embedded snapLen log p = log := by simp [pcapLogPkt, hlogged]
            rw [List.filter_cons_of_neg (by simp [hlogged]), List.foldl_cons, hsame, ih]
  rw [pcapLogPkts, ← List.foldl_flatten, hskip]
  rfl

/-! ## Offset and size as numbers -/

namespace PcapLog

variable {log : PcapLog} {p : RxPkt}

@[simp] theorem makeRoom_offset (log : PcapLog) (p : RxPkt) :
    (log.makeRoom p).file.offset = log.file.offset := by
  unfold makeRoom
  split <;> rfl

theorem makeRoom_close (log : PcapLog) (p : RxPkt) :
    (log.makeRoom p).file.close = log.file.close := by
  unfold makeRoom
  split
  · exact MappedFile.close_grow 0 _ log.file
  · rfl

/-- The mapping has 63 bits, and the offset is not far behind its end. A packet can be longer
than a small mapping, and the mapping is doubled only once for it: the multiple bounds the offset
then. -/
structure Sound (log : PcapLog) : Prop where
  large : 2 ^ 29 ≤ log.size.toNat
  small : log.size.toNat < 2 ^ 63
  near : log.file.offset ≤ log.size.toNat + 2 ^ 37
  scaled : log.file.offset ≤ 9 * log.size.toNat

theorem start_offset (snapLen : UInt32) : (start snapLen).file.offset = 24 := by
  rw [start, MappedFile.put_offset, PcapHdr.toBytes_length]
  rfl

theorem start_sound (snapLen : UInt32) : (start snapLen).Sound := by
  have hsize : (start snapLen).size.toNat = 2 ^ 29 := rfl
  refine ⟨?_, ?_, ?_, ?_⟩
  · rw [hsize]
  · rw [hsize]
    decide
  · rw [start_offset, hsize]
    decide
  · rw [start_offset, hsize]
    decide

theorem Sound.toNat_offset (h : log.Sound) : log.offset.toNat = log.file.offset := by
  have hnear := h.near
  have hsmall := h.small
  rw [offset, UInt64.toNat_ofNat']
  exact Nat.mod_eq_of_lt (by omega)

theorem Sound.grows_iff (h : log.Sound) (p : RxPkt) :
    log.size ≤ log.offset + p.pktLen.toUInt64 + 8 ↔
      log.size.toNat ≤ log.file.offset + p.pktLen.toNat + 8 := by
  have hnear := h.near
  have hsmall := h.small
  have hlen := p.pktLen.toNat_lt
  have height : (8 : UInt64).toNat = 8 := rfl
  rw [UInt64.le_iff_toNat_le, UInt64.toNat_add, UInt64.toNat_add, UInt32.toNat_toUInt64,
    h.toNat_offset, height]
  omega

theorem Sound.makeRoom_size (h : log.Sound) (hgrow : log.CanGrow p) :
    (log.makeRoom p).size.toNat =
      if log.size.toNat ≤ log.file.offset + p.pktLen.toNat + 8 then 2 * log.size.toNat
      else log.size.toNat := by
  have htwo : (2 : UInt64).toNat = 2 := rfl
  unfold makeRoom
  by_cases hfull : log.size ≤ log.offset + p.pktLen.toUInt64 + 8
  · have hfits := hgrow hfull
    rw [if_pos hfull, if_pos ((h.grows_iff p).mp hfull), UInt64.toNat_mul, htwo]
    omega
  · rw [if_neg hfull, if_neg (mt (h.grows_iff p).mpr hfull)]

theorem Sound.toNat_advance (h : log.Sound) (embedded : Bool) (snapLen : UInt32) (p : RxPkt) :
    ((log.makeRoom p).offset + (pcapAdvance embedded snapLen p).toUInt64).toNat =
      log.file.offset + (pcapAdvance embedded snapLen p).toNat := by
  have hnear := h.near
  have hsmall := h.small
  have hadvance := (pcapAdvance embedded snapLen p).toNat_lt
  rw [offset, makeRoom_offset, UInt64.toNat_add, UInt64.toNat_ofNat', UInt32.toNat_toUInt64]
  omega

theorem Sound.pcapLogPkt_offset (h : log.Sound) {embedded : Bool}
    (hlogged : p.isLogged embedded = true) (snapLen : UInt32) :
    (pcapLogPkt embedded snapLen log p).file.offset =
      log.file.offset + (pcapAdvance embedded snapLen p).toNat := by
  rw [pcapLogPkt, if_pos hlogged]
  exact h.toNat_advance embedded snapLen p

theorem pcapLogPkt_size {embedded : Bool} (hlogged : p.isLogged embedded = true)
    (snapLen : UInt32) (log : PcapLog) :
    (pcapLogPkt embedded snapLen log p).size = (log.makeRoom p).size := by
  rw [pcapLogPkt, if_pos hlogged]

theorem Sound.pcapLogPkt (h : log.Sound) {embedded : Bool} (hlogged : p.isLogged embedded = true)
    (hgrow : log.CanGrow p) (snapLen : UInt32) :
    (Moonsniff.pcapLogPkt embedded snapLen log p).Sound := by
  have hlarge := h.large
  have hsmall := h.small
  have hnear := h.near
  have hscaled := h.scaled
  have hadvance := (pcapAdvance embedded snapLen p).toNat_lt
  have hrecord := pcapAdvance_le embedded snapLen p
  have hsize := h.makeRoom_size hgrow
  have hfits := hgrow
  rw [CanGrow, h.grows_iff] at hfits
  rw [← pcapLogPkt_size hlogged snapLen log] at hsize
  have hoffset := h.pcapLogPkt_offset hlogged snapLen
  split at hsize
  next hfull =>
    have hbelow := hfits hfull
    refine ⟨?_, ?_, ?_, ?_⟩ <;> omega
  next => refine ⟨?_, ?_, ?_, ?_⟩ <;> omega

end PcapLog

theorem Growable.of_append {embedded : Bool} {snapLen : UInt32} {pkts more : List RxPkt}
    (h : Growable embedded snapLen (pkts ++ more)) : Growable embedded snapLen pkts := by
  rintro before p after rfl
  exact h before p (after ++ more) (by simp)

theorem pcapLogAfter_sound {embedded : Bool} {snapLen : UInt32} {pkts : List RxPkt}
    (hlogged : ∀ p ∈ pkts, p.isLogged embedded = true) (hgrow : Growable embedded snapLen pkts) :
    (pcapLogAfter embedded snapLen pkts).Sound := by
  induction pkts using List.reverseRecOn with
  | nil => exact PcapLog.start_sound snapLen
  | append_singleton pkts p ih =>
      have hbefore := ih (fun q hq => hlogged q (List.mem_append_left _ hq)) hgrow.of_append
      rw [pcapLogAfter_concat]
      exact hbefore.pcapLogPkt (hlogged p (by simp)) (hgrow pkts p [] rfl) snapLen

theorem pcapLogAfter_close {embedded : Bool} {snapLen : UInt32} {pkts : List RxPkt}
    (hlogged : ∀ p ∈ pkts, p.isLogged embedded = true) (hgrow : Growable embedded snapLen pkts) :
    (pcapLogAfter embedded snapLen pkts).file.close =
      (pcapHdr snapLen).toBytes ++ pkts.flatMap (pcapChunk embedded snapLen) := by
  induction pkts using List.reverseRecOn with
  | nil =>
      rw [List.flatMap_nil, List.append_nil]
      exact (MappedFile.close_put _ _).trans (List.nil_append _)
  | append_singleton pkts p ih =>
      have hlogged' := fun q hq => hlogged q (List.mem_append_left _ hq)
      have hsound := pcapLogAfter_sound hlogged' hgrow.of_append
      have hadvance := hsound.toNat_advance embedded snapLen p
      rw [← PcapLog.makeRoom_offset _ p] at hadvance
      rw [pcapLogAfter_concat, pcapLogPkt, if_pos (hlogged p (by simp)),
        MappedFile.close_putTo (pcapAdvance_le embedded snapLen p) hadvance, PcapLog.makeRoom_close,
        ih hlogged' hgrow.of_append, List.flatMap_append, List.flatMap_singleton, List.append_assoc,
        pcapChunk]

theorem mem_captured {embedded : Bool} {bursts : List (List RxPkt)} {p : RxPkt}
    (h : p ∈ captured embedded bursts) : p.isLogged embedded = true :=
  (List.mem_filter.mp h).2

theorem pcapLogPkts_eq {embedded : Bool} {snapLen : UInt32} {bursts : List (List RxPkt)}
    (hgrow : Growable embedded snapLen (captured embedded bursts)) :
    pcapLogPkts embedded snapLen bursts =
      (pcapHdr snapLen).toBytes ++
        (captured embedded bursts).flatMap (pcapChunk embedded snapLen) := by
  rw [pcapLogPkts_eq_close]
  exact pcapLogAfter_close (fun _ => mem_captured) hgrow

theorem PcapLog.size_pcapLogPkt_le (log : PcapLog) (embedded : Bool) (snapLen : UInt32)
    (p : RxPkt) : (Moonsniff.pcapLogPkt embedded snapLen log p).size.toNat ≤ log.size.toNat * 2 := by
  have hroom : (log.makeRoom p).size.toNat ≤ log.size.toNat * 2 := by
    unfold makeRoom
    split
    · exact UInt64.toNat_mul _ _ ▸ Nat.mod_le _ _
    · omega
  by_cases hlogged : p.isLogged embedded = true
  · rw [pcapLogPkt_size hlogged]
    exact hroom
  · rw [Moonsniff.pcapLogPkt, if_neg hlogged]
    omega

theorem size_pcapLogAfter_le (embedded : Bool) (snapLen : UInt32) (pkts : List RxPkt) :
    (pcapLogAfter embedded snapLen pkts).size.toNat ≤ 2 ^ 29 * 2 ^ pkts.length := by
  induction pkts using List.reverseRecOn with
  | nil => exact Nat.le_refl _
  | append_singleton pkts p ih =>
      have hstep := (pcapLogAfter embedded snapLen pkts).size_pcapLogPkt_le embedded snapLen p
      rw [pcapLogAfter_concat, List.length_append, List.length_singleton, Nat.pow_succ]
      omega

theorem growable_of_few {embedded : Bool} {snapLen : UInt32} {pkts : List RxPkt}
    (h : pkts.length ≤ 33) : Growable embedded snapLen pkts := by
  rintro before p after rfl _
  rw [List.length_append, List.length_cons] at h
  have hsize := size_pcapLogAfter_le embedded snapLen before
  have hpow : 2 ^ before.length ≤ 2 ^ 32 := Nat.pow_le_pow_right (by decide) (by omega)
  omega

/-! ## What the file says about the packets -/

def RxPkt.time (embeddedTimestampInPacket : Bool) (p : RxPkt) : Nat :=
  if embeddedTimestampInPacket then p.timestamp.toNat
  else p.trailerHigh.toNat * 10 ^ 9 + p.trailerLow.toNat

/-- The length of a packet without its trailer. -/
def RxPkt.origLen (embeddedTimestampInPacket : Bool) (p : RxPkt) : Nat :=
  p.pktLen.toNat - if embeddedTimestampInPacket then 0 else 8

structure Faithful (embeddedTimestampInPacket : Bool) (snapLen : UInt32) (p : RxPkt)
    (r : PcapRecord) : Prop where
  origLen : r.hdr.origLen.toNat = p.origLen embeddedTimestampInPacket
  inclLen : r.hdr.inclLen.toNat = min (p.origLen embeddedTimestampInPacket) snapLen.toNat
  data : r.data = p.bytes 0 r.hdr.inclLen.toNat
  time : r.hdr.tsSec.toNat * 10 ^ 9 + r.hdr.tsUsec.toNat = p.time embeddedTimestampInPacket
  trailer : embeddedTimestampInPacket = false →
    r.hdr.tsSec = p.trailerHigh ∧ r.hdr.tsUsec = p.trailerLow
  nanoseconds : embeddedTimestampInPacket = true → r.hdr.tsUsec.toNat < 10 ^ 9

/-- A packet with room for the trailer, received before the seconds overflow. -/
structure RxPkt.Capturable (embeddedTimestampInPacket : Bool) (p : RxPkt) : Prop where
  length : 8 ≤ p.pktLen.toNat
  time : p.time embeddedTimestampInPacket < 2 ^ 32 * 10 ^ 9

theorem RxPkt.toNat_pktLen_sub (embedded : Bool) {p : RxPkt} (h : 8 ≤ p.pktLen.toNat) :
    (p.pktLen - packetLengthAdjust embedded).toNat = p.origLen embedded := by
  have hadjust : (packetLengthAdjust embedded).toNat = if embedded then 0 else 8 := by
    cases embedded with
    | true => rfl
    | false => rfl
  have hle : packetLengthAdjust embedded ≤ p.pktLen := by
    rw [UInt32.le_iff_toNat_le, hadjust]
    split
    · exact Nat.zero_le _
    · exact h
  rw [UInt32.toNat_sub_of_le _ _ hle, hadjust, origLen]

theorem RxPkt.toNat_inclLen (embedded : Bool) {p : RxPkt} (h : 8 ≤ p.pktLen.toNat)
    (snapLen : UInt32) :
    (p.inclLen embedded snapLen).toNat = min (p.origLen embedded) snapLen.toNat := by
  have horig := toNat_pktLen_sub embedded h
  unfold inclLen
  split
  next hlt =>
    rw [UInt32.lt_iff_toNat_lt, horig] at hlt
    rw [horig, Nat.min_eq_left hlt.le]
  next hge =>
    rw [UInt32.lt_iff_toNat_lt, horig] at hge
    rw [Nat.min_eq_right (Nat.not_lt.mp hge)]

theorem RxPkt.toNat_pcapLow (p : RxPkt) :
    (p.pcapLow true).toNat = p.timestamp.toNat % 10 ^ 9 := by
  rw [pcapLow, if_pos rfl, UInt64.toNat_toUInt32, UInt64.toNat_mod]
  exact Nat.mod_eq_of_lt (Nat.lt_trans (Nat.mod_lt _ (by decide)) (by decide))

theorem RxPkt.pcap_time {embedded : Bool} {p : RxPkt} (h : p.Capturable embedded) :
    (p.pcapHigh embedded).toNat * 10 ^ 9 + (p.pcapLow embedded).toNat = p.time embedded := by
  have htime := h.time
  cases embedded with
  | false => rfl
  | true =>
      have hhigh : (p.pcapHigh true).toNat = p.timestamp.toNat / 10 ^ 9 := by
        rw [pcapHigh, if_pos rfl, UInt64.toNat_toUInt32, UInt64.toNat_div]
        exact Nat.mod_eq_of_lt (Nat.div_lt_of_lt_mul (Nat.mul_comm _ _ ▸ htime))
      rw [hhigh, toNat_pcapLow, time, if_pos rfl]
      exact Nat.div_add_mod' _ _

theorem faithful_pcapRecord {embedded : Bool} {p : RxPkt} (h : p.Capturable embedded)
    (snapLen : UInt32) : Faithful embedded snapLen p (pcapRecord embedded snapLen p) where
  origLen := RxPkt.toNat_pktLen_sub embedded h.length
  inclLen := RxPkt.toNat_inclLen embedded h.length snapLen
  data := rfl
  time := RxPkt.pcap_time h
  trailer := by
    rintro rfl
    exact ⟨rfl, rfl⟩
  nanoseconds := by
    rintro rfl
    exact p.toNat_pcapLow ▸ Nat.mod_lt _ (by decide)

/-- The file decodes to one faithful record for each captured packet, in order. -/
def PcapFaithful (embeddedTimestampInPacket : Bool) (snapLen : UInt32)
    (bursts : List (List RxPkt)) : Prop :=
  ∃ records, decodePcap (pcapLogPkts embeddedTimestampInPacket snapLen bursts) =
      some (pcapHdr snapLen, records) ∧
    List.Forall₂ (Faithful embeddedTimestampInPacket snapLen)
      (captured embeddedTimestampInPacket bursts) records

theorem toNat_pcapAdvance_iff {embedded : Bool} {p : RxPkt} (h : 8 ≤ p.pktLen.toNat)
    (snapLen : UInt32) :
    (pcapAdvance embedded snapLen p).toNat = 16 + min (p.origLen embedded) snapLen.toNat ↔
      min (p.origLen embedded) snapLen.toNat + 16 < 2 ^ 32 := by
  have hincl := RxPkt.toNat_inclLen embedded h snapLen
  have hsixteen : (16 : UInt32).toNat = 16 := rfl
  rw [pcapAdvance, UInt32.toNat_add, hsixteen, hincl]
  omega

theorem decodePcap_length {file : List UInt8} {hdr : PcapHdr} {records : List PcapRecord}
    (h : decodePcap file = some (hdr, records)) :
    file.length = 24 + (records.map fun r => 16 + r.hdr.inclLen.toNat).sum := by
  unfold decodePcap at h
  by_cases hshort : file.length < 24
  · rw [if_pos hshort] at h
    cases h
  · rw [if_neg hshort] at h
    dsimp only at h
    split at h
    · obtain ⟨rs, hrs, heq⟩ := Option.map_eq_some_iff.mp h
      cases heq
      have hlength := decodeRecords_length hrs
      rw [readPcapHdr_rest, List.length_drop] at hlength
      omega
    · cases h

theorem pcapChunk_length (embedded : Bool) (snapLen : UInt32) (p : RxPkt) :
    (pcapChunk embedded snapLen p).length = (pcapAdvance embedded snapLen p).toNat :=
  List.length_take_of_le (pcapAdvance_le embedded snapLen p)

theorem eq_of_sum_eq {α : Type} {f g : α → Nat} {as : List α} (hle : ∀ a ∈ as, f a ≤ g a)
    (hsum : (as.map f).sum = (as.map g).sum) : ∀ a ∈ as, f a = g a := by
  induction as with
  | nil => simp
  | cons a rest ih =>
      have hhead := hle a List.mem_cons_self
      have htail : (rest.map f).sum ≤ (rest.map g).sum :=
        List.sum_le_sum fun b hb => hle b (List.mem_cons_of_mem a hb)
      simp only [List.map_cons, List.sum_cons] at hsum
      have hrest := ih (fun b hb => hle b (List.mem_cons_of_mem a hb)) (by omega)
      intro b hb
      rcases List.mem_cons.mp hb with rfl | hb
      · omega
      · exact hrest b hb

theorem Faithful.map_inclLen {embedded : Bool} {snapLen : UInt32} {pkts : List RxPkt}
    {records : List PcapRecord} (h : List.Forall₂ (Faithful embedded snapLen) pkts records) :
    (records.map fun r => 16 + r.hdr.inclLen.toNat) =
      pkts.map fun p => 16 + min (p.origLen embedded) snapLen.toNat := by
  induction h with
  | nil => rfl
  | cons hhead _ ih => rw [List.map_cons, List.map_cons, hhead.inclLen, ih]

/-- An advance that wraps makes the file too short for its records. -/
theorem PcapFaithful.noWrap {embedded : Bool} {snapLen : UInt32} {bursts : List (List RxPkt)}
    (h : PcapFaithful embedded snapLen bursts)
    (hpkts : ∀ p ∈ captured embedded bursts, p.Capturable embedded)
    (hgrow : Growable embedded snapLen (captured embedded bursts)) :
    ∀ p ∈ captured embedded bursts, min (p.origLen embedded) snapLen.toNat + 16 < 2 ^ 32 := by
  obtain ⟨records, hdecode, hall⟩ := h
  have hlength := decodePcap_length hdecode
  rw [pcapLogPkts_eq hgrow, List.length_append, PcapHdr.toBytes_length, List.length_flatMap,
    Faithful.map_inclLen hall] at hlength
  simp only [pcapChunk_length] at hlength
  have hle : ∀ p ∈ captured embedded bursts, (pcapAdvance embedded snapLen p).toNat ≤
      16 + min (p.origLen embedded) snapLen.toNat := by
    intro p hp
    have hadvance := pcapAdvance_le embedded snapLen p
    rw [PcapRecord.toBytes_length] at hadvance
    rw [← RxPkt.toNat_inclLen embedded (hpkts p hp).length]
    exact hadvance
  intro p hp
  rw [← toNat_pcapAdvance_iff (hpkts p hp).length]
  exact eq_of_sum_eq hle (Nat.add_left_cancel hlength) p hp

theorem pcapFaithful_of_noWrap {embedded : Bool} {snapLen : UInt32} {bursts : List (List RxPkt)}
    (hpkts : ∀ p ∈ captured embedded bursts, p.Capturable embedded)
    (hgrow : Growable embedded snapLen (captured embedded bursts))
    (hwrap : ∀ p ∈ captured embedded bursts,
      min (p.origLen embedded) snapLen.toNat + 16 < 2 ^ 32) :
    PcapFaithful embedded snapLen bursts := by
  have hchunk : ∀ p ∈ captured embedded bursts,
      pcapChunk embedded snapLen p = (pcapRecord embedded snapLen p).toBytes := by
    intro p hp
    have hadvance := (toNat_pcapAdvance_iff (hpkts p hp).length snapLen).mpr (hwrap p hp)
    rw [← RxPkt.toNat_inclLen embedded (hpkts p hp).length] at hadvance
    rw [pcapChunk, hadvance]
    exact List.take_of_length_le (PcapRecord.toBytes_length _).le
  have hfile : pcapLogPkts embedded snapLen bursts = (pcapHdr snapLen).toBytes ++
      ((captured embedded bursts).map (pcapRecord embedded snapLen)).flatMap
        PcapRecord.toBytes := by
    rw [pcapLogPkts_eq hgrow, List.flatMap_map]
    exact congrArg _ (List.flatMap_congr hchunk)
  refine ⟨(captured embedded bursts).map (pcapRecord embedded snapLen), ?_, ?_⟩
  · have hlong : ¬ (pcapLogPkts embedded snapLen bursts).length < 24 := by
      rw [hfile, List.length_append, PcapHdr.toBytes_length]
      exact Nat.not_lt.mpr (Nat.le_add_right _ _)
    have hmagic : (pcapHdr snapLen).magicNumber = tcpdumpMagicNano := rfl
    rw [decodePcap, if_neg hlong, hfile, readPcapHdr_toBytes]
    simp only [hmagic, if_true]
    rw [decodeRecords_toBytes (Nat.lt_succ_of_le (length_le_toBytes _)), Option.map_some]
  · rw [List.forall₂_map_right_iff]
    exact List.forall₂_same.mpr fun p hp => faithful_pcapRecord (hpkts p hp) snapLen

/-- A capture whose records all land in the file tells the truth about its packets exactly when
no captured length is within 16 of the end of 32 bits. -/
theorem pcap_faithful_iff (embedded : Bool) (snapLen : UInt32) (bursts : List (List RxPkt))
    (hpkts : ∀ p ∈ captured embedded bursts, p.Capturable embedded)
    (hgrow : Growable embedded snapLen (captured embedded bursts)) :
    PcapFaithful embedded snapLen bursts ↔
      ∀ p ∈ captured embedded bursts, min (p.origLen embedded) snapLen.toNat + 16 < 2 ^ 32 :=
  ⟨fun h => h.noWrap hpkts hgrow, pcapFaithful_of_noWrap hpkts hgrow⟩

def filledPkt (pktLen : UInt32) (timestamp : UInt64) : RxPkt :=
  ⟨pktLen, timestamp, true, fun _ => 7⟩

theorem pcap_faithful_trailer :
    (∀ p ∈ captured false [[filledPkt 72 0], [filledPkt 1508 0]], p.Capturable false) ∧
      Growable false 64 (captured false [[filledPkt 72 0], [filledPkt 1508 0]]) ∧
      PcapFaithful false 64 [[filledPkt 72 0], [filledPkt 1508 0]] := by
  have hpkts : ∀ p ∈ captured false [[filledPkt 72 0], [filledPkt 1508 0]], p.Capturable false := by
    intro p hp
    have hmem : p = filledPkt 72 0 ∨ p = filledPkt 1508 0 := by
      simpa [captured, RxPkt.isLogged, filledPkt] using hp
    rcases hmem with rfl | rfl
    · exact ⟨by decide, by decide⟩
    · exact ⟨by decide, by decide⟩
  have hgrow : Growable false 64 (captured false [[filledPkt 72 0], [filledPkt 1508 0]]) :=
    growable_of_few (List.length_filter_le _ _ |>.trans (by decide))
  refine ⟨hpkts, hgrow, (pcap_faithful_iff false 64 _ hpkts hgrow).mpr ?_⟩
  intro p _
  have hsnap : (64 : UInt32).toNat = 64 := rfl
  rw [hsnap]
  omega

/-- A packet of the largest length that a buffer can have, captured as a whole, moves the
offset by 15 bytes. -/
theorem pcap_largest_packet_wraps :
    (∀ p ∈ captured true [[filledPkt 4294967295 0]], p.Capturable true) ∧
      Growable true 4294967295 (captured true [[filledPkt 4294967295 0]]) ∧
      ¬ PcapFaithful true 4294967295 [[filledPkt 4294967295 0]] := by
  have hcaptured : captured true [[filledPkt 4294967295 0]] = [filledPkt 4294967295 0] := rfl
  have hpkts : ∀ p ∈ captured true [[filledPkt 4294967295 0]], p.Capturable true := by
    intro p hp
    rw [hcaptured, List.mem_singleton] at hp
    subst hp
    exact ⟨by decide, by decide⟩
  have hgrow : Growable true 4294967295 (captured true [[filledPkt 4294967295 0]]) :=
    growable_of_few (List.length_filter_le _ _ |>.trans (by decide))
  refine ⟨hpkts, hgrow, ?_⟩
  intro h
  have hmem : filledPkt 4294967295 0 ∈ captured true [[filledPkt 4294967295 0]] := by
    rw [hcaptured]
    exact List.mem_singleton_self _
  have hwrap := h.noWrap hpkts hgrow _ hmem
  exact absurd hwrap (by decide)

end MoonGen.Moonsniff

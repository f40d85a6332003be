import MoonGen.Moonsniff.Pcap

/-! # Writes of the pcap capture and the size of its mapping

Before a record `pcap_log_pkts` compares `offset + pkt_len + 8` with the size of the
mapping and doubles the mapping where it seems too small. A record takes 16 bytes and
the captured part of the packet. Without the trailer that is at most `pkt_len + 8`;
where the timestamp is not in the packet it can be 8 bytes more.
-/

namespace MoonGen.Moonsniff

/-- The record of a packet lies inside the mapping, after the growth step. -/
def PcapLog.WritesInside (embeddedTimestampInPacket : Bool) (snapLen : UInt32) (log : PcapLog)
    (p : RxPkt) : Prop :=
  (log.makeRoom p).offset.toNat + 16 + (p.inclLen embeddedTimestampInPacket snapLen).toNat ≤
    (log.makeRoom p).size.toNat

/-- The growth test passes and the record is still longer than what is left. -/
def PcapLog.Overlooked (embeddedTimestampInPacket : Bool) (snapLen : UInt32) (log : PcapLog)
    (p : RxPkt) : Prop :=
  log.offset.toNat + p.pktLen.toNat + 8 < log.size.toNat ∧
    log.size.toNat < log.offset.toNat + 16 + (p.inclLen embeddedTimestampInPacket snapLen).toNat

/-- The lengths of packets that the capture is meant for. -/
def RxPkt.Ordinary (p : RxPkt) : Prop := 8 ≤ p.pktLen.toNat ∧ p.pktLen.toNat ≤ 2 ^ 16

instance (p : RxPkt) : Decidable p.Ordinary := inferInstanceAs (Decidable (_ ∧ _))

/-! ## One record -/

namespace RxPkt.Ordinary

variable {p : RxPkt} (h : p.Ordinary)

include h

theorem inclLen_le (embedded : Bool) (snapLen : UInt32) :
    (p.inclLen embedded snapLen).toNat ≤ p.pktLen.toNat - (if embedded then 0 else 8) := by
  rw [RxPkt.toNat_inclLen embedded h.1, RxPkt.origLen]
  exact Nat.min_le_left _ _

theorem toNat_pcapAdvance (embedded : Bool) (snapLen : UInt32) :
    (pcapAdvance embedded snapLen p).toNat = 16 + (p.inclLen embedded snapLen).toNat := by
  have hle := h.inclLen_le embedded snapLen
  have hlong := h.2
  have hsixteen : (16 : UInt32).toNat = 16 := rfl
  rw [pcapAdvance, UInt32.toNat_add, hsixteen]
  omega

end RxPkt.Ordinary

/-! ## Runs -/

/-- For ordinary packets the offset is at most eight bytes behind the mapping. -/
structure PcapLog.Mapped (log : PcapLog) : Prop extends log.Sound where
  offset_le : log.file.offset ≤ log.size.toNat + 8

theorem PcapLog.start_mapped (snapLen : UInt32) : (start snapLen).Mapped := by
  refine ⟨start_sound snapLen, ?_⟩
  rw [start_offset]
  exact (by decide : 24 ≤ initialFileSize.toNat + 8)

theorem PcapLog.Mapped.pcapLogPkt {log : PcapLog} (h : log.Mapped) {embedded : Bool} {p : RxPkt}
    (hlogged : p.isLogged embedded = true) (hp : p.Ordinary) (hgrow : log.CanGrow p)
    (snapLen : UInt32) : (Moonsniff.pcapLogPkt embedded snapLen log p).Mapped := by
  refine ⟨h.toSound.pcapLogPkt hlogged hgrow snapLen, ?_⟩
  have hincl := hp.inclLen_le embedded snapLen
  have hlong := hp.2
  have hoffset := h.offset_le
  have hlarge := h.large
  rw [h.toSound.pcapLogPkt_offset hlogged, pcapLogPkt_size hlogged, h.toSound.makeRoom_size hgrow,
    hp.toNat_pcapAdvance]
  split <;> omega

theorem pcapLogAfter_mapped {embedded : Bool} {snapLen : UInt32} {pkts : List RxPkt}
    (h : ∀ p ∈ pkts, p.isLogged embedded = true ∧ p.Ordinary)
    (hgrow : Growable embedded snapLen pkts) : (pcapLogAfter embedded snapLen pkts).Mapped := by
  induction pkts using List.reverseRecOn with
  | nil => exact PcapLog.start_mapped snapLen
  | append_singleton pkts p ih =>
      have hbefore := ih (fun q hq => h q (List.mem_append_left _ hq)) hgrow.of_append
      have hp := h p (by simp)
      rw [pcapLogAfter_concat]
      exact hbefore.pcapLogPkt hp.1 hp.2 (hgrow pkts p [] rfl) snapLen

/-- A grown mapping has room for any record, and a record without the trailer fits
wherever the growth test says so. -/
theorem PcapLog.Mapped.writesInside_iff {log : PcapLog} (h : log.Mapped) {p : RxPkt}
    (hp : p.Ordinary) (hgrow : log.CanGrow p) (embedded : Bool) (snapLen : UInt32) :
    log.WritesInside embedded snapLen p ↔
      (embedded = true → ¬ log.Overlooked embedded snapLen p) := by
  have hincl := hp.inclLen_le embedded snapLen
  have hlengths := hp
  unfold RxPkt.Ordinary at hlengths
  have hoffset := h.offset_le
  have hlarge := h.large
  have hroom : (log.makeRoom p).offset = log.offset := by rw [offset, makeRoom_offset, offset]
  unfold WritesInside Overlooked
  rw [hroom, h.toSound.toNat_offset, h.toSound.makeRoom_size hgrow]
  cases embedded with
  | true =>
      simp only [if_true] at hincl
      simp only [forall_const]
      split <;> omega
  | false =>
      simp only [Bool.false_eq_true, if_false] at hincl
      simp only [Bool.false_eq_true, IsEmpty.forall_iff, iff_true]
      split <;> omega

/-- Every record of a run lies inside the mapping exactly when no record is written
where the growth test passes with less room than the record takes, in the mode that
captures the whole packet. -/
theorem pcap_writes_inside_iff (embedded : Bool) (snapLen : UInt32) (bursts : List (List RxPkt))
    (hpkts : ∀ p ∈ captured embedded bursts, p.Ordinary)
    (hgrow : Growable embedded snapLen (captured embedded bursts)) :
    (∀ before p after, captured embedded bursts = before ++ p :: after →
        (pcapLogAfter embedded snapLen before).WritesInside embedded snapLen p) ↔
      (embedded = true → ∀ before p after, captured embedded bursts = before ++ p :: after →
        ¬ (pcapLogAfter embedded snapLen before).Overlooked embedded snapLen p) := by
  have hrecord (before : List RxPkt) (p : RxPkt) (after : List RxPkt)
      (hsplit : captured embedded bursts = before ++ p :: after) :
      (pcapLogAfter embedded snapLen before).WritesInside embedded snapLen p ↔
        (embedded = true → ¬ (pcapLogAfter embedded snapLen before).Overlooked embedded snapLen p) := by
    have hmem : ∀ q ∈ before ++ p :: after, q.isLogged embedded = true ∧ q.Ordinary := by
      intro q hq
      rw [← hsplit] at hq
      exact ⟨mem_captured hq, hpkts q hq⟩
    have hgrown := hgrow
    rw [hsplit] at hgrown
    have hmapped : (pcapLogAfter embedded snapLen before).Mapped :=
      pcapLogAfter_mapped (fun q hq => hmem q (List.mem_append_left _ hq)) hgrown.of_append
    exact hmapped.writesInside_iff (hmem p (by simp)).2 (hgrow before p after hsplit) embedded snapLen
  constructor
  · intro h hmode before p after hsplit
    exact (hrecord before p after hsplit).mp (h before p after hsplit) hmode
  · intro h before p after hsplit
    apply (hrecord before p after hsplit).mpr
    intro hmode
    exact h hmode before p after hsplit

theorem pcap_writes_inside_trailer :
    (∀ p ∈ captured false [[filledPkt 72 0], [filledPkt 1508 0]], p.Ordinary) ∧
      Growable false 64 (captured false [[filledPkt 72 0], [filledPkt 1508 0]]) ∧
      ∀ before p after, captured false [[filledPkt 72 0], [filledPkt 1508 0]] = before ++ p :: after →
        (pcapLogAfter false 64 before).WritesInside false 64 p := by
  have hpkts : ∀ p ∈ captured false [[filledPkt 72 0], [filledPkt 1508 0]], p.Ordinary := by
    intro p hp
    have hmem : p = filledPkt 72 0 ∨ p = filledPkt 1508 0 := by
      simpa [captured, RxPkt.isLogged, filledPkt] using hp
    rcases hmem with rfl | rfl <;> decide
  have hgrow : Growable false 64 (captured false [[filledPkt 72 0], [filledPkt 1508 0]]) :=
    growable_of_few (List.length_filter_le _ _ |>.trans (by decide))
  refine ⟨hpkts, hgrow, (pcap_writes_inside_iff false 64 _ hpkts hgrow).mpr ?_⟩
  intro hmode
  cases hmode

/-! ## A record across the end of the mapping -/

theorem pcapLogAfter_replicate {p : RxPkt} (hp : p.Ordinary) {embedded : Bool}
    (hlogged : p.isLogged embedded = true) (snapLen : UInt32) (n : Nat)
    (hroom : 24 + n * (16 + p.pktLen.toNat) < initialFileSize.toNat) :
    (pcapLogAfter embedded snapLen (List.replicate n p)).Sound ∧
      (pcapLogAfter embedded snapLen (List.replicate n p)).file.offset =
        24 + n * (16 + (p.inclLen embedded snapLen).toNat) ∧
      (pcapLogAfter embedded snapLen (List.replicate n p)).size = initialFileSize := by
  have hincl := hp.inclLen_le embedded snapLen
  induction n with
  | zero =>
      refine ⟨PcapLog.start_sound snapLen, ?_, rfl⟩
      rw [Nat.zero_mul]
      exact PcapLog.start_offset snapLen
  | succ n ih =>
      rw [Nat.succ_mul] at hroom
      obtain ⟨hsound, hoffset, hsize⟩ := ih (by omega)
      have hmul : n * (16 + (p.inclLen embedded snapLen).toNat) ≤ n * (16 + p.pktLen.toNat) :=
        Nat.mul_le_mul_left n (by omega)
      have hfits : ¬ (pcapLogAfter embedded snapLen (List.replicate n p)).size ≤
          (pcapLogAfter embedded snapLen (List.replicate n p)).offset + p.pktLen.toUInt64 + 8 := by
        rw [hsound.grows_iff, hoffset, hsize]
        omega
      have hgrow : (pcapLogAfter embedded snapLen (List.replicate n p)).CanGrow p :=
        fun hfull => absurd hfull hfits
      rw [List.replicate_succ', pcapLogAfter_concat]
      refine ⟨hsound.pcapLogPkt hlogged hgrow snapLen, ?_, ?_⟩
      · rw [hsound.pcapLogPkt_offset hlogged, hoffset, hp.toNat_pcapAdvance, Nat.succ_mul]
        omega
      · rw [PcapLog.pcapLogPkt_size hlogged, PcapLog.makeRoom, if_neg hfits, hsize]

/-- Packets of 60 bytes, one in a burst, up to 124 bytes before the end of the mapping,
and one of 112 bytes behind them. -/
def endOfMapping : List (List RxPkt) :=
  List.replicate 7064089 [filledPkt 60 0] ++ [[filledPkt 112 0]]

theorem captured_endOfMapping :
    captured true endOfMapping = List.replicate 7064089 (filledPkt 60 0) ++ [filledPkt 112 0] := by
  have hall (pkts : List RxPkt) : pkts.filter (RxPkt.isLogged true) = pkts :=
    List.filter_eq_self.mpr fun _ _ => rfl
  rw [captured, hall, endOfMapping, List.flatten_append, List.flatten_replicate_singleton]
  rfl

theorem endOfMapping_before {k : Nat} (hk : k ≤ 7064089) :
    (pcapLogAfter true 65535 (List.replicate k (filledPkt 60 0))).Sound ∧
      (pcapLogAfter true 65535 (List.replicate k (filledPkt 60 0))).file.offset = 24 + k * 76 ∧
      (pcapLogAfter true 65535 (List.replicate k (filledPkt 60 0))).size = initialFileSize := by
  have hlength : (filledPkt 60 0).pktLen.toNat = 60 := rfl
  have hsize : initialFileSize.toNat = 536870912 := rfl
  have hshort : (filledPkt 60 0).Ordinary := by decide
  exact pcapLogAfter_replicate hshort rfl 65535 k (by rw [hlength, hsize]; omega)

theorem eq_replicate_of_split {α : Type} {n : Nat} {x y p : α} {before after : List α}
    (h : List.replicate n x ++ [y] = before ++ p :: after) :
    before.length ≤ n ∧ before = List.replicate before.length x := by
  have hlength := congrArg List.length h
  simp only [List.length_append, List.length_replicate, List.length_cons, List.length_nil]
    at hlength
  have hle : before.length ≤ n := by omega
  have htake : (List.replicate n x ++ [y]).take before.length = before := by
    rw [h, List.take_left]
  rw [List.take_append_of_le_length (by rw [List.length_replicate]; exact hle),
    List.take_replicate, Nat.min_eq_left hle] at htake
  exact ⟨hle, htake.symm⟩

theorem growable_endOfMapping : Growable true 65535 (captured true endOfMapping) := by
  intro before p after hsplit _
  rw [captured_endOfMapping] at hsplit
  obtain ⟨hle, hbefore⟩ := eq_replicate_of_split hsplit
  rw [hbefore, (endOfMapping_before hle).2.2]
  decide

/-- The last record ends four bytes behind the mapping. -/
theorem pcap_writes_outside :
    (∀ p ∈ captured true endOfMapping, p.Ordinary) ∧
      Growable true 65535 (captured true endOfMapping) ∧
      ∃ before p after, captured true endOfMapping = before ++ p :: after ∧
        ¬ (pcapLogAfter true 65535 before).WritesInside true 65535 p := by
  have hlast : (filledPkt 112 0).Ordinary := by decide
  refine ⟨?_, growable_endOfMapping, _, _, [], captured_endOfMapping, ?_⟩
  · intro p hp
    rw [captured_endOfMapping, List.mem_append, List.mem_singleton] at hp
    rcases hp with hp | hp
    · rw [List.eq_of_mem_replicate hp]
      decide
    · rw [hp]
      exact hlast
  · obtain ⟨hsound, hoffset, hsize⟩ := endOfMapping_before (Nat.le_refl 7064089)
    have hgrow := growable_endOfMapping _ _ [] captured_endOfMapping
    have hlengths : (filledPkt 112 0).pktLen.toNat = 112 ∧
        (RxPkt.inclLen true 65535 (filledPkt 112 0)).toNat = 112 := by decide
    have hmapped : (pcapLogAfter true 65535 (List.replicate 7064089 (filledPkt 60 0))).Mapped := by
      refine ⟨hsound, ?_⟩
      rw [hoffset, hsize]
      decide
    rw [hmapped.writesInside_iff hlast hgrow true 65535]
    intro h
    apply h rfl
    rw [PcapLog.Overlooked, hsound.toNat_offset, hoffset, hsize, hlengths.1, hlengths.2]
    decide

end MoonGen.Moonsniff

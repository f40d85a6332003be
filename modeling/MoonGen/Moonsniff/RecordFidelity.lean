import MoonGen.Moonsniff.Capture

/-! # What a logged record says about its packet

`ms_log_pkts` computes the timestamp of the trailer in 32 bits and tests only the
first of the four bytes of the identifier against the length of the packet. A record
is faithful exactly when neither of the two matters.
-/

namespace MoonGen.Moonsniff

namespace RxPkt

/-- The same packet, with other memory around its data. -/
def SameData (p q : RxPkt) : Prop :=
  p.pktLen = q.pktLen ∧ ∀ i : Nat, i < p.pktLen.toNat → p.data i = q.data i

/-- The word at an offset is taken from the data of the packet alone. -/
def FromData (p : RxPkt) (offset : Nat) : Prop :=
  ∀ q, p.SameData q → q.word32 offset = p.word32 offset

theorem word32_toNat (p : RxPkt) (offset : Int) :
    (p.word32 offset).toNat =
      (p.data offset).toNat + 256 * ((p.data (offset + 1)).toNat +
        256 * ((p.data (offset + 2)).toNat + 256 * (p.data (offset + 3)).toNat)) := by
  have h0 := (p.data offset).toNat_lt
  have h1 := (p.data (offset + 1)).toNat_lt
  have h2 := (p.data (offset + 2)).toNat_lt
  have h3 := (p.data (offset + 3)).toNat_lt
  have hbytes : ofBytes (p.bytes offset 4) =
      (p.data offset).toNat + 256 * ((p.data (offset + 1)).toNat +
        256 * ((p.data (offset + 2)).toNat + 256 * (p.data (offset + 3)).toNat)) := by
    simp [bytes, List.range_succ, ofBytes]
  rw [word32, UInt32.toNat_ofNat_of_lt', hbytes]
  rw [hbytes]
  simp only [UInt32.size]
  omega

theorem fromData_iff {p : RxPkt} {offset : Nat} (h : offset < p.pktLen.toNat) :
    p.FromData offset ↔ offset + 4 ≤ p.pktLen.toNat := by
  constructor
  · intro hfrom
    by_contra hshort
    -- the last byte lies behind the data, so another packet may differ there
    let q : RxPkt := { p with
      data := fun i => if i = (offset : Int) + 3 then p.data i + 1 else p.data i }
    have hsame : p.SameData q := by
      refine ⟨rfl, ?_⟩
      intro i hi
      have hne : ¬ (i : Int) = (offset : Int) + 3 := by omega
      simp only [q, if_neg hne]
    have hword := congrArg UInt32.toNat (hfrom q hsame)
    have hlast : (p.data ((offset : Int) + 3) + 1).toNat = (p.data ((offset : Int) + 3)).toNat := by
      have h0 : ¬ (offset : Int) = (offset : Int) + 3 := by omega
      have h1 : ¬ (offset : Int) + 1 = (offset : Int) + 3 := by omega
      have h2 : ¬ (offset : Int) + 2 = (offset : Int) + 3 := by omega
      simp only [word32_toNat, q, if_neg h0, if_neg h1, if_neg h2, if_true] at hword
      omega
    rw [UInt8.toNat_add] at hlast
    have hone : (1 : UInt8).toNat = 1 := rfl
    have hbyte := (p.data ((offset : Int) + 3)).toNat_lt
    omega
  · intro hlong q hsame
    have hbyte (k : Nat) (hk : k < 4) : q.data ((offset : Int) + k) = p.data ((offset : Int) + k) := by
      have heq := hsame.2 (offset + k) (by omega)
      rw [Int.natCast_add] at heq
      exact heq.symm
    unfold word32 bytes
    congr 2
    apply List.map_congr_left
    intro k hk
    exact hbyte k (List.mem_range.mp hk)

end RxPkt

theorem msTimestamp_trailer (p : RxPkt) :
    (msTimestamp false p).toNat =
      (p.trailerHigh.toNat * 1000000000 + p.trailerLow.toNat) % 2 ^ 32 := by
  have hfactor : (1000000000 : UInt32).toNat = 1000000000 := rfl
  simp only [msTimestamp, Bool.false_eq_true, if_false, UInt32.toNat_toUInt64, UInt32.toNat_add,
    UInt32.toNat_mul, hfactor, Nat.mod_add_mod]

theorem msRecord_eq_some {embedded : Bool} {seqnumOffset : UInt32} {p : RxPkt} {r : Mscap}
    (h : msRecord? embedded seqnumOffset p = some r) :
    seqnumOffset.toNat < p.pktLen.toNat ∧ r.timestamp = msTimestamp embedded p ∧
      r.identification = p.word32 seqnumOffset.toNat := by
  unfold msRecord? at h
  split at h
  · rename_i hlogged
    have hr := Option.some.inj h
    rw [← hr]
    exact ⟨UInt32.lt_iff_toNat_lt.mp hlogged.2, rfl, rfl⟩
  · cases h

/-- The record says what the packet says: the timestamp of the trailer, and an
identifier from the packet's data. -/
structure FaithfulRecord (embedded : Bool) (seqnumOffset : UInt32) (p : RxPkt) (r : Mscap) : Prop where
  timestamp_eq : embedded = false → p.trailerLow.toNat < 1000000000 →
    r.timestamp.toNat = p.trailerHigh.toNat * 1000000000 + p.trailerLow.toNat
  identifier_eq : r.identification = p.word32 seqnumOffset.toNat
  fromData : p.FromData seqnumOffset.toNat

/-- A record is faithful exactly when the trailer's time fits in 32 bits and the
packet holds all four bytes of the identifier. -/
theorem msRecord_faithful_iff (embedded : Bool) (seqnumOffset : UInt32) (p : RxPkt) (r : Mscap)
    (h : msRecord? embedded seqnumOffset p = some r) :
    FaithfulRecord embedded seqnumOffset p r ↔
      (embedded = false → p.trailerLow.toNat < 1000000000 →
          p.trailerHigh.toNat * 1000000000 + p.trailerLow.toNat < 2 ^ 32) ∧
        seqnumOffset.toNat + 4 ≤ p.pktLen.toNat := by
  have hr := msRecord_eq_some h
  have hinside := RxPkt.fromData_iff hr.1
  have htime : embedded = false → r.timestamp.toNat =
      (p.trailerHigh.toNat * 1000000000 + p.trailerLow.toNat) % 2 ^ 32 := by
    intro hmode
    rw [hr.2.1, hmode, msTimestamp_trailer]
  constructor
  · intro hfaithful
    constructor
    · intro hmode hlow
      have heq := hfaithful.timestamp_eq hmode hlow
      rw [htime hmode] at heq
      omega
    · exact hinside.mp hfaithful.fromData
  · intro hholds
    constructor
    · intro hmode hlow
      have hlt := hholds.1 hmode hlow
      rw [htime hmode, Nat.mod_eq_of_lt hlt]
    · exact hr.2.2
    · exact hinside.mpr hholds.2

def trailerPkt (pktLen high low : UInt32) : RxPkt :=
  ⟨pktLen, 0, true, fun i =>
    if i < pktLen.toNat - 8 then 0
    else (toBytes 4 low.toNat ++ toBytes 4 high.toNat).getD (i - (pktLen.toNat - 8)).toNat 0⟩

/-- Five seconds are logged as 705032704 ns, and an identifier is taken from the last
two bytes of a packet and the two behind it. -/
theorem msRecord_unfaithful :
    (trailerPkt 64 5 0).trailerHigh = 5 ∧ (trailerPkt 64 5 0).trailerLow = 0 ∧
      msRecord? false 42 (trailerPkt 64 5 0) = some ⟨705032704, 0⟩ ∧
      msRecord? true 62 (trailerPkt 64 5 0) = some ⟨0, 0⟩ ∧
      ¬ (trailerPkt 64 5 0).FromData 62 := by
  have hinside := RxPkt.fromData_iff (by decide : 62 < (trailerPkt 64 5 0).pktLen.toNat)
  rw [hinside]
  decide

theorem msRecord_faithful_four_seconds :
    msRecord? false 42 (trailerPkt 64 4 294967295) = some ⟨4294967295, 0⟩ ∧
      FaithfulRecord false 42 (trailerPkt 64 4 294967295) ⟨4294967295, 0⟩ := by
  have hrecord : msRecord? false 42 (trailerPkt 64 4 294967295) = some ⟨4294967295, 0⟩ := by decide
  exact ⟨hrecord, (msRecord_faithful_iff false 42 _ _ hrecord).mpr (by decide)⟩

end MoonGen.Moonsniff

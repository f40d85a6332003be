import Mathlib.Data.Rat.Floor
import Mathlib.Tactic.FieldSimp
import Mathlib.Tactic.Linarith
import Mathlib.Tactic.Ring
import MoonGen.Lib.Words
import MoonGen.RateControl.GapDecomposition

/-! # The delay for a requested packet rate

`pkt:setRate` turns a rate into the delay before the packet: the bytes of the line per
packet, without those of the packet. The script computes with numbers that have a sign and
a fraction, and the field is an unsigned word. Lua numbers are exact here.
-/

namespace MoonGen

open RateLimiterCRC

namespace Mbuf

/-- The rate is in Mpps and the line rate in Gbit/s. -/
def setRate (pkt : Mbuf) (rate : Rat) (lineRate : Option Rat) : Mbuf :=
  let lineRate := lineRate.getD 10
  pkt.setTimestampDynfield
    (numberToUint64 (lineRate * 1000000000 / 8 / (rate * 1000000) - pkt.pktLen.toNat - 24))

end Mbuf

def slotBytes (rate : Rat) (lineRate : Option Rat) : Rat := 125 * lineRate.getD 10 / rate

/-- The bytes of its slot that the packet takes itself. -/
def Mbuf.ownBytes (pkt : Mbuf) : Rat := pkt.pktLen.toNat + 24

/-- Packet and delay fit the slot, or the packet has no delay. The fillers before the packet
fit the slot and what was left over from the packets before. -/
structure BoundedGap (pkt : Mbuf) (rate : Rat) (lineRate : Option Rat) : Prop where
  bounded : pkt.ownBytes + (pkt.setRate rate lineRate).timestamp.toNat ≤
    max pkt.ownBytes (slotBytes rate lineRate)
  full : slotBytes rate lineRate < pkt.ownBytes → (pkt.setRate rate lineRate).timestamp = 0
  fillers : ∀ limiter : RateLimiterCRC, limiter.Sized → ∀ s : SendState,
    ∃ fuel t frames,
      limiter.delayPackets fuel
        { s with delay := (pkt.setRate rate lineRate).timestamp + s.previousMissingDelay } = some t ∧
      t.batch.contents = s.batch.contents ++ frames ∧
      (wireBytes limiter.packetOverhead frames : Rat) ≤
        slotBytes rate lineRate + s.previousMissingDelay.toNat

theorem slotBytes_nonneg {rate : Rat} {lineRate : Option Rat} (hrate : 0 < rate)
    (hline : 0 ≤ lineRate.getD 10) : 0 ≤ slotBytes rate lineRate :=
  div_nonneg (mul_nonneg (by norm_num) hline) hrate.le

theorem ownBytes_bounds (pkt : Mbuf) : 0 ≤ pkt.ownBytes ∧ pkt.ownBytes < 2 ^ 64 := by
  have hlen := pkt.pktLen.toNat_lt
  have hword : pkt.pktLen.toNat + 24 < 2 ^ 64 := by omega
  unfold Mbuf.ownBytes
  constructor
  · exact_mod_cast Nat.zero_le (pkt.pktLen.toNat + 24)
  · exact_mod_cast hword

theorem setRate_timestamp (pkt : Mbuf) (rate : Rat) (lineRate : Option Rat) :
    (pkt.setRate rate lineRate).timestamp =
      numberToUint64 (slotBytes rate lineRate - pkt.ownBytes) := by
  have hslot : lineRate.getD 10 * 1000000000 / 8 / (rate * 1000000) = slotBytes rate lineRate := by
    rw [slotBytes]
    by_cases hrate : rate = 0
    · simp [hrate]
    · field_simp
      ring
  rw [Mbuf.setRate, Mbuf.setTimestampDynfield_timestamp, hslot, Mbuf.ownBytes, sub_sub]

/-! ## The gap -/

theorem RateLimiterCRC.Sized.fillers_le {limiter : RateLimiterCRC} (hl : limiter.Sized)
    (s : SendState) (delay : UInt64) :
    ∃ fuel t frames,
      limiter.delayPackets fuel { s with delay := delay + s.previousMissingDelay } = some t ∧
      t.batch.contents = s.batch.contents ++ frames ∧
      wireBytes limiter.packetOverhead frames ≤ delay.toNat + s.previousMissingDelay.toNat := by
  rcases gap_exists hl (delay + s.previousMissingDelay) with ⟨g, hg⟩
  refine ⟨(delay + s.previousMissingDelay).toNat, s.withGap limiter g, g.frames, ?_, ?_, ?_⟩
  · rw [delayPackets_eq, hg]
    rfl
  · exact Batch.contents_emitAll _ _
  · have htotal := (hl.gap_total hg).1
    rw [UInt64.toNat_add] at htotal
    have hwrap := Nat.mod_le (delay.toNat + s.previousMissingDelay.toNat) (2 ^ 64)
    omega

/-- For every packet, every rate and every line rate, the gap is bounded exactly when the
packet takes less than one byte more than its slot. For a rate further above that of the
line the delay is negative, and the word that stores it is close to `2^64`. -/
theorem setRate_bounded_iff (pkt : Mbuf) (rate : Rat) (lineRate : Option Rat) (hrate : 0 < rate)
    (hline : 0 ≤ lineRate.getD 10) :
    BoundedGap pkt rate lineRate ↔ pkt.ownBytes < slotBytes rate lineRate + 1 := by
  have hslot := slotBytes_nonneg hrate hline
  have hown := ownBytes_bounds pkt
  constructor
  · intro h
    by_contra hover
    have hdelay : slotBytes rate lineRate - pkt.ownBytes ≤ -1 := by linarith
    have hzero := h.full (by linarith)
    rw [setRate_timestamp] at hzero
    exact numberToUint64_ne_zero hdelay (by linarith) hzero
  · intro hfits
    have hdelay := numberToUint64_le_max (show -1 < slotBytes rate lineRate - pkt.ownBytes by linarith)
    rw [← setRate_timestamp] at hdelay
    constructor
    · rcases le_total 0 (slotBytes rate lineRate - pkt.ownBytes) with hroom | hroom
      · rw [max_eq_right hroom] at hdelay
        rw [max_eq_right (by linarith)]
        linarith
      · rw [max_eq_left hroom] at hdelay
        rw [max_eq_left (by linarith)]
        linarith
    · intro hfull
      rw [max_eq_left (by linarith)] at hdelay
      apply UInt64.toNat_inj.mp
      exact Nat.le_zero.mp (by exact_mod_cast hdelay)
    · intro limiter hl s
      rcases hl.fillers_le s (pkt.setRate rate lineRate).timestamp with
        ⟨fuel, t, frames, hrun, hcontents, hbytes⟩
      refine ⟨fuel, t, frames, hrun, hcontents, ?_⟩
      have hbytes : (wireBytes limiter.packetOverhead frames : Rat) ≤
          (pkt.setRate rate lineRate).timestamp.toNat + s.previousMissingDelay.toNat := by
        exact_mod_cast hbytes
      have hroom : max 0 (slotBytes rate lineRate - pkt.ownBytes) ≤ slotBytes rate lineRate :=
        max_le hslot (by linarith)
      linarith

def smallPacket : Mbuf := ⟨0, 60, 0, 0⟩

theorem setRate_bounded_small_packets :
    smallPacket.ownBytes < slotBytes 14 none + 1 ∧ BoundedGap smallPacket 14 none := by
  have hfits : smallPacket.ownBytes < slotBytes 14 none + 1 := by decide +kernel
  exact ⟨hfits, (setRate_bounded_iff smallPacket 14 none (by decide) (by decide)).mpr hfits⟩

/-- At 20 Mpps packets of the smallest size are more than a line of 10 Gbit/s carries. -/
theorem setRate_unbounded_small_packets :
    slotBytes 20 none < smallPacket.ownBytes ∧
      (smallPacket.setRate 20 none).timestamp = 18446744073709551595 ∧
      ¬ BoundedGap smallPacket 20 none := by
  have hfull : slotBytes 20 none < smallPacket.ownBytes := by decide +kernel
  have hdelay : (smallPacket.setRate 20 none).timestamp = 18446744073709551595 := by
    decide +kernel
  refine ⟨hfull, hdelay, ?_⟩
  intro h
  have hzero := h.full hfull
  rw [hdelay] at hzero
  exact absurd hzero (by decide)

end MoonGen

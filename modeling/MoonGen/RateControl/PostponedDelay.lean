import Mathlib.Data.Rat.Floor
import MoonGen.RateControl.Delivery

/-! # The delay that a limiter postpones

`crc-ratecontrol.new` derives the size from which on a filler is sent from the link speed
and the packet rate of the device, and `send_packets` carries a shorter delay over.
The link speed is a number of Mbit/s, as everywhere else; the conversion to bytes per
packet takes it for a number of Gbit/s. Lua numbers are exact here.
-/

namespace MoonGen.RateLimiterCRC

open Loop

/-! ## `new` of `crc-ratecontrol.lua` -/

/-- What `new` reads of the device; a field that the driver does not set is `nil`. -/
structure Device where
  crcPatch : Bool
  e810 : Bool
  minPacketSize : Option Nat
  maxPacketRate : Option Rat
  packetOverhead : Option Nat
  linkSpeed : Nat
  rate_pos : ∀ r ∈ maxPacketRate, 0 < r

namespace Device

def minPktSize (dev : Device) : Nat := dev.minPacketSize.getD 64

def maxPktRate (dev : Device) : Rat := dev.maxPacketRate.getD (1488 / 100)

def pktOverhead (dev : Device) : Nat := dev.packetOverhead.getD 20

/-- The size given to the limiter, which may be smaller at low rates. -/
def fillerSize (dev : Device) (targetRate : Rat) : Nat :=
  if targetRate < dev.maxPktRate / 2 then dev.minPktSize + dev.pktOverhead
  else ((dev.linkSpeed : Rat) * 10 ^ 9 / 10 ^ 6 / 8 / dev.maxPktRate).floor.toNat

/-- A driver that can neither disable checksums nor take frames with a wrong length is fatal. -/
def newLimiter (dev : Device) (targetRate : Option Rat) : Option RateLimiterCRC :=
  if dev.crcPatch || dev.e810 then
    some (.new (UInt64.ofNat (dev.fillerSize (targetRate.getD (1488 / 100))))
      (UInt64.ofNat dev.pktOverhead) 1500)
  else none

/-- One smallest frame at the device's packet rate, with its overhead. -/
def frameBound (dev : Device) : Rat :=
  max (dev.minPktSize + 2 * dev.pktOverhead)
    (dev.linkSpeed / (8 * dev.maxPktRate) + dev.pktOverhead)

end Device

/-! ## What a run of calls carries over -/

/-- `mg_ratelimiter_crc_send_packets` on a limiter and its port. -/
def sendStep (fuel : Nat) (s : RateLimiterCRC × Port) (loadPkts : List (Option Mbuf)) :
    Option (RateLimiterCRC × Port) :=
  (s.1.sendPackets fuel s.2 loadPkts).map fun out => (out.limiter, out.port)

theorem framesFor_rest {l : RateLimiterCRC} {fuel : Nat} {missing : UInt64}
    {entries : List (Option Mbuf)} {g : Gap} (h : l.framesFor fuel missing entries = some g) :
    g.delay = missing ∨ l.needsDelayPacket g.delay = false := by
  refine framesFor_induction
    (motive := fun missing _ g => g.delay = missing ∨ l.needsDelayPacket g.delay = false) ?_ ?_ ?_ h
  · intro missing
    exact .inl rfl
  · intro missing rest g ih
    exact ih
  · intro missing pkt rest gap tail hgap ih
    have hexit := (whileFuel_invariant (fun _ => True) (fun _ _ _ => trivial) trivial hgap).2
    rcases ih with hsame | hshort
    · right
      rw [hsame]
      exact hexit
    · exact .inr hshort

structure Owes (l : RateLimiterCRC) (s : RateLimiterCRC × Port) : Prop where
  sizes : s.1 = { l with previousMissingDelay := s.1.previousMissingDelay }
  short : s.1.previousMissingDelay = 0 ∨
    s.1.previousMissingDelay < l.minPacketSize + l.packetOverhead

theorem Owes.sendStep {l : RateLimiterCRC} {fuel : Nat} {s s' : RateLimiterCRC × Port}
    {loadPkts : List (Option Mbuf)} (h : l.Owes s)
    (hstep : RateLimiterCRC.sendStep fuel s loadPkts = some s') : l.Owes s' := by
  obtain ⟨out, hout, rfl⟩ := Option.map_eq_some_iff.mp hstep
  obtain ⟨g, hg, hlimiter, _, _⟩ := sendPackets_spec hout
  have hrest := framesFor_rest hg
  have hsizes := h.sizes
  refine ⟨?_, ?_⟩
  · rw [hlimiter, hsizes]
  · simp only [hlimiter]
    rcases hrest with hsame | hexit
    · rw [hsame]
      exact h.short
    · right
      rw [hsizes] at hexit
      simpa [needsDelayPacket] using hexit

theorem owes_run {l : RateLimiterCRC} (hl : l.previousMissingDelay = 0) {fuel : Nat} {port : Port}
    {batches : List (List (Option Mbuf))} {s : RateLimiterCRC × Port}
    (h : runs (sendStep fuel) (l, port) batches = some s) : l.Owes s :=
  runs_keeps l.Owes (fun _ _ _ hs hstep => hs.sendStep hstep) ⟨rfl, .inl hl⟩ h

theorem run_postpones {l : RateLimiterCRC} (hl : l.previousMissingDelay = 0) (fuel : Nat)
    (port : Port) (delay : UInt64) (h : delay < l.minPacketSize + l.packetOverhead) :
    ∃ s, runs (sendStep fuel) (l, port) [[some ⟨0, 60, delay, 0⟩]] = some s ∧
      s.1.previousMissingDelay = delay := by
  have hexit : l.needsDelayPacket delay = false := by
    simpa [needsDelayPacket] using h
  have hgap : l.gap fuel delay = some ⟨delay, []⟩ := whileFuel_exit fuel hexit
  have hframes : l.framesFor fuel l.previousMissingDelay [some ⟨0, 60, delay, 0⟩] =
      some ⟨delay, [.load ⟨0, 60, delay, 0⟩]⟩ := by
    simp [framesFor, hl, hgap]
  obtain ⟨out, hout⟩ := sendPackets_returns port hframes
  obtain ⟨g, hg, hlimiter, _, _⟩ := sendPackets_spec hout
  have hsame := Option.some.inj (hg.symm.trans hframes)
  refine ⟨(out.limiter, out.port), ?_, ?_⟩
  · simp [runs, sendStep, hout]
  · rw [hlimiter, hsame]

/-- All runs stay below a bound exactly when it is positive and no whole number of bytes
between it and the least gap with a filler is left. -/
theorem runs_below_iff {l : RateLimiterCRC} (hl : l.previousMissingDelay = 0) (bound : Rat) :
    (∀ fuel port batches s, runs (sendStep fuel) (l, port) batches = some s →
        (s.1.previousMissingDelay.toNat : Rat) < bound) ↔
      0 < bound ∧ ((l.minPacketSize + l.packetOverhead).toNat : Rat) < bound + 1 := by
  constructor
  · intro hall
    have hpos : 0 < bound := by
      have hstart := hall 0 ⟨[], 0, 0⟩ [] _ rfl
      simpa [hl] using hstart
    refine ⟨hpos, ?_⟩
    by_contra hlarge
    -- the next whole number above the bound is a delay that is carried over
    have hlarge : bound + 1 ≤ ((l.minPacketSize + l.packetOverhead).toNat : Rat) :=
      not_lt.mp hlarge
    have hceil := Nat.ceil_lt_add_one hpos.le
    have hbelow : ⌈bound⌉₊ < (l.minPacketSize + l.packetOverhead).toNat := by
      exact_mod_cast lt_of_lt_of_le hceil hlarge
    have hfit : (UInt64.ofNat ⌈bound⌉₊).toNat = ⌈bound⌉₊ :=
      UInt64.toNat_ofNat_of_lt'
        (Nat.lt_trans hbelow (l.minPacketSize + l.packetOverhead).toNat_lt)
    obtain ⟨s, hrun, hmissing⟩ := run_postpones hl 0 ⟨[], 0, 0⟩ (UInt64.ofNat ⌈bound⌉₊)
      (by rw [UInt64.lt_iff_toNat_lt, hfit]; exact hbelow)
    have hcarried := hall 0 _ _ s hrun
    rw [hmissing, hfit] at hcarried
    exact absurd (Nat.le_ceil bound) (not_le.mpr hcarried)
  · rintro ⟨hpos, hsmall⟩ fuel port batches s hrun
    rcases (owes_run hl hrun).short with hzero | hshort
    · rw [hzero]
      exact_mod_cast hpos
    · rw [UInt64.lt_iff_toNat_lt] at hshort
      have hstep : ((s.1.previousMissingDelay.toNat + 1 : Nat) : Rat) ≤
          (l.minPacketSize + l.packetOverhead).toNat := by exact_mod_cast hshort
      push_cast at hstep
      linarith

/-! ## The limiters that `new` creates -/

namespace Device

theorem newLimiter_spec {dev : Device} {targetRate : Option Rat} {l : RateLimiterCRC}
    (h : dev.newLimiter targetRate = some l) :
    l.previousMissingDelay = 0 ∧ (l.minPacketSize + l.packetOverhead).toNat =
      (dev.fillerSize (targetRate.getD (1488 / 100)) + dev.pktOverhead) % 2 ^ 64 := by
  unfold newLimiter at h
  split at h
  · cases h
    refine ⟨rfl, ?_⟩
    simp only [RateLimiterCRC.new, UInt64.toNat_add, UInt64.toNat_ofNat']
    exact (Nat.add_mod _ _ _).symm
  · cases h

theorem lowRate_below {dev : Device} {targetRate : Rat} (h : targetRate < dev.maxPktRate / 2) :
    (((dev.fillerSize targetRate + dev.pktOverhead) % 2 ^ 64 : Nat) : Rat) <
      dev.frameBound + 1 := by
  have hmod := Nat.mod_le (dev.fillerSize targetRate + dev.pktOverhead) (2 ^ 64)
  have hsize : dev.fillerSize targetRate + dev.pktOverhead =
      dev.minPktSize + 2 * dev.pktOverhead := by
    rw [fillerSize, if_pos h]
    omega
  rw [hsize] at hmod ⊢
  have hcast : (((dev.minPktSize + 2 * dev.pktOverhead) % 2 ^ 64 : Nat) : Rat) ≤
      dev.minPktSize + 2 * dev.pktOverhead := by exact_mod_cast hmod
  have hbound : (dev.minPktSize + 2 * dev.pktOverhead : Rat) ≤ dev.frameBound := le_max_left _ _
  linarith

end Device

/-- A limiter never postpones a whole smallest frame exactly when its target rate is low, or
the size that `new` computes for high rates, with the overhead, stays within that frame. -/
theorem postponed_below_frame_iff (dev : Device) (targetRate : Option Rat) (l : RateLimiterCRC)
    (hnew : dev.newLimiter targetRate = some l) :
    (∀ fuel port batches s, runs (sendStep fuel) (l, port) batches = some s →
        (s.1.previousMissingDelay.toNat : Rat) < dev.frameBound) ↔
      0 < dev.frameBound ∧ (targetRate.getD (1488 / 100) < dev.maxPktRate / 2 ∨
        ((((dev.linkSpeed : Rat) * 125 / dev.maxPktRate).floor.toNat + dev.pktOverhead) % 2 ^ 64 :
          Nat) < dev.frameBound + 1) := by
  obtain ⟨hstart, hleast⟩ := Device.newLimiter_spec hnew
  rw [runs_below_iff hstart, hleast]
  apply and_congr_right
  intro _
  by_cases hlow : targetRate.getD (1488 / 100) < dev.maxPktRate / 2
  · exact iff_of_true (Device.lowRate_below hlow) (.inl hlow)
  · have hunits : (dev.linkSpeed : Rat) * 10 ^ 9 / 10 ^ 6 / 8 / dev.maxPktRate =
        dev.linkSpeed * 125 / dev.maxPktRate := by ring
    rw [Device.fillerSize, if_neg hlow, hunits, or_iff_right hlow]

/-- A device with the default sizes on a link of 10 Gbit/s. -/
def tenGigabit : Device := ⟨true, false, none, none, none, 10000, by simp⟩

theorem postponed_below_frame_low_rate :
    tenGigabit.newLimiter (some 1) = some (.new 84 20 1500) ∧
      ∀ fuel port batches s,
        runs (sendStep fuel) (RateLimiterCRC.new 84 20 1500, port) batches = some s →
        (s.1.previousMissingDelay.toNat : Rat) < tenGigabit.frameBound := by
  have hnew : tenGigabit.newLimiter (some 1) = some (.new 84 20 1500) := by decide +kernel
  refine ⟨hnew, (postponed_below_frame_iff tenGigabit (some 1) (.new 84 20 1500) hnew).mpr ?_⟩
  exact ⟨by decide +kernel, .inl (by decide +kernel)⟩

/-- At the default rate a delay of 1000 bytes, ten smallest frames, is postponed. -/
theorem postponed_ten_frames :
    ∃ l s, tenGigabit.newLimiter none = some l ∧
      runs (sendStep 0) (l, ⟨[], 0, 0⟩) [[some ⟨0, 60, 1000, 0⟩]] = some s ∧
      ¬ (s.1.previousMissingDelay.toNat : Rat) < tenGigabit.frameBound := by
  obtain ⟨s, hrun, hmissing⟩ := run_postpones (l := .new 84005 20 1500) rfl 0 ⟨[], 0, 0⟩
    1000 (by decide)
  refine ⟨.new 84005 20 1500, s, by decide +kernel, hrun, ?_⟩
  rw [hmissing]
  decide +kernel

end MoonGen.RateLimiterCRC

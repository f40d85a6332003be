import MoonGen.RateControl.Pacing

/-! # The packet time of the Poisson limiter

`main_loop_poisson` divides the bits of a packet by `link_speed / 1000`, a quotient of its
own. The divisor is zero for a link below 1 Gbit/s, which ends the program, and it drops
the remainder for a link such as 2.5 Gbit/s. The bits are a 32-bit number.
-/

namespace MoonGen.RateLimiter

open Loop

def wireBits (pktLen : UInt32) : Nat := (pktLen.toNat + 24) * 8

/-- The division succeeds and gives the time of the packet, in nanoseconds. -/
def PacketTime (linkSpeed pktLen : UInt32) : Prop :=
  ∃ time, pktTime linkSpeed pktLen = some time ∧
    time.toNat = wireBits pktLen * 1000 / linkSpeed.toNat

/-- The loop over a batch has reached a packet, and has not sent it. -/
def Timed.InIteration (s : Timed α) (p : α) : Prop :=
  s.wait = .nextSend ∧ s.limiter.pc.held.head? = some p

theorem divisor_eq_zero {linkSpeed : UInt32} : linkSpeed / 1000 = 0 ↔ linkSpeed.toNat < 1000 := by
  rw [← UInt32.toNat_inj, UInt32.toNat_div]
  simp

theorem pktTime_of_slow {linkSpeed pktLen : UInt32} (h : linkSpeed.toNat < 1000) :
    pktTime linkSpeed pktLen = none :=
  if_pos (divisor_eq_zero.mpr h)

theorem pktTime_of_fast {linkSpeed : UInt32} (pktLen : UInt32) (h : 1000 ≤ linkSpeed.toNat) :
    ∃ time, pktTime linkSpeed pktLen = some time ∧
      time.toNat = wireBits pktLen % 2 ^ 32 / (linkSpeed.toNat / 1000) := by
  have hdivisor : ¬ linkSpeed / 1000 = 0 := by
    rw [divisor_eq_zero]
    exact Nat.not_lt.mpr h
  refine ⟨_, if_neg hdivisor, ?_⟩
  simp [wireBits, UInt32.toNat_div, UInt32.toNat_mul, UInt32.toNat_add]

theorem packetTime_iff {linkSpeed pktLen : UInt32} :
    PacketTime linkSpeed pktLen ↔
      1000 ≤ linkSpeed.toNat ∧
        wireBits pktLen % 2 ^ 32 / (linkSpeed.toNat / 1000) =
          wireBits pktLen * 1000 / linkSpeed.toNat := by
  rcases Nat.lt_or_ge linkSpeed.toNat 1000 with hslow | hfast
  · simp [PacketTime, pktTime_of_slow hslow, hslow]
  · rcases pktTime_of_fast pktLen hfast with ⟨time, htime, hvalue⟩
    simp [PacketTime, htime, hvalue, hfast]

/-- The dropped remainder never makes up for the bits lost in 32 bits. -/
theorem quotient_of_wrapped_ne {bits speed : Nat} (hspeed : 1000 ≤ speed) (hword : speed < 2 ^ 32)
    (hbits : 2 ^ 32 ≤ bits) : bits % 2 ^ 32 / (speed / 1000) ≠ bits * 1000 / speed := by
  intro h
  have hsplit := Nat.div_add_mod speed 1000
  have hrest := Nat.mod_lt speed (show 1000 > 0 by decide)
  -- With `m` for the common value and `q` for the divisor, `m * q` is at most the wrapped bits.
  have hlow := Nat.mul_div_le (bits % 2 ^ 32) (speed / 1000)
  have hsmall := Nat.div_le_self (bits % 2 ^ 32) (speed / 1000)
  -- The true bits are less than the speed times `m + 1`.
  have hhigh := Nat.lt_mul_div_succ (bits * 1000) (show 0 < speed by omega)
  rw [← h] at hhigh
  generalize bits % 2 ^ 32 / (speed / 1000) = m at hlow hsmall hhigh
  generalize speed / 1000 = q at hsplit hlow
  have hproduct : speed * (m + 1) = 1000 * (q * m) + 1000 * q + speed % 1000 * (m + 1) :=
    calc
      speed * (m + 1) = (1000 * q + speed % 1000) * (m + 1) := by rw [hsplit]
      _ = 1000 * (q * m) + 1000 * q + speed % 1000 * (m + 1) := by
        rw [Nat.add_mul, Nat.mul_assoc, Nat.mul_succ, Nat.mul_add]
  have hdropped : speed % 1000 * (m + 1) ≤ 999 * (m + 1) :=
    Nat.mul_le_mul_right _ (Nat.le_of_lt_succ hrest)
  omega

theorem PacketTime.fits {linkSpeed pktLen : UInt32} (h : PacketTime linkSpeed pktLen) :
    wireBits pktLen < 2 ^ 32 := by
  rw [packetTime_iff] at h
  by_contra hbits
  exact quotient_of_wrapped_ne h.1 linkSpeed.toNat_lt (Nat.not_lt.mp hbits) h.2

theorem packetTime_of_dvd {linkSpeed pktLen : UInt32} (hspeed : 1000 ≤ linkSpeed.toNat)
    (hdvd : 1000 ∣ linkSpeed.toNat) (hfits : wireBits pktLen < 2 ^ 32) :
    PacketTime linkSpeed pktLen := by
  rw [packetTime_iff, Nat.mod_eq_of_lt hfits]
  refine ⟨hspeed, ?_⟩
  rcases hdvd with ⟨q, hq⟩
  rw [hq, Nat.mul_div_cancel_left q (by decide), Nat.mul_comm, Nat.mul_div_mul_left _ _ (by decide)]

/-- A packet that takes 192 ns on a link of `1000 * q` Mbit/s. -/
theorem wireBits_probe {q : Nat} (hpos : 0 < q) (hq : 1000 * q < 2 ^ 32) :
    wireBits (UInt32.ofNat (24 * q - 24)) = 192 * q := by
  rw [wireBits, UInt32.toNat_ofNat', Nat.mod_eq_of_lt (by omega)]
  omega

theorem dvd_of_packetTime_probe {linkSpeed : UInt32}
    (h : PacketTime linkSpeed (UInt32.ofNat (24 * (linkSpeed.toNat / 1000) - 24))) :
    1000 ∣ linkSpeed.toNat := by
  have hword := linkSpeed.toNat_lt
  rw [packetTime_iff] at h
  have hpos : 0 < linkSpeed.toNat / 1000 := Nat.div_pos h.1 (by decide)
  rw [wireBits_probe hpos (by omega), Nat.mod_eq_of_lt (by omega), Nat.mul_div_cancel _ hpos] at h
  have hlow := Nat.div_mul_le_self (192 * (linkSpeed.toNat / 1000) * 1000) linkSpeed.toNat
  rw [← h.2] at hlow
  omega

theorem reaches_iteration (D : Type) [Double D] (target linkSpeed : UInt32) (tscHz : UInt64)
    (p : Mbuf) :
    ∃ capacity actions s, runs (poissonStep D target linkSpeed tscHz) (Timed.init capacity)
      actions = some s ∧ s.InIteration p := by
  refine ⟨64, .enqueue (List.replicate 64 p) ::
    List.replicate 3 (.limiter 0 true true (Double.ofUInt64 0)), _, rfl, rfl, rfl⟩

/-- In every run of `main_loop_poisson`, every packet whose bits fit 32 bits is given its time
if and only if the link speed is a positive multiple of 1000 Mbit/s. No other packet is. -/
theorem poisson_packetTime_iff (D : Type) [Double D] (target linkSpeed : UInt32) (tscHz : UInt64) :
    (∀ pktLen, PacketTime linkSpeed pktLen → wireBits pktLen < 2 ^ 32) ∧
      ((∀ capacity actions s p,
          runs (poissonStep D target linkSpeed tscHz) (Timed.init capacity) actions = some s →
          s.InIteration p → wireBits p.pktLen < 2 ^ 32 → PacketTime linkSpeed p.pktLen) ↔
        1000 ≤ linkSpeed.toNat ∧ 1000 ∣ linkSpeed.toNat) := by
  refine ⟨fun _ h => h.fits, ?_⟩
  constructor
  · intro h
    have hevery : ∀ pktLen, wireBits pktLen < 2 ^ 32 → PacketTime linkSpeed pktLen := by
      intro pktLen hfits
      rcases reaches_iteration D target linkSpeed tscHz ⟨0, pktLen, 0, 0⟩ with
        ⟨capacity, actions, s, hrun, hs⟩
      exact h capacity actions s ⟨0, pktLen, 0, 0⟩ hrun hs hfits
    have hspeed := (packetTime_iff.mp (hevery 0 (by decide))).1
    have hword := linkSpeed.toNat_lt
    refine ⟨hspeed, dvd_of_packetTime_probe (hevery _ ?_)⟩
    rw [wireBits_probe (Nat.div_pos hspeed (by decide)) (by omega)]
    omega
  · rintro ⟨hspeed, hdvd⟩ capacity actions s p _ _ hfits
    exact packetTime_of_dvd hspeed hdvd hfits

theorem poisson_packetTime_slow :
    pktTime 100 60 = none ∧ pktTime 2500 60 = some 336 ∧ wireBits 60 * 1000 / 2500 = 268 ∧
      ¬ PacketTime 100 60 ∧ ¬ PacketTime 2500 60 := by
  refine ⟨by decide, by decide, by decide, ?_, ?_⟩
  · rw [packetTime_iff]
    decide
  · rw [packetTime_iff]
    decide

end MoonGen.RateLimiter

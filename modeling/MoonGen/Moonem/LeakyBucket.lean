import Mathlib.Tactic.FieldSimp
import MoonGen.Moonem.TokenBucket

/-! # The leaky-bucket loops

Both leaky buckets book every accepted packet on the virtual clock `next_at`, on
exact arithmetic. A packet whose backlog exceeds the bound is dropped and leaves
the clock as it is.
-/

namespace MoonGen.Moonem

open Sieve Shaping

theorem max_rat (a b : ℚ) : Double.max a b = max a b := by
  unfold Double.max
  by_cases h : b < a
  · rw [if_pos ((Double.lt_rat b a).mpr h), max_eq_left h.le]
  · rw [if_neg (fun hlt => h ((Double.lt_rat b a).mp hlt)), max_eq_right (not_lt.mp h)]

/-! ## One packet -/

theorem leakyBucketPacket_cases (bound : ℚ) (wireTime : UInt32 → ℚ) (recv : Mbuf → UInt64)
    (delay : UInt64) (nextAt : ℚ) (m : Mbuf) :
    let real := max ((recv m + delay).toNat : ℚ) nextAt
    (real ≤ (recv m + delay).toNat + bound ∧
        leakyBucketPacket bound wireTime recv delay nextAt m =
          (real + wireTime m.pktLen, some ⟨m, recv m, recv m + delay, real⟩)) ∨
      leakyBucketPacket bound wireTime recv delay nextAt m = (nextAt, none) := by
  dsimp only
  unfold leakyBucketPacket
  simp only [max_rat, Double.ofUInt64_rat, Double.sub_rat, Double.add_rat, Double.lt_rat]
  by_cases h : bound < max ((recv m + delay).toNat : ℚ) nextAt - (recv m + delay).toNat
  · right
    rw [if_pos h]
  · left
    rw [if_neg h]
    exact ⟨by linarith, rfl⟩

def Shaped.slot (wireTime : UInt32 → ℚ) (a : Shaped ℚ) : Grant ℚ :=
  ⟨a.realSendTime, wireTime a.pkt.pktLen⟩

structure Shaped.Due (delay : UInt64) (bound : ℚ) (a : Shaped ℚ) : Prop where
  due : a.sendTime = a.recv + delay
  notBefore : (a.sendTime.toNat : ℚ) ≤ a.realSendTime
  withinBound : a.realSendTime ≤ a.sendTime.toNat + bound

structure Booked (bound : ℚ) (wireTime : UInt32 → ℚ) (delay : UInt64) (nextAt : ℚ)
    (out : List (Shaped ℚ)) : Prop where
  paced : Paced nextAt (out.map (Shaped.slot wireTime))
  due : ∀ a ∈ out, a.Due delay bound
  clock : ∀ a, out.getLast? = some a → nextAt = a.realSendTime + wireTime a.pkt.pktLen

theorem booked_nil (bound : ℚ) (wireTime : UInt32 → ℚ) (delay : UInt64) (nextAt : ℚ) :
    Booked bound wireTime delay nextAt [] := by
  refine ⟨paced_nil nextAt, ?_, ?_⟩
  · intro a ha
    cases ha
  · intro a ha
    cases ha

section Burst

variable {bound : ℚ} {wireTime : UInt32 → ℚ} {delay : UInt64}

theorem Booked.packet (recv : Mbuf → UInt64) {nextAt : ℚ} {out : List (Shaped ℚ)}
    (h : Booked bound wireTime delay nextAt out) (m : Mbuf) :
    Booked bound wireTime delay (leakyBucketPacket bound wireTime recv delay nextAt m).1
      (out ++ (leakyBucketPacket bound wireTime recv delay nextAt m).2.toList) := by
  rcases leakyBucketPacket_cases bound wireTime recv delay nextAt m with ⟨hbound, hpass⟩ | hpass
  · rw [hpass, Option.toList_some]
    refine ⟨?_, ?_, ?_⟩
    · rw [List.map_append]
      exact h.paced.book ⟨max ((recv m + delay).toNat : ℚ) nextAt, wireTime m.pktLen⟩
        (le_max_right _ _)
    · intro a ha
      rcases List.mem_append.mp ha with hold | hnew
      · exact h.due a hold
      · rw [List.mem_singleton.mp hnew]
        exact ⟨rfl, le_max_left _ _, hbound⟩
    · intro a ha
      rw [List.getLast?_append, List.getLast?_singleton, Option.some_or] at ha
      rw [← Option.some.inj ha]
  · rw [hpass, Option.toList_none, List.append_nil]
    exact h

theorem Booked.burst (recv : Mbuf → UInt64) {nextAt : ℚ} {out : List (Shaped ℚ)}
    (pkts : List Mbuf) (h : Booked bound wireTime delay nextAt out) :
    Booked bound wireTime delay
      (sift (leakyBucketPacket bound wireTime recv delay) nextAt pkts).state
      (out ++ (sift (leakyBucketPacket bound wireTime recv delay) nextAt pkts).kept) := by
  let inv (nextAt : ℚ) (more : List (Shaped ℚ)) : Prop :=
    Booked bound wireTime delay nextAt (out ++ more)
  apply sift_invariant inv _ pkts (by simpa [inv] using h)
  intro nextAt more m hinv
  have hstep := Booked.packet recv hinv m
  rw [List.append_assoc] at hstep
  exact hstep

end Burst

/-! ## The two loops -/

inductive LeakyLoop where
  | hardware
  | software
deriving Repr, DecidableEq

namespace LeakyLoop

@[reducible] def State : LeakyLoop → Type
  | .hardware => LeakyLoopState ℚ
  | .software => SwLeakyLoopState ℚ

def init (config : MoonemConfig) : (loop : LeakyLoop) → loop.State
  | .hardware => LeakyLoopState.init config
  | .software => SwLeakyLoopState.init config

def iterate (tscHz : UInt64) (config : MoonemConfig) : (loop : LeakyLoop) → loop.State → RxBurst →
    Iteration loop.State (Shaped ℚ)
  | .hardware => receiverLoopRateLeakyBucket config
  | .software => swReceiverLoopRateLeakyBucket tscHz config

def nextAt : (loop : LeakyLoop) → loop.State → ℚ
  | .hardware => LeakyLoopState.nextAt
  | .software => SwLeakyLoopState.nextAt

def bitRate (tscHz : UInt64) (config : MoonemConfig) : LeakyLoop → ℚ
  | .hardware => bitsPerNs config
  | .software => bitsPerTsc tscHz config

def delay (tscHz : UInt64) (config : MoonemConfig) : LeakyLoop → UInt64
  | .hardware => config.delay
  | .software => swDelay ℚ tscHz config

/-- The wire time that a loop books for a packet. The hardware loop computes its bits in 32 bits,
the software loop its bytes. -/
def wireTime (tscHz : UInt64) (config : MoonemConfig) (loop : LeakyLoop) (len : UInt32) : ℚ :=
  match loop with
  | .hardware => ((len + 24) * 8).toNat / loop.bitRate tscHz config
  | .software => (len + 24).toNat * 8 / loop.bitRate tscHz config

def fullWireTime (tscHz : UInt64) (config : MoonemConfig) (loop : LeakyLoop) (len : UInt32) : ℚ :=
  (len.toNat + 24) * 8 / loop.bitRate tscHz config

def Fits : LeakyLoop → UInt32 → Prop
  | .hardware, len => (len.toNat + 24) * 8 < 2 ^ 32
  | .software, len => len.toNat + 24 < 2 ^ 32

def bound (tscHz : UInt64) (config : MoonemConfig) (loop : LeakyLoop) : ℚ :=
  backlogBound config (loop.bitRate tscHz config)

theorem iterate_booked (tscHz : UInt64) (config : MoonemConfig) (loop : LeakyLoop)
    {s : loop.State} {out : List (Shaped ℚ)} (rx : RxBurst)
    (h : Booked (loop.bound tscHz config) (loop.wireTime tscHz config) (loop.delay tscHz config)
      (loop.nextAt s) out) :
    Booked (loop.bound tscHz config) (loop.wireTime tscHz config) (loop.delay tscHz config)
      (loop.nextAt (loop.iterate tscHz config s rx).state)
      (out ++ (loop.iterate tscHz config s rx).admitted) := by
  cases loop with
  | hardware => exact h.burst Mbuf.timestamp rx.pkts
  | software =>
      simp only [iterate, nextAt, swReceiverLoopRateLeakyBucket, pipe_eq_sift]
      exact h.burst (fun _ => rx.tsc) rx.pkts

theorem run_booked (tscHz : UInt64) (config : MoonemConfig) (loop : LeakyLoop)
    {s : loop.State} {out : List (Shaped ℚ)} (bursts : List RxBurst)
    (h : Booked (loop.bound tscHz config) (loop.wireTime tscHz config) (loop.delay tscHz config)
      (loop.nextAt s) out) :
    Booked (loop.bound tscHz config) (loop.wireTime tscHz config) (loop.delay tscHz config)
      (loop.nextAt (serve (loop.iterate tscHz config) s bursts).state)
      (out ++ (serve (loop.iterate tscHz config) s bursts).admitted) := by
  induction bursts generalizing s out with
  | nil => simpa [serve] using h
  | cons rx rest ih =>
      have hstep := ih (iterate_booked tscHz config loop rx h)
      rw [List.append_assoc] at hstep
      exact hstep

theorem bitRate_nonneg (tscHz : UInt64) (config : MoonemConfig) (loop : LeakyLoop) :
    0 ≤ loop.bitRate tscHz config := by
  cases loop <;> simp only [bitRate, bitsPerNs, bitsPerTsc, Double.div_rat, Double.mul_rat,
    Double.ofUInt64_rat] <;> positivity

theorem toNat_frame (len : UInt32) : (len + 24).toNat = (len.toNat + 24) % 2 ^ 32 :=
  UInt32.toNat_add len 24

theorem toNat_frame_bits (len : UInt32) :
    ((len + 24) * 8).toNat = (len.toNat + 24) * 8 % 2 ^ 32 := by
  rw [UInt32.toNat_mul, toNat_frame]
  exact (Nat.mod_mul_mod _ 8 _)

theorem wireTime_le_fullWireTime (tscHz : UInt64) (config : MoonemConfig) (loop : LeakyLoop)
    (len : UInt32) : loop.wireTime tscHz config len ≤ loop.fullWireTime tscHz config len := by
  have hrate := bitRate_nonneg tscHz config loop
  cases loop with
  | hardware =>
      have hbits : ((len + 24) * 8).toNat ≤ (len.toNat + 24) * 8 := by
        rw [toNat_frame_bits]
        exact Nat.mod_le _ _
      exact div_le_div_of_nonneg_right (by exact_mod_cast hbits) hrate
  | software =>
      have hbytes : (len + 24).toNat * 8 ≤ (len.toNat + 24) * 8 := by
        rw [toNat_frame]
        exact Nat.mul_le_mul_right 8 (Nat.mod_le _ _)
      exact div_le_div_of_nonneg_right (by exact_mod_cast hbytes) hrate

theorem wireTime_eq_fullWireTime (tscHz : UInt64) (config : MoonemConfig) {loop : LeakyLoop}
    {len : UInt32} (h : loop.Fits len) :
    loop.wireTime tscHz config len = loop.fullWireTime tscHz config len := by
  cases loop with
  | hardware =>
      simp only [wireTime, fullWireTime]
      rw [toNat_frame_bits, Nat.mod_eq_of_lt h]
      push_cast
      rfl
  | software =>
      simp only [wireTime, fullWireTime]
      rw [toNat_frame, Nat.mod_eq_of_lt h]
      push_cast
      rfl

theorem bound_add_wireTime_bytes (tscHz : UInt64) (config : MoonemConfig) (loop : LeakyLoop)
    (len : UInt32) :
    (loop.bound tscHz config + loop.wireTime tscHz config len) *
      (loop.bitRate tscHz config / 8) ≤ config.capacity.toNat + (len.toNat + 24) := by
  have hrate := bitRate_nonneg tscHz config loop
  by_cases hzero : loop.bitRate tscHz config = 0
  · rw [hzero, zero_div, mul_zero]
    positivity
  · calc (loop.bound tscHz config + loop.wireTime tscHz config len) *
            (loop.bitRate tscHz config / 8)
        ≤ (loop.bound tscHz config + loop.fullWireTime tscHz config len) *
            (loop.bitRate tscHz config / 8) := by
          gcongr
          exact wireTime_le_fullWireTime tscHz config loop len
      _ = config.capacity.toNat + (len.toNat + 24) := by
          simp only [bound, backlogBound, fullWireTime, Double.div_rat, Double.ofUInt64_rat,
            show (8 : UInt64).toNat = 8 from rfl]
          field_simp
          push_cast
          ring

/-- Over every run of a leaky bucket: a packet is sent after the wire times of all
packets accepted since any earlier one, as the loop computes them, and so after their
true ones where these fit; it is sent between the time it is due, a sum of 64 bits, and
the backlog bound after that; and the clock is at most the bound and the wire time
of the last accepted packet after the time that packet was due, which is the
capacity and the packet in bytes. -/
theorem leakyBucket_shapes (tscHz : UInt64) (config : MoonemConfig) (loop : LeakyLoop)
    (bursts : List RxBurst) :
    Spaced ((serve (loop.iterate tscHz config) (loop.init config) bursts).admitted.map
        (Shaped.slot (loop.wireTime tscHz config))) ∧
      ((∀ a ∈ (serve (loop.iterate tscHz config) (loop.init config) bursts).admitted,
          loop.Fits a.pkt.pktLen) →
        Spaced ((serve (loop.iterate tscHz config) (loop.init config) bursts).admitted.map
          (Shaped.slot (loop.fullWireTime tscHz config)))) ∧
      (∀ a ∈ (serve (loop.iterate tscHz config) (loop.init config) bursts).admitted,
        a.Due (loop.delay tscHz config) (loop.bound tscHz config)) ∧
      (∀ a, (serve (loop.iterate tscHz config) (loop.init config) bursts).admitted.getLast? =
          some a →
        loop.nextAt (serve (loop.iterate tscHz config) (loop.init config) bursts).state -
            a.sendTime.toNat ≤ loop.bound tscHz config + loop.wireTime tscHz config a.pkt.pktLen ∧
          (loop.nextAt (serve (loop.iterate tscHz config) (loop.init config) bursts).state -
            a.sendTime.toNat) * (loop.bitRate tscHz config / 8) ≤
              config.capacity.toNat + (a.pkt.pktLen.toNat + 24)) := by
  have hbooked := run_booked tscHz config loop bursts
    (booked_nil (loop.bound tscHz config) (loop.wireTime tscHz config) (loop.delay tscHz config)
      (loop.nextAt (loop.init config)))
  rw [List.nil_append] at hbooked
  refine ⟨hbooked.paced.spaced, ?_, hbooked.due, ?_⟩
  · intro hfits
    have hslots : (serve (loop.iterate tscHz config) (loop.init config) bursts).admitted.map
        (Shaped.slot (loop.fullWireTime tscHz config)) =
          (serve (loop.iterate tscHz config) (loop.init config) bursts).admitted.map
            (Shaped.slot (loop.wireTime tscHz config)) := by
      apply List.map_congr_left
      intro a ha
      rw [Shaped.slot, Shaped.slot, wireTime_eq_fullWireTime tscHz config (hfits a ha)]
    rw [hslots]
    exact hbooked.paced.spaced
  intro a ha
  have hdue := hbooked.due a (List.mem_of_getLast? ha)
  have hqueued : loop.nextAt (serve (loop.iterate tscHz config) (loop.init config) bursts).state -
      a.sendTime.toNat ≤ loop.bound tscHz config + loop.wireTime tscHz config a.pkt.pktLen := by
    rw [hbooked.clock a ha]
    linarith [hdue.withinBound]
  constructor
  · exact hqueued
  · have hrate : 0 ≤ loop.bitRate tscHz config / 8 := by
      have hnonneg := bitRate_nonneg tscHz config loop
      linarith
    calc (loop.nextAt (serve (loop.iterate tscHz config) (loop.init config) bursts).state -
            a.sendTime.toNat) * (loop.bitRate tscHz config / 8)
        ≤ (loop.bound tscHz config + loop.wireTime tscHz config a.pkt.pktLen) *
            (loop.bitRate tscHz config / 8) := mul_le_mul_of_nonneg_right hqueued hrate
      _ ≤ config.capacity.toNat + (a.pkt.pktLen.toNat + 24) :=
          bound_add_wireTime_bytes tscHz config loop a.pkt.pktLen

/-- Two packets whose bits are 0 modulo 2^32 get one send time, and a packet that is received at
the end of the 64-bit clock gets one before its own. -/
theorem leakyBucket_wraps :
    ¬ Spaced ((serve (hardware.iterate 0 (bucketOnly 32768)) (hardware.init (bucketOnly 32768))
        (twoPackets 536870888)).admitted.map
          (Shaped.slot (hardware.fullWireTime 0 (bucketOnly 32768)))) ∧
      ¬ ∀ a ∈ (serve (hardware.iterate 0 { bucketOnly 32768 with delay := 5 })
        (hardware.init { bucketOnly 32768 with delay := 5 })
        [⟨[⟨1, 60, 18446744073709551615, 0⟩], 0, by decide⟩]).admitted,
          (a.recv.toNat + 5 : ℚ) ≤ a.realSendTime := by
  constructor
  · intro h
    have hboth : (serve (hardware.iterate 0 (bucketOnly 32768))
        (hardware.init (bucketOnly 32768)) (twoPackets 536870888)).admitted.map
          (Shaped.slot (hardware.fullWireTime 0 (bucketOnly 32768))) =
            [⟨1000, 4294967296⟩, ⟨1000, 4294967296⟩] := by
      decide +kernel
    have hsum := h [] ⟨1000, 4294967296⟩ [] ⟨1000, 4294967296⟩ [] hboth
    norm_num [Shaping.total] at hsum
  · decide +kernel

end LeakyLoop

end MoonGen.Moonem

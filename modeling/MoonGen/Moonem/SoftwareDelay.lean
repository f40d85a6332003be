import Mathlib.Data.List.Forall2
import Mathlib.Data.Rat.Floor
import MoonGen.Moonem.LeakyBucket
import MoonGen.Moonem.Transmitter

/-! # The delay of the software path

From the counter readings of the receive loop to the calls of the transmit loop, on exact
arithmetic. The transmit loop waits for one packet at a time, so a packet that is due could be
stuck behind one that is not. The receive loops never let this happen: what enters the ring is in
the order of its send times.
-/

namespace MoonGen.Moonem

open Sieve

/-! ## Send times of a burst -/

/-- The send times that a leaky bucket gives to a burst, between two states of its clock. -/
structure Booking (due bound start nextAt : ℚ) (out : List (Shaped ℚ)) : Prop where
  grows : start ≤ nextAt
  after : ∀ a ∈ out, max due start ≤ a.realSendTime
  within : ∀ a ∈ out, a.realSendTime ≤ due + bound
  before : ∀ a ∈ out, a.realSendTime ≤ nextAt
  sorted : out.Pairwise fun a b => a.realSendTime ≤ b.realSendTime

section Booking

variable {bound start nextAt : ℚ} {wireTime : UInt32 → ℚ} {tsc delay : UInt64}
  {out : List (Shaped ℚ)}

theorem Booking.packet (hwire : ∀ len, 0 ≤ wireTime len)
    (h : Booking (tsc + delay).toNat bound start nextAt out) (m : Mbuf) :
    Booking (tsc + delay).toNat bound start
      (leakyBucketPacket bound wireTime (fun _ => tsc) delay nextAt m).1
      (out ++ (leakyBucketPacket bound wireTime (fun _ => tsc) delay nextAt m).2.toList) := by
  rcases leakyBucketPacket_cases bound wireTime (fun _ => tsc) delay nextAt m with
    ⟨hbound, hpass⟩ | hpass
  · have hclock : nextAt ≤ max ((tsc + delay).toNat : ℚ) nextAt := le_max_right _ _
    have hnext := le_add_of_nonneg_right (a := max ((tsc + delay).toNat : ℚ) nextAt)
      (hwire m.pktLen)
    rw [hpass, Option.toList_some]
    constructor
    · exact (h.grows.trans hclock).trans hnext
    · rw [List.forall_mem_append]
      exact ⟨h.after, List.forall_mem_singleton.mpr (max_le_max_left _ h.grows)⟩
    · rw [List.forall_mem_append]
      exact ⟨h.within, List.forall_mem_singleton.mpr hbound⟩
    · rw [List.forall_mem_append]
      refine ⟨?_, List.forall_mem_singleton.mpr hnext⟩
      intro a ha
      exact ((h.before a ha).trans hclock).trans hnext
    · apply List.pairwise_append.mpr
      refine ⟨h.sorted, List.pairwise_singleton _ _, ?_⟩
      intro a ha b hb
      rw [List.mem_singleton.mp hb]
      exact (h.before a ha).trans hclock
  · rw [hpass, Option.toList_none, List.append_nil]
    exact h

theorem booking_burst (bound : ℚ) (hwire : ∀ len, 0 ≤ wireTime len) (tsc delay : UInt64)
    (nextAt : ℚ) (pkts : List Mbuf) :
    Booking (tsc + delay).toNat bound nextAt
      (sift (leakyBucketPacket bound wireTime (fun _ => tsc) delay) nextAt pkts).state
      (sift (leakyBucketPacket bound wireTime (fun _ => tsc) delay) nextAt pkts).kept := by
  apply sift_invariant (Booking (tsc + delay).toNat bound nextAt)
    (fun _ _ m h => Booking.packet hwire h m) pkts
  exact ⟨le_rfl, by simp, by simp, by simp, List.Pairwise.nil⟩

end Booking

theorem le_toNat_toUInt64_iff {q : ℚ} (hpos : 0 ≤ q) (hfits : q < 2 ^ 64) {k : Nat} :
    k ≤ (Double.toUInt64 q).toNat ↔ (k : ℚ) ≤ q := by
  have hfloor : 0 ≤ ⌊q⌋ := Int.floor_nonneg.mpr hpos
  have hlt : ⌊q⌋ < 2 ^ 64 := by
    apply Int.floor_lt.mpr
    exact_mod_cast hfits
  have hnat : (Double.toUInt64 q).toNat = ⌊q⌋.toNat := by
    show (UInt64.ofNat ⌊q⌋.toNat).toNat = _
    rw [UInt64.toNat_ofNat']
    omega
  rw [hnat, ← Int.ofNat_le, Int.toNat_of_nonneg hfloor, Int.le_floor]
  rfl

/-- The timestamps of a burst that is due at `due`, between two states of a clock. -/
structure Dated (due : Nat) (backlog start nextAt : ℚ) (out : List Mbuf) : Prop where
  grows : start ≤ nextAt
  after : ∀ k : Nat, (k : ℚ) ≤ max (due : ℚ) start → ∀ m ∈ out, k ≤ m.timestamp.toNat
  within : ∀ m ∈ out, (m.timestamp.toNat : ℚ) ≤ due + backlog
  before : ∀ m ∈ out, (m.timestamp.toNat : ℚ) ≤ max (due : ℚ) nextAt
  sorted : out.Pairwise fun m x => m.timestamp ≤ x.timestamp

theorem dated_of_eq {due : Nat} {out : List Mbuf} (h : ∀ m ∈ out, m.timestamp.toNat = due) :
    Dated due 0 0 0 out := by
  constructor
  · exact le_rfl
  · intro k hk m hm
    rw [max_eq_left (Nat.cast_nonneg due)] at hk
    rw [h m hm]
    exact_mod_cast hk
  · intro m hm
    rw [h m hm, add_zero]
  · intro m hm
    rw [h m hm]
    exact le_max_left _ _
  · apply List.pairwise_of_forall_mem_list
    intro m hm x hx
    rw [UInt64.le_iff_toNat_le, h m hm, h x hx]

theorem Booking.dated {due : Nat} {bound start nextAt : ℚ} {booked kept : List (Shaped ℚ)}
    (h : Booking due bound start nextAt booked) (hfits : due + bound < 2 ^ 64)
    (hkept : kept.Sublist booked) {stamp : Shaped ℚ → Mbuf}
    (hstamp : ∀ a, (stamp a).timestamp = Double.toUInt64 a.realSendTime) :
    Dated due bound start nextAt (kept.map stamp) := by
  have hpos : ∀ a ∈ kept, 0 ≤ a.realSendTime := by
    intro a ha
    exact (Nat.cast_nonneg due).trans
      ((le_max_left _ _).trans (h.after a (hkept.subset ha)))
  have hlt : ∀ a ∈ kept, a.realSendTime < 2 ^ 64 := by
    intro a ha
    exact (h.within a (hkept.subset ha)).trans_lt hfits
  have hfloor : ∀ a ∈ kept, ((Double.toUInt64 a.realSendTime).toNat : ℚ) ≤ a.realSendTime := by
    intro a ha
    exact (le_toNat_toUInt64_iff (hpos a ha) (hlt a ha)).mp le_rfl
  constructor
  · exact h.grows
  · intro k hk m hm
    obtain ⟨a, ha, rfl⟩ := List.mem_map.mp hm
    rw [hstamp, le_toNat_toUInt64_iff (hpos a ha) (hlt a ha)]
    exact hk.trans (h.after a (hkept.subset ha))
  · intro m hm
    obtain ⟨a, ha, rfl⟩ := List.mem_map.mp hm
    rw [hstamp]
    exact (hfloor a ha).trans (h.within a (hkept.subset ha))
  · intro m hm
    obtain ⟨a, ha, rfl⟩ := List.mem_map.mp hm
    rw [hstamp]
    exact ((hfloor a ha).trans (h.before a (hkept.subset ha))).trans (le_max_right _ _)
  · rw [List.pairwise_map]
    apply (h.sorted.sublist hkept).imp_of_mem
    intro a b ha hb hab
    rw [hstamp, hstamp, UInt64.le_iff_toNat_le, le_toNat_toUInt64_iff (hpos b hb) (hlt b hb)]
    exact (hfloor a ha).trans hab

/-! ## The software loops -/

namespace ReceiveLoop

/-- How long a packet may wait for the rate limiter after its delay. Token buckets and the plain
delay let no packet wait. -/
def backlog (tscHz : UInt64) (config : MoonemConfig) : ReceiveLoop → ℚ
  | .swRateLeakyBucket => backlogBound config (bitsPerTsc tscHz config)
  | _ => 0

def nextAt : (loop : ReceiveLoop) → loop.State ℚ → ℚ
  | .swRateLeakyBucket, s => s.nextAt
  | _, _ => 0

end ReceiveLoop

theorem bitsPerTsc_nonneg (tscHz : UInt64) (config : MoonemConfig) :
    (0 : ℚ) ≤ bitsPerTsc tscHz config := LeakyLoop.bitRate_nonneg tscHz config .software

theorem backlog_nonneg (tscHz : UInt64) (config : MoonemConfig) (loop : ReceiveLoop) :
    0 ≤ loop.backlog tscHz config := by
  cases loop with
  | swRateLeakyBucket =>
      exact div_nonneg (Nat.cast_nonneg _)
        (div_nonneg (bitsPerTsc_nonneg tscHz config) (Nat.cast_nonneg _))
  | delay | rateLeakyBucket | rateTokenBucket | swDelay | swRateTokenBucket => exact le_rfl

theorem toNat_add_of_fits {tsc delay : UInt64} {backlog : ℚ} (hbacklog : 0 ≤ backlog)
    (hfits : (tsc.toNat + delay.toNat : ℕ) + backlog < 2 ^ 64) :
    (tsc + delay).toNat = tsc.toNat + delay.toNat := by
  have hlt : ((tsc.toNat + delay.toNat : ℕ) : ℚ) < (2 ^ 64 : ℕ) := by
    push_cast at hfits ⊢
    linarith
  rw [UInt64.toNat_add]
  exact Nat.mod_eq_of_lt (by exact_mod_cast hlt)

theorem iterate_dated (tscHz : UInt64) (config : MoonemConfig) {loop : ReceiveLoop}
    (hsw : loop.Software) (s : loop.State ℚ) (rx : RxBurst)
    (hfits : (rx.tsc.toNat + (swDelay ℚ tscHz config).toNat : ℕ) + loop.backlog tscHz config <
      2 ^ 64) :
    Dated (rx.tsc.toNat + (swDelay ℚ tscHz config).toNat) (loop.backlog tscHz config)
      (loop.nextAt s) (loop.nextAt (loop.iterate tscHz config s rx).state)
      (loop.iterate tscHz config s rx).out := by
  have hsum := toNat_add_of_fits (backlog_nonneg tscHz config loop) hfits
  have hstamped : ∀ bufs, ∀ m ∈ stampBurst (rx.tsc + swDelay ℚ tscHz config) bufs,
      m.timestamp.toNat = rx.tsc.toNat + (swDelay ℚ tscHz config).toNat := by
    intro bufs m hm
    rw [stampBurst_timestamp hm, hsum]
  cases loop with
  | delay | rateLeakyBucket | rateTokenBucket => cases hsw
  | swDelay => exact dated_of_eq (hstamped _)
  | swRateTokenBucket =>
      apply dated_of_eq
      simp only [ReceiveLoop.iterate, swReceiverLoopRateTokenBucket]
      split
      · simp
      · exact hstamped _
  | swRateLeakyBucket =>
      have hwire : ∀ len, (0 : ℚ) ≤ Double.div (Double.mul (Double.frameBytes len)
          (Double.ofUInt64 8)) (bitsPerTsc tscHz config) := by
        intro len
        have hbytes : (0 : ℚ) ≤ (len + 24).toNat := Nat.cast_nonneg _
        exact div_nonneg (mul_nonneg hbytes (Nat.cast_nonneg _)) (bitsPerTsc_nonneg tscHz config)
      have hbooking := booking_burst (backlogBound config (bitsPerTsc tscHz config)) hwire rx.tsc
        (swDelay ℚ tscHz config) s.nextAt rx.pkts
      rw [hsum] at hbooking
      simp only [ReceiveLoop.iterate, swReceiverLoopRateLeakyBucket, pipe_eq_sift]
      exact hbooking.dated hfits (sift_dropBy_kept_sublist _ _ _) (fun _ => rfl)

theorem iterate_addrs_sublist (tscHz : UInt64) (config : MoonemConfig) {loop : ReceiveLoop}
    (hsw : loop.Software) (s : loop.State ℚ) (rx : RxBurst) :
    (addrs (loop.iterate tscHz config s rx).out).Sublist (addrs rx.pkts) := by
  cases loop with
  | delay | rateLeakyBucket | rateTokenBucket => cases hsw
  | swDelay =>
      simp only [ReceiveLoop.iterate, swReceiverLoopDelay, addrs_stampBurst]
      exact (lossStage_sublist config s rx.pkts).map _
  | swRateTokenBucket =>
      simp only [ReceiveLoop.iterate, swReceiverLoopRateTokenBucket]
      split
      · exact List.nil_sublist _
      · rw [pipe_eq_sift, addrs_stampBurst]
        exact ((sift_dropBy_kept_sublist _ _ _).trans
          (sift_kept_sublist (fun _ _ _ h => spendTokens_some h) _ _)).map _
  | swRateLeakyBucket =>
      simp only [ReceiveLoop.iterate, swReceiverLoopRateLeakyBucket, pipe_eq_sift]
      rw [addrs, List.map_map]
      exact ((sift_dropBy_kept_sublist _ _ _).map fun a : Shaped ℚ => a.pkt.addr).trans
        (sift_sublist (fun _ _ _ h => congrArg Mbuf.addr (leakyBucketPacket_some h)) _ _)

/-! ## Interleavings -/

def arrivals (bursts : List RxBurst) : List (UInt64 × Nat) :=
  bursts.flatMap fun rx => (addrs rx.pkts).map fun addr => (rx.tsc, addr)

/-- The counter runs and does not wrap around, and a leaky bucket has a rate. -/
structure Clocked (tscHz : UInt64) (config : MoonemConfig) (loop : ReceiveLoop)
    (bursts : List RxBurst) : Prop where
  hz : tscHz ≠ 0
  rate : loop = .swRateLeakyBucket → config.rate ≠ 0
  fits : ∀ rx ∈ bursts, (rx.tsc.toNat + (swDelay ℚ tscHz config).toNat : ℕ) +
    loop.backlog tscHz config < 2 ^ 64

namespace SwPath

variable {D : Type} {loop : ReceiveLoop} {tscHz : UInt64} {config : MoonemConfig}
  {bursts : List RxBurst}

/-- The interleavings in which the receive loop has served these bursts, with counter readings
that do not go back. The clock and the transmit loop leave the receive loop alone. -/
inductive Observed (tscHz : UInt64) (config : MoonemConfig) (capacity : Nat) (clock : UInt64) :
    List RxBurst → SwPath ℚ loop → Prop where
  | init : Observed tscHz config capacity clock [] (init config capacity clock)
  | receive {bursts : List RxBurst} {s : SwPath ℚ loop}
      (h : Observed tscHz config capacity clock bursts s) (burst : RxBurst)
      (later : ∀ rx ∈ bursts, rx.tsc ≤ burst.tsc) :
      Observed tscHz config capacity clock (bursts ++ [burst]) (s.receive tscHz config burst)
  | other {bursts : List RxBurst} {s t : SwPath ℚ loop}
      (h : Observed tscHz config capacity clock bursts s) (step : Step tscHz config s t)
      (alone : t.rx = s.rx ∧ t.entered = s.entered) :
      Observed tscHz config capacity clock bursts t

theorem Observed.reachable {capacity : Nat} {clock : UInt64} {s : SwPath ℚ loop}
    (h : Observed tscHz config capacity clock bursts s) :
    Reachable tscHz config capacity clock s := by
  induction h with
  | init => exact .refl
  | receive _ burst _ ih => exact ih.tail (.receive burst)
  | other _ step _ ih => exact ih.tail step

structure Arrived (tscHz : UInt64) (config : MoonemConfig) (loop : ReceiveLoop)
    (arrival : UInt64 × Nat) (m : Mbuf) : Prop where
  addr : arrival.2 = m.addr
  notBefore : arrival.1.toNat + (swDelay ℚ tscHz config).toNat ≤ m.timestamp.toNat
  notAfter : (m.timestamp.toNat : ℚ) ≤ (arrival.1.toNat + (swDelay ℚ tscHz config).toNat : ℕ) +
    loop.backlog tscHz config

structure Dates (tscHz : UInt64) (config : MoonemConfig) (bursts : List RxBurst)
    (s : SwPath ℚ loop) : Prop where
  arrived : ∃ origins, origins.Sublist (arrivals bursts) ∧
    List.Forall₂ (Arrived tscHz config loop) origins s.entered
  sorted : s.entered.Pairwise fun m x => m.timestamp ≤ x.timestamp
  /-- No later burst can get before them. -/
  passed : ∀ m ∈ s.entered, ∀ tsc : UInt64, (∀ rx ∈ bursts, rx.tsc ≤ tsc) →
    (m.timestamp.toNat : ℚ) ≤
      max ((tsc.toNat + (swDelay ℚ tscHz config).toNat : ℕ) : ℚ) (loop.nextAt s.rx)

theorem init_dates (capacity : Nat) (clock : UInt64) :
    (init config capacity clock : SwPath ℚ loop).Dates tscHz config [] :=
  ⟨⟨[], List.nil_sublist _, .nil⟩, .nil, fun _ hm => absurd hm List.not_mem_nil⟩

theorem Dates.receive (hsw : loop.Software) {s : SwPath ℚ loop} (h : s.Dates tscHz config bursts)
    (burst : RxBurst) (later : ∀ rx ∈ bursts, rx.tsc ≤ burst.tsc)
    (hfits : (burst.tsc.toNat + (swDelay ℚ tscHz config).toNat : ℕ) + loop.backlog tscHz config <
      2 ^ 64) :
    (s.receive tscHz config burst).Dates tscHz config (bursts ++ [burst]) := by
  have hdated := iterate_dated tscHz config hsw s.rx burst hfits
  have harrivals : arrivals (bursts ++ [burst]) =
      arrivals bursts ++ (addrs burst.pkts).map fun addr => (burst.tsc, addr) := by
    rw [arrivals, List.flatMap_append, List.flatMap_singleton]
    rfl
  have hold : ∀ m ∈ s.entered, ∀ tsc : UInt64, (∀ rx ∈ bursts ++ [burst], rx.tsc ≤ tsc) →
      (m.timestamp.toNat : ℚ) ≤ max ((tsc.toNat + (swDelay ℚ tscHz config).toNat : ℕ) : ℚ)
        (loop.nextAt (s.receive tscHz config burst).rx) := by
    intro m hm tsc htsc
    exact (h.passed m hm tsc fun rx hrx => htsc rx (List.mem_append_left _ hrx)).trans
      (max_le_max_left _ hdated.grows)
  obtain ⟨origins, hsub, harr⟩ := h.arrived
  by_cases hroom : (loop.iterate tscHz config s.rx burst).out.length ≤ s.ring.free
  · have hentered : (s.receive tscHz config burst).entered =
        s.entered ++ (loop.iterate tscHz config s.rx burst).out := if_pos hroom
    constructor
    · refine ⟨origins ++ (addrs (loop.iterate tscHz config s.rx burst).out).map
        fun addr => (burst.tsc, addr), ?_, ?_⟩
      · rw [harrivals]
        exact hsub.append ((iterate_addrs_sublist tscHz config hsw s.rx burst).map _)
      · rw [hentered]
        apply List.rel_append harr
        rw [addrs, List.map_map, List.forall₂_map_left_iff, List.forall₂_same]
        intro m hm
        exact ⟨rfl, hdated.after _ (le_max_left _ _) m hm, hdated.within m hm⟩
    · rw [hentered, List.pairwise_append]
      refine ⟨h.sorted, hdated.sorted, ?_⟩
      intro m hm x hx
      exact UInt64.le_iff_toNat_le.mpr (hdated.after _ (h.passed m hm burst.tsc later) x hx)
    · intro m hm tsc htsc
      rw [hentered] at hm
      rcases List.mem_append.mp hm with hin | hnew
      · exact hold m hin tsc htsc
      · have hread : burst.tsc.toNat ≤ tsc.toNat :=
          UInt64.le_iff_toNat_le.mp (htsc burst (List.mem_append_right _ (List.mem_singleton_self _)))
        have hdue : ((burst.tsc.toNat + (swDelay ℚ tscHz config).toNat : ℕ) : ℚ) ≤
            (tsc.toNat + (swDelay ℚ tscHz config).toNat : ℕ) := by
          exact_mod_cast Nat.add_le_add_right hread _
        exact (hdated.before m hnew).trans (max_le_max_right _ hdue)
  · have hentered : (s.receive tscHz config burst).entered = s.entered := if_neg hroom
    constructor
    · rw [hentered, harrivals]
      exact ⟨origins, hsub.trans (List.sublist_append_left _ _), harr⟩
    · rw [hentered]
      exact h.sorted
    · rw [hentered]
      exact hold

theorem Observed.dates (hsw : loop.Software) {capacity : Nat} {clock : UInt64} {s : SwPath ℚ loop}
    (h : Observed tscHz config capacity clock bursts s)
    (hfits : ∀ rx ∈ bursts, (rx.tsc.toNat + (swDelay ℚ tscHz config).toNat : ℕ) +
      loop.backlog tscHz config < 2 ^ 64) : s.Dates tscHz config bursts := by
  induction h with
  | init => exact init_dates capacity clock
  | receive _ burst later ih =>
      have hbefore := ih fun rx hrx => hfits rx (List.mem_append_left _ hrx)
      exact hbefore.receive hsw burst later
        (hfits burst (List.mem_append_right _ (List.mem_singleton_self _)))
  | other _ _ alone ih =>
      obtain ⟨harrived, hsorted, hpassed⟩ := ih hfits
      rw [← alone.2] at harrived hsorted hpassed
      rw [← alone.1] at hpassed
      exact ⟨harrived, hsorted, hpassed⟩

/-! ## What leaves and what waits -/

def departures (s : SwPath D loop) : List (UInt64 × Mbuf) :=
  s.sent.flatMap fun call => call.2.map fun m => (call.1, m)

theorem departures_map_snd (s : SwPath D loop) : s.departures.map Prod.snd = s.sentPackets := by
  simp [departures, sentPackets, List.map_flatMap, Function.comp_def]

theorem Inv.departures_onTime {s : SwPath D loop} (h : s.Inv) :
    ∀ d ∈ s.departures, d.2.timestamp ≤ d.1 := by
  intro d hd
  obtain ⟨call, hcall, hin⟩ := List.mem_flatMap.mp hd
  obtain ⟨m, hm, rfl⟩ := List.mem_map.mp hin
  exact h.onTime call hcall m hm

/-- In every interleaving of a software receive loop with the transmit loop: the packets leave in
the order of their arrival, none sooner than the delay after the counter reading of its burst. As
long as the transmit loop waits for a packet, no packet behind it is due either, and every packet
is due within its delay and the longest backlog of the rate limiter. -/
theorem software_delay (tscHz : UInt64) (config : MoonemConfig) (capacity : Nat) (clock : UInt64)
    (hsw : loop.Software) (bursts : List RxBurst) (s : SwPath ℚ loop)
    (h : Observed tscHz config capacity clock bursts s) (hclock : Clocked tscHz config loop bursts) :
    (∃ origins waiting : List (UInt64 × Nat), (origins ++ waiting).Sublist (arrivals bursts) ∧
        List.Forall₂ (fun o d => o.2 = d.2.addr ∧
          o.1.toNat + (swDelay ℚ tscHz config).toNat ≤ d.1.toNat) origins s.departures ∧
        List.Forall₂ (fun o x => o.2 = x.addr ∧
          (x.timestamp.toNat : ℚ) ≤ (o.1.toNat + (swDelay ℚ tscHz config).toNat : ℕ) +
            loop.backlog tscHz config) waiting (s.pending ++ s.ring.contents)) ∧
      ∀ m rest, s.pending = m :: rest → s.clock < m.timestamp →
        ∀ x ∈ s.pending ++ s.ring.contents, s.clock < x.timestamp := by
  have hinv := h.reachable.inv hsw
  have hdates := h.dates hsw hclock.fits
  obtain ⟨origins, hsub, harr⟩ := hdates.arrived
  have hsorted := hdates.sorted
  rw [← hinv.fifo] at harr hsorted
  refine ⟨⟨origins.take s.sentPackets.length, origins.drop s.sentPackets.length, ?_, ?_, ?_⟩, ?_⟩
  · rw [List.take_append_drop]
    exact hsub
  · have hsent : List.Forall₂ (Arrived tscHz config loop) (origins.take s.sentPackets.length)
        (s.departures.map Prod.snd) := by
      rw [departures_map_snd]
      exact List.forall₂_take_append _ _ _ harr
    rw [List.forall₂_map_right_iff] at hsent
    have hboth := (List.forall₂_and_left _ _).mpr ⟨hinv.departures_onTime, hsent.flip⟩
    refine hboth.flip.imp ?_
    intro o d hod
    exact ⟨hod.2.addr, hod.2.notBefore.trans (UInt64.le_iff_toNat_le.mp hod.1)⟩
  · refine (List.forall₂_drop_append _ _ _ harr).imp ?_
    intro o x hox
    exact ⟨hox.addr, hox.notAfter⟩
  · intro m rest hhead hwait x hx
    have hwaiting := (List.pairwise_append.mp hsorted).2.1
    rw [hhead, List.cons_append] at hwaiting hx
    rcases List.mem_cons.mp hx with rfl | hbehind
    · exact hwait
    · exact UInt64.lt_of_lt_of_le hwait (List.rel_of_pairwise_cons hwaiting hbehind)

/-- Two packets of one burst. The bucket lets the second one wait for the first one's time on the
wire, and so does the transmit loop. -/
theorem software_delay_backlog :
    let config : MoonemConfig := ⟨5, 1000, 1000, 12345, .none, 0, fun _ => 0⟩
    let burst : RxBurst := ⟨[⟨1, 60, 0, 0⟩, ⟨2, 60, 0, 0⟩], 7, by decide⟩
    ∃ s : SwPath ℚ .swRateLeakyBucket, Observed 1000000000 config 4 0 [burst] s ∧
      s.departures = [(20, ⟨1, 60, 12, 1⟩)] ∧ s.pending = [⟨2, 60, 684, 1⟩] ∧
      ∃ origins waiting : List (UInt64 × Nat), (origins ++ waiting).Sublist (arrivals [burst]) ∧
        List.Forall₂ (fun o d => o.2 = d.2.addr ∧
          o.1.toNat + (swDelay ℚ 1000000000 config).toNat ≤ d.1.toNat) origins s.departures ∧
        List.Forall₂ (fun o x => o.2 = x.addr ∧
          (x.timestamp.toNat : ℚ) ≤ (o.1.toNat + (swDelay ℚ 1000000000 config).toNat : ℕ) +
            ReceiveLoop.swRateLeakyBucket.backlog 1000000000 config) waiting
              (s.pending ++ s.ring.contents) := by
  intro config burst
  let received := (init config 4 0 : SwPath ℚ .swRateLeakyBucket).receive 1000000000 config burst
  let late : SwPath ℚ .swRateLeakyBucket := { received with clock := 20 }
  let taken := late.dequeueBurst 2
  let ready : SwPath ℚ .swRateLeakyBucket := { taken with polled := true }
  have hhead : taken.pending = [⟨1, 60, 12, 1⟩, ⟨2, 60, 684, 1⟩] := by decide +kernel
  have hreceived : Observed 1000000000 config 4 0 [burst] received :=
    .receive .init burst fun _ h => absurd h List.not_mem_nil
  have hlate : Observed 1000000000 config 4 0 [burst] late :=
    .other hreceived (.tick (by decide)) ⟨rfl, rfl⟩
  have hdequeue : Step 1000000000 config late taken :=
    .dequeue rfl (by decide) (by decide) (by decide +kernel)
  have htaken : Observed 1000000000 config 4 0 [burst] taken :=
    .other hlate hdequeue ⟨rfl, rfl⟩
  have hsent : Observed 1000000000 config 4 0 [burst] (ready.sendGroup ⟨1, 60, 12, 1⟩) :=
    .other (.other htaken (.poll hhead (by decide)) ⟨rfl, rfl⟩) (.send hhead rfl) ⟨rfl, rfl⟩
  have hclock : Clocked 1000000000 config .swRateLeakyBucket [burst] := by
    refine ⟨by decide, fun _ => by decide, ?_⟩
    intro rx hrx
    rw [List.mem_singleton.mp hrx]
    decide +kernel
  have hsw : ReceiveLoop.swRateLeakyBucket.Software := trivial
  exact ⟨_, hsent, by decide +kernel, by decide +kernel,
    (software_delay 1000000000 config 4 0 hsw [burst] _ hsent hclock).1⟩

end SwPath

end MoonGen.Moonem

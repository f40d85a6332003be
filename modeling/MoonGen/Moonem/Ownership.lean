import MoonGen.Moonem.Receiver

/-! # Ownership of received buffers

Rate limiter and loss model split a burst into the buffers they free and the
buffers they pass to the ring. The ring takes all of the latter or none, and no
loop looks at its answer.
-/

namespace MoonGen.Moonem

open Sieve Double

variable {D : Type} [Double D]

/-! ## The six loops that feed a ring -/

inductive ReceiveLoop where
  | delay
  | rateLeakyBucket
  | rateTokenBucket
  | swDelay
  | swRateTokenBucket
  | swRateLeakyBucket
deriving Repr, DecidableEq

namespace ReceiveLoop

@[reducible] def State (D : Type) : ReceiveLoop → Type
  | .delay | .swDelay => LossState
  | .rateLeakyBucket => LeakyLoopState D
  | .rateTokenBucket => TokenLoopState D
  | .swRateTokenBucket => SwTokenLoopState D
  | .swRateLeakyBucket => SwLeakyLoopState D

@[reducible] def Passed (D : Type) : ReceiveLoop → Type
  | .delay | .swDelay | .rateTokenBucket | .swRateTokenBucket => Mbuf
  | .rateLeakyBucket | .swRateLeakyBucket => Shaped D

def init (config : MoonemConfig) : (loop : ReceiveLoop) → loop.State D
  | .delay | .swDelay => LossState.init config
  | .rateLeakyBucket => LeakyLoopState.init config
  | .rateTokenBucket => TokenLoopState.init config
  | .swRateTokenBucket => SwTokenLoopState.init config
  | .swRateLeakyBucket => SwLeakyLoopState.init config

def iterate (tscHz : UInt64) (config : MoonemConfig) : (loop : ReceiveLoop) → loop.State D →
    RxBurst → Iteration (loop.State D) (loop.Passed D)
  | .delay => receiverLoopDelay config
  | .rateLeakyBucket => receiverLoopRateLeakyBucket config
  | .rateTokenBucket => receiverLoopRateTokenBucket config
  | .swDelay => swReceiverLoopDelay D tscHz config
  | .swRateTokenBucket => swReceiverLoopRateTokenBucket tscHz config
  | .swRateLeakyBucket => swReceiverLoopRateLeakyBucket tscHz config

/-- The rate limiter's answer to each packet of a burst. The delay loops have none. -/
def passes (tscHz : UInt64) (config : MoonemConfig) : (loop : ReceiveLoop) → loop.State D →
    RxBurst → List Bool
  | .delay, _, rx | .swDelay, _, rx => List.replicate rx.pkts.length true
  | .rateLeakyBucket, s, rx =>
      decisions (leakyBucketPacket (backlogBound config (bitsPerNs config))
        (fun len => div (frameBits len) (bitsPerNs config)) Mbuf.timestamp config.delay) s.nextAt
        rx.pkts
  | .rateTokenBucket, s, rx =>
      decisions (tokenBucketPacket (tokenRate config) (ofUInt64 config.capacity)) s.bucket rx.pkts
  | .swRateTokenBucket, s, rx =>
      decisions spendTokens (s.bucket.currentTokens (swTokenRate tscHz config)
        (ofUInt64 config.capacity) rx.tsc) rx.pkts
  | .swRateLeakyBucket, s, rx =>
      decisions (leakyBucketPacket (backlogBound config (bitsPerTsc tscHz config))
        (fun len => div (mul (frameBytes len) (ofUInt64 8)) (bitsPerTsc tscHz config))
        (fun _ => rx.tsc) (Moonem.swDelay D tscHz config)) s.nextAt rx.pkts

/-- The next decisions of the loss test; `true` drops a packet. -/
def lossDraws (config : MoonemConfig) : (loop : ReceiveLoop) → loop.State D → Nat → List Bool
  | .delay, s, n | .swDelay, s, n => draws (lossDrop config) s n
  | .rateLeakyBucket, s, n => draws (lossDrop config) s.loss n
  | .rateTokenBucket, s, n => draws (lossDrop config) s.loss n
  | .swRateTokenBucket, s, n => draws (swLossDrop config) s.loss n
  | .swRateLeakyBucket, s, n => draws (swLossDrop config) s.loss n

def survivors (tscHz : UInt64) (config : MoonemConfig) (loop : ReceiveLoop) (s : loop.State D)
    (rx : RxBurst) : Nat :=
  (loop.lossDraws config s ((loop.passes tscHz config s rx).count true)).count false

end ReceiveLoop

def Iteration.freed (it : Iteration σ β) : List Mbuf := it.limited ++ it.lost

/-! ## Every buffer is freed or passed on -/

def addrs (bufs : List Mbuf) : List Nat := bufs.map Mbuf.addr

@[simp] theorem addrs_append (bufs more : List Mbuf) :
    addrs (bufs ++ more) = addrs bufs ++ addrs more := by
  simp [addrs]

@[simp] theorem addrs_stampBurst (timestamp : UInt64) (bufs : List Mbuf) :
    addrs (stampBurst timestamp bufs) = addrs bufs := by
  induction bufs with
  | nil => rfl
  | cons m rest ih => exact congrArg (m.addr :: ·) ih

def Splits (freed out rx : List Mbuf) : Prop := (addrs out ++ addrs freed).Perm (addrs rx)

theorem lossStage_splits (config : MoonemConfig) (s : LossState) (bufs : List Mbuf) :
    Splits (lossStage config s bufs).dropped (lossStage config s bufs).kept bufs := by
  rw [lossStage_eq_sift]
  exact sift_perm (fun _ _ _ hsome => congrArg Mbuf.addr (dropBy_some hsome)) s bufs

theorem lossStage_sublist (config : MoonemConfig) (s : LossState) (bufs : List Mbuf) :
    (lossStage config s bufs).kept.Sublist bufs := by
  rw [lossStage_eq_sift]
  exact sift_dropBy_kept_sublist _ _ _

theorem Splits.trans {limited lost out admitted rx : List Mbuf}
    (hlimit : Splits limited admitted rx) (hloss : Splits lost out admitted) :
    Splits (limited ++ lost) out rx := by
  unfold Splits at *
  rw [addrs_append]
  have hswap : (addrs out ++ (addrs limited ++ addrs lost)).Perm
      ((addrs out ++ addrs lost) ++ addrs limited) := by
    rw [List.append_assoc]
    exact List.Perm.append_left _ List.perm_append_comm
  exact (hswap.trans (hloss.append_right _)).trans hlimit

theorem leakyBucketPacket_some {backlogBound : D} {wireTime : UInt32 → D} {recv : Mbuf → UInt64}
    {delay : UInt64} {nextAt : D} {m : Mbuf} {a : Shaped D}
    (h : (leakyBucketPacket backlogBound wireTime recv delay nextAt m).2 = some a) : a.pkt = m := by
  unfold leakyBucketPacket at h
  dsimp only at h
  split at h
  · cases h
  · rw [← Option.some.inj h]

theorem tokenBucket_splits (tokenRate capacity : D) (s : TokenState D) (bufs : List Mbuf) :
    Splits (sift (tokenBucketPacket tokenRate capacity) s bufs).dropped
      (sift (tokenBucketPacket tokenRate capacity) s bufs).kept bufs :=
  sift_perm (fun _ _ _ h => congrArg Mbuf.addr (tokenBucketPacket_some h)) s bufs

theorem spendTokens_splits (currentTokens : D) (bufs : List Mbuf) :
    Splits (sift spendTokens currentTokens bufs).dropped (sift spendTokens currentTokens bufs).kept
      bufs :=
  sift_perm (fun _ _ _ h => congrArg Mbuf.addr (spendTokens_some h)) currentTokens bufs

theorem leakyBucket_splits (backlogBound : D) (wireTime : UInt32 → D) (recv : Mbuf → UInt64)
    (delay : UInt64) (nextAt : D) (bufs : List Mbuf) :
    Splits (sift (leakyBucketPacket backlogBound wireTime recv delay) nextAt bufs).dropped
      ((sift (leakyBucketPacket backlogBound wireTime recv delay) nextAt bufs).kept.map Shaped.pkt)
      bufs := by
  have hkey : ∀ (nextAt : D) (m : Mbuf) (a : Shaped D),
      (leakyBucketPacket backlogBound wireTime recv delay nextAt m).2 = some a →
        a.pkt.addr = m.addr :=
    fun _ _ _ h => congrArg Mbuf.addr (leakyBucketPacket_some h)
  simpa [Splits, addrs, Function.comp_def] using sift_perm hkey nextAt bufs

theorem Splits.of_addrs {freed out out' rx rx' : List Mbuf} (h : Splits freed out rx)
    (hout : addrs out' = addrs out) (hrx : addrs rx' = addrs rx) : Splits freed out' rx' := by
  unfold Splits at *
  rw [hout, hrx]
  exact h

theorem swLoss_splits (draw : UInt64 → Bool × UInt64) (pkt : β → Mbuf) (s : UInt64)
    (bs : List β) :
    Splits ((sift (dropBy draw) s bs).dropped.map pkt) ((sift (dropBy draw) s bs).kept.map pkt)
      (bs.map pkt) := by
  have hkey : ∀ (s : UInt64) (b c : β), (dropBy draw s b).2 = some c →
      (pkt c).addr = (pkt b).addr :=
    fun _ _ _ h => congrArg (fun b => (pkt b).addr) (dropBy_some h)
  simpa [Splits, addrs, Function.comp_def] using sift_perm hkey s bs

/-- Whatever the loop, its configuration and its state: nothing is freed twice,
nothing is both freed and passed on, and nothing is forgotten before the ring. -/
theorem iterate_splits (tscHz : UInt64) (config : MoonemConfig) (loop : ReceiveLoop)
    (s : loop.State D) (rx : RxBurst) :
    Splits (loop.iterate tscHz config s rx).freed (loop.iterate tscHz config s rx).out rx.pkts := by
  cases loop with
  | delay =>
      exact (lossStage_splits config s _).of_addrs rfl (by simp [addrs])
  | rateLeakyBucket =>
      refine (leakyBucket_splits _ _ _ _ _ rx.pkts).trans ?_
      exact (lossStage_splits config _ _).of_addrs rfl (by simp [addrs])
  | rateTokenBucket =>
      refine (tokenBucket_splits _ _ _ rx.pkts).trans ?_
      exact (lossStage_splits config _ _).of_addrs rfl (by simp [addrs])
  | swDelay =>
      exact (lossStage_splits config s rx.pkts).of_addrs (addrs_stampBurst _ _) rfl
  | swRateTokenBucket =>
      simp only [ReceiveLoop.iterate, swReceiverLoopRateTokenBucket]
      split
      next hnil => simp [Splits, Iteration.freed, addrs, hnil]
      next =>
        rw [pipe_eq_sift]
        refine Splits.trans (spendTokens_splits _ rx.pkts) ?_
        have hloss := swLoss_splits (swLossDrop config) id s.loss
          (sift spendTokens (s.bucket.currentTokens (swTokenRate tscHz config)
            (Double.ofUInt64 config.capacity) rx.tsc) rx.pkts).kept
        simp only [List.map_id] at hloss
        exact hloss.of_addrs (addrs_stampBurst _ _) rfl
  | swRateLeakyBucket =>
      simp only [ReceiveLoop.iterate, swReceiverLoopRateLeakyBucket]
      rw [pipe_eq_sift]
      refine Splits.trans (leakyBucket_splits _ _ _ _ _ rx.pkts) ?_
      exact (swLoss_splits _ Shaped.pkt _ _).of_addrs (by simp [addrs]) rfl

@[simp] theorem stampBurst_length (timestamp : UInt64) (bufs : List Mbuf) :
    (stampBurst timestamp bufs).length = bufs.length := by
  simpa [addrs] using congrArg List.length (addrs_stampBurst timestamp bufs)

theorem lossStage_kept_length (config : MoonemConfig) (s : LossState) (bufs : List Mbuf) :
    (lossStage config s bufs).kept.length =
      (draws (lossDrop config) s bufs.length).count false := by
  rw [lossStage_eq_sift, sift_dropBy_kept_length]

theorem iterate_out_length (tscHz : UInt64) (config : MoonemConfig) (loop : ReceiveLoop)
    (s : loop.State D) (rx : RxBurst) :
    (loop.iterate tscHz config s rx).out.length = loop.survivors tscHz config s rx := by
  cases loop with
  | delay =>
      simp [ReceiveLoop.iterate, receiverLoopDelay, ReceiveLoop.survivors, ReceiveLoop.passes,
        ReceiveLoop.lossDraws, lossStage_kept_length]
  | rateLeakyBucket =>
      simp [ReceiveLoop.iterate, receiverLoopRateLeakyBucket, ReceiveLoop.survivors,
        ReceiveLoop.passes, ReceiveLoop.lossDraws, lossStage_kept_length, sift_kept_length]
  | rateTokenBucket =>
      simp [ReceiveLoop.iterate, receiverLoopRateTokenBucket, ReceiveLoop.survivors,
        ReceiveLoop.passes, ReceiveLoop.lossDraws, lossStage_kept_length, sift_kept_length]
  | swDelay =>
      simp [ReceiveLoop.iterate, swReceiverLoopDelay, ReceiveLoop.survivors, ReceiveLoop.passes,
        ReceiveLoop.lossDraws, lossStage_kept_length]
  | swRateTokenBucket =>
      simp only [ReceiveLoop.iterate, swReceiverLoopRateTokenBucket, ReceiveLoop.survivors,
        ReceiveLoop.passes, ReceiveLoop.lossDraws]
      split
      next hnil => simp [hnil, decisions, draws]
      next =>
        rw [pipe_eq_sift, stampBurst_length, ← sift_kept_length]
        exact sift_dropBy_kept_length _ _ _
  | swRateLeakyBucket =>
      simp only [ReceiveLoop.iterate, swReceiverLoopRateLeakyBucket, ReceiveLoop.survivors,
        ReceiveLoop.passes, ReceiveLoop.lossDraws]
      rw [pipe_eq_sift, List.length_map, ← sift_kept_length]
      exact sift_dropBy_kept_length _ _ _

/-! ## The ring's answer decides -/

/-- Freed once and not in the ring, or once in the ring and not freed. -/
def OwnedOnce (freed : List Mbuf) (ring : Ring Mbuf) (m : Mbuf) : Prop :=
  (addrs freed).count m.addr + (addrs ring.contents).count m.addr = 1

/-- The NIC hands over distinct buffers, none of which is in the ring. -/
def Fresh (rx : List Mbuf) (ring : Ring Mbuf) : Prop := (addrs (rx ++ ring.contents)).Nodup

theorem Fresh.count_rx {rx : List Mbuf} {ring : Ring Mbuf} (h : Fresh rx ring) {m : Mbuf}
    (hm : m ∈ rx) :
    (addrs rx).count m.addr = 1 ∧ (addrs ring.contents).count m.addr = 0 := by
  have hmem : m.addr ∈ addrs rx := List.mem_map_of_mem hm
  have hone : (addrs (rx ++ ring.contents)).count m.addr = 1 := by
    rw [List.Nodup.count h, if_pos (by simp [hmem])]
  rw [addrs_append, List.count_append] at hone
  have hpos := List.count_pos_iff.mpr hmem
  omega

theorem owned_of_room {freed out rx : List Mbuf} {ring : Ring Mbuf} (hsplit : Splits freed out rx)
    (hfresh : Fresh rx ring) (hroom : out.length ≤ ring.free) :
    ∀ m ∈ rx, OwnedOnce freed (ring.enqueueBulk out) m := by
  intro m hm
  obtain ⟨hrx, hring⟩ := hfresh.count_rx hm
  have hcount := List.Perm.count_eq hsplit m.addr
  rw [List.count_append] at hcount
  rw [OwnedOnce, Ring.enqueueBulk_of_room hroom, addrs_append, List.count_append]
  omega

theorem leaked_of_full {freed out rx : List Mbuf} {ring : Ring Mbuf} (hsplit : Splits freed out rx)
    (hfresh : Fresh rx ring) (hfull : ¬ out.length ≤ ring.free) :
    ∃ m ∈ rx, ¬ OwnedOnce freed (ring.enqueueBulk out) m := by
  cases out with
  | nil => simp at hfull
  | cons o rest =>
      have hpassed : o.addr ∈ addrs (o :: rest) ++ addrs freed := by simp [addrs]
      obtain ⟨m, hm, haddr⟩ := List.mem_map.mp ((List.Perm.mem_iff hsplit).mp hpassed)
      obtain ⟨hrx, hring⟩ := hfresh.count_rx hm
      have hcount := List.Perm.count_eq hsplit m.addr
      have hpos : 0 < (addrs (o :: rest)).count m.addr :=
        List.count_pos_iff.mpr (by simp [addrs, haddr])
      rw [List.count_append] at hcount
      refine ⟨m, hm, ?_⟩
      rw [OwnedOnce, Ring.enqueueBulk_of_full hfull]
      omega

/-- After any burst in any state of any of the six loops, every received buffer is
owned exactly once if and only if the ring has room for all packets that survive
rate limiter and loss test. -/
theorem iterate_owned_iff_room (tscHz : UInt64) (config : MoonemConfig) (loop : ReceiveLoop)
    (s : loop.State D) (rx : RxBurst) (ring : Ring Mbuf) (hfresh : Fresh rx.pkts ring) :
    (∀ m ∈ rx.pkts, OwnedOnce (loop.iterate tscHz config s rx).freed
        (ring.enqueueBulk (loop.iterate tscHz config s rx).out) m) ↔
      loop.survivors tscHz config s rx ≤ ring.free := by
  have hsplit := iterate_splits tscHz config loop s rx
  rw [← iterate_out_length]
  constructor
  · intro howned
    by_cases hroom : (loop.iterate tscHz config s rx).out.length ≤ ring.free
    · exact hroom
    · obtain ⟨m, hm, hleak⟩ := leaked_of_full hsplit hfresh hroom
      exact absurd (howned m hm) hleak
  · exact owned_of_room hsplit hfresh

def delayOnly (delay : UInt64) : MoonemConfig := ⟨delay, 0, 32768, 12345, .none, 0, fun _ => 0⟩

theorem iterate_owned_iff_room_delayOnly :
    Fresh [⟨1, 60, 0, 0⟩] (.empty 1) ∧
      ((∀ m ∈ [(⟨1, 60, 0, 0⟩ : Mbuf)],
          OwnedOnce (ReceiveLoop.delay.iterate (D := Rat) 1000000000 (delayOnly 5) ⟨12345, 0⟩
              ⟨[⟨1, 60, 0, 0⟩], 7, by decide⟩).freed
            ((Ring.empty 1).enqueueBulk (ReceiveLoop.delay.iterate (D := Rat) 1000000000
              (delayOnly 5) ⟨12345, 0⟩ ⟨[⟨1, 60, 0, 0⟩], 7, by decide⟩).out) m) ↔
        ReceiveLoop.delay.survivors (D := Rat) 1000000000 (delayOnly 5) ⟨12345, 0⟩
          ⟨[⟨1, 60, 0, 0⟩], 7, by decide⟩ ≤ (Ring.empty (α := Mbuf) 1).free) :=
  ⟨by unfold Fresh; decide, iterate_owned_iff_room 1000000000 (delayOnly 5) .delay ⟨12345, 0⟩
    ⟨[⟨1, 60, 0, 0⟩], 7, by decide⟩ (.empty 1) (by unfold Fresh; decide)⟩

/-- One buffer arrives while the ring is full: it is neither freed nor enqueued. -/
theorem iterate_leaks_when_full :
    Fresh [⟨2, 60, 0, 0⟩] ⟨[⟨1, 60, 5, 0⟩], 1, by decide⟩ ∧
      ¬ OwnedOnce (ReceiveLoop.delay.iterate (D := Rat) 1000000000 (delayOnly 5) ⟨12345, 0⟩
          ⟨[⟨2, 60, 0, 0⟩], 7, by decide⟩).freed
        (Ring.enqueueBulk ⟨[⟨1, 60, 5, 0⟩], 1, by decide⟩
          (ReceiveLoop.delay.iterate (D := Rat) 1000000000 (delayOnly 5) ⟨12345, 0⟩
            ⟨[⟨2, 60, 0, 0⟩], 7, by decide⟩).out) ⟨2, 60, 0, 0⟩ := by
  unfold Fresh OwnedOnce
  decide

end MoonGen.Moonem

import MoonGen.Moonem.LossModel
import MoonGen.Moonem.Receiver

/-! # Loss in the software rate loops

The hardware rate loops hand what passes the rate limiter to `applyLoss`. The
software rate loops test `config.loss` packet by packet, and `master` fills that
field for the uniform model only.
-/

namespace MoonGen.Moonem

open Sieve

/-! ## Software: the inlined test over the run -/

section Software

variable {D : Type} [Double D]

theorem swReceiverLoopRateTokenBucket_lost (tscHz : UInt64) (config : MoonemConfig)
    (s : SwTokenLoopState D) (bursts : List RxBurst) :
    (serve (swReceiverLoopRateTokenBucket tscHz config) s bursts).lost =
      (sift (dropBy (swLossDrop config)) s.loss
        (serve (swReceiverLoopRateTokenBucket tscHz config) s bursts).admitted).dropped := by
  have hstep (s : SwTokenLoopState D) (rx : RxBurst) :
      (swReceiverLoopRateTokenBucket tscHz config s rx).lost =
          (sift (dropBy (swLossDrop config)) s.loss
            ((swReceiverLoopRateTokenBucket tscHz config s rx).admitted.map id)).dropped ∧
        (swReceiverLoopRateTokenBucket tscHz config s rx).state.loss =
          (sift (dropBy (swLossDrop config)) s.loss
            ((swReceiverLoopRateTokenBucket tscHz config s rx).admitted.map id)).state := by
    rw [List.map_id]
    unfold swReceiverLoopRateTokenBucket
    split
    · exact ⟨rfl, rfl⟩
    · simp only [pipe_eq_sift, and_self]
  simpa only [List.map_id] using serve_lost SwTokenLoopState.loss id hstep s bursts

theorem swReceiverLoopRateLeakyBucket_lost (tscHz : UInt64) (config : MoonemConfig)
    (s : SwLeakyLoopState D) (bursts : List RxBurst) :
    (serve (swReceiverLoopRateLeakyBucket tscHz config) s bursts).lost =
      (sift (dropBy (swLossDrop config)) s.loss
        ((serve (swReceiverLoopRateLeakyBucket tscHz config) s bursts).admitted.map
          Shaped.pkt)).dropped := by
  apply serve_lost SwLeakyLoopState.loss
  intro s rx
  simp only [swReceiverLoopRateLeakyBucket, pipe_eq_sift]
  obtain ⟨_, hdropped, hstate⟩ := sift_dropBy_map (swLossDrop config) Shaped.pkt s.loss
    (sift (leakyBucketPacket (D := D) (backlogBound config (bitsPerTsc tscHz config))
      (fun len => Double.div (Double.mul (Double.frameBytes len) (Double.ofUInt64 8))
        (bitsPerTsc tscHz config)) (fun _ => rx.tsc) (swDelay D tscHz config)) s.nextAt
        rx.pkts).kept
  exact ⟨hdropped.symm, hstate.symm⟩

end Software

/-! ## The two tests compared -/

theorem swLossDrop_never {config : MoonemConfig} (h : config.loss = 0) (random : UInt64) :
    (swLossDrop config random).1 = false := by
  simp [swLossDrop, h]

theorem uniformDrop_never {config : MoonemConfig} (h : config.loss = 0) (s : LossState) :
    (uniformDrop config s).1 = false := by
  simp [uniformDrop, h]

theorem swLossDrop_random {config : MoonemConfig} (h : 0 < config.loss) (s : LossState) :
    swLossDrop config s.random = ((uniformDrop config s).1, (uniformDrop config s).2.random) := by
  simp [swLossDrop, uniformDrop, h]

theorem swLossDrop_eq_uniform (config : MoonemConfig) (s : LossState) (bufs : List Mbuf) :
    (sift (dropBy (swLossDrop config)) s.random bufs).dropped =
      (sift (dropBy (uniformDrop config)) s bufs).dropped := by
  by_cases h : config.loss = 0
  · rw [(sift_dropBy_of_never (swLossDrop_never h) _ bufs).2,
      (sift_dropBy_of_never (uniformDrop_never h) _ bufs).2]
  · have hpos : 0 < config.loss := UInt64.pos_iff_ne_zero.mpr h
    exact sift_dropBy_view LossState.random (swLossDrop_random hpos) s bufs

/-- The loss models the software rate loops apply, and runs of the two others in
which the first `n` decisions from the seed all keep the packet. -/
def SwLossAgrees (config : MoonemConfig) (n : Nat) : Prop :=
  config.lossType = .none ∨ config.lossType = .uniform ∨
    true ∉ draws (lossDrop config) (LossState.init config) n

theorem swLoss_eq_applyLoss_iff {config : MoonemConfig}
    (hloss : config.lossType ≠ .uniform → config.loss = 0) (bufs : List Mbuf) :
    (sift (dropBy (swLossDrop config)) config.lossSeed bufs).dropped =
        (applyLoss config (LossState.init config) bufs).dropped ↔
      SwLossAgrees config bufs.length := by
  by_cases hu : config.lossType = .uniform
  · refine iff_of_true ?_ (.inr (.inl hu))
    simp only [applyLoss, hu]
    exact swLossDrop_eq_uniform config (LossState.init config) bufs
  · rw [(sift_dropBy_of_never (swLossDrop_never (hloss hu)) _ bufs).2]
    by_cases hn : config.lossType = .none
    · refine iff_of_true ?_ (.inl hn)
      simp only [applyLoss, hn]
    · rw [applyLoss_eq_sift hn, eq_comm, sift_dropBy_dropped_eq_nil_iff]
      simp [SwLossAgrees, hn, hu]

def swTokenRun (D : Type) [Double D] (tscHz : UInt64) (config : MoonemConfig)
    (bursts : List RxBurst) : Iteration (SwTokenLoopState D) Mbuf :=
  serve (swReceiverLoopRateTokenBucket tscHz config) (.init config) bursts

def swLeakyRun (D : Type) [Double D] (tscHz : UInt64) (config : MoonemConfig)
    (bursts : List RxBurst) : Iteration (SwLeakyLoopState D) (Shaped D) :=
  serve (swReceiverLoopRateLeakyBucket tscHz config) (.init config) bursts

/-- With a configuration `master` builds, the packets a software rate loop discards
as loss over a run are those `applyLoss` discards from the same sequence and seed
exactly under the conditions of `SwLossAgrees`. -/
theorem swLost_eq_applyLoss_iff {D : Type} [Double D] {args : Args} {config : MoonemConfig}
    (hconfig : master args = some config) (tscHz : UInt64) (bursts : List RxBurst) :
    ((swTokenRun D tscHz config bursts).lost =
        (applyLoss config (.init config) (swTokenRun D tscHz config bursts).admitted).dropped ↔
      SwLossAgrees config (swTokenRun D tscHz config bursts).admitted.length) ∧
    ((swLeakyRun D tscHz config bursts).lost =
        (applyLoss config (.init config)
          ((swLeakyRun D tscHz config bursts).admitted.map Shaped.pkt)).dropped ↔
      SwLossAgrees config (swLeakyRun D tscHz config bursts).admitted.length) := by
  constructor
  · rw [swTokenRun, swReceiverLoopRateTokenBucket_lost]
    exact swLoss_eq_applyLoss_iff (master_loss hconfig) _
  · have hiff := swLoss_eq_applyLoss_iff (master_loss hconfig)
      ((swLeakyRun D tscHz config bursts).admitted.map Shaped.pkt)
    rw [List.length_map] at hiff
    rw [← hiff, swLeakyRun, swReceiverLoopRateLeakyBucket_lost]
    rfl

def lossArgs (loss : Rat) (geLoss : Option (List Rat)) : Args :=
  ⟨0, 1, loss, geLoss, none, false, false, 32768, 12345, 1⟩

def threePackets : RxBurst :=
  ⟨[⟨1, 60, 0, 0⟩, ⟨2, 60, 0, 0⟩, ⟨3, 60, 0, 0⟩], 1000000000, by decide⟩

theorem swLost_eq_applyLoss_iff_uniform :
    ∃ config, master (lossArgs 50 none) = some config ∧
      (swTokenRun Rat 1000000000 config [threePackets]).lost = [⟨1, 60, 0, 0⟩, ⟨3, 60, 0, 0⟩] ∧
      (swTokenRun Rat 1000000000 config [threePackets]).lost =
        (applyLoss config (.init config)
          (swTokenRun Rat 1000000000 config [threePackets]).admitted).dropped := by
  have hlost : (master (lossArgs 50 none)).map (fun config =>
      (config.lossType, (swTokenRun Rat 1000000000 config [threePackets]).lost)) =
        some (.uniform, [⟨1, 60, 0, 0⟩, ⟨3, 60, 0, 0⟩]) := by
    decide +kernel
  obtain ⟨config, hconfig, heq⟩ := Option.map_eq_some_iff.mp hlost
  simp only [Prod.mk.injEq] at heq
  have hiff := (swLost_eq_applyLoss_iff (D := Rat) hconfig 1000000000 [threePackets]).1
  exact ⟨config, hconfig, heq.2, hiff.mpr (.inr (.inl heq.1))⟩

/-- Under the Gilbert-Elliot model `applyLoss` discards packets of this run and the
software token bucket none. -/
theorem swLost_none_under_ge :
    ∃ config, master (lossArgs 0 (some [1, 10])) = some config ∧
      (swTokenRun Rat 1000000000 config [threePackets]).admitted = threePackets.pkts ∧
      (swTokenRun Rat 1000000000 config [threePackets]).lost = [] ∧
      (applyLoss config (.init config)
        (swTokenRun Rat 1000000000 config [threePackets]).admitted).dropped =
          threePackets.pkts := by
  have hrun : (master (lossArgs 0 (some [1, 10]))).map (fun config =>
      ((swTokenRun Rat 1000000000 config [threePackets]).admitted,
        (swTokenRun Rat 1000000000 config [threePackets]).lost,
        (applyLoss config (.init config)
          (swTokenRun Rat 1000000000 config [threePackets]).admitted).dropped)) =
        some (threePackets.pkts, [], threePackets.pkts) := by
    decide +kernel
  obtain ⟨config, hconfig, heq⟩ := Option.map_eq_some_iff.mp hrun
  simp only [Prod.mk.injEq] at heq
  exact ⟨config, hconfig, heq⟩

end MoonGen.Moonem

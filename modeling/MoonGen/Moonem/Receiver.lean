import MoonGen.Double
import MoonGen.Lib.Ring
import MoonGen.Moonem.Common

/-! # The receive loops of the path emulator

One definition per receive loop of `moonem.cpp` and `moonem_sw.cpp`: what one
iteration does with the burst it received. The hardware loops limit the rate of
the whole burst and then call `applyLoss`; the software loops test rate and loss
packet by packet. The doubles of the rate limiters are an arbitrary `Double`.
-/

namespace MoonGen.Moonem

open Sieve

/-- A burst as `rte_eth_rx_burst` returns it, and the cycle counter that the
software loops read for it. -/
structure RxBurst where
  pkts : List Mbuf
  tsc : UInt64
  short : pkts.length ≤ burstSize

/-- One iteration: the packets that pass the rate limiter, those it frees, those
freed as loss, and the argument of the bulk enqueue. -/
structure Iteration (σ β : Type) where
  state : σ
  admitted : List β
  limited : List Mbuf
  lost : List Mbuf
  out : List Mbuf

variable {D : Type} [Double D]

open Double

/-! ## Rate limiters -/

structure TokenState (D : Type) where
  previousTimestamp : D
  previousTokens : D

def TokenState.init : TokenState D := ⟨ofUInt64 0, ofUInt64 0⟩

def TokenState.currentTokens (tokenRate capacity : D) (s : TokenState D) (recvTime : UInt64) : D :=
  Double.min (add s.previousTokens (mul (sub (ofUInt64 recvTime) s.previousTimestamp) tokenRate))
    capacity

/-- Per-packet test of the hardware token buckets: the refill is recorded only
when the packet is accepted. -/
def tokenBucketPacket (tokenRate capacity : D) (s : TokenState D) (m : Mbuf) :
    TokenState D × Option Mbuf :=
  let currentTokens := s.currentTokens tokenRate capacity m.timestamp
  if lt (frameBytes m.pktLen) currentTokens then
    (⟨ofUInt64 m.timestamp, sub currentTokens (frameBytes m.pktLen)⟩, some m)
  else (s, none)

/-- Per-packet test of the software token bucket, on the level of the burst. -/
def spendTokens (currentTokens : D) (m : Mbuf) : D × Option Mbuf :=
  if lt currentTokens (frameBytes m.pktLen) then (currentTokens, none)
  else (sub currentTokens (frameBytes m.pktLen), some m)

/-- An accepted packet of a leaky bucket with its receive time, the 64-bit sum of
receive time and delay, and the send time it is given. -/
structure Shaped (D : Type) where
  pkt : Mbuf
  recv : UInt64
  sendTime : UInt64
  realSendTime : D

def leakyBucketPacket (backlogBound : D) (wireTime : UInt32 → D) (recv : Mbuf → UInt64)
    (delay : UInt64) (nextAt : D) (m : Mbuf) : D × Option (Shaped D) :=
  let sendTime := recv m + delay
  let realSendTime := Double.max (ofUInt64 sendTime) nextAt
  let backlog := sub realSendTime (ofUInt64 sendTime)
  if lt backlogBound backlog then (nextAt, none)
  else (add realSendTime (wireTime m.pktLen), some ⟨m, recv m, sendTime, realSendTime⟩)

theorem tokenBucketPacket_some {tokenRate capacity : D} {s : TokenState D} {m m' : Mbuf}
    (h : (tokenBucketPacket tokenRate capacity s m).2 = some m') : m' = m := by
  unfold tokenBucketPacket at h
  dsimp only at h
  split at h
  · exact (Option.some.inj h).symm
  · cases h

theorem spendTokens_some {currentTokens : D} {m m' : Mbuf}
    (h : (spendTokens currentTokens m).2 = some m') : m' = m := by
  unfold spendTokens at h
  split at h
  · cases h
  · exact (Option.some.inj h).symm

/-! ## Hardware loops -/

def receiverLoopDelay (config : MoonemConfig) (s : LossState) (rx : RxBurst) :
    Iteration LossState Mbuf :=
  let rxPkts := rx.pkts.map fun m => m.setTimestampDynfield (m.timestamp + config.delay)
  let loss := lossStage config s rxPkts
  ⟨loss.state, rx.pkts, [], loss.dropped, loss.kept⟩

structure TokenLoopState (D : Type) where
  bucket : TokenState D
  loss : LossState

structure LeakyLoopState (D : Type) where
  nextAt : D
  loss : LossState

/-- `B_P_NS_TARGET`, bits per nanosecond. -/
def bitsPerNs (config : MoonemConfig) : D := div (ofUInt64 config.rate) (ofUInt64 1000)

def backlogBound (config : MoonemConfig) (bitRate : D) : D :=
  div (ofUInt64 config.capacity) (div bitRate (ofUInt64 8))

def LeakyLoopState.init (config : MoonemConfig) : LeakyLoopState D := ⟨ofUInt64 0, .init config⟩

def TokenLoopState.init (config : MoonemConfig) : TokenLoopState D := ⟨.init, .init config⟩

def receiverLoopRateLeakyBucket (config : MoonemConfig) (s : LeakyLoopState D) (rx : RxBurst) :
    Iteration (LeakyLoopState D) (Shaped D) :=
  let bitRate : D := bitsPerNs config
  let bucket := sift (leakyBucketPacket (backlogBound config bitRate)
    (fun len => div (frameBits len) bitRate) Mbuf.timestamp config.delay) s.nextAt rx.pkts
  let bufsAccept := bucket.kept.map fun a => a.pkt.setTimestampDynfield (toUInt64 a.realSendTime)
  let loss := lossStage config s.loss bufsAccept
  ⟨⟨bucket.state, loss.state⟩, bucket.kept, bucket.dropped, loss.dropped, loss.kept⟩

/-- `TOKEN_RATE` of the hardware loops, bytes per nanosecond. -/
def tokenRate (config : MoonemConfig) : D := div (ofUInt64 config.rate) (ofUInt64 8000)

/-- The loop without a ring: what it keeps goes straight to the other port. -/
def receiverLoopRateTokenBucketFwd (config : MoonemConfig) (s : TokenLoopState D) (rx : RxBurst) :
    Iteration (TokenLoopState D) Mbuf :=
  let bucket := sift (tokenBucketPacket (tokenRate config) (ofUInt64 config.capacity)) s.bucket
    rx.pkts
  let loss := lossStage config s.loss bucket.kept
  ⟨⟨bucket.state, loss.state⟩, bucket.kept, bucket.dropped, loss.dropped, loss.kept⟩

def receiverLoopRateTokenBucket (config : MoonemConfig) (s : TokenLoopState D) (rx : RxBurst) :
    Iteration (TokenLoopState D) Mbuf :=
  let bucket := sift (tokenBucketPacket (tokenRate config) (ofUInt64 config.capacity)) s.bucket
    rx.pkts
  let bufsAccept := bucket.kept.map fun m => m.setTimestampDynfield (m.timestamp + config.delay)
  let loss := lossStage config s.loss bufsAccept
  ⟨⟨bucket.state, loss.state⟩, bucket.kept, bucket.dropped, loss.dropped, loss.kept⟩

/-! ## Software loops -/

/-- `rte_get_tsc_hz() * (config.delay / 1000000000.0)`, truncated. -/
def swDelay (D : Type) [Double D] (tscHz : UInt64) (config : MoonemConfig) : UInt64 :=
  toUInt64 (mul (ofUInt64 tscHz) (div (ofUInt64 config.delay) (ofUInt64 1000000000)) : D)

/-- One timestamp for the whole group and a burst size that counts down to one. -/
def stampBurst (timestamp : UInt64) : List Mbuf → List Mbuf
  | [] => []
  | m :: rest =>
      (m.setTimestampDynfield timestamp).setBurstSizeDynfield (UInt64.ofNat (rest.length + 1)) ::
        stampBurst timestamp rest

/-- The loop without delay and rate: what it keeps goes straight to the other port. -/
def swReceiverLoopFwd (config : MoonemConfig) (s : LossState) (rx : RxBurst) :
    Iteration LossState Mbuf :=
  let loss := lossStage config s rx.pkts
  ⟨loss.state, rx.pkts, [], loss.dropped, loss.kept⟩

def swReceiverLoopDelay (D : Type) [Double D] (tscHz : UInt64) (config : MoonemConfig)
    (s : LossState) (rx : RxBurst) : Iteration LossState Mbuf :=
  let loss := lossStage config s rx.pkts
  ⟨loss.state, rx.pkts, [], loss.dropped,
    stampBurst (rx.tsc + swDelay D tscHz config) loss.kept⟩

/-- `config.loss > 0 && wyhash64(&loss_state) < config.loss`. -/
def swLossDrop (config : MoonemConfig) (random : UInt64) : Bool × UInt64 :=
  if 0 < config.loss then
    let (x, random) := wyhash64 random
    (x < config.loss, random)
  else (false, random)

/-- `TOKEN_RATE` of the software loop, bytes per cycle. -/
def swTokenRate (tscHz : UInt64) (config : MoonemConfig) : D :=
  mul (div (div (ofUInt64 config.rate) (ofUInt64 8)) (ofUInt64 tscHz)) (ofUInt64 1000000)

structure SwTokenLoopState (D : Type) where
  bucket : TokenState D
  loss : UInt64

def SwTokenLoopState.init (config : MoonemConfig) : SwTokenLoopState D := ⟨.init, config.lossSeed⟩

def swReceiverLoopRateTokenBucket (tscHz : UInt64) (config : MoonemConfig)
    (s : SwTokenLoopState D) (rx : RxBurst) : Iteration (SwTokenLoopState D) Mbuf :=
  if rx.pkts = [] then ⟨s, [], [], [], []⟩
  else
    let currentTokens := s.bucket.currentTokens (swTokenRate tscHz config)
      (ofUInt64 config.capacity) rx.tsc
    let r := pipe spendTokens (dropBy (swLossDrop config)) currentTokens s.loss rx.pkts
    ⟨⟨⟨ofUInt64 rx.tsc, r.first⟩, r.second⟩, r.passed, r.droppedFirst, r.droppedSecond,
      stampBurst (rx.tsc + swDelay D tscHz config) r.kept⟩

structure SwLeakyLoopState (D : Type) where
  nextAt : D
  loss : UInt64

def SwLeakyLoopState.init (config : MoonemConfig) : SwLeakyLoopState D :=
  ⟨ofUInt64 0, config.lossSeed⟩

/-- `B_P_TSC_TARGET`, bits per cycle. -/
def bitsPerTsc (tscHz : UInt64) (config : MoonemConfig) : D :=
  div (mul (ofUInt64 config.rate) (ofUInt64 1000000)) (ofUInt64 tscHz)

def swReceiverLoopRateLeakyBucket (tscHz : UInt64) (config : MoonemConfig)
    (s : SwLeakyLoopState D) (rx : RxBurst) : Iteration (SwLeakyLoopState D) (Shaped D) :=
  let bitRate : D := bitsPerTsc tscHz config
  let r := pipe (leakyBucketPacket (backlogBound config bitRate)
      (fun len => div (mul (frameBytes len) (ofUInt64 8)) bitRate) (fun _ => rx.tsc)
      (swDelay D tscHz config)) (dropBy (swLossDrop config)) s.nextAt s.loss rx.pkts
  ⟨⟨r.first, r.second⟩, r.passed, r.droppedFirst, r.droppedSecond.map Shaped.pkt,
    r.kept.map fun a =>
      (a.pkt.setTimestampDynfield (toUInt64 a.realSendTime)).setBurstSizeDynfield 1⟩

/-! ## Runs of a loop -/

def serve (iterate : σ → RxBurst → Iteration σ β) : σ → List RxBurst → Iteration σ β
  | s, [] => ⟨s, [], [], [], []⟩
  | s, rx :: rest =>
      let it := iterate s rx
      let r := serve iterate it.state rest
      ⟨r.state, it.admitted ++ r.admitted, it.limited ++ r.limited, it.lost ++ r.lost,
        it.out ++ r.out⟩

theorem serve_invariant {iterate : σ → RxBurst → Iteration σ β} (inv : σ → Prop)
    (keeps : ∀ s rx, inv s → inv (iterate s rx).state) {s : σ} (bursts : List RxBurst)
    (init : inv s) : inv (serve iterate s bursts).state := by
  induction bursts generalizing s with
  | nil => exact init
  | cons rx rest ih => exact ih (keeps s rx init)

/-- A loss model that is threaded through the iterations sees the admitted packets
of the whole run as one sequence. -/
theorem serve_lost {iterate : σ → RxBurst → Iteration σ β} {τ : Type} {draw : τ → Bool × τ}
    (loss : σ → τ) (buf : β → Mbuf)
    (hstep : ∀ s rx, (iterate s rx).lost =
        (sift (dropBy draw) (loss s) ((iterate s rx).admitted.map buf)).dropped ∧
      loss (iterate s rx).state =
        (sift (dropBy draw) (loss s) ((iterate s rx).admitted.map buf)).state)
    (s : σ) (bursts : List RxBurst) :
    (serve iterate s bursts).lost =
      (sift (dropBy draw) (loss s) ((serve iterate s bursts).admitted.map buf)).dropped := by
  induction bursts generalizing s with
  | nil => rfl
  | cons rx rest ih =>
      obtain ⟨hlost, hstate⟩ := hstep s rx
      simp only [serve, List.map_append, sift_append]
      rw [hlost, ih, hstate]

theorem serve_kept {iterate : σ → RxBurst → Iteration σ β} {τ : Type} {draw : τ → Bool × τ}
    (loss : σ → τ) (addr : β → Nat)
    (hstep : ∀ s rx, (iterate s rx).out.map Mbuf.addr =
        (sift (dropBy draw) (loss s) ((iterate s rx).admitted.map addr)).kept ∧
      loss (iterate s rx).state =
        (sift (dropBy draw) (loss s) ((iterate s rx).admitted.map addr)).state)
    (s : σ) (bursts : List RxBurst) :
    (serve iterate s bursts).out.map Mbuf.addr =
      (sift (dropBy draw) (loss s) ((serve iterate s bursts).admitted.map addr)).kept := by
  induction bursts generalizing s with
  | nil => rfl
  | cons rx rest ih =>
      obtain ⟨hout, hstate⟩ := hstep s rx
      simp only [serve, List.map_append, sift_append]
      rw [hout, ih, hstate]

/-- When the limiter passes packets unchanged, the decisions of the single bursts, one
after the other, select the packets admitted by the whole run. -/
theorem serve_admitted {iterate : σ → RxBurst → Iteration σ Mbuf}
    {answers : σ → RxBurst → List Bool} {accepts : σ → List RxBurst → List Bool}
    (hnil : ∀ s, accepts s [] = [])
    (hcons : ∀ s rx rest,
      accepts s (rx :: rest) = answers s rx ++ accepts (iterate s rx).state rest)
    (hlength : ∀ s rx, (answers s rx).length = rx.pkts.length)
    (hburst : ∀ s rx, (iterate s rx).admitted = select (answers s rx) rx.pkts)
    (s : σ) (bursts : List RxBurst) :
    (serve iterate s bursts).admitted =
      select (accepts s bursts) (bursts.flatMap RxBurst.pkts) := by
  induction bursts generalizing s with
  | nil =>
      rw [hnil]
      rfl
  | cons rx rest ih =>
      rw [hcons, List.flatMap_cons, select_append (hlength s rx), ← hburst, ← ih]
      rfl

end MoonGen.Moonem

import Mathlib.Algebra.Order.Ring.Rat
import MoonGen.Lib.Shaping
import MoonGen.Moonem.Receiver

/-! # The token-bucket loops

The three loops with a token bucket, on exact arithmetic, as ledgers of a token
bucket. The hardware loops refill and spend when they accept a packet; the
software loop refills once per burst and spends packet by packet.
-/

namespace MoonGen.Moonem

open Sieve Shaping

/-! ## Buckets as ledgers -/

theorem min_rat (a b : ℚ) : Double.min a b = min a b := by
  unfold Double.min
  by_cases h : a < b
  · rw [if_pos ((Double.lt_rat a b).mpr h), min_eq_left h.le]
  · rw [if_neg (fun hlt => h ((Double.lt_rat a b).mp hlt)), min_eq_right (not_lt.mp h)]

/-- `pkt_len + 24` as the loops compute it, in 32 bits. -/
def frameSize (m : Mbuf) : ℚ := (m.pktLen + 24).toNat

theorem frameSize_nonneg (m : Mbuf) : 0 ≤ frameSize m := Nat.cast_nonneg _

theorem frameSize_eq {m : Mbuf} (h : m.pktLen.toNat + 24 < 2 ^ 32) :
    frameSize m = m.pktLen.toNat + 24 := by
  have hsum : (m.pktLen + 24).toNat = m.pktLen.toNat + 24 := by
    rw [UInt32.toNat_add]
    exact Nat.mod_eq_of_lt h
  rw [frameSize, hsum]
  push_cast
  rfl

def TokenState.ledger (s : TokenState ℚ) (gs : List (Grant ℚ)) : Ledger ℚ :=
  ⟨gs, s.previousTimestamp, s.previousTokens⟩

theorem currentTokens_eq_levelAt (rate capacity : ℚ) (s : TokenState ℚ) (gs : List (Grant ℚ))
    (recvTime : UInt64) : s.currentTokens rate capacity recvTime =
      (s.ledger gs).levelAt rate capacity recvTime.toNat := by
  simp only [TokenState.currentTokens, min_rat]
  rfl

def grant (time : UInt64) (m : Mbuf) : Grant ℚ := ⟨time.toNat, frameSize m⟩

/-! ## One packet -/

theorem tokenBucketPacket_cases (rate capacity : ℚ) (s : TokenState ℚ) (m : Mbuf) :
    (frameSize m < s.currentTokens rate capacity m.timestamp ∧
      tokenBucketPacket rate capacity s m =
        (⟨m.timestamp.toNat, s.currentTokens rate capacity m.timestamp - frameSize m⟩, some m)) ∨
    (s.currentTokens rate capacity m.timestamp ≤ frameSize m ∧
      tokenBucketPacket rate capacity s m = (s, none)) := by
  unfold tokenBucketPacket
  by_cases h : frameSize m < s.currentTokens rate capacity m.timestamp
  · left
    exact ⟨h, if_pos ((Double.lt_rat _ _).mpr h)⟩
  · right
    exact ⟨not_lt.mp h, if_neg fun hlt => h ((Double.lt_rat _ _).mp hlt)⟩

theorem spendTokens_cases (currentTokens : ℚ) (m : Mbuf) :
    (frameSize m ≤ currentTokens ∧
      spendTokens currentTokens m = (currentTokens - frameSize m, some m)) ∨
    (currentTokens < frameSize m ∧ spendTokens currentTokens m = (currentTokens, none)) := by
  unfold spendTokens
  by_cases h : currentTokens < frameSize m
  · right
    exact ⟨h, if_pos ((Double.lt_rat _ _).mpr h)⟩
  · left
    exact ⟨not_lt.mp h, if_neg fun hlt => h ((Double.lt_rat _ _).mp hlt)⟩

/-! ## One burst -/

section Burst

variable {rate capacity : ℚ}

theorem sift_tokenBucketPacket_sound {s : TokenState ℚ} {gs : List (Grant ℚ)} (pkts : List Mbuf)
    (h : (s.ledger gs).Sound rate capacity) :
    ((sift (tokenBucketPacket rate capacity) s pkts).state.ledger
      (gs ++ (sift (tokenBucketPacket rate capacity) s pkts).kept.map
        fun m => grant m.timestamp m)).Sound rate capacity := by
  let inv (s : TokenState ℚ) (out : List Mbuf) : Prop :=
    (s.ledger (gs ++ out.map fun m => grant m.timestamp m)).Sound rate capacity
  apply sift_invariant inv _ pkts (by simpa [inv] using h)
  intro s out m hinv
  rcases tokenBucketPacket_cases rate capacity s m with ⟨hlt, hpass⟩ | ⟨_, hpass⟩
  · rw [currentTokens_eq_levelAt rate capacity s (gs ++ out.map fun m => grant m.timestamp m)]
      at hlt hpass
    have hspent := (hinv.refill (m.timestamp.toNat : ℚ)).spend (frameSize_nonneg m) hlt.le
    simp only [inv]
    rw [hpass, Option.toList_some, List.map_append, ← List.append_assoc]
    exact hspent
  · rw [hpass, Option.toList_none, List.append_nil]
    exact hinv

theorem sift_spendTokens_sound {currentTokens : ℚ} {gs : List (Grant ℚ)} (time : UInt64)
    (pkts : List Mbuf) (h : Ledger.Sound rate capacity ⟨gs, time.toNat, currentTokens⟩) :
    Ledger.Sound rate capacity
      ⟨gs ++ (sift spendTokens currentTokens pkts).kept.map (grant time), time.toNat,
        (sift spendTokens currentTokens pkts).state⟩ := by
  let inv (level : ℚ) (out : List Mbuf) : Prop :=
    Ledger.Sound rate capacity ⟨gs ++ out.map (grant time), time.toNat, level⟩
  apply sift_invariant inv _ pkts (by simpa [inv] using h)
  intro level out m hinv
  rcases spendTokens_cases level m with ⟨hle, hpass⟩ | ⟨_, hpass⟩
  · simp only [inv]
    rw [hpass, Option.toList_some, List.map_append, ← List.append_assoc]
    exact hinv.spend (frameSize_nonneg m) hle
  · rw [hpass, Option.toList_none, List.append_nil]
    exact hinv

theorem sift_tokenBucketPacket_level {s : TokenState ℚ} (pkts : List Mbuf)
    (h : 0 ≤ s.previousTokens) :
    0 ≤ (sift (tokenBucketPacket rate capacity) s pkts).state.previousTokens := by
  apply sift_invariant (fun (s : TokenState ℚ) _ => 0 ≤ s.previousTokens) _ pkts h
  intro s _ m hinv
  rcases tokenBucketPacket_cases rate capacity s m with ⟨hlt, hpass⟩ | ⟨_, hpass⟩
  · rw [hpass]
    exact sub_nonneg.mpr hlt.le
  · rw [hpass]
    exact hinv

theorem sift_spendTokens_level {currentTokens : ℚ} (pkts : List Mbuf) (h : 0 ≤ currentTokens) :
    0 ≤ (sift spendTokens currentTokens pkts).state := by
  apply sift_invariant (fun level _ => 0 ≤ level) _ pkts h
  intro level _ m hinv
  rcases spendTokens_cases level m with ⟨hle, hpass⟩ | ⟨_, hpass⟩
  · rw [hpass]
    exact sub_nonneg.mpr hle
  · rw [hpass]
    exact hinv

end Burst

/-! ## One burst of the software loop -/

theorem swReceiverLoopRateTokenBucket_eq (tscHz : UInt64) (config : MoonemConfig)
    (s : SwTokenLoopState ℚ) {rx : RxBurst} (h : rx.pkts ≠ []) :
    (swReceiverLoopRateTokenBucket tscHz config s rx).state.bucket =
        ⟨rx.tsc.toNat, (sift spendTokens (s.bucket.currentTokens (swTokenRate tscHz config)
          (config.capacity.toNat : ℚ) rx.tsc) rx.pkts).state⟩ ∧
      (swReceiverLoopRateTokenBucket tscHz config s rx).admitted =
        (sift spendTokens (s.bucket.currentTokens (swTokenRate tscHz config)
          (config.capacity.toNat : ℚ) rx.tsc) rx.pkts).kept := by
  simp only [swReceiverLoopRateTokenBucket, if_neg h, pipe_eq_sift]
  exact ⟨rfl, rfl⟩

theorem swReceiverLoopRateTokenBucket_nil (tscHz : UInt64) (config : MoonemConfig)
    (s : SwTokenLoopState ℚ) {rx : RxBurst} (h : rx.pkts = []) :
    swReceiverLoopRateTokenBucket tscHz config s rx = ⟨s, [], [], [], []⟩ := if_pos h

theorem swReceiverLoopRateTokenBucket_sound (tscHz : UInt64) (config : MoonemConfig)
    {s : SwTokenLoopState ℚ} {gs : List (Grant ℚ)} (rx : RxBurst)
    (h : (s.bucket.ledger gs).Sound (swTokenRate tscHz config : ℚ) (config.capacity.toNat : ℚ)) :
    ((swReceiverLoopRateTokenBucket tscHz config s rx).state.bucket.ledger
      (gs ++ (swReceiverLoopRateTokenBucket tscHz config s rx).admitted.map
        (grant rx.tsc))).Sound (swTokenRate tscHz config : ℚ)
          (config.capacity.toNat : ℚ) := by
  by_cases hnil : rx.pkts = []
  · rw [swReceiverLoopRateTokenBucket_nil tscHz config s hnil]
    simpa using h
  · obtain ⟨hstate, hadmitted⟩ := swReceiverLoopRateTokenBucket_eq tscHz config s hnil
    rw [hstate, hadmitted]
    apply sift_spendTokens_sound
    rw [currentTokens_eq_levelAt _ _ s.bucket gs]
    exact h.refill _

/-- The eager refill keeps the level above zero when the cycle counter does not go
back. -/
theorem swReceiverLoopRateTokenBucket_level (tscHz : UInt64) (config : MoonemConfig)
    {s : SwTokenLoopState ℚ} {rx : RxBurst} (hrate : (0 : ℚ) ≤ swTokenRate tscHz config)
    (hlevel : 0 ≤ s.bucket.previousTokens)
    (htime : rx.pkts ≠ [] → s.bucket.previousTimestamp ≤ rx.tsc.toNat) :
    0 ≤ (swReceiverLoopRateTokenBucket tscHz config s rx).state.bucket.previousTokens := by
  by_cases hnil : rx.pkts = []
  · rw [swReceiverLoopRateTokenBucket_nil tscHz config s hnil]
    exact hlevel
  · rw [(swReceiverLoopRateTokenBucket_eq tscHz config s hnil).1]
    apply sift_spendTokens_level
    rw [currentTokens_eq_levelAt _ _ s.bucket []]
    exact Ledger.refill_level_nonneg hrate (Nat.cast_nonneg _) hlevel (htime hnil)

/-! ## The three loops -/

inductive TokenLoop where
  | fwd
  | ring
  | software
deriving Repr, DecidableEq

namespace TokenLoop

@[reducible] def State : TokenLoop → Type
  | .fwd | .ring => TokenLoopState ℚ
  | .software => SwTokenLoopState ℚ

def init (config : MoonemConfig) : (loop : TokenLoop) → loop.State
  | .fwd | .ring => TokenLoopState.init config
  | .software => SwTokenLoopState.init config

def iterate (tscHz : UInt64) (config : MoonemConfig) : (loop : TokenLoop) → loop.State → RxBurst →
    Iteration loop.State Mbuf
  | .fwd => receiverLoopRateTokenBucketFwd config
  | .ring => receiverLoopRateTokenBucket config
  | .software => swReceiverLoopRateTokenBucket tscHz config

def bucket : (loop : TokenLoop) → loop.State → TokenState ℚ
  | .fwd | .ring => TokenLoopState.bucket
  | .software => SwTokenLoopState.bucket

/-- `TOKEN_RATE`. -/
def rate (tscHz : UInt64) (config : MoonemConfig) : TokenLoop → ℚ
  | .fwd | .ring => tokenRate config
  | .software => swTokenRate tscHz config

def recvTime : TokenLoop → RxBurst → Mbuf → UInt64
  | .fwd | .ring => fun _ m => m.timestamp
  | .software => fun rx _ => rx.tsc

def recvTimes (loop : TokenLoop) (bursts : List RxBurst) : List UInt64 :=
  bursts.flatMap fun rx => rx.pkts.map (loop.recvTime rx)

def admissions (tscHz : UInt64) (config : MoonemConfig) (loop : TokenLoop) :
    loop.State → List RxBurst → List (UInt64 × Mbuf)
  | _, [] => []
  | s, rx :: rest =>
      (loop.iterate tscHz config s rx).admitted.map (fun m => (loop.recvTime rx m, m)) ++
        admissions tscHz config loop (loop.iterate tscHz config s rx).state rest

/-- The admitted packets with the sizes that the loops take for them. -/
def grants (tscHz : UInt64) (config : MoonemConfig) (loop : TokenLoop) (s : loop.State)
    (bursts : List RxBurst) : List (Grant ℚ) :=
  (loop.admissions tscHz config s bursts).map fun a => grant a.1 a.2

/-- The admitted packets with `pkt_len + 24` as a number without bound. -/
def fullGrants (tscHz : UInt64) (config : MoonemConfig) (loop : TokenLoop) (s : loop.State)
    (bursts : List RxBurst) : List (Grant ℚ) :=
  (loop.admissions tscHz config s bursts).map fun a => ⟨a.1.toNat, a.2.pktLen.toNat + 24⟩

theorem grants_cons (tscHz : UInt64) (config : MoonemConfig) (loop : TokenLoop) (s : loop.State)
    (rx : RxBurst) (rest : List RxBurst) :
    loop.grants tscHz config s (rx :: rest) =
      (loop.iterate tscHz config s rx).admitted.map (fun m => grant (loop.recvTime rx m) m) ++
        loop.grants tscHz config (loop.iterate tscHz config s rx).state rest := by
  simp [grants, admissions, Function.comp_def]

theorem fullGrants_eq_grants {tscHz : UInt64} {config : MoonemConfig} {loop : TokenLoop}
    {s : loop.State} {bursts : List RxBurst}
    (h : ∀ a ∈ loop.admissions tscHz config s bursts, a.2.pktLen.toNat + 24 < 2 ^ 32) :
    loop.fullGrants tscHz config s bursts = loop.grants tscHz config s bursts := by
  apply List.map_congr_left
  intro a ha
  rw [grant, frameSize_eq (h a ha)]

theorem rate_nonneg (tscHz : UInt64) (config : MoonemConfig) (loop : TokenLoop) :
    0 ≤ loop.rate tscHz config := by
  cases loop <;> simp only [rate, tokenRate, swTokenRate, Double.div_rat, Double.mul_rat,
    Double.ofUInt64_rat] <;> positivity

theorem iterate_sound (tscHz : UInt64) (config : MoonemConfig) (loop : TokenLoop) {s : loop.State}
    {gs : List (Grant ℚ)} (rx : RxBurst)
    (h : ((loop.bucket s).ledger gs).Sound (loop.rate tscHz config) config.capacity.toNat) :
    ((loop.bucket (loop.iterate tscHz config s rx).state).ledger
      (gs ++ (loop.iterate tscHz config s rx).admitted.map
        fun m => grant (loop.recvTime rx m) m)).Sound
          (loop.rate tscHz config) config.capacity.toNat := by
  cases loop with
  | fwd => exact sift_tokenBucketPacket_sound rx.pkts h
  | ring => exact sift_tokenBucketPacket_sound rx.pkts h
  | software => exact swReceiverLoopRateTokenBucket_sound tscHz config rx h

theorem run_sound (tscHz : UInt64) (config : MoonemConfig) (loop : TokenLoop) {s : loop.State}
    {gs : List (Grant ℚ)} (bursts : List RxBurst)
    (h : ((loop.bucket s).ledger gs).Sound (loop.rate tscHz config) config.capacity.toNat) :
    ((loop.bucket (serve (loop.iterate tscHz config) s bursts).state).ledger
      (gs ++ loop.grants tscHz config s bursts)).Sound
        (loop.rate tscHz config) config.capacity.toNat := by
  induction bursts generalizing s gs with
  | nil => simpa [serve, grants, admissions] using h
  | cons rx rest ih =>
      have hstep := ih (iterate_sound tscHz config loop rx h)
      rw [List.append_assoc, ← grants_cons] at hstep
      exact hstep

theorem init_sound (tscHz : UInt64) (config : MoonemConfig) (loop : TokenLoop) :
    ((loop.bucket (loop.init config)).ledger []).Sound (loop.rate tscHz config)
      config.capacity.toNat := by
  cases loop <;> exact Ledger.sound_empty 0 (Nat.cast_nonneg _)

/-! ## The stored level -/

theorem mem_recvTimes_software {bursts : List RxBurst} {rx : RxBurst} (hrx : rx ∈ bursts)
    (hne : rx.pkts ≠ []) : rx.tsc ∈ recvTimes .software bursts := by
  obtain ⟨m, hm⟩ := List.exists_mem_of_ne_nil _ hne
  exact List.mem_flatMap.mpr ⟨rx, hrx, List.mem_map.mpr ⟨m, hm, rfl⟩⟩

theorem software_level (tscHz : UInt64) (config : MoonemConfig) {s : SwTokenLoopState ℚ}
    (bursts : List RxBurst) (hlevel : 0 ≤ s.bucket.previousTokens)
    (hlater : ∀ t ∈ recvTimes .software bursts, s.bucket.previousTimestamp ≤ t.toNat)
    (hsorted : (recvTimes .software bursts).Pairwise (· ≤ ·)) :
    0 ≤ (serve (swReceiverLoopRateTokenBucket tscHz config) s
      bursts).state.bucket.previousTokens := by
  induction bursts generalizing s with
  | nil => exact hlevel
  | cons rx rest ih =>
      have hrest : recvTimes .software (rx :: rest) =
          rx.pkts.map (fun _ => rx.tsc) ++ recvTimes .software rest := List.flatMap_cons ..
      rw [hrest, List.pairwise_append] at hsorted
      apply ih
      · apply swReceiverLoopRateTokenBucket_level tscHz config (rate_nonneg tscHz config .software)
          hlevel
        intro hne
        exact hlater _ (mem_recvTimes_software List.mem_cons_self hne)
      · intro t ht
        by_cases hnil : rx.pkts = []
        · rw [swReceiverLoopRateTokenBucket_nil tscHz config s hnil]
          apply hlater
          rw [hrest]
          exact List.mem_append_right _ ht
        · rw [(swReceiverLoopRateTokenBucket_eq tscHz config s hnil).1]
          obtain ⟨m, hm⟩ := List.exists_mem_of_ne_nil _ hnil
          have hle := hsorted.2.2 rx.tsc (List.mem_map.mpr ⟨m, hm, rfl⟩) t ht
          change (rx.tsc.toNat : ℚ) ≤ t.toNat
          exact_mod_cast UInt64.le_iff_toNat_le.mp hle
      · exact hsorted.2.1

theorem hardware_level (config : MoonemConfig)
    {iterate : TokenLoopState ℚ → RxBurst → Iteration (TokenLoopState ℚ) Mbuf}
    (hbucket : ∀ s rx, (iterate s rx).state.bucket =
      (sift (tokenBucketPacket (tokenRate config) (Double.ofUInt64 config.capacity)) s.bucket
        rx.pkts).state)
    {s : TokenLoopState ℚ} (bursts : List RxBurst) (hlevel : 0 ≤ s.bucket.previousTokens) :
    0 ≤ (serve iterate s bursts).state.bucket.previousTokens := by
  apply serve_invariant (fun s : TokenLoopState ℚ => 0 ≤ s.bucket.previousTokens) _ bursts hlevel
  intro s rx hs
  rw [hbucket]
  exact sift_tokenBucketPacket_level rx.pkts hs

theorem run_level_nonneg (tscHz : UInt64) (config : MoonemConfig) (loop : TokenLoop)
    (bursts : List RxBurst) (hsorted : (loop.recvTimes bursts).Pairwise (· ≤ ·)) :
    0 ≤ (loop.bucket (serve (loop.iterate tscHz config) (loop.init config)
      bursts).state).previousTokens := by
  have hinit : 0 ≤ (TokenState.init : TokenState ℚ).previousTokens := Nat.cast_nonneg _
  cases loop with
  | fwd => exact hardware_level config (fun _ _ => rfl) bursts hinit
  | ring => exact hardware_level config (fun _ _ => rfl) bursts hinit
  | software =>
      apply software_level tscHz config bursts hinit _ hsorted
      intro t _
      exact Nat.cast_nonneg _

/-- Between any two admitted packets, both included, at most the capacity and the
refill of the time between them is admitted, in the sizes of 32 bits that the loops
compute and so in `pkt_len + 24` itself where that fits; and the stored level stays
within zero and the capacity when the receive times do not go back. -/
theorem tokenBucket_conforms (tscHz : UInt64) (config : MoonemConfig) (loop : TokenLoop)
    (bursts : List RxBurst) :
    Conforms (loop.rate tscHz config) config.capacity.toNat
        (loop.grants tscHz config (loop.init config) bursts) ∧
      ((∀ a ∈ loop.admissions tscHz config (loop.init config) bursts,
          a.2.pktLen.toNat + 24 < 2 ^ 32) →
        Conforms (loop.rate tscHz config) config.capacity.toNat
          (loop.fullGrants tscHz config (loop.init config) bursts)) ∧
      ((loop.recvTimes bursts).Pairwise (· ≤ ·) →
        0 ≤ (loop.bucket (serve (loop.iterate tscHz config) (loop.init config)
            bursts).state).previousTokens ∧
          (loop.bucket (serve (loop.iterate tscHz config) (loop.init config)
            bursts).state).previousTokens ≤ config.capacity.toNat) := by
  have hsound := run_sound tscHz config loop bursts (init_sound tscHz config loop)
  rw [List.nil_append] at hsound
  refine ⟨hsound.conforms, ?_, ?_⟩
  · intro hfits
    rw [fullGrants_eq_grants hfits]
    exact hsound.conforms
  · intro hsorted
    exact ⟨run_level_nonneg tscHz config loop bursts hsorted, hsound.level_le⟩

end TokenLoop

/-- A bucket of the given capacity at 1 Gbit/s, without delay or loss. -/
def bucketOnly (capacity : UInt64) : MoonemConfig :=
  ⟨0, 1000, capacity, 12345, .none, 0, fun _ => 0⟩

def twoPackets (pktLen : UInt32) : List RxBurst :=
  [⟨[⟨1, pktLen, 1000, 0⟩, ⟨2, pktLen, 1000, 0⟩], 1000, by simp [burstSize]⟩]

/-- A length that is 0 modulo 2^32 with its 24 bytes: a bucket of 88 bytes admits both packets. -/
theorem tokenBucket_size_wraps :
    ¬ Conforms (TokenLoop.ring.rate 1000000000 (bucketOnly 88)) (bucketOnly 88).capacity.toNat
      (TokenLoop.ring.fullGrants 1000000000 (bucketOnly 88) (TokenLoop.ring.init (bucketOnly 88))
        (twoPackets 4294967272)) := by
  intro h
  have hboth : TokenLoop.ring.fullGrants 1000000000 (bucketOnly 88)
      (TokenLoop.ring.init (bucketOnly 88)) (twoPackets 4294967272) =
        [⟨1000, 4294967296⟩, ⟨1000, 4294967296⟩] := by
    decide +kernel
  have hsum := h [] ⟨1000, 4294967296⟩ [] ⟨1000, 4294967296⟩ [] hboth
  have hcap : (bucketOnly 88).capacity.toNat = 88 := rfl
  rw [hcap] at hsum
  norm_num [Shaping.total] at hsum

end MoonGen.Moonem

import MoonGen.Moonem.TokenBucket

/-! # Lazy and eager refill

The hardware token bucket records a refill when it accepts a packet, the software
token bucket at every burst. Both see the same level at every packet, and decide
alike unless the level equals the size of the frame: the hardware loop then
rejects and the software loop accepts.
-/

namespace MoonGen.Moonem

open Sieve Shaping

/-! ## Decisions of a run -/

def hwAccepts (config : MoonemConfig) : TokenLoopState ℚ → List RxBurst → List Bool
  | _, [] => []
  | s, rx :: rest =>
      decisions (tokenBucketPacket (tokenRate config) (Double.ofUInt64 config.capacity)) s.bucket
          rx.pkts ++
        hwAccepts config (receiverLoopRateTokenBucket config s rx).state rest

def swAccepts (tscHz : UInt64) (config : MoonemConfig) :
    SwTokenLoopState ℚ → List RxBurst → List Bool
  | _, [] => []
  | s, rx :: rest =>
      decisions spendTokens (s.bucket.currentTokens (swTokenRate tscHz config)
          (Double.ofUInt64 config.capacity) rx.tsc) rx.pkts ++
        swAccepts tscHz config (swReceiverLoopRateTokenBucket tscHz config s rx).state rest

theorem hwAccepts_admitted (config : MoonemConfig) (s : TokenLoopState ℚ) (bursts : List RxBurst) :
    (serve (receiverLoopRateTokenBucket config) s bursts).admitted =
      select (hwAccepts config s bursts) (bursts.flatMap RxBurst.pkts) := by
  apply serve_admitted (fun _ => rfl) (fun _ _ _ => rfl)
  · intro s rx
    exact decisions_length _ _ _
  · intro s rx
    exact sift_kept_eq_select (fun _ _ _ => tokenBucketPacket_some) s.bucket rx.pkts

theorem swAccepts_admitted (tscHz : UInt64) (config : MoonemConfig) (s : SwTokenLoopState ℚ)
    (bursts : List RxBurst) :
    (serve (swReceiverLoopRateTokenBucket tscHz config) s bursts).admitted =
      select (swAccepts tscHz config s bursts) (bursts.flatMap RxBurst.pkts) := by
  apply serve_admitted (fun _ => rfl) (fun _ _ _ => rfl)
  · intro s rx
    exact decisions_length _ _ _
  · intro s rx
    by_cases hnil : rx.pkts = []
    · rw [swReceiverLoopRateTokenBucket_nil tscHz config s hnil, hnil]
      rfl
    · rw [(swReceiverLoopRateTokenBucket_eq tscHz config s hnil).2]
      exact sift_kept_eq_select (fun _ _ _ => spendTokens_some) _ rx.pkts

/-! ## Packets that meet their own size -/

/-- No packet finds a level that equals the size of its frame. -/
def TieFree (rate capacity : ℚ) : TokenState ℚ → List Mbuf → Prop
  | _, [] => True
  | s, m :: rest =>
      s.currentTokens rate capacity m.timestamp ≠ frameSize m ∧
        TieFree rate capacity (tokenBucketPacket rate capacity s m).1 rest

theorem tieFree_append (rate capacity : ℚ) (s : TokenState ℚ) (pkts more : List Mbuf) :
    TieFree rate capacity s (pkts ++ more) ↔
      TieFree rate capacity s pkts ∧
        TieFree rate capacity (sift (tokenBucketPacket rate capacity) s pkts).state more := by
  induction pkts generalizing s with
  | nil => simp [TieFree]
  | cons m rest ih =>
      rw [List.cons_append, TieFree, TieFree, ih, sift_cons_state, and_assoc]

/-! ## The levels agree -/

section Agree

variable {rate capacity : ℚ}

/-- The lazily refilled bucket shows from `now` on what a bucket refilled to `level`
at `now` shows. -/
def Agrees (rate capacity : ℚ) (s : TokenState ℚ) (now level : ℚ) : Prop :=
  level ≤ capacity ∧ ∀ later, now ≤ later →
    (s.ledger []).levelAt rate capacity later = Ledger.levelAt rate capacity ⟨[], now, level⟩ later

theorem Agrees.currentTokens {s : TokenState ℚ} {time : UInt64} {level : ℚ}
    (h : Agrees rate capacity s time.toNat level) :
    s.currentTokens rate capacity time = level := by
  rw [currentTokens_eq_levelAt rate capacity s [], h.2 _ le_rfl]
  simp [Ledger.levelAt, h.1]

/-- Away from a tie both buckets decide alike and still agree; on a tie they do not
decide alike. -/
theorem Agrees.packet {s : TokenState ℚ} {m : Mbuf} {level : ℚ}
    (h : Agrees rate capacity s m.timestamp.toNat level) :
    ((tokenBucketPacket rate capacity s m).2.isSome = (spendTokens level m).2.isSome ↔
        level ≠ frameSize m) ∧
      (level ≠ frameSize m → Agrees rate capacity (tokenBucketPacket rate capacity s m).1
        m.timestamp.toNat (spendTokens level m).1) := by
  have hlevel := h.currentTokens
  rcases tokenBucketPacket_cases rate capacity s m with ⟨hlt, hhw⟩ | ⟨hle, hhw⟩
  · rw [hlevel] at hlt hhw
    rcases spendTokens_cases level m with ⟨_, hsw⟩ | ⟨hgt, _⟩
    · rw [hhw, hsw]
      refine ⟨iff_of_true rfl hlt.ne', fun _ => ⟨?_, fun _ _ => rfl⟩⟩
      have hcap := h.1
      have hsize := frameSize_nonneg m
      linarith
    · exact absurd hlt hgt.not_gt
  · rw [hlevel] at hle
    rcases spendTokens_cases level m with ⟨hge, hsw⟩ | ⟨hlt, hsw⟩
    · have htie : level = frameSize m := le_antisymm hle hge
      rw [hhw, hsw]
      exact ⟨iff_of_false (by simp) (not_not.mpr htie), fun hne => absurd htie hne⟩
    · rw [hhw, hsw]
      exact ⟨iff_of_true rfl hlt.ne, fun _ => h⟩

theorem Agrees.burst {s : TokenState ℚ} {time : UInt64} {level : ℚ} {pkts : List Mbuf}
    (h : Agrees rate capacity s time.toNat level) (hstamp : ∀ m ∈ pkts, m.timestamp = time) :
    (decisions (tokenBucketPacket rate capacity) s pkts = decisions spendTokens level pkts ↔
        TieFree rate capacity s pkts) ∧
      (TieFree rate capacity s pkts →
        Agrees rate capacity (sift (tokenBucketPacket rate capacity) s pkts).state time.toNat
          (sift spendTokens level pkts).state) := by
  induction pkts generalizing s level with
  | nil => exact ⟨iff_of_true rfl trivial, fun _ => h⟩
  | cons m rest ih =>
      have hm : m.timestamp = time := hstamp m List.mem_cons_self
      have hrest : ∀ m ∈ rest, m.timestamp = time := fun m' hm' =>
        hstamp m' (List.mem_cons_of_mem m hm')
      subst hm
      obtain ⟨hdecide, hagree⟩ := h.packet
      rw [sift_cons_state, sift_cons_state, decisions, decisions, List.cons.injEq, TieFree,
        h.currentTokens, hdecide]
      constructor
      · constructor
        · rintro ⟨hne, heq⟩
          exact ⟨hne, (ih (hagree hne) hrest).1.mp heq⟩
        · rintro ⟨hne, hfree⟩
          exact ⟨hne, (ih (hagree hne) hrest).1.mpr hfree⟩
      · rintro ⟨hne, hfree⟩
        exact (ih (hagree hne) hrest).2 hfree

theorem Agrees.refill {s : TokenState ℚ} {eager : TokenState ℚ} {time : UInt64}
    (hrate : 0 ≤ rate) (htime : eager.previousTimestamp ≤ time.toNat)
    (h : Agrees rate capacity s eager.previousTimestamp eager.previousTokens) :
    Agrees rate capacity s time.toNat (eager.currentTokens rate capacity time) := by
  rw [currentTokens_eq_levelAt rate capacity eager []]
  refine ⟨min_le_right _ _, ?_⟩
  intro later hlater
  rw [h.2 later (htime.trans hlater)]
  exact (Ledger.levelAt_refill hrate hlater).symm

end Agree

/-! ## Runs -/

/-- Both loops hold the same capacity and gain the same tokens per time unit. -/
structure SameBucket (tscHz : UInt64) (hw sw : MoonemConfig) : Prop where
  rate : (swTokenRate tscHz sw : ℚ) = tokenRate hw
  capacity : sw.capacity = hw.capacity

def Stamped (bursts : List RxBurst) : Prop := ∀ rx ∈ bursts, ∀ m ∈ rx.pkts, m.timestamp = rx.tsc

section Loops

variable {tscHz : UInt64} {hw sw : MoonemConfig} {s : TokenLoopState ℚ} {s' : SwTokenLoopState ℚ}

def LoopsAgree (hw : MoonemConfig) (s : TokenLoopState ℚ) (s' : SwTokenLoopState ℚ) : Prop :=
  Agrees (tokenRate hw) (Double.ofUInt64 hw.capacity) s.bucket s'.bucket.previousTimestamp
    s'.bucket.previousTokens

theorem LoopsAgree.refill (hsame : SameBucket tscHz hw sw) {rx : RxBurst}
    (h : LoopsAgree hw s s') (htime : s'.bucket.previousTimestamp ≤ rx.tsc.toNat) :
    Agrees (tokenRate hw) (Double.ofUInt64 hw.capacity) s.bucket rx.tsc.toNat
      (s'.bucket.currentTokens (swTokenRate tscHz sw) (Double.ofUInt64 sw.capacity) rx.tsc) := by
  have hrate : (0 : ℚ) ≤ tokenRate hw := TokenLoop.rate_nonneg tscHz hw .ring
  rw [hsame.rate, hsame.capacity]
  exact Agrees.refill hrate htime h

/-- A burst without a tie leaves the loops in agreement. An empty burst is not seen by
the software loop. -/
theorem LoopsAgree.burst (hsame : SameBucket tscHz hw sw) {rx : RxBurst} (h : LoopsAgree hw s s')
    (hstamp : ∀ m ∈ rx.pkts, m.timestamp = rx.tsc)
    (htime : s'.bucket.previousTimestamp ≤ rx.tsc.toNat)
    (hfree : TieFree (tokenRate hw) (Double.ofUInt64 hw.capacity) s.bucket rx.pkts) :
    LoopsAgree hw (receiverLoopRateTokenBucket hw s rx).state
        (swReceiverLoopRateTokenBucket tscHz sw s' rx).state ∧
      (swReceiverLoopRateTokenBucket tscHz sw s' rx).state.bucket.previousTimestamp ≤
        rx.tsc.toNat := by
  by_cases hnil : rx.pkts = []
  · rw [swReceiverLoopRateTokenBucket_nil tscHz sw s' hnil]
    simp only [receiverLoopRateTokenBucket, hnil, sift_nil]
    exact ⟨h, htime⟩
  · rw [LoopsAgree, (swReceiverLoopRateTokenBucket_eq tscHz sw s' hnil).1]
    exact ⟨((h.refill hsame htime).burst hstamp).2 hfree, le_refl _⟩

theorem accepts_eq_iff_of_agrees (hsame : SameBucket tscHz hw sw) (bursts : List RxBurst)
    (h : LoopsAgree hw s s') (hstamp : Stamped bursts)
    (hlater : ∀ rx ∈ bursts, s'.bucket.previousTimestamp ≤ rx.tsc.toNat)
    (hsorted : bursts.Pairwise fun rx later => rx.tsc ≤ later.tsc) :
    hwAccepts hw s bursts = swAccepts tscHz sw s' bursts ↔
      TieFree (tokenRate hw) (Double.ofUInt64 hw.capacity) s.bucket
        (bursts.flatMap RxBurst.pkts) := by
  induction bursts generalizing s s' with
  | nil => exact iff_of_true rfl trivial
  | cons rx rest ih =>
      obtain ⟨hafter, hrest⟩ := List.pairwise_cons.mp hsorted
      have hstamp' : Stamped rest := fun r hr => hstamp r (List.mem_cons_of_mem rx hr)
      have htime := hlater rx List.mem_cons_self
      have hdecide := ((h.refill hsame htime).burst (hstamp rx List.mem_cons_self)).1
      have htail (hfree : TieFree (tokenRate hw) (Double.ofUInt64 hw.capacity) s.bucket rx.pkts) :
          hwAccepts hw (receiverLoopRateTokenBucket hw s rx).state rest =
              swAccepts tscHz sw (swReceiverLoopRateTokenBucket tscHz sw s' rx).state rest ↔
            TieFree (tokenRate hw) (Double.ofUInt64 hw.capacity)
              (sift (tokenBucketPacket (tokenRate hw) (Double.ofUInt64 hw.capacity)) s.bucket
                rx.pkts).state (rest.flatMap RxBurst.pkts) := by
        obtain ⟨hagree, hpast⟩ := h.burst hsame (hstamp rx List.mem_cons_self) htime hfree
        apply ih hagree hstamp' _ hrest
        intro r hr
        have hle : (rx.tsc.toNat : ℚ) ≤ r.tsc.toNat := by
          exact_mod_cast UInt64.le_iff_toNat_le.mp (hafter r hr)
        exact hpast.trans hle
      rw [List.flatMap_cons, tieFree_append, hwAccepts, swAccepts]
      constructor
      · intro heq
        obtain ⟨hfirst, hothers⟩ := List.append_inj heq (by simp)
        have hfree := hdecide.mp hfirst
        exact ⟨hfree, (htail hfree).mp hothers⟩
      · rintro ⟨hfree, hothers⟩
        rw [hdecide.mpr hfree, (htail hfree).mpr hothers]

end Loops

/-- Fed with the same bursts, the two token buckets accept the same packets exactly
when no packet finds a token level equal to the size of its frame. -/
theorem accepts_eq_iff_tieFree {tscHz : UInt64} {hw sw : MoonemConfig}
    (hsame : SameBucket tscHz hw sw) {bursts : List RxBurst} (hstamp : Stamped bursts)
    (hsorted : bursts.Pairwise fun rx later => rx.tsc ≤ later.tsc) :
    hwAccepts hw (.init hw) bursts = swAccepts tscHz sw (.init sw) bursts ↔
      TieFree (tokenRate hw) (Double.ofUInt64 hw.capacity) .init
        (bursts.flatMap RxBurst.pkts) := by
  apply accepts_eq_iff_of_agrees hsame bursts _ hstamp _ hsorted
  · exact ⟨Nat.cast_nonneg _, fun _ _ => rfl⟩
  · exact fun _ _ => Nat.cast_nonneg _

theorem bucketOnly_same (capacity : UInt64) :
    SameBucket 1000000000 (bucketOnly capacity) (bucketOnly capacity) := by
  refine ⟨?_, rfl⟩
  simp only [swTokenRate, tokenRate, bucketOnly, Double.div_rat, Double.mul_rat,
    Double.ofUInt64_rat]
  decide +kernel

theorem twoPackets_stamped (pktLen : UInt32) : Stamped (twoPackets pktLen) := by
  simp [Stamped, twoPackets]

theorem accepts_eq_iff_tieFree_two_packets :
    hwAccepts (bucketOnly 32768) (.init (bucketOnly 32768)) (twoPackets 60) =
      swAccepts 1000000000 (bucketOnly 32768) (.init (bucketOnly 32768)) (twoPackets 60) := by
  rw [accepts_eq_iff_tieFree (bucketOnly_same 32768) (twoPackets_stamped 60)
    (List.pairwise_singleton _ _)]
  refine ⟨?_, ?_, trivial⟩ <;> decide +kernel

/-- The first frame is as large as the full bucket. -/
theorem accepts_differ_on_tie :
    SameBucket 1000000000 (bucketOnly 88) (bucketOnly 88) ∧ Stamped (twoPackets 64) ∧
      hwAccepts (bucketOnly 88) (.init (bucketOnly 88)) (twoPackets 64) = [false, false] ∧
      swAccepts 1000000000 (bucketOnly 88) (.init (bucketOnly 88)) (twoPackets 64) =
        [true, false] := by
  refine ⟨bucketOnly_same 88, twoPackets_stamped 64, ?_, ?_⟩ <;> decide +kernel

end MoonGen.Moonem

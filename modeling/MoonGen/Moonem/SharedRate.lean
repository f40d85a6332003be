import Mathlib.Algebra.BigOperators.Fin
import Mathlib.Algebra.Order.BigOperators.Group.Finset
import Mathlib.Data.Rat.Floor
import MoonGen.Moonem.LossModel
import MoonGen.Moonem.TokenBucket

/-! # The rate of several threads

`master` in `moonem.lua` divides the rate by the number of threads and gives each thread a token
bucket of its own. The result is truncated to whole Mbit/s for each thread, and the capacity is not
divided.
-/

namespace MoonGen.Moonem

open Sieve Shaping

/-! ## What a bucket can grant -/

theorem currentTokens_le (rate capacity : ℚ) (s : TokenState ℚ) (recvTime : UInt64) :
    s.currentTokens rate capacity recvTime ≤ capacity := by
  rw [currentTokens_eq_levelAt rate capacity s []]
  exact min_le_right _ _

theorem currentTokens_empty_eq {rate : ℚ} (hrate : rate = 0) {capacity : ℚ} (hcap : 0 ≤ capacity)
    {s : TokenState ℚ} (hs : s.previousTokens = 0) (recvTime : UInt64) :
    s.currentTokens rate capacity recvTime = 0 := by
  rw [currentTokens_eq_levelAt rate capacity s [], Ledger.levelAt, TokenState.ledger, hs, hrate,
    mul_zero, zero_add, min_eq_left hcap]

/-- The lengths of packets in memory: with its 24 bytes of preamble, checksum and gap each is below
2^32. -/
def Short (bursts : List RxBurst) : Prop :=
  ∀ rx ∈ bursts, ∀ m ∈ rx.pkts, m.pktLen.toNat + 24 < 2 ^ 32

theorem frameSize_pos {m : Mbuf} (h : m.pktLen.toNat + 24 < 2 ^ 32) : 0 < frameSize m := by
  rw [frameSize_eq h]
  positivity

theorem sift_tokenBucketPacket_size {rate capacity : ℚ} (s : TokenState ℚ) (pkts : List Mbuf) :
    ∀ m ∈ (sift (tokenBucketPacket rate capacity) s pkts).kept, frameSize m ≤ capacity := by
  apply sift_invariant (fun (_ : TokenState ℚ) (out : List Mbuf) =>
    ∀ m ∈ out, frameSize m ≤ capacity) _ pkts (by simp)
  intro s out m hout
  rcases tokenBucketPacket_cases rate capacity s m with ⟨hlt, hpass⟩ | ⟨_, hpass⟩
  · rw [hpass]
    intro x hx
    rcases List.mem_append.mp hx with hold | hnew
    · exact hout x hold
    · rw [List.mem_singleton.mp hnew]
      exact hlt.le.trans (currentTokens_le rate capacity s m.timestamp)
  · rw [hpass, Option.toList_none, List.append_nil]
    exact hout

theorem sift_spendTokens_size {capacity level : ℚ} (hlevel : level ≤ capacity)
    (pkts : List Mbuf) :
    ∀ m ∈ (sift spendTokens level pkts).kept, frameSize m ≤ capacity := by
  let inv (level : ℚ) (out : List Mbuf) : Prop :=
    level ≤ capacity ∧ ∀ m ∈ out, frameSize m ≤ capacity
  have hkeeps : ∀ level out m, inv level out →
      inv (spendTokens level m).1 (out ++ (spendTokens level m).2.toList) := by
    intro level out m h
    rcases spendTokens_cases level m with ⟨hle, hpass⟩ | ⟨_, hpass⟩
    · rw [hpass]
      refine ⟨(sub_le_self _ (frameSize_nonneg m)).trans h.1, ?_⟩
      intro x hx
      rcases List.mem_append.mp hx with hold | hnew
      · exact h.2 x hold
      · rw [List.mem_singleton.mp hnew]
        exact hle.trans h.1
    · rw [hpass, Option.toList_none, List.append_nil]
      exact h
  exact (sift_invariant inv hkeeps pkts ⟨hlevel, by simp⟩).2

theorem sift_tokenBucketPacket_empty {rate : ℚ} (hrate : rate = 0) {capacity : ℚ}
    (hcap : 0 ≤ capacity) {s : TokenState ℚ} (hs : s.previousTokens = 0) (pkts : List Mbuf) :
    (sift (tokenBucketPacket rate capacity) s pkts).state.previousTokens = 0 ∧
      (sift (tokenBucketPacket rate capacity) s pkts).kept = [] := by
  apply sift_invariant (fun (s : TokenState ℚ) (out : List Mbuf) =>
    s.previousTokens = 0 ∧ out = []) _ pkts ⟨hs, rfl⟩
  intro s out m h
  rcases tokenBucketPacket_cases rate capacity s m with ⟨hlt, _⟩ | ⟨_, hpass⟩
  · rw [currentTokens_empty_eq hrate hcap h.1] at hlt
    exact absurd hlt (not_lt.mpr (frameSize_nonneg m))
  · rw [hpass, Option.toList_none, List.append_nil]
    exact h

theorem spendTokens_zero {m : Mbuf} (h : m.pktLen.toNat + 24 < 2 ^ 32) :
    spendTokens (0 : ℚ) m = (0, none) := by
  rcases spendTokens_cases 0 m with ⟨hle, _⟩ | ⟨_, hpass⟩
  · exact absurd hle (not_le.mpr (frameSize_pos h))
  · exact hpass

theorem sift_spendTokens_empty {pkts : List Mbuf}
    (h : ∀ m ∈ pkts, m.pktLen.toNat + 24 < 2 ^ 32) :
    (sift spendTokens (0 : ℚ) pkts).state = 0 ∧ (sift spendTokens (0 : ℚ) pkts).kept = [] := by
  induction pkts with
  | nil => exact ⟨rfl, rfl⟩
  | cons m rest ih =>
      have hzero := spendTokens_zero (h m List.mem_cons_self)
      have hnone : (spendTokens (0 : ℚ) m).2 = none := congrArg Prod.snd hzero
      rw [sift_cons_none hnone, hzero]
      exact ih fun x hx => h x (List.mem_cons_of_mem m hx)

namespace TokenLoop

variable {tscHz : UInt64} {config : MoonemConfig}

theorem iterate_admitted (loop : TokenLoop) (s : loop.State) (rx : RxBurst) :
    (loop.iterate tscHz config s rx).admitted.Sublist rx.pkts ∧
      ∀ m ∈ (loop.iterate tscHz config s rx).admitted, frameSize m ≤ config.capacity.toNat := by
  have hhw : ∀ s : TokenState ℚ, ((sift (tokenBucketPacket (tokenRate config)
      (Double.ofUInt64 config.capacity)) s rx.pkts).kept).Sublist rx.pkts := by
    intro s
    exact sift_kept_sublist (fun _ _ _ h => tokenBucketPacket_some h) s rx.pkts
  cases loop with
  | fwd => exact ⟨hhw s.bucket, sift_tokenBucketPacket_size s.bucket rx.pkts⟩
  | ring => exact ⟨hhw s.bucket, sift_tokenBucketPacket_size s.bucket rx.pkts⟩
  | software =>
      show (swReceiverLoopRateTokenBucket tscHz config s rx).admitted.Sublist rx.pkts ∧
        ∀ m ∈ (swReceiverLoopRateTokenBucket tscHz config s rx).admitted,
          frameSize m ≤ config.capacity.toNat
      by_cases hnil : rx.pkts = []
      · rw [swReceiverLoopRateTokenBucket_nil tscHz config s hnil]
        exact ⟨List.nil_sublist _, by simp⟩
      · rw [(swReceiverLoopRateTokenBucket_eq tscHz config s hnil).2]
        exact ⟨sift_kept_sublist (fun _ _ _ h => spendTokens_some h) _ rx.pkts,
          sift_spendTokens_size (currentTokens_le _ _ _ _) rx.pkts⟩

theorem grants_size_le (loop : TokenLoop) (s : loop.State) (bursts : List RxBurst) :
    ∀ g ∈ loop.grants tscHz config s bursts, g.size ≤ config.capacity.toNat := by
  induction bursts generalizing s with
  | nil => simp [grants, admissions]
  | cons rx rest ih =>
      intro g hg
      rw [grants_cons] at hg
      rcases List.mem_append.mp hg with hnow | hlater
      · obtain ⟨m, hm, rfl⟩ := List.mem_map.mp hnow
        exact (iterate_admitted loop s rx).2 m hm
      · exact ih _ g hlater

theorem grants_times (loop : TokenLoop) (s : loop.State) (bursts : List RxBurst) :
    ((loop.grants tscHz config s bursts).map Grant.time).Sublist
      ((loop.recvTimes bursts).map fun t => (t.toNat : ℚ)) := by
  induction bursts generalizing s with
  | nil => exact List.Sublist.refl _
  | cons rx rest ih =>
      have hadmitted : (loop.iterate tscHz config s rx).admitted.Sublist rx.pkts :=
        (iterate_admitted loop s rx).1
      have hnow := (hadmitted.map (loop.recvTime rx)).map fun t => (t.toNat : ℚ)
      rw [recvTimes, List.flatMap_cons, grants_cons, List.map_append, List.map_append]
      refine List.Sublist.append ?_ (ih _)
      simpa [grant, Function.comp_def] using hnow

theorem grants_sorted (loop : TokenLoop) (s : loop.State) {bursts : List RxBurst}
    (h : (loop.recvTimes bursts).Pairwise (· ≤ ·)) :
    (loop.grants tscHz config s bursts).Pairwise fun g h => g.time ≤ h.time := by
  rw [← List.pairwise_map (f := Grant.time) (R := (· ≤ ·))]
  refine List.Pairwise.sublist (grants_times loop s bursts) ?_
  rw [List.pairwise_map]
  refine h.imp ?_
  intro t u htu
  exact_mod_cast UInt64.le_iff_toNat_le.mp htu

theorem iterate_of_rate_zero (loop : TokenLoop) (hrate : loop.rate tscHz config = 0)
    {s : loop.State} (hs : (loop.bucket s).previousTokens = 0) {rx : RxBurst}
    (hshort : ∀ m ∈ rx.pkts, m.pktLen.toNat + 24 < 2 ^ 32) :
    (loop.bucket (loop.iterate tscHz config s rx).state).previousTokens = 0 ∧
      (loop.iterate tscHz config s rx).admitted = [] := by
  have hcap : (0 : ℚ) ≤ config.capacity.toNat := Nat.cast_nonneg _
  cases loop with
  | fwd => exact sift_tokenBucketPacket_empty hrate hcap hs rx.pkts
  | ring => exact sift_tokenBucketPacket_empty hrate hcap hs rx.pkts
  | software =>
      show (swReceiverLoopRateTokenBucket tscHz config s rx).state.bucket.previousTokens = 0 ∧
        (swReceiverLoopRateTokenBucket tscHz config s rx).admitted = []
      by_cases hnil : rx.pkts = []
      · rw [swReceiverLoopRateTokenBucket_nil tscHz config s hnil]
        exact ⟨hs, rfl⟩
      · have htokens : s.bucket.currentTokens (swTokenRate tscHz config)
            (config.capacity.toNat : ℚ) rx.tsc = 0 := currentTokens_empty_eq hrate hcap hs rx.tsc
        obtain ⟨hstate, hadmitted⟩ := swReceiverLoopRateTokenBucket_eq tscHz config s hnil
        rw [hstate, hadmitted, htokens]
        exact sift_spendTokens_empty hshort

theorem admissions_of_rate_zero (loop : TokenLoop) (hrate : loop.rate tscHz config = 0)
    {s : loop.State} (hs : (loop.bucket s).previousTokens = 0) {bursts : List RxBurst}
    (hshort : Short bursts) : loop.admissions tscHz config s bursts = [] := by
  induction bursts generalizing s with
  | nil => rfl
  | cons rx rest ih =>
      obtain ⟨hempty, hnone⟩ :=
        loop.iterate_of_rate_zero hrate hs (hshort rx List.mem_cons_self)
      rw [admissions, hnone, ih hempty fun r hr => hshort r (List.mem_cons_of_mem rx hr)]
      rfl

theorem admissions_pkts (loop : TokenLoop) (s : loop.State) (bursts : List RxBurst) :
    ∀ a ∈ loop.admissions tscHz config s bursts, ∃ rx ∈ bursts, a.2 ∈ rx.pkts := by
  induction bursts generalizing s with
  | nil => simp [admissions]
  | cons rx rest ih =>
      intro a ha
      rcases List.mem_append.mp ha with hnow | hlater
      · obtain ⟨m, hm, rfl⟩ := List.mem_map.mp hnow
        exact ⟨rx, List.mem_cons_self, (iterate_admitted loop s rx).1.subset hm⟩
      · obtain ⟨r, hr, hpkt⟩ := ih _ a hlater
        exact ⟨r, List.mem_cons_of_mem rx hr, hpkt⟩

theorem fullGrants_eq (loop : TokenLoop) (s : loop.State) {bursts : List RxBurst}
    (hshort : Short bursts) :
    loop.fullGrants tscHz config s bursts = loop.grants tscHz config s bursts := by
  apply fullGrants_eq_grants
  intro a ha
  obtain ⟨rx, hrx, hpkt⟩ := loop.admissions_pkts s bursts a ha
  exact hshort rx hrx a.2 hpkt

/-- Bytes for each tick of the clock of a loop at a rate in Mbit/s. -/
def bytesPerTick (tscHz : UInt64) (mbits : ℚ) : TokenLoop → ℚ
  | .fwd | .ring => mbits / 8000
  | .software => mbits / 8 / tscHz.toNat * 1000000

theorem rate_eq (loop : TokenLoop) :
    loop.rate tscHz config = loop.bytesPerTick tscHz config.rate.toNat := by
  cases loop <;> rfl

theorem mul_bytesPerTick (loop : TokenLoop) (n mbits : ℚ) :
    n * loop.bytesPerTick tscHz mbits = loop.bytesPerTick tscHz (n * mbits) := by
  cases loop <;> simp only [bytesPerTick] <;> ring

theorem bytesPerTick_mono (loop : TokenLoop) {mbits more : ℚ} (h : mbits ≤ more) :
    loop.bytesPerTick tscHz mbits ≤ loop.bytesPerTick tscHz more := by
  cases loop <;> simp only [bytesPerTick] <;> gcongr

end TokenLoop

/-! ## The threads of a direction -/

theorem toNat_numberToUint64_le {val : ℚ} (h : 0 ≤ val) :
    ((numberToUint64 val).toNat : ℚ) ≤ val :=
  (numberToUint64_le_max (neg_one_lt_zero.trans_le h)).trans_eq (max_eq_right h)

theorem master_shares {args : Args} {config : MoonemConfig} (h : master args = some config) :
    config.rate = numberToUint64 (args.rate / args.threads) ∧
      config.capacity = numberToUint64 args.capacity := by
  obtain ⟨-, -, -, lossType, loss, parameters, -, rfl⟩ := master_accepts h
  exact ⟨rfl, rfl⟩

/-- The threads of a direction have a bucket each, with a share of the rate and all of the
capacity. Together they pass in any period at most the refill of the rate that was asked for and
the capacity once for each thread; a rate below 1 Mbit/s for each thread passes nothing at all. -/
theorem threads_share_rate (args : Args) (config : MoonemConfig) (h : master args = some config)
    (n : Nat) (hn : 0 < n) (hthreads : args.threads = n) (hrate : 0 ≤ args.rate)
    (hcap : 0 ≤ args.capacity) (tscHz : UInt64) (loop : TokenLoop) (bursts : Fin n → List RxBurst)
    (hsorted : ∀ i, (loop.recvTimes (bursts i)).Pairwise (· ≤ ·))
    (hshort : ∀ i, Short (bursts i)) :
    (∀ a b : ℚ, a ≤ b →
      ∑ i, total (window a b (loop.fullGrants tscHz config (loop.init config) (bursts i))) ≤
        n * args.capacity + loop.bytesPerTick tscHz args.rate * (b - a)) ∧
      (args.rate < n → ∀ i, loop.admissions tscHz config (loop.init config) (bursts i) = []) := by
  obtain ⟨hshare, hwhole⟩ := master_shares h
  have hpos : (0 : ℚ) < n := by exact_mod_cast hn
  rw [hthreads] at hshare
  have hper : 0 ≤ args.rate / n := div_nonneg hrate hpos.le
  constructor
  · intro a b hab
    have hone : ∀ i,
        total (window a b (loop.fullGrants tscHz config (loop.init config) (bursts i))) ≤
          args.capacity + loop.bytesPerTick tscHz (args.rate / n) * (b - a) := by
      intro i
      rw [loop.fullGrants_eq _ (hshort i)]
      have hsound := TokenLoop.run_sound tscHz config loop (bursts i)
        (TokenLoop.init_sound tscHz config loop)
      rw [List.nil_append] at hsound
      have hbound := hsound.conforms.window_le (TokenLoop.grants_sorted loop _ (hsorted i))
        (TokenLoop.grants_size_le loop _ (bursts i)) (TokenLoop.rate_nonneg tscHz config loop)
        (Nat.cast_nonneg _) hab
      have hcapacity : (config.capacity.toNat : ℚ) ≤ args.capacity := by
        rw [hwhole]
        exact toNat_numberToUint64_le hcap
      have hticks : loop.rate tscHz config ≤ loop.bytesPerTick tscHz (args.rate / n) := by
        rw [TokenLoop.rate_eq, hshare]
        exact loop.bytesPerTick_mono (toNat_numberToUint64_le hper)
      have hrefill := mul_le_mul_of_nonneg_right hticks (sub_nonneg.mpr hab)
      exact hbound.trans (add_le_add hcapacity hrefill)
    calc ∑ i, total (window a b (loop.fullGrants tscHz config (loop.init config) (bursts i)))
        ≤ ∑ _i : Fin n, (args.capacity + loop.bytesPerTick tscHz (args.rate / n) * (b - a)) :=
          Finset.sum_le_sum fun i _ => hone i
      _ = n * args.capacity + n * loop.bytesPerTick tscHz (args.rate / n) * (b - a) := by
          rw [Finset.sum_const, Finset.card_univ, Fintype.card_fin, nsmul_eq_mul]
          ring
      _ = n * args.capacity + loop.bytesPerTick tscHz args.rate * (b - a) := by
          rw [TokenLoop.mul_bytesPerTick, mul_div_cancel₀ _ hpos.ne']
  · intro hlow i
    have hzero : config.rate = 0 := by
      have hbelow : args.rate / n < 1 := (div_lt_one hpos).mpr hlow
      have hfloor : ⌊args.rate / n⌋ = 0 := Int.floor_eq_zero_iff.mpr ⟨hper, hbelow⟩
      rw [hshare, numberToUint64, towardZero, if_pos hper, hfloor]
      rfl
    refine loop.admissions_of_rate_zero ?_ ?_ (hshort i)
    · rw [TokenLoop.rate_eq, hzero]
      cases loop <;> simp [TokenLoop.bytesPerTick]
    · cases loop <;> rfl

theorem threads_share_rate_two :
    let args : Args := ⟨0, 100, 0, none, none, true, false, 1000, 12345, 2⟩
    let config : MoonemConfig := ⟨0, 50, 1000, 12345, .none, 0, fun _ => 0⟩
    let bursts : Fin 2 → List RxBurst := fun _ => [⟨[⟨1, 60, 1000000, 0⟩], 0, by decide⟩]
    master args = some config ∧
      (∑ i, total (window 0 2000000 (TokenLoop.fwd.fullGrants 0 config
        (TokenLoop.init config .fwd) (bursts i)))) = 168 ∧
      (∑ i, total (window 0 2000000 (TokenLoop.fwd.fullGrants 0 config
        (TokenLoop.init config .fwd) (bursts i)))) ≤ (2 : ℕ) * args.capacity +
          TokenLoop.bytesPerTick 0 args.rate .fwd * (2000000 - 0) := by
  intro args config bursts
  have hmaster : master args = some config := by
    have hdelay : numberToUint64 (0 : ℚ) = 0 := by decide +kernel
    have hrate : numberToUint64 (100 / 2 : ℚ) = 50 := by decide +kernel
    have hcapacity : numberToUint64 (1000 : ℚ) = 1000 := by decide +kernel
    have hseed : numberToUint64 (12345 : ℚ) = 12345 := by decide +kernel
    simp [args, config, master, masterLoss, lossModelCount, hdelay, hrate, hcapacity, hseed]
  have hsorted : ∀ i, (TokenLoop.recvTimes .fwd (bursts i)).Pairwise (· ≤ ·) := by
    intro i
    exact List.pairwise_singleton _ _
  have hshort : ∀ i, Short (bursts i) := by
    intro i
    simp [Short, bursts]
  refine ⟨hmaster, ?_, (threads_share_rate args config hmaster 2 (by decide) rfl (by decide +kernel)
    (by decide +kernel) 0 .fwd bursts hsorted hshort).1 0 2000000 (by norm_num)⟩
  decide +kernel

end MoonGen.Moonem

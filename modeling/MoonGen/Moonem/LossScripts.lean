import Mathlib.Data.Nat.Factorization.Basic
import MoonGen.Moonem.LossEquivalence
import MoonGen.Moonem.NetemDraws
import MoonGen.Moonem.Ownership

/-! # The loss model for scripts and the path emulator

`loss-model.lua` offers the loss models of the emulator to other scripts. An object
calls the same `applyLoss` with a configuration of its own. The receive loops of the
emulator start the generator from the seed; an object has a zeroed generator, and its
constructor stores the seed under a name that the structure does not have.
-/

namespace MoonGen.Moonem

open Sieve

/-! ## Objects of `loss-model.lua` -/

structure LossModel where
  moonemConfig : MoonemConfig
  state : LossState

namespace LossModel

/-- The object around a configuration, with `state = ffi.new("uint64_t[2]")`. -/
def ofConfig (config : MoonemConfig) : LossModel := ⟨config, ⟨0, 0⟩⟩

/-- The object after `apply_loss`, and the packets in `packets_out`. -/
def applyLoss (model : LossModel) (packetsIn : List Mbuf) : LossModel × List Mbuf :=
  let r := Moonem.applyLoss model.moonemConfig model.state packetsIn
  ({ model with state := r.state }, r.kept)

def applyAll : LossModel → List (List Mbuf) → List Mbuf
  | _, [] => []
  | model, packetsIn :: rest =>
      (model.applyLoss packetsIn).2 ++ (model.applyLoss packetsIn).1.applyAll rest

/-- How a stream is cut into calls does not matter. -/
theorem applyAll_eq_sift {model : LossModel} (h : model.moonemConfig.lossType ≠ .none)
    (calls : List (List Mbuf)) :
    model.applyAll calls =
      (sift (dropBy (lossDrop model.moonemConfig)) model.state calls.flatten).kept := by
  induction calls generalizing model with
  | nil => rfl
  | cons packetsIn rest ih =>
      have hrest := @ih (model.applyLoss packetsIn).1 h
      simp only [applyLoss, applyLoss_eq_sift h] at hrest
      simp only [applyAll, applyLoss, applyLoss_eq_sift h, List.flatten_cons, sift_append, hrest]

end LossModel

inductive LossSpec where
  | uniform (loss : Rat)
  | ge (parameters : List Rat)
  | netem (parameters : List Rat)
deriving Repr, DecidableEq

namespace LossSpec

def Valid : LossSpec → Prop
  | .uniform loss => 0 ≤ loss
  | .ge parameters => 1 ≤ parameters.length ∧ parameters.length ≤ 4
  | .netem parameters => parameters.length = 5 ∧ ∀ p ∈ parameters, 0 ≤ p ∧ p ≤ 100

def newModel (seed : Rat) : LossSpec → Option LossModel
  | .uniform loss => some (.ofConfig (newUniform seed loss))
  | .ge parameters => some (.ofConfig (newGe seed parameters))
  | .netem parameters => (newNetem seed parameters).map .ofConfig

/-- The command line of the emulator that asks for the model, next to its other options. -/
def toArgs (args : Args) (seed : Rat) : LossSpec → Args
  | .uniform loss => { args with loss := loss, geLoss := none, netemLoss := none, seed := seed }
  | .ge parameters =>
      { args with loss := 0, geLoss := some parameters, netemLoss := none, seed := seed }
  | .netem parameters =>
      { args with loss := 0, geLoss := none, netemLoss := some parameters, seed := seed }

end LossSpec

/-! ## The loops that call `applyLoss` -/

inductive LossLoop where
  | delay
  | rateLeakyBucket
  | rateTokenBucketFwd
  | rateTokenBucket
  | swFwd
  | swDelay
deriving Repr, DecidableEq

/-- The packets a loop hands to `applyLoss` over a run, and those it gets back. -/
structure LossRun where
  offered : List Mbuf
  kept : List Mbuf

def LossRun.ofIteration (buf : β → Mbuf) (it : Iteration σ β) : LossRun :=
  ⟨it.admitted.map buf, it.out⟩

def LossLoop.run (D : Type) [Double D] (tscHz : UInt64) (config : MoonemConfig)
    (bursts : List RxBurst) : LossLoop → LossRun
  | .delay => .ofIteration id (serve (receiverLoopDelay config) (.init config) bursts)
  | .rateLeakyBucket =>
      .ofIteration Shaped.pkt
        (serve (receiverLoopRateLeakyBucket (D := D) config) (.init config) bursts)
  | .rateTokenBucketFwd =>
      .ofIteration id (serve (receiverLoopRateTokenBucketFwd (D := D) config) (.init config) bursts)
  | .rateTokenBucket =>
      .ofIteration id (serve (receiverLoopRateTokenBucket (D := D) config) (.init config) bursts)
  | .swFwd => .ofIteration id (serve (swReceiverLoopFwd config) (.init config) bursts)
  | .swDelay => .ofIteration id (serve (swReceiverLoopDelay D tscHz config) (.init config) bursts)

theorem lossStage_addrs (config : MoonemConfig) (s : LossState) (bufs : List Mbuf) :
    addrs (lossStage config s bufs).kept = (sift (dropBy (lossDrop config)) s (addrs bufs)).kept ∧
      (lossStage config s bufs).state =
        (sift (dropBy (lossDrop config)) s (addrs bufs)).state := by
  rw [lossStage_eq_sift]
  obtain ⟨hkept, _, hstate⟩ := sift_dropBy_map (lossDrop config) Mbuf.addr s bufs
  exact ⟨hkept.symm, hstate.symm⟩

/-- A loop whose iterations hand the admitted packets to the loss stage, with whatever
stamps, keeps over a run what the loss model keeps of the offered packets. -/
theorem LossRun.kept_eq_sift {iterate : σ → RxBurst → Iteration σ β} {config : MoonemConfig}
    (loss : σ → LossState) (buf : β → Mbuf) (handed : σ → RxBurst → List Mbuf)
    (haddrs : ∀ s rx, addrs (handed s rx) = addrs ((iterate s rx).admitted.map buf))
    (hout : ∀ s rx, addrs (iterate s rx).out =
      addrs (lossStage config (loss s) (handed s rx)).kept)
    (hstate : ∀ s rx, loss (iterate s rx).state =
      (lossStage config (loss s) (handed s rx)).state)
    (s : σ) (bursts : List RxBurst) :
    addrs (ofIteration buf (serve iterate s bursts)).kept =
      (sift (dropBy (lossDrop config)) (loss s)
        (addrs (ofIteration buf (serve iterate s bursts)).offered)).kept := by
  have hmap (bs : List β) : addrs (bs.map buf) = bs.map fun b => (buf b).addr := by
    simp [addrs]
  simp only [ofIteration, hmap]
  apply serve_kept loss
  intro s rx
  obtain ⟨hkept, hnext⟩ := lossStage_addrs config (loss s) (handed s rx)
  rw [haddrs, hmap] at hkept hnext
  exact ⟨(hout s rx).trans hkept, (hstate s rx).trans hnext⟩

theorem LossLoop.kept_eq_sift (D : Type) [Double D] (tscHz : UInt64) (config : MoonemConfig)
    (bursts : List RxBurst) (loop : LossLoop) :
    addrs (loop.run D tscHz config bursts).kept =
      (sift (dropBy (lossDrop config)) (.init config)
        (addrs (loop.run D tscHz config bursts).offered)).kept := by
  cases loop with
  | delay =>
      exact LossRun.kept_eq_sift id id _ (fun _ _ => by simp [addrs, receiverLoopDelay])
        (fun _ _ => rfl) (fun _ _ => rfl) _ bursts
  | rateLeakyBucket =>
      exact LossRun.kept_eq_sift LeakyLoopState.loss Shaped.pkt _
        (fun _ _ => by simp [addrs, receiverLoopRateLeakyBucket]) (fun _ _ => rfl) (fun _ _ => rfl)
        _ bursts
  | rateTokenBucketFwd =>
      exact LossRun.kept_eq_sift TokenLoopState.loss id _
        (fun _ _ => by simp [addrs, receiverLoopRateTokenBucketFwd]) (fun _ _ => rfl)
        (fun _ _ => rfl) _ bursts
  | rateTokenBucket =>
      exact LossRun.kept_eq_sift TokenLoopState.loss id _
        (fun _ _ => by simp [addrs, receiverLoopRateTokenBucket]) (fun _ _ => rfl) (fun _ _ => rfl)
        _ bursts
  | swFwd =>
      exact LossRun.kept_eq_sift id id _ (fun _ _ => by simp [addrs, swReceiverLoopFwd])
        (fun _ _ => rfl) (fun _ _ => rfl) _ bursts
  | swDelay =>
      exact LossRun.kept_eq_sift id id _ (fun _ _ => by simp [addrs, swReceiverLoopDelay])
        (fun _ _ => addrs_stampBurst _ _) (fun _ _ => rfl) _ bursts

/-! ## The two configurations -/

theorem lossDrop_congr {config config' : MoonemConfig} (h : config.lossModel = config'.lossModel) :
    lossDrop config = lossDrop config' := by
  simp only [MoonemConfig.lossModel, Prod.mk.injEq] at h
  obtain ⟨htype, hloss, hparameters⟩ := h
  have huniform : uniformDrop config = uniformDrop config' := by
    unfold uniformDrop
    rw [hloss]
  have hge : geDrop config = geDrop config' := by
    unfold geDrop
    rw [hparameters]
  have hmove : netemMove config = netemMove config' := by
    unfold netemMove
    rw [hparameters]
  have hnetem : netemDrop config = netemDrop config' := by
    unfold netemDrop
    rw [hmove]
  rw [lossDrop, lossDrop, htype, huniform, hge, hnetem]

/-- An object and the emulator get the same loss model, except for a loss of zero percent:
the emulator then has none, and the object one that drops nothing. -/
theorem LossSpec.configs_agree {spec : LossSpec} {args : Args} {seed : Rat} {config : MoonemConfig}
    {model : LossModel} (hvalid : spec.Valid) (hmodel : spec.newModel seed = some model)
    (hconfig : master (spec.toArgs args seed) = some config) :
    model.state = ⟨0, 0⟩ ∧ model.moonemConfig.lossType ≠ .none ∧
      (config.lossModel = model.moonemConfig.lossModel ∨
        (∀ s, (lossDrop config s).1 = false) ∧ ∀ s, (lossDrop model.moonemConfig s).1 = false) := by
  obtain ⟨_, hbuilt, _⟩ := masterLoss_of_master hconfig
  cases spec with
  | uniform loss =>
      cases hmodel
      refine ⟨rfl, (by decide : LossType.uniform ≠ .none), ?_⟩
      by_cases hpos : 0 < (toArgs args seed (.uniform loss)).loss
      · left
        rw [masterLoss, if_pos hpos] at hbuilt
        exact (Option.some.inj hbuilt).symm
      · right
        have hzero : loss = 0 := le_antisymm (not_lt.mp hpos) hvalid
        subst hzero
        rw [masterLoss, if_neg hpos] at hbuilt
        have htype : config.lossType = .none := (congrArg Prod.fst (Option.some.inj hbuilt)).symm
        have hloss : scaleToUint64 (0 / 100) = 0 := by decide +kernel
        constructor
        · intro s
          simp only [lossDrop, htype]
        · intro s
          exact uniformDrop_never hloss s
  | ge parameters =>
      cases hmodel
      refine ⟨rfl, (by decide : LossType.ge ≠ .none), .inl ?_⟩
      simp only [masterLoss, toArgs, lt_irrefl, if_false] at hbuilt
      exact (Option.some.inj hbuilt).symm
  | netem parameters =>
      obtain ⟨built, hnew, rfl⟩ := Option.map_eq_some_iff.mp hmodel
      obtain ⟨scaled, hscaled, rfl⟩ := Option.map_eq_some_iff.mp hnew
      refine ⟨rfl, (by decide : LossType.netem ≠ .none), .inl ?_⟩
      simp only [masterLoss, toArgs, lt_irrefl, if_false, hscaled, Option.map_some] at hbuilt
      exact (Option.some.inj hbuilt).symm

/-! ## The generator forgets no seed -/

def wyhashValue (state : UInt64) : UInt64 :=
  let tmp := state.toNat * 0xa3b195354a39b70d
  let m1 := UInt64.ofNat ((tmp >>> 64) ^^^ tmp)
  let tmp := m1.toNat * 0x1b03738712fad5c9
  UInt64.ofNat ((tmp >>> 64) ^^^ tmp)

theorem wyhash64_eq (state : UInt64) :
    wyhash64 state =
      (wyhashValue (state + 0x60bee2bee120fc15), state + 0x60bee2bee120fc15) := rfl

theorem uniformDrop_eq (config : MoonemConfig) (s : LossState) :
    uniformDrop config s =
      (decide (wyhashValue (s.random + 0x60bee2bee120fc15) < config.loss),
        { s with random := s.random + 0x60bee2bee120fc15 }) := by
  rw [uniformDrop, wyhash64_eq]

theorem drawn_uniformDrop (config : MoonemConfig) (s : LossState) (n : Nat) :
    (drawn (uniformDrop config) s n).random =
      s.random + UInt64.ofNat n * 0x60bee2bee120fc15 := by
  induction n with
  | zero => simp [drawn]
  | succ n ih =>
      rw [drawn_succ, uniformDrop_eq, UInt64.ofNat_add, ih]
      grind

theorem uniformDrop_drawn (config : MoonemConfig) (s : LossState) (n : Nat) :
    (uniformDrop config (drawn (uniformDrop config) s n)).1 =
      decide (wyhashValue (s.random + UInt64.ofNat (n + 1) * 0x60bee2bee120fc15) <
        config.loss) := by
  have hstate : s.random + UInt64.ofNat n * 0x60bee2bee120fc15 + 0x60bee2bee120fc15 =
      s.random + UInt64.ofNat (n + 1) * 0x60bee2bee120fc15 := by
    rw [UInt64.ofNat_add]
    grind
  rw [uniformDrop_eq, drawn_uniformDrop, hstate]

/-- The increment is odd, so the generator comes through every state. -/
theorem exists_steps (u : UInt64) : ∃ n, UInt64.ofNat (n + 1) * 0x60bee2bee120fc15 = u := by
  have hinverse : (0x4718c01ea76cf33d : UInt64) * 0x60bee2bee120fc15 = 1 := by decide
  refine ⟨(u * 0x4718c01ea76cf33d - 1).toNat, ?_⟩
  have hsteps : UInt64.ofNat ((u * 0x4718c01ea76cf33d - 1).toNat + 1) =
      u * 0x4718c01ea76cf33d := by
    rw [UInt64.ofNat_add, UInt64.ofNat_toNat]
    grind
  rw [hsteps, UInt64.mul_assoc, hinverse, UInt64.mul_one]

theorem exists_mul_eq_two_pow_63 {d : UInt64} (hd : d ≠ 0) :
    ∃ k, UInt64.ofNat k * d = 0x8000000000000000 := by
  have hpos : d.toNat ≠ 0 := fun h => hd (UInt64.toNat_inj.mp h)
  obtain ⟨j, m, hodd, hdm⟩ := Nat.exists_eq_two_pow_mul_odd hpos
  obtain ⟨i, rfl⟩ := hodd
  have hj : j < 64 := by
    by_contra hge
    have hpow : 2 ^ 64 ≤ 2 ^ j := Nat.pow_le_pow_right (by decide) (Nat.not_lt.mp hge)
    have hfactor : 2 ^ j ≤ d.toNat := by
      rw [hdm]
      exact Nat.le_mul_of_pos_right _ (Nat.succ_pos _)
    exact absurd d.toNat_lt (Nat.not_lt.mpr (hpow.trans hfactor))
  have hproduct : 2 ^ (63 - j) * d.toNat = 2 ^ 64 * i + 2 ^ 63 := by
    rw [hdm, ← Nat.mul_assoc, ← Nat.pow_add, Nat.sub_add_cancel (Nat.le_of_lt_succ hj)]
    ring
  refine ⟨2 ^ (63 - j), UInt64.toNat_inj.mp ?_⟩
  rw [UInt64.toNat_mul, UInt64.toNat_ofNat', Nat.mod_mul_mod, hproduct, Nat.mul_add_mod]
  rfl

/-- No distance but zero is a period of the values: a multiple of it is `2 ^ 63`, and the
values of zero and of `2 ^ 63` differ. -/
theorem wyhashValue_not_periodic {d : UInt64} (hd : d ≠ 0) :
    ¬ ∀ u, wyhashValue (d + u) = wyhashValue u := by
  intro hperiod
  have hmultiple (k : Nat) : wyhashValue (UInt64.ofNat k * d) = wyhashValue 0 := by
    induction k with
    | zero => simp
    | succ k ih =>
        have hnext : UInt64.ofNat (k + 1) * d = d + UInt64.ofNat k * d := by
          rw [UInt64.ofNat_add]
          grind
        rw [hnext, hperiod, ih]
  obtain ⟨k, hk⟩ := exists_mul_eq_two_pow_63 hd
  have hvalue := hmultiple k
  rw [hk] at hvalue
  exact absurd hvalue (by decide +kernel)

/-! ## Agreement -/

/-- A Lua number that `uint64_t` can hold after rounding towards zero. -/
structure Seed where
  value : Rat
  nonneg : 0 ≤ value
  fits : value < 2 ^ 64

theorem Seed.numberToUint64_eq_zero_iff (seed : Seed) : numberToUint64 seed.value = 0 ↔ seed.value < 1 := by
  have hfloor := toNat_numberToUint64 seed.nonneg seed.fits
  have hword : numberToUint64 seed.value = 0 ↔ ⌊seed.value⌋ = 0 := by
    rw [← UInt64.toNat_inj, ← hfloor]
    exact Int.natCast_eq_zero.symm
  rw [hword, Int.floor_eq_zero_iff]
  exact ⟨fun h => h.2, fun h => ⟨seed.nonneg, h⟩⟩

/-- Whatever the loss model, the emulator's other options and its loop: from the packets that
the loop offers, an object made with the seed keeps those that the loop keeps. A call counts
its packets in 16 bits. -/
def LossModelsAgree (D : Type) [Double D] (seed : Seed) : Prop :=
  ∀ (spec : LossSpec) (args : Args) (model : LossModel) (config : MoonemConfig) (loop : LossLoop)
    (tscHz : UInt64) (bursts : List RxBurst) (calls : List (List Mbuf)),
    spec.Valid → spec.newModel seed.value = some model →
    master (spec.toArgs args seed.value) = some config →
    (∀ packetsIn ∈ calls, packetsIn.length < 2 ^ 16) →
    addrs calls.flatten = addrs (loop.run D tscHz config bursts).offered →
    addrs (model.applyAll calls) = addrs (loop.run D tscHz config bursts).kept

theorem LossSpec.lossSeed_eq {spec : LossSpec} {args : Args} {seed : Rat} {config : MoonemConfig}
    (h : master (spec.toArgs args seed) = some config) : config.lossSeed = numberToUint64 seed := by
  obtain ⟨_, _, hseed⟩ := masterLoss_of_master h
  cases spec with
  | uniform loss => exact hseed
  | ge parameters => exact hseed
  | netem parameters => exact hseed

theorem addrs_applyAll {model : LossModel} (h : model.moonemConfig.lossType ≠ .none)
    (calls : List (List Mbuf)) :
    addrs (model.applyAll calls) =
      (sift (dropBy (lossDrop model.moonemConfig)) model.state (addrs calls.flatten)).kept := by
  rw [LossModel.applyAll_eq_sift h]
  exact (sift_dropBy_map _ Mbuf.addr _ _).1.symm

theorem agree_of_zero (D : Type) [Double D] {seed : Seed} (h : numberToUint64 seed.value = 0) :
    LossModelsAgree D seed := by
  intro spec args model config loop tscHz bursts calls hvalid hmodel hconfig _ hoffered
  obtain ⟨hstate, htype, hsame⟩ := LossSpec.configs_agree hvalid hmodel hconfig
  have hinit : LossState.init config = ⟨0, 0⟩ := by
    rw [LossState.init, LossSpec.lossSeed_eq hconfig, h]
  rw [addrs_applyAll htype, loop.kept_eq_sift D, hoffered, hstate, hinit]
  rcases hsame with hmodels | ⟨hnone, hnever⟩
  · rw [lossDrop_congr hmodels]
  · rw [(sift_dropBy_of_never hnever _ _).1, (sift_dropBy_of_never hnone _ _).1]

theorem swFwd_offered (D : Type) [Double D] (tscHz : UInt64) (config : MoonemConfig)
    (bursts : List RxBurst) :
    (LossLoop.swFwd.run D tscHz config bursts).offered = (bursts.map RxBurst.pkts).flatten := by
  have hserve (s : LossState) :
      (serve (swReceiverLoopFwd config) s bursts).admitted = (bursts.map RxBurst.pkts).flatten := by
    induction bursts generalizing s with
    | nil => rfl
    | cons rx rest ih => exact congrArg (rx.pkts ++ ·) (ih _)
  simp only [LossLoop.run, LossRun.ofIteration, List.map_id, hserve]

def lossFor (threshold : UInt64) : Rat := 100 * (threshold.toNat / 2 ^ 64)

theorem scaleToUint64_lossFor (threshold : UInt64) :
    scaleToUint64 (lossFor threshold / 100) = threshold := by
  have hlt : (threshold.toNat : Rat) < 2 ^ 64 := by exact_mod_cast threshold.toNat_lt
  have hshare : lossFor threshold / 100 = threshold.toNat / 2 ^ 64 := by
    rw [lossFor]
    ring
  have hne : (threshold.toNat : Rat) / 2 ^ 64 ≠ 1 := by
    intro heq
    rw [div_eq_one_iff_eq (by positivity)] at heq
    exact absurd heq hlt.ne
  have hscaled : (2 ^ 64 * (threshold.toNat / 2 ^ 64) : Rat) = (threshold.toNat : Int) := by
    push_cast
    field_simp
  have hword : ((numberToUint64 ((threshold.toNat : Int) : Rat)).toNat : Int) = threshold.toNat := by
    rw [toNat_numberToUint64 (by positivity) (by exact_mod_cast hlt), Int.floor_intCast]
  rw [hshare, scaleToUint64, if_neg hne, hscaled]
  exact UInt64.toNat_inj.mp (by exact_mod_cast hword)

/-- An object and an emulator that agree keep equally many of any number of packets under
every threshold of the uniform model. -/
theorem LossModelsAgree.uniform_draws {D : Type} [Double D] {seed : Seed}
    (h : LossModelsAgree D seed) {threshold : UInt64} (hne : threshold ≠ 0) (n : Nat) :
    (draws (uniformDrop (newUniform seed.value (lossFor threshold))) ⟨numberToUint64 seed.value, 0⟩
        n).count false =
      (draws (uniformDrop (newUniform seed.value (lossFor threshold))) ⟨0, 0⟩ n).count false := by
  have hnat : 0 < threshold.toNat :=
    Nat.pos_of_ne_zero fun hzero => hne (UInt64.toNat_inj.mp hzero)
  have hpos : 0 < lossFor threshold := by
    have hcast : (0 : Rat) < threshold.toNat := by exact_mod_cast hnat
    unfold lossFor
    positivity
  let spec := LossSpec.uniform (lossFor threshold)
  let bursts : List RxBurst := List.replicate n ⟨[⟨0, 60, 0, 0⟩], 0, by decide⟩
  obtain ⟨config, hconfig⟩ : ∃ config,
      master (spec.toArgs (lossArgs 0 none) seed.value) = some config := by
    simp [spec, master, LossSpec.toArgs, lossArgs, lossModelCount, masterLoss, hpos]
  obtain ⟨_, hbuilt, _⟩ := masterLoss_of_master hconfig
  rw [masterLoss, if_pos (show 0 < (spec.toArgs (lossArgs 0 none) seed.value).loss from hpos)]
    at hbuilt
  have hmodel : config.lossModel = (newUniform seed.value (lossFor threshold)).lossModel :=
    (Option.some.inj hbuilt).symm
  have hinit : LossState.init config = ⟨numberToUint64 seed.value, 0⟩ := by
    rw [LossState.init, LossSpec.lossSeed_eq hconfig]
  have hsame := h spec (lossArgs 0 none) _ config .swFwd 0 bursts (bursts.map RxBurst.pkts)
    hpos.le rfl hconfig (by simp [bursts]) (by rw [swFwd_offered])
  have htype : LossType.uniform ≠ .none := by decide
  rw [addrs_applyAll htype, LossLoop.kept_eq_sift, hinit, lossDrop_congr hmodel,
    swFwd_offered] at hsame
  have hlength := congrArg List.length hsame
  have hcount : (addrs (bursts.map RxBurst.pkts).flatten).length = n := by
    simp [addrs, bursts]
  rw [sift_dropBy_kept_length, sift_dropBy_kept_length, hcount] at hlength
  exact hlength.symm

/-- Object and emulator keep the same packets exactly from the seeds that convert to zero,
the state in which the object's generator starts. -/
theorem lossModels_agree_iff (D : Type) [Double D] (seed : Seed) :
    LossModelsAgree D seed ↔ seed.value < 1 := by
  rw [← seed.numberToUint64_eq_zero_iff]
  constructor
  · intro h
    by_contra hne
    apply wyhashValue_not_periodic hne
    intro u
    obtain ⟨n, hn⟩ := exists_steps u
    have hbelow (threshold : UInt64) : wyhashValue (numberToUint64 seed.value + u) < threshold ↔
        wyhashValue u < threshold := by
      by_cases hzero : threshold = 0
      · simp [hzero]
      · have hdraw := draw_eq_of_count_eq (h.uniform_draws hzero) n
        have hloss : (newUniform seed.value (lossFor threshold)).loss = threshold :=
          scaleToUint64_lossFor threshold
        rw [uniformDrop_drawn, uniformDrop_drawn, hloss, hn, UInt64.zero_add] at hdraw
        exact decide_eq_decide.mp hdraw
    have hle : ¬ wyhashValue (numberToUint64 seed.value + u) < wyhashValue u :=
      fun hlt => UInt64.lt_irrefl _ ((hbelow _).mp hlt)
    have hge : ¬ wyhashValue u < wyhashValue (numberToUint64 seed.value + u) :=
      fun hlt => UInt64.lt_irrefl _ ((hbelow _).mpr hlt)
    exact UInt64.le_antisymm (UInt64.not_lt.mp hge) (UInt64.not_lt.mp hle)
  · exact agree_of_zero D

/-- With the emulator's default seed the two keep different packets of a burst of three. -/
theorem default_seed_disagrees :
    ∃ config, master ((LossSpec.uniform 50).toArgs (lossArgs 0 none) 12345) = some config ∧
      addrs (LossLoop.swDelay.run Rat 1000000000 config [threePackets]).kept = [2] ∧
      ((LossSpec.uniform 50).newModel 12345).map
        (fun model => addrs (model.applyAll [threePackets.pkts])) = some [2, 3] := by
  have hrun : (master ((LossSpec.uniform 50).toArgs (lossArgs 0 none) 12345)).map (fun config =>
      addrs (LossLoop.swDelay.run Rat 1000000000 config [threePackets]).kept) = some [2] := by
    decide +kernel
  obtain ⟨config, hconfig, hkept⟩ := Option.map_eq_some_iff.mp hrun
  refine ⟨config, hconfig, hkept, ?_⟩
  decide +kernel

end MoonGen.Moonem

import Mathlib.Data.Rat.Floor
import MoonGen.Lib.Words
import MoonGen.Moonem.Common

/-! # Loss parameters from percentages

The embedding of `loss-model.lua` and of the part of `master` in `moonem.lua` that
fills the configuration. Lua numbers are rationals; `log:fatal` ends the script
and is `none`.
-/

namespace MoonGen.Moonem

def scaleToUint64 (val : Rat) : UInt64 :=
  if val = 1 then 0xFFFFFFFFFFFFFFFF else numberToUint64 (2 ^ 64 * val)

def scaledParameters (args : List Rat) (i : Nat) : UInt64 :=
  (args.map fun arg => scaleToUint64 (arg / 100))[i]?.getD 0

def geArgs : List Rat → List Rat
  | [] => [0, 100, 100, 0]
  | [p] => [p, 100 - p, 100, 0]
  | [p, r] => [p, r, 100, 0]
  | [p, r, h] => [p, r, h, 0]
  | args => args

/-- `new_args` of the four-state model: for each state the percentage to stay and
the percentage to change the state within the link state. -/
def netemArgs (p13 p31 p32 p23 p14 : Rat) : List Rat :=
  [100 - p13 - p14, 100 - p14,
    100 - p23, p23,
    100 - p31 - p32, p32,
    0, 100]

def netemParameters : List Rat → Option (Nat → UInt64)
  | [p13, p31, p32, p23, p14] =>
      if ∀ p ∈ [p13, p31, p32, p23, p14], 0 ≤ p ∧ p ≤ 100 then
        some (scaledParameters (netemArgs p13 p31 p32 p23 p14))
      else none
  | _ => none

/-! ## `loss-model.lua` -/

/-- The constructors store the seed under a name that is not a field of the
structure, so the field stays zero. -/
def lossModelConfig (lossType : LossType) (loss : UInt64) (parameters : Nat → UInt64) :
    MoonemConfig :=
  ⟨0, 0, 0, 0, lossType, loss, parameters⟩

def newUniform (_seed : Rat) (loss : Rat) : MoonemConfig :=
  lossModelConfig .uniform (scaleToUint64 (loss / 100)) (fun _ => 0)

def newGe (_seed : Rat) (parameters : List Rat) : MoonemConfig :=
  lossModelConfig .ge 0 (scaledParameters (geArgs parameters))

def newNetem (_seed : Rat) (parameters : List Rat) : Option MoonemConfig :=
  (netemParameters parameters).map (lossModelConfig .netem 0)

/-! ## `master` -/

structure Args where
  delay : Rat
  rate : Rat
  loss : Rat
  geLoss : Option (List Rat)
  netemLoss : Option (List Rat)
  hardware : Bool
  leakyBucket : Bool
  capacity : Rat
  seed : Rat
  threads : Rat

/-- Loss type, scaled loss and parameters, in the order `master` looks at them. -/
def masterLoss (args : Args) : Option (LossType × UInt64 × (Nat → UInt64)) :=
  if 0 < args.loss then some (.uniform, scaleToUint64 (args.loss / 100), fun _ => 0)
  else match args.geLoss, args.netemLoss with
    | some parameters, _ => some (.ge, 0, scaledParameters (geArgs parameters))
    | none, some parameters => (netemParameters parameters).map fun ps => (.netem, 0, ps)
    | none, none => some (.none, 0, fun _ => 0)

def lossModelCount (args : Args) : Nat :=
  (if 0 < args.loss then 1 else 0) + (if args.geLoss.isSome then 1 else 0) +
    (if args.netemLoss.isSome then 1 else 0)

def master (args : Args) : Option MoonemConfig :=
  if args.hardware ∧ args.delay = 0 ∧ args.leakyBucket then none
  else if args.hardware ∧ args.delay ≠ 0 ∧ 1 < args.threads then none
  else if 1 < lossModelCount args then none
  else (masterLoss args).map fun (lossType, loss, parameters) =>
    ⟨numberToUint64 (args.delay * 1000000), numberToUint64 (args.rate / args.threads), numberToUint64 args.capacity,
      numberToUint64 args.seed, lossType, loss, parameters⟩

/-! ## Both scripts build the same loss models -/

def MoonemConfig.lossModel (config : MoonemConfig) : LossType × UInt64 × (Nat → UInt64) :=
  (config.lossType, config.loss, config.lossModelParameters)

theorem master_accepts {args : Args} {config : MoonemConfig} (h : master args = some config) :
    ¬ (args.hardware ∧ args.delay = 0 ∧ args.leakyBucket) ∧
      ¬ (args.hardware ∧ args.delay ≠ 0 ∧ 1 < args.threads) ∧ ¬ 1 < lossModelCount args ∧
      ∃ lossType loss parameters, masterLoss args = some (lossType, loss, parameters) ∧
        config = ⟨numberToUint64 (args.delay * 1000000), numberToUint64 (args.rate / args.threads),
          numberToUint64 args.capacity, numberToUint64 args.seed, lossType, loss, parameters⟩ := by
  unfold master at h
  split at h
  · cases h
  next hleaky =>
    split at h
    · cases h
    next hthreads =>
      split at h
      · cases h
      next hcount =>
        obtain ⟨⟨lossType, loss, parameters⟩, hbuilt, heq⟩ := Option.map_eq_some_iff.mp h
        exact ⟨hleaky, hthreads, hcount, lossType, loss, parameters, hbuilt, heq.symm⟩

theorem masterLoss_of_master {args : Args} {config : MoonemConfig} (h : master args = some config) :
    ¬ 1 < lossModelCount args ∧ masterLoss args = some config.lossModel ∧
      config.lossSeed = numberToUint64 args.seed := by
  obtain ⟨-, -, hcount, lossType, loss, parameters, hbuilt, rfl⟩ := master_accepts h
  exact ⟨hcount, hbuilt, rfl⟩

/-- `master` accepts at most one loss model, and builds it as its constructor does. -/
theorem master_cases {args : Args} {config : MoonemConfig} (h : master args = some config) :
    (args.netemLoss = none ∧ config.lossModel = (newUniform args.seed args.loss).lossModel) ∨
    (∃ parameters, args.netemLoss = none ∧ args.geLoss = some parameters ∧
      config.lossModel = (newGe args.seed parameters).lossModel) ∨
    (∃ parameters built, args.netemLoss = some parameters ∧
      newNetem args.seed parameters = some built ∧ config.lossModel = built.lossModel) ∨
    (args.netemLoss = none ∧ config.lossModel = (.none, 0, fun _ => 0)) := by
  obtain ⟨hcount, hloss, _⟩ := masterLoss_of_master h
  unfold lossModelCount at hcount
  unfold masterLoss at hloss
  by_cases hpos : 0 < args.loss
  · rw [if_pos hpos] at hcount hloss
    cases hnetem : args.netemLoss with
    | some parameters => simp [hnetem] at hcount
    | none => exact .inl ⟨rfl, (Option.some.inj hloss).symm⟩
  · rw [if_neg hpos] at hcount hloss
    right
    cases hge : args.geLoss with
    | some parameters =>
        rw [hge] at hcount hloss
        cases hnetem : args.netemLoss with
        | some others => simp [hnetem] at hcount
        | none => exact .inl ⟨parameters, rfl, rfl, (Option.some.inj hloss).symm⟩
    | none =>
        right
        rw [hge] at hloss
        cases hnetem : args.netemLoss with
        | some parameters =>
            rw [hnetem] at hloss
            obtain ⟨scaled, hscaled, heq⟩ := Option.map_eq_some_iff.mp hloss
            left
            refine ⟨parameters, lossModelConfig .netem 0 scaled, rfl, ?_, heq.symm⟩
            rw [newNetem, hscaled, Option.map_some]
        | none =>
            rw [hnetem] at hloss
            exact .inr ⟨rfl, (Option.some.inj hloss).symm⟩

theorem master_loss {args : Args} {config : MoonemConfig} (h : master args = some config)
    (hne : config.lossType ≠ .uniform) : config.loss = 0 := by
  have hloss : config.loss = config.lossModel.2.1 := rfl
  have htype : config.lossType = config.lossModel.1 := rfl
  rcases master_cases h with ⟨_, heq⟩ | ⟨_, _, _, heq⟩ | ⟨_, built, _, hbuilt, heq⟩ | ⟨_, heq⟩
  · rw [heq] at htype
    exact absurd htype hne
  · rw [hloss, heq]
    rfl
  · obtain ⟨scaled, _, rfl⟩ := Option.map_eq_some_iff.mp hbuilt
    rw [hloss, heq]
    rfl
  · rw [hloss, heq]

end MoonGen.Moonem

import MoonGen.Lib.Sieve
import MoonGen.Mbuf

/-! # Loss models of the path emulator

The embedding of `moonem_common.h`. A draw of the generator and a loss decision
return the new state next to their value.
-/

namespace MoonGen.Moonem

open Sieve

inductive LossType where
  | none
  | uniform
  | ge
  | netem
deriving Repr, DecidableEq

/-- `loss_model_parameters` is read by index from the array's base on. The header
declares five words there and the scripts lay out eight, so the model keeps every
word that a computed index can reach. -/
structure MoonemConfig where
  delay : UInt64
  rate : UInt64
  capacity : UInt64
  lossSeed : UInt64
  lossType : LossType
  loss : UInt64
  lossModelParameters : Nat → UInt64

def burstSize : Nat := 64

/-- One step of the generator: the value drawn and the new state. The products
are 128 bits wide; the assignments keep their low 64 bits. -/
def wyhash64 (state : UInt64) : UInt64 × UInt64 :=
  let state := state + 0x60bee2bee120fc15
  let tmp := state.toNat * 0xa3b195354a39b70d
  let m1 := UInt64.ofNat ((tmp >>> 64) ^^^ tmp)
  let tmp := m1.toNat * 0x1b03738712fad5c9
  let m2 := UInt64.ofNat ((tmp >>> 64) ^^^ tmp)
  (m2, state)

/-- `loss_state[0]` is the generator and `loss_state[1]` the state of the model. -/
structure LossState where
  random : UInt64
  state : UInt64
deriving Repr, DecidableEq

def LossState.init (config : MoonemConfig) : LossState := ⟨config.lossSeed, 0⟩

def uniformDrop (config : MoonemConfig) (s : LossState) : Bool × LossState :=
  let (x, random) := wyhash64 s.random
  (x < config.loss, { s with random := random })

def geDrop (config : MoonemConfig) (s : LossState) : Bool × LossState :=
  let (x, random) := wyhash64 s.random
  let (y, random) := wyhash64 random
  if (s.state ≠ 0 ∧ x < config.lossModelParameters 0) ∨
      (s.state = 0 ∧ x ≥ config.lossModelParameters 1) then
    (y < config.lossModelParameters 2, ⟨random, 0⟩)
  else
    (y < config.lossModelParameters 3, ⟨random, 1⟩)

def netemMove (config : MoonemConfig) (state x : UInt64) : Bool × UInt64 :=
  let drop12Keep34 := state < 2
  let stay := config.lossModelParameters (state * 2 + 0).toNat
  if x < stay then
    (!drop12Keep34, state)
  else if x < stay + config.lossModelParameters (state * 2 + 1).toNat then
    (drop12Keep34, state ^^^ 3)
  else
    (drop12Keep34, state ^^^ 2)

def netemDrop (config : MoonemConfig) (s : LossState) : Bool × LossState :=
  let (x, random) := wyhash64 s.random
  let (drop, state) := netemMove config s.state x
  (drop, ⟨random, state⟩)

/-- The step on a draw `x`. The draw is a variable here, so that no later step
computes it. -/
theorem netemDrop_of_draw {config : MoonemConfig} {s : LossState} {x random : UInt64}
    (h : wyhash64 s.random = (x, random)) :
    netemDrop config s =
      ((netemMove config s.state x).1, ⟨random, (netemMove config s.state x).2⟩) := by
  have hfun : netemDrop config = fun s =>
      match wyhash64 s.random with
      | (x, random) =>
          match netemMove config s.state x with
          | (drop, state) => (drop, ⟨random, state⟩) := by
    unfold netemDrop
    rfl
  calc
    netemDrop config s =
        match wyhash64 s.random with
        | (x, random) =>
            match netemMove config s.state x with
            | (drop, state) => (drop, ⟨random, state⟩) := congrFun hfun s
    _ = ((netemMove config s.state x).1, ⟨random, (netemMove config s.state x).2⟩) := by rw [h]

/-- The decision `applyLoss` makes per packet; without a loss model it makes none. -/
def lossDrop (config : MoonemConfig) : LossState → Bool × LossState :=
  match config.lossType with
  | .none => fun s => (false, s)
  | .uniform => uniformDrop config
  | .ge => geDrop config
  | .netem => netemDrop config

/-- The packets moved to `bufs_send` and those freed. Without a loss model the
function returns zero at once and does neither. -/
def applyLoss (config : MoonemConfig) (s : LossState) (bufs : List Mbuf) :
    Sifted LossState Mbuf Mbuf :=
  match config.lossType with
  | .none => ⟨s, [], []⟩
  | .uniform => sift (dropBy (uniformDrop config)) s bufs
  | .ge => sift (dropBy (geDrop config)) s bufs
  | .netem => sift (dropBy (netemDrop config)) s bufs

/-- The receive loops call `applyLoss` only under a loss model. -/
def lossStage (config : MoonemConfig) (s : LossState) (bufs : List Mbuf) :
    Sifted LossState Mbuf Mbuf :=
  if config.lossType ≠ .none then applyLoss config s bufs else ⟨s, bufs, []⟩

theorem applyLoss_eq_sift {config : MoonemConfig} (h : config.lossType ≠ .none) (s : LossState)
    (bufs : List Mbuf) : applyLoss config s bufs = sift (dropBy (lossDrop config)) s bufs := by
  cases hl : config.lossType with
  | none => exact absurd hl h
  | uniform => simp only [applyLoss, lossDrop, hl]
  | ge => simp only [applyLoss, lossDrop, hl]
  | netem => simp only [applyLoss, lossDrop, hl]

/-- Without a loss model every decision keeps the packet, so one pass describes
the stage under any configuration. -/
theorem lossStage_eq_sift (config : MoonemConfig) (s : LossState) (bufs : List Mbuf) :
    lossStage config s bufs = sift (dropBy (lossDrop config)) s bufs := by
  by_cases h : config.lossType = .none
  · have hkeep : lossDrop config s = (false, s) := by simp only [lossDrop, h]
    rw [lossStage, if_neg (fun hne => hne h)]
    induction bufs with
    | nil => rfl
    | cons m rest ih => rw [sift_dropBy_cons_false (by rw [hkeep]), hkeep, ← ih]
  · rw [lossStage, if_pos h, applyLoss_eq_sift h]

end MoonGen.Moonem

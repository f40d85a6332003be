import Mathlib.Logic.Function.Basic
import MoonGen.Moonem.Common

/-! # Loss decisions and burst boundaries

`applyLoss` as a call on the caller's arrays: it walks over `bufs`, stores what it
keeps in `bufs_send` at a running index and frees the rest. The call refines the pass
of `Moonem.applyLoss`, and a pass may be cut anywhere, so the bursts in which the
traffic arrives do not influence which packets survive.
-/

namespace MoonGen.Moonem

open Sieve

/-- The locals and the memory of one call: `accept_index`, the slots of `bufs_send`,
`loss_state`, and the packets freed, in the order of the calls of `rte_pktmbuf_free`. -/
structure LossCall where
  lossState : LossState
  acceptIndex : Nat
  bufsSend : Nat → Mbuf
  freed : List Mbuf

namespace LossCall

def sent (call : LossCall) : List Mbuf := (List.range call.acceptIndex).map call.bufsSend

def body (drop : LossState → Bool × LossState) (call : LossCall) (buf : Mbuf) : LossCall :=
  let (dropped, lossState) := drop call.lossState
  if dropped then
    { call with lossState := lossState, freed := call.freed ++ [buf] }
  else
    { call with
      lossState := lossState
      bufsSend := Function.update call.bufsSend call.acceptIndex buf
      acceptIndex := call.acceptIndex + 1 }

end LossCall

/-- A call `applyLoss(rx, bufs, bufs_send, loss_state, config)`; `rx` is the length of
`bufs`. The returned value is the final `accept_index`. -/
def applyLossCall (config : MoonemConfig) (lossState : LossState) (bufs : List Mbuf)
    (bufsSend : Nat → Mbuf) : LossCall :=
  let start : LossCall := ⟨lossState, 0, bufsSend, []⟩
  match config.lossType with
  | .none => start
  | .uniform => bufs.foldl (LossCall.body (uniformDrop config)) start
  | .ge => bufs.foldl (LossCall.body (geDrop config)) start
  | .netem => bufs.foldl (LossCall.body (netemDrop config)) start

/-- The same array for every burst, read out after each call. -/
def applyLossBursts (config : MoonemConfig) :
    LossState → (Nat → Mbuf) → List (List Mbuf) → LossState × List Mbuf
  | lossState, _, [] => (lossState, [])
  | lossState, bufsSend, bufs :: rest =>
      let call := applyLossCall config lossState bufs bufsSend
      let (final, kept) := applyLossBursts config call.lossState call.bufsSend rest
      (final, call.sent ++ kept)

/-! ## The call refines the pass -/

theorem map_range_update (slots : Nat → Mbuf) (n : Nat) (buf : Mbuf) :
    (List.range (n + 1)).map (Function.update slots n buf) = (List.range n).map slots ++ [buf] := by
  rw [List.range_succ, List.map_append, List.map_singleton, Function.update_self]
  congr 1
  apply List.map_congr_left
  intro i hi
  exact Function.update_of_ne (Nat.ne_of_lt (List.mem_range.mp hi)) _ _

theorem foldl_body (drop : LossState → Bool × LossState) (bufs : List Mbuf) (call : LossCall) :
    (bufs.foldl (LossCall.body drop) call).lossState =
        (sift (dropBy drop) call.lossState bufs).state ∧
      (bufs.foldl (LossCall.body drop) call).sent =
        call.sent ++ (sift (dropBy drop) call.lossState bufs).kept ∧
      (bufs.foldl (LossCall.body drop) call).freed =
        call.freed ++ (sift (dropBy drop) call.lossState bufs).dropped := by
  induction bufs generalizing call with
  | nil => simp
  | cons buf rest ih =>
      rw [List.foldl_cons]
      have hrest := ih (LossCall.body drop call buf)
      cases h : (drop call.lossState).1 with
      | true =>
          have hbody : LossCall.body drop call buf =
              { call with
                lossState := (drop call.lossState).2, freed := call.freed ++ [buf] } := by
            simp [LossCall.body, h]
          rw [sift_dropBy_cons_true h]
          rw [hbody] at hrest ⊢
          simpa [LossCall.sent] using hrest
      | false =>
          have hbody : LossCall.body drop call buf =
              { call with
                lossState := (drop call.lossState).2
                bufsSend := Function.update call.bufsSend call.acceptIndex buf
                acceptIndex := call.acceptIndex + 1 } := by
            simp [LossCall.body, h]
          rw [sift_dropBy_cons_false h]
          rw [hbody] at hrest ⊢
          simpa [LossCall.sent, map_range_update] using hrest

theorem applyLossCall_spec (config : MoonemConfig) (s : LossState) (bufs : List Mbuf)
    (bufsSend : Nat → Mbuf) :
    (applyLossCall config s bufs bufsSend).lossState = (applyLoss config s bufs).state ∧
      (applyLossCall config s bufs bufsSend).sent = (applyLoss config s bufs).kept ∧
      (applyLossCall config s bufs bufsSend).freed = (applyLoss config s bufs).dropped := by
  have hfold := fun drop => foldl_body drop bufs ⟨s, 0, bufsSend, []⟩
  cases hl : config.lossType with
  | none => simp [applyLossCall, applyLoss, hl, LossCall.sent]
  | uniform => simpa [applyLossCall, applyLoss, hl, LossCall.sent] using hfold (uniformDrop config)
  | ge => simpa [applyLossCall, applyLoss, hl, LossCall.sent] using hfold (geDrop config)
  | netem => simpa [applyLossCall, applyLoss, hl, LossCall.sent] using hfold (netemDrop config)

/-- Under a loss model, bursts threaded through `loss_state` keep what one pass over
the whole stream keeps. -/
theorem applyLossBursts_eq_sift {config : MoonemConfig} (h : config.lossType ≠ .none)
    (bursts : List (List Mbuf)) (s : LossState) (bufsSend : Nat → Mbuf) :
    applyLossBursts config s bufsSend bursts =
      ((sift (dropBy (lossDrop config)) s bursts.flatten).state,
        (sift (dropBy (lossDrop config)) s bursts.flatten).kept) := by
  induction bursts generalizing s bufsSend with
  | nil => rfl
  | cons bufs rest ih =>
      obtain ⟨hstate, hsent, -⟩ := applyLossCall_spec config s bufs bufsSend
      rw [applyLoss_eq_sift h] at hstate hsent
      simp only [applyLossBursts, ih, hstate, hsent, List.flatten_cons, sift_append]

/-- A call under a loss model keeps some of its packets in order, frees each of the
others once and returns how many it kept. Cutting a stream into bursts in any way,
with `loss_state` threaded through the calls, keeps the packets and ends in the
`loss_state` of one call on the whole stream. -/
theorem applyLoss_independent_of_bursts (config : MoonemConfig) (h : config.lossType ≠ .none)
    (s : LossState) (bufsSend : Nat → Mbuf) :
    (∀ bufs : List Mbuf, ∃ kept : List Mbuf,
        kept.Sublist bufs ∧
        (applyLossCall config s bufs bufsSend).acceptIndex = kept.length ∧
        (∀ i < kept.length,
          kept[i]? = some ((applyLossCall config s bufs bufsSend).bufsSend i)) ∧
        (kept ++ (applyLossCall config s bufs bufsSend).freed).Perm bufs) ∧
      ∀ (bursts : List (List Mbuf)) (array : Nat → Mbuf),
        applyLossBursts config s array bursts =
          ((applyLossCall config s bursts.flatten bufsSend).lossState,
            (applyLossCall config s bursts.flatten bufsSend).sent) := by
  constructor
  · intro bufs
    obtain ⟨-, hsent, hfreed⟩ := applyLossCall_spec config s bufs bufsSend
    rw [applyLoss_eq_sift h] at hsent hfreed
    refine ⟨(applyLossCall config s bufs bufsSend).sent, ?_, ?_, ?_, ?_⟩
    · rw [hsent]
      exact sift_dropBy_kept_sublist _ s bufs
    · simp [LossCall.sent]
    · intro i hi
      have hlt : i < (applyLossCall config s bufs bufsSend).acceptIndex := by
        simpa [LossCall.sent] using hi
      simp [LossCall.sent, hlt]
    · rw [hsent, hfreed]
      exact sift_dropBy_perm _ s bufs
  · intro bursts array
    obtain ⟨hstate, hsent, -⟩ := applyLossCall_spec config s bursts.flatten bufsSend
    rw [applyLoss_eq_sift h] at hstate hsent
    rw [hstate, hsent, applyLossBursts_eq_sift h]

def halfLoss : MoonemConfig := ⟨0, 0, 32768, 1, .uniform, 9223372036854775808, fun _ => 0⟩

theorem applyLoss_independent_of_bursts_halfLoss :
    halfLoss.lossType ≠ .none ∧
      ∀ a b c : Mbuf,
        applyLossBursts halfLoss ⟨1, 0⟩ (fun _ => a) [[a], [], [b, c]] =
          ((applyLossCall halfLoss ⟨1, 0⟩ [a, b, c] fun _ => a).lossState,
            (applyLossCall halfLoss ⟨1, 0⟩ [a, b, c] fun _ => a).sent) := by
  refine ⟨by decide, ?_⟩
  intro a b c
  exact (applyLoss_independent_of_bursts halfLoss (by decide) ⟨1, 0⟩ fun _ => a).2
    [[a], [], [b, c]] fun _ => a

end MoonGen.Moonem

import Mathlib.Data.List.Basic
import Mathlib.Logic.Function.Basic

/-! # Compaction in place

An array with the slots `1, 2, …`, from which a loop removes entries while it reads them
from left to right. At each point the array holds the entries kept so far, a gap as long
as the number of entries removed, and the entries that are still unread.
-/

namespace MoonGen.Compaction

variable {α : Type u}

/-- The contents of the slots; slot `0` is never used. -/
abbrev Slots (α : Type u) := Nat → Option α

def ofList (entries : List α) : Slots α
  | 0 => none
  | j + 1 => entries[j]?

def layout (kept : List α) (gap : Nat) (rest : List α) : Slots α
  | 0 => none
  | j + 1 =>
      if j < kept.length then kept[j]?
      else if j < kept.length + gap then none
      else rest[j - (kept.length + gap)]?

theorem layout_start (entries : List α) : layout [] 0 entries = ofList entries := by
  funext j
  cases j with
  | zero => rfl
  | succ j => simp [layout, ofList]

theorem layout_end (kept : List α) (gap : Nat) : layout kept gap [] = ofList kept := by
  funext j
  cases j with
  | zero => rfl
  | succ j =>
      by_cases hkept : j < kept.length
      · simp [layout, ofList, hkept]
      · simp [layout, ofList, hkept]

section Reading

variable (kept : List α) (gap : Nat) (entry : α) (rest : List α)

theorem layout_read : layout kept gap (entry :: rest) (kept.length + gap + 1) = some entry := by
  have hkept : ¬ kept.length + gap < kept.length := by omega
  simp [layout, hkept]

theorem layout_clear :
    Function.update (layout kept gap (entry :: rest)) (kept.length + gap + 1) none =
      layout kept (gap + 1) rest := by
  funext j
  cases j with
  | zero => simp [layout]
  | succ j => grind [layout, Function.update_apply]

theorem layout_keep : layout kept 0 (entry :: rest) = layout (kept ++ [entry]) 0 rest := by
  funext j
  cases j with
  | zero => rfl
  | succ j => grind [layout]

theorem layout_move (hgap : 0 < gap) :
    Function.update (Function.update (layout kept gap (entry :: rest)) (kept.length + gap + 1) none)
        (kept.length + 1) (some entry) =
      layout (kept ++ [entry]) gap rest := by
  funext j
  cases j with
  | zero => simp [layout]
  | succ j => grind [layout, Function.update_apply]

end Reading

end MoonGen.Compaction

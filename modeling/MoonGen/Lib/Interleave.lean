import Mathlib.Logic.Function.Basic
import MoonGen.Lib.Loop

/-! # Free interleavings

Components that share no state, each with a partial step of its own. An input of the whole names
the component that takes it. A run of the whole is a run of every component on its own inputs.
-/

namespace MoonGen.Interleave

open Loop

variable {κ : Type u} {σ : Type v} {α : Type w}

def step [DecidableEq κ] (each : κ → σ → α → Option σ) (s : κ → σ) (a : κ × α) : Option (κ → σ) :=
  (each a.1 (s a.1) a.2).map (Function.update s a.1)

def inputsOf [DecidableEq κ] (i : κ) (inputs : List (κ × α)) : List α :=
  inputs.filterMap fun a => if a.1 = i then some a.2 else none

variable [DecidableEq κ] {each : κ → σ → α → Option σ}

theorem inputsOf_cons_self (i : κ) (a : α) (rest : List (κ × α)) :
    inputsOf i ((i, a) :: rest) = a :: inputsOf i rest := by
  simp [inputsOf]

theorem inputsOf_cons_of_ne {i j : κ} (h : j ≠ i) (a : α) (rest : List (κ × α)) :
    inputsOf i ((j, a) :: rest) = inputsOf i rest := by
  simp [inputsOf, h]

theorem runs_component {s t : κ → σ} {inputs : List (κ × α)}
    (h : runs (step each) s inputs = some t) (i : κ) :
    runs (each i) (s i) (inputsOf i inputs) = some (t i) := by
  induction inputs generalizing s with
  | nil =>
      cases h
      rfl
  | cons a rest ih =>
      obtain ⟨s', hs, hrest⟩ := Option.bind_eq_some_iff.mp h
      obtain ⟨next, hnext, rfl⟩ := Option.map_eq_some_iff.mp hs
      have hlater := ih hrest
      obtain ⟨j, a⟩ := a
      rcases eq_or_ne j i with rfl | hne
      · rw [Function.update_self] at hlater
        rw [inputsOf_cons_self, runs, hnext]
        exact hlater
      · rw [Function.update_of_ne (Ne.symm hne)] at hlater
        rw [inputsOf_cons_of_ne hne]
        exact hlater

end MoonGen.Interleave

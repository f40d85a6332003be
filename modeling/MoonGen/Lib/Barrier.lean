import Mathlib.Data.List.Count

/-! # A barrier

A barrier is made for a number of parties. A party that arrives lowers the number that is
missing and waits until none is. Each party arrives once.
-/

namespace MoonGen

namespace Barrier

inductive Place where
  | outside
  | waiting
  | inside
deriving Repr, DecidableEq

end Barrier

open Barrier (Place)

structure Barrier where
  parties : List Place
  missing : Nat

namespace Barrier

def start (n : Nat) : Barrier := ⟨List.replicate n .outside, n⟩

inductive Step : Barrier → Barrier → Prop where
  | arrive {b b' : Barrier} (i : Nat) (h : b.parties[i]? = some .outside)
      (hparties : b'.parties = b.parties.set i .waiting) (hmissing : b'.missing = b.missing - 1) :
      Step b b'
  | pass {b b' : Barrier} (i : Nat) (h : b.parties[i]? = some .waiting) (hopen : b.missing = 0)
      (hparties : b'.parties = b.parties.set i .inside) (hmissing : b'.missing = b.missing) :
      Step b b'

structure Inv (b : Barrier) : Prop where
  missing : b.missing = b.parties.count .outside
  inside : .inside ∈ b.parties → b.missing = 0

theorem inv_start (n : Nat) : (start n).Inv where
  missing := by simp [start]
  inside := fun h => by cases List.eq_of_mem_replicate h

theorem Inv.step {b b' : Barrier} (hinv : b.Inv) (h : Step b b') : b'.Inv := by
  cases h with
  | arrive i hi hparties hmissing =>
      obtain ⟨hlt, hget⟩ := List.getElem?_eq_some_iff.mp hi
      have hcount : (b.parties.set i .waiting).count .outside = b.parties.count .outside - 1 := by
        rw [List.count_set hlt, hget]
        rfl
      constructor
      · rw [hparties, hcount, hmissing, hinv.missing]
      · intro hmem
        rw [hparties] at hmem
        rcases List.mem_or_eq_of_mem_set hmem with hold | hnew
        · rw [hmissing, hinv.inside hold]
        · cases hnew
  | pass i hi hopen hparties hmissing =>
      obtain ⟨hlt, hget⟩ := List.getElem?_eq_some_iff.mp hi
      have hcount : (b.parties.set i .inside).count .outside = b.parties.count .outside := by
        rw [List.count_set hlt, hget]
        rfl
      constructor
      · rw [hparties, hcount, hmissing, hinv.missing]
      · intro _
        rw [hmissing, hopen]

theorem Inv.outside_notMem {b : Barrier} (hinv : b.Inv) (h : .inside ∈ b.parties) :
    .outside ∉ b.parties := by
  have hzero := hinv.missing ▸ hinv.inside h
  exact List.count_eq_zero.mp hzero

theorem Inv.progress {b : Barrier} (hinv : b.Inv) :
    (∀ p ∈ b.parties, p = .inside) ∨ .outside ∈ b.parties ∨
      .waiting ∈ b.parties ∧ b.missing = 0 := by
  by_cases hout : .outside ∈ b.parties
  · exact .inr (.inl hout)
  · have hzero : b.missing = 0 := hinv.missing.trans (List.count_eq_zero.mpr hout)
    by_cases hwait : .waiting ∈ b.parties
    · exact .inr (.inr ⟨hwait, hzero⟩)
    · left
      intro p hp
      cases p with
      | outside => exact absurd hp hout
      | waiting => exact absurd hp hwait
      | inside => rfl

end Barrier

end MoonGen

import Mathlib.Algebra.BigOperators.Group.List.Lemmas
import Mathlib.Algebra.Order.Ring.Nat
import Mathlib.Logic.Function.Iterate
import Mathlib.Order.Lattice

/-! # Maps as sorted lists of entries

`SortedMap.adjust` gives a key a new value computed from the old one, and adds the key
where it is missing. A map is determined by its lookups, so maps that were built in
different orders can be compared through what they hold.
-/

namespace MoonGen

structure SortedMap (κ : Type u) (ν : Type v) [LT κ] where
  entries : List (κ × ν)
  sorted : entries.Pairwise fun a b => a.1 < b.1

namespace SortedMap

variable {κ : Type u} {ν : Type v} [LinearOrder κ]

def empty : SortedMap κ ν := ⟨[], .nil⟩

def keys (m : SortedMap κ ν) : List κ := m.entries.map Prod.fst

def get? (m : SortedMap κ ν) (k : κ) : Option ν := m.entries.lookup k

def adjustEntries (k : κ) (f : Option ν → ν) : List (κ × ν) → List (κ × ν)
  | [] => [(k, f none)]
  | (k', v) :: rest =>
      if k < k' then (k, f none) :: (k', v) :: rest
      else if k = k' then (k, f (some v)) :: rest
      else (k', v) :: adjustEntries k f rest

theorem mem_adjustEntries {k : κ} {f : Option ν → ν} {entries : List (κ × ν)} {e : κ × ν}
    (h : e ∈ adjustEntries k f entries) : e.1 = k ∨ e ∈ entries := by
  induction entries with
  | nil =>
      rw [adjustEntries, List.mem_singleton] at h
      exact .inl (congrArg Prod.fst h)
  | cons head rest ih =>
      rw [adjustEntries] at h
      split at h
      · rcases List.mem_cons.mp h with rfl | h
        · exact .inl rfl
        · exact .inr h
      · split at h
        · rcases List.mem_cons.mp h with rfl | h
          · exact .inl rfl
          · exact .inr (List.mem_cons_of_mem _ h)
        · rcases List.mem_cons.mp h with rfl | h
          · exact .inr List.mem_cons_self
          · exact (ih h).imp_right (List.mem_cons_of_mem _)

theorem adjustEntries_sorted (k : κ) (f : Option ν → ν) {entries : List (κ × ν)}
    (h : entries.Pairwise fun a b => a.1 < b.1) :
    (adjustEntries k f entries).Pairwise fun a b => a.1 < b.1 := by
  induction entries with
  | nil => exact List.pairwise_singleton _ _
  | cons head rest ih =>
      have hcons := List.pairwise_cons.mp h
      rw [adjustEntries]
      split
      · rename_i hlt
        apply List.pairwise_cons.mpr
        refine ⟨?_, h⟩
        intro e he
        rcases List.mem_cons.mp he with rfl | he
        · exact hlt
        · exact lt_trans hlt (hcons.1 e he)
      · rename_i hge
        split
        · rename_i heq
          apply List.pairwise_cons.mpr
          refine ⟨?_, hcons.2⟩
          intro e he
          exact heq ▸ hcons.1 e he
        · rename_i hne
          apply List.pairwise_cons.mpr
          refine ⟨?_, ih hcons.2⟩
          intro e he
          rcases mem_adjustEntries he with heq | he
          · exact heq ▸ lt_of_le_of_ne (not_lt.mp hge) (Ne.symm hne)
          · exact hcons.1 e he

def adjust (m : SortedMap κ ν) (k : κ) (f : Option ν → ν) : SortedMap κ ν :=
  ⟨adjustEntries k f m.entries, adjustEntries_sorted k f m.sorted⟩

/-! ## Lookups -/

theorem lookup_cons_of_ne {k : κ} {e : κ × ν} (h : k ≠ e.1) (rest : List (κ × ν)) :
    (e :: rest).lookup k = rest.lookup k := by
  cases e with
  | mk k' v =>
      have hbeq : (k == k') = false := beq_false_of_ne h
      rw [List.lookup_cons, hbeq]

@[simp] theorem get?_empty (k : κ) : (empty : SortedMap κ ν).get? k = none := rfl

theorem lookup_eq_none {k : κ} {entries : List (κ × ν)} (h : ∀ e ∈ entries, k < e.1) :
    entries.lookup k = none := by
  rw [List.lookup_eq_none_iff]
  intro e he
  simpa using ne_of_lt (h e he)

theorem get?_adjust_self (m : SortedMap κ ν) (k : κ) (f : Option ν → ν) :
    (m.adjust k f).get? k = some (f (m.get? k)) := by
  suffices h : ∀ entries : List (κ × ν), (entries.Pairwise fun a b => a.1 < b.1) →
      (adjustEntries k f entries).lookup k = some (f (entries.lookup k)) from h _ m.sorted
  intro entries hsorted
  induction entries with
  | nil => simp [adjustEntries]
  | cons head rest ih =>
      have hcons := List.pairwise_cons.mp hsorted
      rw [adjustEntries]
      split
      · rename_i hlt
        have hnone : (head :: rest).lookup k = none := by
          apply lookup_eq_none
          intro e he
          rcases List.mem_cons.mp he with rfl | he
          · exact hlt
          · exact lt_trans hlt (hcons.1 e he)
        rw [hnone]
        exact List.lookup_cons_self
      · split
        · rename_i heq
          subst heq
          rw [List.lookup_cons_self, List.lookup_cons_self]
        · rename_i hne
          rw [lookup_cons_of_ne hne, lookup_cons_of_ne hne]
          exact ih hcons.2

theorem get?_adjust_of_ne (m : SortedMap κ ν) {k k' : κ} (h : k' ≠ k) (f : Option ν → ν) :
    (m.adjust k f).get? k' = m.get? k' := by
  suffices hlist : ∀ entries : List (κ × ν),
      (adjustEntries k f entries).lookup k' = entries.lookup k' from hlist _
  intro entries
  induction entries with
  | nil => exact lookup_cons_of_ne h []
  | cons head rest ih =>
      rw [adjustEntries]
      split
      · exact lookup_cons_of_ne h _
      · split
        · rename_i heq
          rw [lookup_cons_of_ne h, lookup_cons_of_ne (heq ▸ h)]
        · by_cases hhead : k' = head.1
          · rw [hhead, List.lookup_cons_self, List.lookup_cons_self]
          · rw [lookup_cons_of_ne hhead, lookup_cons_of_ne hhead, ih]

/-! ## Keys -/

theorem keys_nodup (m : SortedMap κ ν) : m.keys.Nodup := by
  rw [keys, List.Nodup, List.pairwise_map]
  exact m.sorted.imp fun h => ne_of_lt h

theorem mem_entries_iff (m : SortedMap κ ν) (e : κ × ν) :
    e ∈ m.entries ↔ m.get? e.1 = some e.2 := by
  rw [get?, List.lookup_eq_some_iff]
  constructor
  · intro hmem
    rcases List.append_of_mem hmem with ⟨before, after, hsplit⟩
    refine ⟨before, after, hsplit, ?_⟩
    intro e' hbefore
    have hsorted := hsplit ▸ m.sorted
    have hlt := (List.pairwise_append.mp hsorted).2.2 e' hbefore e List.mem_cons_self
    simpa using ne_of_gt hlt
  · intro hsplit
    rcases hsplit with ⟨before, after, hsplit, _⟩
    rw [hsplit]
    exact List.mem_append_right before List.mem_cons_self

theorem mem_keys_iff (m : SortedMap κ ν) (k : κ) : k ∈ m.keys ↔ ∃ v, m.get? k = some v := by
  rw [keys, List.mem_map]
  constructor
  · intro h
    rcases h with ⟨e, hmem, rfl⟩
    exact ⟨e.2, (m.mem_entries_iff e).mp hmem⟩
  · intro h
    rcases h with ⟨v, hv⟩
    exact ⟨(k, v), (m.mem_entries_iff (k, v)).mpr hv, rfl⟩

theorem ext_get? {m m' : SortedMap κ ν} (h : ∀ k, m.get? k = m'.get? k) : m = m' := by
  have hnodup (m : SortedMap κ ν) : m.entries.Nodup := m.keys_nodup.of_map _
  have hperm : m.entries.Perm m'.entries := by
    rw [List.perm_ext_iff_of_nodup (hnodup m) (hnodup m')]
    intro e
    rw [mem_entries_iff, mem_entries_iff, h]
  have hentries : m.entries = m'.entries := by
    refine List.Perm.eq_of_pairwise ?_ m.sorted m'.sorted hperm
    intro a b _ _ hab hba
    exact absurd hab (not_lt_of_gt hba)
  cases m
  cases m'
  cases hentries
  rfl

/-! ## Tallies -/

/-- One adjustment for each key of a list. -/
def tally (f : Option ν → ν) (m : SortedMap κ ν) (ks : List κ) : SortedMap κ ν :=
  ks.foldl (fun m k => m.adjust k f) m

theorem tally_cons (f : Option ν → ν) (m : SortedMap κ ν) (k : κ) (ks : List κ) :
    m.tally f (k :: ks) = (m.adjust k f).tally f ks := rfl

theorem get?_tally (f : Option ν → ν) (m : SortedMap κ ν) (ks : List κ) (k : κ) :
    (m.tally f ks).get? k = (fun o => some (f o))^[ks.count k] (m.get? k) := by
  induction ks generalizing m with
  | nil => rfl
  | cons k' ks ih =>
      rw [tally_cons, ih]
      by_cases h : k' = k
      · rw [h, get?_adjust_self, List.count_cons_self, Function.iterate_succ_apply]
      · rw [get?_adjust_of_ne _ (Ne.symm h), List.count_cons_of_ne h]

theorem tally_eq_of_perm (f : Option ν → ν) (m : SortedMap κ ν) {ks ks' : List κ}
    (h : ks.Perm ks') : m.tally f ks = m.tally f ks' := by
  apply ext_get?
  intro k
  rw [get?_tally, get?_tally, h.count_eq]

theorem mem_keys_tally (f : Option ν → ν) (ks : List κ) (k : κ) :
    k ∈ (empty.tally f ks).keys ↔ k ∈ ks := by
  rw [mem_keys_iff, get?_tally, get?_empty, ← List.count_pos_iff]
  cases ks.count k with
  | zero => simp
  | succ n => simp [Function.iterate_succ_apply']

theorem sum_count_keys_tally (f : Option ν → ν) (ks : List κ) :
    ((empty.tally f ks).keys.map fun k => ks.count k).sum = ks.length := by
  have hperm : (empty.tally f ks).keys.Perm ks.dedup := by
    rw [List.perm_ext_iff_of_nodup (keys_nodup _) ks.nodup_dedup]
    intro k
    rw [mem_keys_tally, List.mem_dedup]
  rw [(hperm.map _).sum_eq]
  exact List.sum_map_count_dedup_eq_length ks

end SortedMap

end MoonGen

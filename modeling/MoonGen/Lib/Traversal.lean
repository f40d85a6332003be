import Mathlib.Data.List.Dedup
import Mathlib.Logic.Function.Basic

/-! # Loops over the entries of a table

A table maps keys to values. A loop over its entries sees each of them once, in an
order that nothing fixes. `Listing` is such an order. A loop whose body reads and
writes only what is stored under the key of the entry has the same effect in every
order, and that effect can be told for each key alone.
-/

namespace MoonGen.Traversal

universe u v w x

variable {κ : Type u} {α : Type v} {σ : Type w} {τ : Type x}

structure Listing (t : κ → Option α) where
  entries : List (κ × α)
  nodup : (entries.map Prod.fst).Nodup
  mem_iff : ∀ k v, (k, v) ∈ entries ↔ t k = some v

/-- The body of a loop that reads and writes only what a view shows under its key. -/
structure Local (view : σ → κ → τ) (body : σ → κ × α → σ) (upd : κ → α → τ → τ) : Prop where
  here : ∀ s k v, view (body s (k, v)) k = upd k v (view s k)
  elsewhere : ∀ s k v k', k' ≠ k → view (body s (k, v)) k' = view s k'

namespace Local

variable {view : σ → κ → τ} {body : σ → κ × α → σ} {upd : κ → α → τ → τ}

theorem foldl_of_not_mem (h : Local view body upd) {entries : List (κ × α)} {k : κ}
    (hk : k ∉ entries.map Prod.fst) (s : σ) : view (entries.foldl body s) k = view s k := by
  induction entries generalizing s with
  | nil => rfl
  | cons e rest ih =>
      obtain ⟨hne, hrest⟩ := not_or.mp (mt List.mem_cons.mpr hk)
      rw [List.foldl_cons, ih hrest, h.elsewhere s e.1 e.2 k hne]

theorem foldl_of_mem (h : Local view body upd) {entries : List (κ × α)}
    (hnodup : (entries.map Prod.fst).Nodup) {k : κ} {v : α} (hmem : (k, v) ∈ entries) (s : σ) :
    view (entries.foldl body s) k = upd k v (view s k) := by
  induction entries generalizing s with
  | nil => cases hmem
  | cons e rest ih =>
      obtain ⟨hfresh, hnodup⟩ := List.nodup_cons.mp hnodup
      rw [List.foldl_cons]
      rcases List.mem_cons.mp hmem with heq | hrest
      · subst heq
        rw [h.foldl_of_not_mem hfresh, h.here]
      · have hne : k ≠ e.1 := by
          intro heq
          exact hfresh (heq ▸ List.mem_map_of_mem hrest)
        rw [ih hnodup hrest, h.elsewhere s e.1 e.2 k hne]

theorem foldl (h : Local view body upd) {t : κ → Option α} (l : Listing t) (s : σ) (k : κ) :
    view (l.entries.foldl body s) k = (t k).elim (view s k) fun v => upd k v (view s k) := by
  cases hk : t k with
  | none =>
      apply h.foldl_of_not_mem
      intro hmem
      obtain ⟨e, he, rfl⟩ := List.mem_map.mp hmem
      rw [(l.mem_iff e.1 e.2).mp he] at hk
      cases hk
  | some v => exact h.foldl_of_mem l.nodup ((l.mem_iff k v).mpr hk) s

/-- An invariant of the loop. Under the key of an entry the body finds what was there at the
start, since no other entry has that key. -/
theorem foldl_invariant (h : Local view body upd) {t : κ → Option α} (l : Listing t)
    (inv : σ → Prop) {init : σ} (hinit : inv init)
    (hbody : ∀ s k v, t k = some v → view s k = view init k → inv s → inv (body s (k, v))) :
    inv (l.entries.foldl body init) := by
  suffices hsuffix : ∀ (entries : List (κ × α)) (s : σ), (entries.map Prod.fst).Nodup →
      (∀ e ∈ entries, t e.1 = some e.2 ∧ view s e.1 = view init e.1) → inv s →
      inv (entries.foldl body s) from
    hsuffix l.entries init l.nodup (fun e he => ⟨(l.mem_iff e.1 e.2).mp he, rfl⟩) hinit
  intro entries
  induction entries with
  | nil =>
      intro s _ _ hs
      exact hs
  | cons e rest ih =>
      intro s hnodup hentries hs
      obtain ⟨hfresh, hnodup⟩ := List.nodup_cons.mp hnodup
      obtain ⟨he, hview⟩ := hentries e List.mem_cons_self
      apply ih (body s e) hnodup
      · intro e' he'
        obtain ⟨ht, hview'⟩ := hentries e' (List.mem_cons_of_mem e he')
        have hne : e'.1 ≠ e.1 := by
          intro heq
          exact hfresh (heq ▸ List.mem_map_of_mem he')
        exact ⟨ht, (h.elsewhere s e.1 e.2 e'.1 hne).trans hview'⟩
      · exact hbody s e.1 e.2 he hview hs

end Local

theorem foldl_invariant (inv : σ → Prop) {body : σ → κ × α → σ} {t : κ → Option α} (l : Listing t)
    (step : ∀ s k v, t k = some v → inv s → inv (body s (k, v))) {s : σ} (init : inv s) :
    inv (l.entries.foldl body s) :=
  List.foldlRecOn l.entries body init fun _ hs e he =>
    step _ e.1 e.2 ((l.mem_iff e.1 e.2).mp he) hs

def Listing.ofKeys [DecidableEq κ] (t : κ → Option α) (keys : List κ)
    (h : ∀ k v, t k = some v → k ∈ keys) : Listing t where
  entries := keys.dedup.filterMap fun k => (t k).map fun v => (k, v)
  nodup := by
    have hkeys : (keys.dedup.filterMap fun k => (t k).map fun v => (k, v)).map Prod.fst =
        keys.dedup.filter fun k => (t k).isSome := by
      induction keys.dedup with
      | nil => rfl
      | cons k rest ih => cases hk : t k <;> simp [hk, ih]
    rw [hkeys]
    exact (List.nodup_dedup keys).filter _
  mem_iff := by
    intro k v
    constructor
    · intro hmem
      obtain ⟨k', _, hv⟩ := List.mem_filterMap.mp hmem
      obtain ⟨v', hv', heq⟩ := Option.map_eq_some_iff.mp hv
      cases heq
      exact hv'
    · intro hv
      exact List.mem_filterMap.mpr ⟨k, List.mem_dedup.mpr (h k v hv), by rw [hv]; rfl⟩

end MoonGen.Traversal

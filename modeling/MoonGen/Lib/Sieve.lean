import Mathlib.Logic.Function.Iterate

/-! # Stateful sieves

A sieve looks at the items of a list one by one, keeps a state, and passes each
item on or drops it. `sift` is one such pass. `pipe` runs two sieves inside one
loop, the second on what the first passes; `pipe_eq_sift` splits that loop into
two passes. A sieve given by `dropBy` decides by its state alone.
-/

namespace MoonGen.Sieve

variable {σ : Type u} {τ : Type v} {α β γ : Type w} {κ : Type x}

structure Sifted (σ : Type u) (α β : Type w) where
  state : σ
  kept : List β
  dropped : List α

def sift (pass : σ → α → σ × Option β) : σ → List α → Sifted σ α β
  | s, [] => ⟨s, [], []⟩
  | s, a :: rest =>
      let r := sift pass (pass s a).1 rest
      match (pass s a).2 with
      | some b => { r with kept := b :: r.kept }
      | none => { r with dropped := a :: r.dropped }

def decisions (pass : σ → α → σ × Option β) : σ → List α → List Bool
  | _, [] => []
  | s, a :: rest => (pass s a).2.isSome :: decisions pass (pass s a).1 rest

@[simp] theorem sift_nil (pass : σ → α → σ × Option β) (s : σ) :
    sift pass s [] = ⟨s, [], []⟩ := rfl

theorem sift_cons_some {pass : σ → α → σ × Option β} {s : σ} {a : α} {b : β}
    (h : (pass s a).2 = some b) (rest : List α) :
    sift pass s (a :: rest) =
      { sift pass (pass s a).1 rest with kept := b :: (sift pass (pass s a).1 rest).kept } := by
  simp [sift, h]

theorem sift_cons_none {pass : σ → α → σ × Option β} {s : σ} {a : α}
    (h : (pass s a).2 = none) (rest : List α) :
    sift pass s (a :: rest) =
      { sift pass (pass s a).1 rest with
        dropped := a :: (sift pass (pass s a).1 rest).dropped } := by
  simp [sift, h]

theorem sift_cons_state (pass : σ → α → σ × Option β) (s : σ) (a : α) (rest : List α) :
    (sift pass s (a :: rest)).state = (sift pass (pass s a).1 rest).state := by
  cases h : (pass s a).2 with
  | some b => rw [sift_cons_some h]
  | none => rw [sift_cons_none h]

/-- Cutting the input anywhere and threading the state changes nothing. -/
theorem sift_append (pass : σ → α → σ × Option β) (s : σ) (as more : List α) :
    sift pass s (as ++ more) =
      ⟨(sift pass (sift pass s as).state more).state,
        (sift pass s as).kept ++ (sift pass (sift pass s as).state more).kept,
        (sift pass s as).dropped ++ (sift pass (sift pass s as).state more).dropped⟩ := by
  induction as generalizing s with
  | nil => rfl
  | cons a rest ih =>
      cases h : (pass s a).2 with
      | some b => simp [sift_cons_some h, ih]
      | none => simp [sift_cons_none h, ih]

@[simp] theorem decisions_length (pass : σ → α → σ × Option β) (s : σ) (as : List α) :
    (decisions pass s as).length = as.length := by
  induction as generalizing s with
  | nil => rfl
  | cons a rest ih => simp [decisions, ih]

def select : List Bool → List α → List α
  | true :: ds, a :: as => a :: select ds as
  | false :: ds, _ :: as => select ds as
  | _, _ => []

theorem select_append {ds : List Bool} {as : List α} (h : ds.length = as.length)
    (ds' : List Bool) (as' : List α) :
    select (ds ++ ds') (as ++ as') = select ds as ++ select ds' as' := by
  induction ds generalizing as with
  | nil =>
      cases as with
      | nil => rfl
      | cons a rest => simp at h
  | cons d ds ih =>
      cases as with
      | nil => simp at h
      | cons a rest =>
          have hlen : ds.length = rest.length := by simpa using h
          have hrest := ih hlen
          cases d <;> simp [select, hrest]

/-- A sieve that passes its items unchanged keeps those it decides to pass. -/
theorem sift_kept_eq_select {pass : σ → α → σ × Option α}
    (hsame : ∀ s a b, (pass s a).2 = some b → b = a) (s : σ) (as : List α) :
    (sift pass s as).kept = select (decisions pass s as) as := by
  induction as generalizing s with
  | nil => rfl
  | cons a rest ih =>
      cases h : (pass s a).2 with
      | some b =>
          rw [sift_cons_some h, decisions, h, hsame s a b h]
          exact congrArg (a :: ·) (ih _)
      | none =>
          rw [sift_cons_none h, decisions, h]
          exact ih _

theorem sift_kept_length (pass : σ → α → σ × Option β) (s : σ) (as : List α) :
    (sift pass s as).kept.length = (decisions pass s as).count true := by
  induction as generalizing s with
  | nil => rfl
  | cons a rest ih =>
      cases h : (pass s a).2 with
      | some b =>
          rw [sift_cons_some h, decisions, h, Option.isSome_some, List.count_cons_self]
          exact congrArg (· + 1) (ih _)
      | none =>
          rw [sift_cons_none h, decisions, h, Option.isSome_none, List.count_cons_of_ne (by decide)]
          exact ih _

theorem sift_perm {pass : σ → α → σ × Option β} {key : α → κ} {key' : β → κ}
    (hkey : ∀ s a b, (pass s a).2 = some b → key' b = key a) (s : σ) (as : List α) :
    ((sift pass s as).kept.map key' ++ (sift pass s as).dropped.map key).Perm (as.map key) := by
  induction as generalizing s with
  | nil => exact .nil
  | cons a rest ih =>
      cases h : (pass s a).2 with
      | some b =>
          rw [sift_cons_some h]
          simp only [List.map_cons, hkey s a b h]
          exact (ih _).cons _
      | none =>
          rw [sift_cons_none h]
          simp only [List.map_cons]
          exact List.perm_middle.trans ((ih _).cons _)

theorem sift_kept_map {pass : σ → α → σ × Option β} {key : α → κ} {key' : β → κ}
    (hkey : ∀ s a b, (pass s a).2 = some b → key' b = key a) (s : σ) (as : List α) :
    (sift pass s as).kept.map key' = (select (decisions pass s as) as).map key := by
  induction as generalizing s with
  | nil => rfl
  | cons a rest ih =>
      cases h : (pass s a).2 with
      | some b =>
          rw [sift_cons_some h, decisions, h]
          simp only [List.map_cons, Option.isSome_some, select, hkey s a b h, ih]
      | none =>
          rw [sift_cons_none h, decisions, h]
          exact ih _

theorem select_sublist (ds : List Bool) (as : List α) : (select ds as).Sublist as := by
  induction as generalizing ds with
  | nil =>
      cases ds with
      | nil => exact .slnil
      | cons d ds => cases d <;> exact .slnil
  | cons a rest ih =>
      cases ds with
      | nil => exact List.nil_sublist _
      | cons d ds =>
          cases d with
          | true => exact (ih ds).cons_cons a
          | false => exact (ih ds).cons a

theorem sift_kept_sublist {pass : σ → α → σ × Option α}
    (hsame : ∀ s a b, (pass s a).2 = some b → b = a) (s : σ) (as : List α) :
    (sift pass s as).kept.Sublist as := by
  rw [sift_kept_eq_select hsame]
  exact select_sublist _ as

theorem sift_sublist {pass : σ → α → σ × Option β} {key : α → κ} {key' : β → κ}
    (hkey : ∀ s a b, (pass s a).2 = some b → key' b = key a) (s : σ) (as : List α) :
    ((sift pass s as).kept.map key').Sublist (as.map key) := by
  rw [sift_kept_map hkey]
  exact (select_sublist _ as).map key

/-- Invariant rule for one pass: what holds of the state and the items kept so far
is kept by every item, passed or dropped. -/
theorem sift_invariant {pass : σ → α → σ × Option β} (inv : σ → List β → Prop)
    (hpass : ∀ s out a, inv s out → inv (pass s a).1 (out ++ (pass s a).2.toList)) {s : σ}
    (as : List α) (init : inv s []) : inv (sift pass s as).state (sift pass s as).kept := by
  suffices hfrom : ∀ out s, inv s out →
      inv (sift pass s as).state (out ++ (sift pass s as).kept) from hfrom [] s init
  clear init
  induction as with
  | nil =>
      intro out s hinv
      simpa using hinv
  | cons a rest ih =>
      intro out s hinv
      have hstep := hpass s out a hinv
      cases h : (pass s a).2 with
      | some b =>
          rw [h, Option.toList_some] at hstep
          rw [sift_cons_some h, List.append_cons]
          exact ih _ _ hstep
      | none =>
          rw [h, Option.toList_none, List.append_nil] at hstep
          rw [sift_cons_none h]
          exact ih _ _ hstep

/-! ## Two sieves in one loop -/

structure Piped (σ : Type u) (τ : Type v) (α β γ : Type w) where
  first : σ
  second : τ
  passed : List β
  kept : List γ
  droppedFirst : List α
  droppedSecond : List β

def pipe (pass : σ → α → σ × Option β) (pass' : τ → β → τ × Option γ) :
    σ → τ → List α → Piped σ τ α β γ
  | s, t, [] => ⟨s, t, [], [], [], []⟩
  | s, t, a :: rest =>
      match (pass s a).2 with
      | none =>
          let r := pipe pass pass' (pass s a).1 t rest
          { r with droppedFirst := a :: r.droppedFirst }
      | some b =>
          let r := pipe pass pass' (pass s a).1 (pass' t b).1 rest
          match (pass' t b).2 with
          | none => { r with passed := b :: r.passed, droppedSecond := b :: r.droppedSecond }
          | some c => { r with passed := b :: r.passed, kept := c :: r.kept }

/-- Loop fission: the second sieve may as well run over all that the first passes. -/
theorem pipe_eq_sift (pass : σ → α → σ × Option β) (pass' : τ → β → τ × Option γ) (s : σ)
    (t : τ) (as : List α) :
    pipe pass pass' s t as =
      ⟨(sift pass s as).state, (sift pass' t (sift pass s as).kept).state, (sift pass s as).kept,
        (sift pass' t (sift pass s as).kept).kept, (sift pass s as).dropped,
        (sift pass' t (sift pass s as).kept).dropped⟩ := by
  induction as generalizing s t with
  | nil => rfl
  | cons a rest ih =>
      cases h : (pass s a).2 with
      | none => simp [pipe, h, ih, sift_cons_none h]
      | some b =>
          cases h' : (pass' t b).2 with
          | none => simp [pipe, h, h', ih, sift_cons_some h, sift_cons_none h']
          | some c => simp [pipe, h, h', ih, sift_cons_some h, sift_cons_some h']

/-! ## Sieves that decide by their state alone -/

def dropBy (draw : τ → Bool × τ) (t : τ) (b : β) : τ × Option β :=
  ((draw t).2, if (draw t).1 then none else some b)

def draws (draw : τ → Bool × τ) : τ → Nat → List Bool
  | _, 0 => []
  | t, n + 1 => (draw t).1 :: draws draw (draw t).2 n

@[simp] theorem dropBy_fst (draw : τ → Bool × τ) (t : τ) (b : β) :
    (dropBy draw t b).1 = (draw t).2 := rfl

theorem dropBy_some {draw : τ → Bool × τ} {t : τ} {b c : β}
    (h : (dropBy draw t b).2 = some c) : c = b := by
  unfold dropBy at h
  split at h
  · cases h
  · exact (Option.some.inj h).symm

theorem sift_dropBy_cons_true {draw : τ → Bool × τ} {t : τ} (h : (draw t).1 = true) (b : β)
    (bs : List β) :
    sift (dropBy draw) t (b :: bs) =
      { sift (dropBy draw) (draw t).2 bs with
        dropped := b :: (sift (dropBy draw) (draw t).2 bs).dropped } := by
  have hnone : (dropBy draw t b).2 = none := by simp [dropBy, h]
  rw [sift_cons_none hnone, dropBy_fst]

theorem sift_dropBy_cons_false {draw : τ → Bool × τ} {t : τ} (h : (draw t).1 = false) (b : β)
    (bs : List β) :
    sift (dropBy draw) t (b :: bs) =
      { sift (dropBy draw) (draw t).2 bs with
        kept := b :: (sift (dropBy draw) (draw t).2 bs).kept } := by
  have hsome : (dropBy draw t b).2 = some b := by simp [dropBy, h]
  rw [sift_cons_some hsome, dropBy_fst]

theorem sift_dropBy_kept_sublist (draw : τ → Bool × τ) (t : τ) (bs : List β) :
    (sift (dropBy draw) t bs).kept.Sublist bs :=
  sift_kept_sublist (fun _ _ _ h => dropBy_some h) t bs

theorem sift_dropBy_perm (draw : τ → Bool × τ) (t : τ) (bs : List β) :
    ((sift (dropBy draw) t bs).kept ++ (sift (dropBy draw) t bs).dropped).Perm bs := by
  induction bs generalizing t with
  | nil => exact .nil
  | cons b rest ih =>
      cases h : (draw t).1 with
      | true =>
          rw [sift_dropBy_cons_true h]
          exact List.perm_middle.trans ((ih _).cons b)
      | false =>
          rw [sift_dropBy_cons_false h]
          exact (ih _).cons b

theorem sift_dropBy_dropped_eq_nil_iff (draw : τ → Bool × τ) (t : τ) (bs : List β) :
    (sift (dropBy draw) t bs).dropped = [] ↔ true ∉ draws draw t bs.length := by
  induction bs generalizing t with
  | nil => simp [draws]
  | cons b rest ih =>
      rw [List.length_cons, draws]
      cases h : (draw t).1 with
      | true => simp [sift_dropBy_cons_true h]
      | false =>
          rw [sift_dropBy_cons_false h]
          simpa using ih (draw t).2

theorem sift_dropBy_of_never {draw : τ → Bool × τ} (hnever : ∀ t, (draw t).1 = false) (t : τ)
    (bs : List β) :
    (sift (dropBy draw) t bs).kept = bs ∧ (sift (dropBy draw) t bs).dropped = [] := by
  induction bs generalizing t with
  | nil => exact ⟨rfl, rfl⟩
  | cons b rest ih =>
      obtain ⟨hkept, hdropped⟩ := ih (draw t).2
      rw [sift_dropBy_cons_false (hnever t)]
      exact ⟨congrArg (b :: ·) hkept, hdropped⟩

theorem sift_dropBy_kept_length (draw : τ → Bool × τ) (t : τ) (bs : List β) :
    (sift (dropBy draw) t bs).kept.length = (draws draw t bs.length).count false := by
  induction bs generalizing t with
  | nil => rfl
  | cons b rest ih =>
      rw [List.length_cons, draws]
      cases h : (draw t).1 with
      | true =>
          rw [sift_dropBy_cons_true h, List.count_cons_of_ne (by decide)]
          exact ih _
      | false =>
          rw [sift_dropBy_cons_false h, List.count_cons_self]
          exact congrArg (· + 1) (ih _)

def drawn (draw : τ → Bool × τ) (t : τ) (n : Nat) : τ := (fun t => (draw t).2)^[n] t

theorem draws_succ (draw : τ → Bool × τ) (t : τ) (n : Nat) :
    draws draw t (n + 1) = draws draw t n ++ [(draw (drawn draw t n)).1] := by
  induction n generalizing t with
  | zero => rfl
  | succ n ih =>
      rw [draws, ih (draw t).2]
      rfl

theorem drawn_succ (draw : τ → Bool × τ) (t : τ) (n : Nat) :
    drawn draw t (n + 1) = (draw (drawn draw t n)).2 :=
  Function.iterate_succ_apply' _ n t

/-- Draws that keep equally many items of every length are the same draws. -/
theorem draw_eq_of_count_eq {τ' : Type v'} {draw : τ → Bool × τ} {draw' : τ' → Bool × τ'} {t : τ}
    {t' : τ'} (h : ∀ n, (draws draw t n).count false = (draws draw' t' n).count false) (n : Nat) :
    (draw (drawn draw t n)).1 = (draw' (drawn draw' t' n)).1 := by
  have hnext := h (n + 1)
  rw [draws_succ, draws_succ, List.count_append, List.count_append, h n] at hnext
  have hlast := Nat.add_left_cancel hnext
  cases hd : (draw (drawn draw t n)).1 with
  | true =>
      cases hd' : (draw' (drawn draw' t' n)).1 with
      | true => rfl
      | false => simp [hd, hd'] at hlast
  | false =>
      cases hd' : (draw' (drawn draw' t' n)).1 with
      | true => simp [hd, hd'] at hlast
      | false => rfl

theorem sift_dropBy_map (draw : τ → Bool × τ) (f : β → γ) (t : τ) (bs : List β) :
    (sift (dropBy draw) t (bs.map f)).kept = (sift (dropBy draw) t bs).kept.map f ∧
      (sift (dropBy draw) t (bs.map f)).dropped = (sift (dropBy draw) t bs).dropped.map f ∧
      (sift (dropBy draw) t (bs.map f)).state = (sift (dropBy draw) t bs).state := by
  induction bs generalizing t with
  | nil => exact ⟨rfl, rfl, rfl⟩
  | cons b rest ih =>
      obtain ⟨hkept, hdropped, hstate⟩ := ih (draw t).2
      rw [List.map_cons]
      cases h : (draw t).1 with
      | true =>
          rw [sift_dropBy_cons_true h, sift_dropBy_cons_true h]
          exact ⟨hkept, congrArg (f b :: ·) hdropped, hstate⟩
      | false =>
          rw [sift_dropBy_cons_false h, sift_dropBy_cons_false h]
          exact ⟨congrArg (f b :: ·) hkept, hdropped, hstate⟩

theorem sift_dropBy_view {τ' : Type v'} {draw : τ → Bool × τ} {draw' : τ' → Bool × τ'}
    (view : τ → τ') (hview : ∀ t, draw' (view t) = ((draw t).1, view (draw t).2)) (t : τ)
    (bs : List β) :
    (sift (dropBy draw') (view t) bs).dropped = (sift (dropBy draw) t bs).dropped := by
  induction bs generalizing t with
  | nil => rfl
  | cons b rest ih =>
      have hstate : (draw' (view t)).2 = view (draw t).2 := by rw [hview]
      have hsame : (draw' (view t)).1 = (draw t).1 := by rw [hview]
      cases h : (draw t).1 with
      | true =>
          rw [sift_dropBy_cons_true h, sift_dropBy_cons_true (hsame.trans h), hstate]
          exact congrArg (b :: ·) (ih _)
      | false =>
          rw [sift_dropBy_cons_false h, sift_dropBy_cons_false (hsame.trans h), hstate]
          exact ih _

end MoonGen.Sieve

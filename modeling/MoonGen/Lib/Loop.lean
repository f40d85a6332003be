/-! # Fuelled loops and partial runs

`whileFuel` iterates a guarded body and answers `none` only when its fuel ends
before the guard does. `runs` folds a partial step over a list of inputs. The
rules below are the only facts about either that a client needs: an invariant
survives the iteration, a decreasing measure supplies enough fuel, and a
projection that commutes with the body commutes with the whole loop.
-/

namespace MoonGen.Loop

section While

variable {σ : Type u} {τ : Type v} {guard : σ → Bool} {body : σ → σ}

def whileFuel (guard : σ → Bool) (body : σ → σ) : Nat → σ → Option σ
  | 0, s => if guard s then none else some s
  | fuel + 1, s => if guard s then whileFuel guard body fuel (body s) else some s

theorem whileFuel_exit (fuel : Nat) {s : σ} (h : guard s = false) :
    whileFuel guard body fuel s = some s := by
  cases fuel <;> simp [whileFuel, h]

theorem whileFuel_succ (fuel : Nat) {s : σ} (h : guard s = true) :
    whileFuel guard body (fuel + 1) s = whileFuel guard body fuel (body s) := by
  simp [whileFuel, h]

/-- A loop that has returned is insensitive to further fuel. -/
theorem whileFuel_mono {fuel : Nat} (extra : Nat) {s t : σ}
    (h : whileFuel guard body fuel s = some t) :
    whileFuel guard body (fuel + extra) s = some t := by
  induction fuel generalizing s with
  | zero =>
      cases hg : guard s with
      | true => simp [whileFuel, hg] at h
      | false =>
          rw [whileFuel_exit _ hg] at h ⊢
          exact h
  | succ fuel ih =>
      cases hg : guard s with
      | true =>
          rw [whileFuel_succ fuel hg] at h
          rw [Nat.succ_add, whileFuel_succ _ hg]
          exact ih h
      | false =>
          rw [whileFuel_exit _ hg] at h ⊢
          exact h

theorem whileFuel_invariant (inv : σ → Prop)
    (step : ∀ s, inv s → guard s = true → inv (body s)) {fuel : Nat} {s t : σ}
    (init : inv s) (h : whileFuel guard body fuel s = some t) : inv t ∧ guard t = false := by
  induction fuel generalizing s with
  | zero =>
      cases hg : guard s with
      | true => simp [whileFuel, hg] at h
      | false =>
          rw [whileFuel_exit _ hg] at h
          cases h
          exact ⟨init, hg⟩
  | succ fuel ih =>
      cases hg : guard s with
      | true =>
          rw [whileFuel_succ fuel hg] at h
          exact ih (step s init hg) h
      | false =>
          rw [whileFuel_exit _ hg] at h
          cases h
          exact ⟨init, hg⟩

inductive Round (guard : σ → Bool) (body : σ → σ) : σ → σ → Prop where
  | first {s : σ} (h : guard s = true) : Round guard body s s
  | later {s t : σ} (h : guard s = true) (rest : Round guard body (body s) t) :
      Round guard body s t

theorem Round.invariant (inv : σ → Prop)
    (step : ∀ s, inv s → guard s = true → inv (body s)) {s t : σ} (init : inv s)
    (h : Round guard body s t) : inv t ∧ guard t = true := by
  induction h with
  | first hg => exact ⟨init, hg⟩
  | later hg _ ih => exact ih (step _ init hg)

/-- Fuel bounded below by a measure that each iteration decreases is enough. -/
theorem whileFuel_terminates (inv : σ → Prop) (measure : σ → Nat)
    (step : ∀ s, inv s → guard s = true → inv (body s) ∧ measure (body s) < measure s)
    {fuel : Nat} {s : σ} (init : inv s) (enough : measure s ≤ fuel) :
    ∃ t, whileFuel guard body fuel s = some t := by
  induction fuel generalizing s with
  | zero =>
      cases hg : guard s with
      | true =>
          have hdown := (step s init hg).2
          omega
      | false => exact ⟨s, whileFuel_exit _ hg⟩
  | succ fuel ih =>
      cases hg : guard s with
      | true =>
          obtain ⟨hinv, hdown⟩ := step s init hg
          rw [whileFuel_succ fuel hg]
          exact ih hinv (by omega)
      | false => exact ⟨s, whileFuel_exit _ hg⟩

theorem whileFuel_map {guard' : τ → Bool} {body' : τ → τ} (view : σ → τ)
    (hguard : ∀ s, guard' (view s) = guard s) (hbody : ∀ s, body' (view s) = view (body s))
    (fuel : Nat) (s : σ) :
    (whileFuel guard body fuel s).map view = whileFuel guard' body' fuel (view s) := by
  induction fuel generalizing s with
  | zero =>
      simp only [whileFuel, hguard]
      cases guard s <;> rfl
  | succ fuel ih =>
      simp only [whileFuel, hguard, hbody]
      cases guard s with
      | true => exact ih (body s)
      | false => rfl

/-- A loop that a relation ties to one that returns, returns. -/
theorem whileFuel_simulates {guard' : τ → Bool} {body' : τ → τ} (rel : σ → τ → Prop)
    (hguard : ∀ s t, rel s t → guard s = guard' t)
    (hbody : ∀ s t, rel s t → rel (body s) (body' t)) {fuel : Nat} {s : σ} {t t' : τ}
    (init : rel s t) (h : whileFuel guard' body' fuel t = some t') :
    ∃ s', whileFuel guard body fuel s = some s' ∧ rel s' t' := by
  induction fuel generalizing s t with
  | zero =>
      have hsame := hguard s t init
      cases hg : guard' t with
      | true => simp [whileFuel, hg] at h
      | false =>
          rw [whileFuel_exit _ hg] at h
          cases h
          exact ⟨s, whileFuel_exit _ (hsame.trans hg), init⟩
  | succ fuel ih =>
      have hsame := hguard s t init
      cases hg : guard' t with
      | true =>
          rw [whileFuel_succ fuel hg] at h
          rw [whileFuel_succ fuel (hsame.trans hg)]
          exact ih (hbody s t init) h
      | false =>
          rw [whileFuel_exit _ hg] at h
          cases h
          exact ⟨s, whileFuel_exit _ (hsame.trans hg), init⟩

end While

section Runs

variable {σ : Type u} {ι : Type v}

/-- Feed a list of inputs to a partial step; the run stops at the first `none`. -/
def runs (step : σ → ι → Option σ) : σ → List ι → Option σ
  | s, [] => some s
  | s, i :: rest => (step s i).bind fun s' => runs step s' rest

/-- Every step the run takes meets `P` in the state it starts from. -/
def Along (step : σ → ι → Option σ) (P : σ → ι → Prop) : σ → List ι → Prop
  | _, [] => True
  | s, i :: rest => P s i ∧ ∀ s', step s i = some s' → Along step P s' rest

instance decidableAlong (step : σ → ι → Option σ) (P : σ → ι → Prop) [∀ s i, Decidable (P s i)] :
    (s : σ) → (inputs : List ι) → Decidable (Along step P s inputs)
  | _, [] => isTrue trivial
  | s, i :: rest =>
      match hs : step s i with
      | none => decidable_of_iff (P s i) (by simp [Along, hs])
      | some s' =>
          have := decidableAlong step P s' rest
          decidable_of_iff (P s i ∧ Along step P s' rest) (by simp [Along, hs])

theorem runs_invariant {step : σ → ι → Option σ} {P : σ → ι → Prop} (inv : σ → Prop)
    (keeps : ∀ s i s', inv s → P s i → step s i = some s' → inv s')
    {s t : σ} {inputs : List ι} (init : inv s) (along : Along step P s inputs)
    (h : runs step s inputs = some t) : inv t := by
  induction inputs generalizing s with
  | nil =>
      cases h
      exact init
  | cons i rest ih =>
      obtain ⟨s', hs, hrest⟩ := Option.bind_eq_some_iff.mp h
      exact ih (keeps s i s' init along.1 hs) (along.2 s' hs) hrest

theorem along_of_forall (step : σ → ι → Option σ) {Q : ι → Prop} (s : σ) {inputs : List ι}
    (h : ∀ i ∈ inputs, Q i) : Along step (fun _ i => Q i) s inputs := by
  induction inputs generalizing s with
  | nil => trivial
  | cons i rest ih =>
      obtain ⟨hi, hrest⟩ := List.forall_mem_cons.mp h
      exact ⟨hi, fun s' _ => ih s' hrest⟩

theorem runs_append (step : σ → ι → Option σ) (s : σ) (first second : List ι) :
    runs step s (first ++ second) = (runs step s first).bind fun t => runs step t second := by
  induction first generalizing s with
  | nil => rfl
  | cons i rest ih =>
      simp only [List.cons_append, runs]
      cases step s i with
      | none => rfl
      | some s' => exact ih s'

theorem along_of_runs {step : σ → ι → Option σ} {P : σ → ι → Prop} (inv : σ → Prop)
    (keeps : ∀ s i s', inv s → step s i = some s' → P s i ∧ inv s') {s t : σ} {inputs : List ι}
    (init : inv s) (h : runs step s inputs = some t) : Along step P s inputs := by
  induction inputs generalizing s with
  | nil => trivial
  | cons i rest ih =>
      obtain ⟨s', hs, hrest⟩ := Option.bind_eq_some_iff.mp h
      obtain ⟨hP, hinv⟩ := keeps s i s' init hs
      refine ⟨hP, ?_⟩
      intro s'' hs'
      rw [hs] at hs'
      cases hs'
      exact ih hinv hrest

theorem runs_keeps {step : σ → ι → Option σ} (inv : σ → Prop)
    (keeps : ∀ s i s', inv s → step s i = some s' → inv s') {s t : σ} {inputs : List ι}
    (init : inv s) (h : runs step s inputs = some t) : inv t := by
  have along : Along step (fun _ _ => True) s inputs :=
    along_of_runs inv (fun s i s' hs hst => ⟨trivial, keeps s i s' hs hst⟩) init h
  exact runs_invariant inv (fun s i s' hs _ hst => keeps s i s' hs hst) init along h

def Reached (step : σ → ι → Option σ) (s : σ) (inputs : List ι) (t : σ) : Prop :=
  ∃ done rest, inputs = done ++ rest ∧ runs step s done = some t

theorem reached_start (step : σ → ι → Option σ) (s : σ) (inputs : List ι) :
    Reached step s inputs s :=
  ⟨[], inputs, rfl, rfl⟩

theorem reached_nil {step : σ → ι → Option σ} {s t : σ} (h : Reached step s [] t) : t = s := by
  obtain ⟨done, rest, hsplit, hrun⟩ := h
  obtain ⟨rfl, rfl⟩ := List.append_eq_nil_iff.mp hsplit.symm
  cases hrun
  rfl

theorem reached_cons {step : σ → ι → Option σ} {s s' t : σ} {i : ι} {rest : List ι}
    (hs : step s i = some s') : Reached step s (i :: rest) t ↔ t = s ∨ Reached step s' rest t := by
  constructor
  · rintro ⟨done, more, hsplit, hrun⟩
    cases done with
    | nil =>
        cases hrun
        exact .inl rfl
    | cons j done =>
        obtain ⟨rfl, rfl⟩ := List.cons.inj hsplit
        rw [runs, hs, Option.bind_some] at hrun
        exact .inr ⟨done, more, rfl, hrun⟩
  · rintro (rfl | ⟨done, more, rfl, hrun⟩)
    · exact reached_start step t _
    · refine ⟨i :: done, more, rfl, ?_⟩
      rw [runs, hs, Option.bind_some]
      exact hrun

/-- An invariant that a step keeps exactly when it meets `P` holds in all states of a run
exactly when the whole run meets `P`. -/
theorem forall_reached_iff_along {step : σ → ι → Option σ} {P : σ → ι → Prop} {inv : σ → Prop}
    {s t : σ} {inputs : List ι} (init : inv s) (h : runs step s inputs = some t)
    (keeps : ∀ u i u', inv u → step u i = some u' → Reached step s inputs u' →
      (inv u' ↔ P u i)) :
    (∀ u, Reached step s inputs u → inv u) ↔ Along step P s inputs := by
  induction inputs generalizing s with
  | nil =>
      refine iff_of_true ?_ trivial
      intro u hu
      rw [reached_nil hu]
      exact init
  | cons i rest ih =>
      obtain ⟨s', hs, hrest⟩ := Option.bind_eq_some_iff.mp h
      have hnext := keeps s i s' init hs ((reached_cons hs).mpr (.inr (reached_start step s' rest)))
      have htail : inv s' → ((∀ u, Reached step s' rest u → inv u) ↔ Along step P s' rest) := by
        intro hinv
        refine ih hinv hrest ?_
        intro u j u' hu hstep hreached
        exact keeps u j u' hu hstep ((reached_cons hs).mpr (.inr hreached))
      constructor
      · intro hall
        have hinv := hall s' ((reached_cons hs).mpr (.inr (reached_start step s' rest)))
        refine ⟨hnext.mp hinv, ?_⟩
        intro s'' hs'
        rw [hs] at hs'
        cases hs'
        exact (htail hinv).mp fun u hu => hall u ((reached_cons hs).mpr (.inr hu))
      · rintro ⟨hP, halong⟩ u hu
        rcases (reached_cons hs).mp hu with rfl | hu
        · exact init
        · have hinv := hnext.mpr hP
          exact (htail hinv).mpr (halong s' hs) u hu

end Runs

section Folds

variable {σ : Type u} {ι : Type v} {ρ : Type w} {α : Type x}

theorem foldl_appends (view : σ → List α) {step : σ → ι → σ} (record? : ι → Option ρ)
    (encode : ρ → List α)
    (h : ∀ s i, view (step s i) = view s ++ (record? i).toList.flatMap encode) (s : σ)
    (inputs : List ι) :
    view (inputs.foldl step s) = view s ++ (inputs.filterMap record?).flatMap encode := by
  induction inputs generalizing s with
  | nil => simp
  | cons i rest ih =>
      rw [List.foldl_cons, ih, h, List.append_assoc]
      cases hrecord : record? i with
      | none => simp [List.filterMap_cons_none hrecord]
      | some r => simp [List.filterMap_cons_some hrecord]

end Folds

end MoonGen.Loop

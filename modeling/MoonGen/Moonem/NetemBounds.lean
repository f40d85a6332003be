import MoonGen.Moonem.Common

/-! # Table accesses of the four-state loss model

`netem_drop` computes the index at which it reads `loss_model_parameters` from the
state of the model. The header declares five words there, two for each of the first
two states and one more, while the model has four states. The states stay below
four. Which runs stay inside the declaration is decided by the draws.
-/

namespace MoonGen.Moonem

open Sieve

/-- `uint64_t loss_model_parameters[5]` in `struct moonem_config`. -/
def declaredParameters : Nat := 5

/-- The indices at which `netem_drop` reads the parameters. The second one is read
only by a draw that leaves the state. -/
def netemReads (config : MoonemConfig) (state x : UInt64) : List Nat :=
  let stay := (state * 2 + 0).toNat
  let keepLinkState := (state * 2 + 1).toNat
  if x < config.lossModelParameters stay then [stay] else [stay, keepLinkState]

def netemRunReads (config : MoonemConfig) : LossState → Nat → List Nat
  | _, 0 => []
  | s, n + 1 =>
      netemReads config s.state (wyhash64 s.random).1 ++
        netemRunReads config (netemDrop config s).2 n

/-! ## Runs as lists of draws -/

def netemValues : UInt64 → Nat → List UInt64
  | _, 0 => []
  | random, n + 1 => (wyhash64 random).1 :: netemValues (wyhash64 random).2 n

def readsAlong (config : MoonemConfig) : UInt64 → List UInt64 → List Nat
  | _, [] => []
  | state, x :: rest =>
      netemReads config state x ++ readsAlong config (netemMove config state x).2 rest

theorem netemRunReads_eq (config : MoonemConfig) (s : LossState) (n : Nat) :
    netemRunReads config s n = readsAlong config s.state (netemValues s.random n) := by
  induction n generalizing s with
  | zero => rfl
  | succ n ih =>
      cases h : wyhash64 s.random with
      | mk x random =>
          rw [netemRunReads, ih, netemDrop_of_draw h, netemValues, h, readsAlong]

/-! ## The states stay below four -/

theorem eq_of_lt_four {state : UInt64} (h : state < 4) :
    state = 0 ∨ state = 1 ∨ state = 2 ∨ state = 3 := by
  have hlt : state.toNat < 4 := UInt64.lt_iff_toNat_lt.mp h
  simp only [← UInt64.toNat_inj]
  have hvalues : state.toNat = 0 ∨ state.toNat = 1 ∨ state.toNat = 2 ∨ state.toNat = 3 := by omega
  exact hvalues

theorem netemMove_lt_four (config : MoonemConfig) {state : UInt64} (h : state < 4) (x : UInt64) :
    (netemMove config state x).2 < 4 := by
  have hflip : state ^^^ 3 < 4 ∧ state ^^^ 2 < 4 := by
    rcases eq_of_lt_four h with rfl | rfl | rfl | rfl <;> decide
  simp only [netemMove]
  split
  · exact h
  · split
    · exact hflip.1
    · exact hflip.2

theorem drawn_netemDrop_lt_four (config : MoonemConfig) {s : LossState} (h : s.state < 4)
    (n : Nat) : (drawn (netemDrop config) s n).state < 4 := by
  induction n with
  | zero => exact h
  | succ n ih =>
      rw [drawn_succ]
      generalize drawn (netemDrop config) s n = s' at ih ⊢
      cases h : wyhash64 s'.random with
      | mk x random =>
          rw [netemDrop_of_draw h]
          exact netemMove_lt_four config ih x

/-! ## Runs inside the declaration -/

def Inside (config : MoonemConfig) (state : UInt64) (xs : List UInt64) : Prop :=
  ∀ i ∈ readsAlong config state xs, i < declaredParameters

theorem inside_cons (config : MoonemConfig) (state x : UInt64) (rest : List UInt64) :
    Inside config state (x :: rest) ↔
      (∀ i ∈ netemReads config state x, i < declaredParameters) ∧
        Inside config (netemMove config state x).2 rest := by
  simp only [Inside, readsAlong, List.forall_mem_append]

/-- In q4 (state 3) every access lies behind the declared array. -/
theorem inside_q4 (config : MoonemConfig) (xs : List UInt64) : Inside config 3 xs ↔ xs = [] := by
  cases xs with
  | nil => simp [Inside, readsAlong]
  | cons x rest =>
      have hread : (3 * 2 + 0 : UInt64).toNat ∈ netemReads config 3 x := by
        simp only [netemReads]
        split <;> exact List.mem_cons_self
      have houtside : ¬ Inside config 3 (x :: rest) := by
        rw [inside_cons]
        intro hinside
        exact absurd (hinside.1 _ hread) (by decide)
      simp [houtside]

/-- In q3 (state 2) only the first of the two words is declared. -/
theorem inside_q3 (config : MoonemConfig) (xs : List UInt64) :
    Inside config 2 xs ↔ ∀ y ∈ xs, y < config.lossModelParameters 4 := by
  have hindex : (2 * 2 + 0 : UInt64).toNat = 4 ∧ (2 * 2 + 1 : UInt64).toNat = 5 := by decide
  induction xs with
  | nil => simp [Inside, readsAlong]
  | cons y rest ih =>
      rw [inside_cons, List.forall_mem_cons]
      simp only [netemReads, netemMove, hindex.1, hindex.2]
      by_cases hstay : y < config.lossModelParameters 4
      · simp [hstay, ih, declaredParameters]
      · simp [hstay, declaredParameters]

/-- The first draw that leaves q1 is the last one of the run, or it leads to q3 and
every later draw stays there. -/
def LeavesInside (config : MoonemConfig) (xs : List UInt64) : Prop :=
  ∀ before x later, xs = before ++ x :: later →
    (∀ y ∈ before, y < config.lossModelParameters 0) → config.lossModelParameters 0 ≤ x →
      later = [] ∨
        (config.lossModelParameters 0 + config.lossModelParameters 1 ≤ x ∧
          ∀ y ∈ later, y < config.lossModelParameters 4)

theorem leavesInside_nil (config : MoonemConfig) : LeavesInside config [] := by
  intro before x later hsplit
  simp at hsplit

theorem leavesInside_cons_stay {config : MoonemConfig} {x : UInt64}
    (hstay : x < config.lossModelParameters 0) (rest : List UInt64) :
    LeavesInside config (x :: rest) ↔ LeavesInside config rest := by
  constructor
  · intro h before y later hsplit hbefore hleave
    apply h (x :: before) y later
    · rw [hsplit, List.cons_append]
    · exact List.forall_mem_cons.mpr ⟨hstay, hbefore⟩
    · exact hleave
  · intro h before y later hsplit hbefore hleave
    cases before with
    | nil =>
        have hhead : x = y := (List.cons.inj hsplit).1
        exact absurd (hhead ▸ hstay) (UInt64.not_lt.mpr hleave)
    | cons z before =>
        have htail := (List.cons.inj hsplit).2
        exact h before y later htail (List.forall_mem_cons.mp hbefore).2 hleave

theorem leavesInside_cons_leave {config : MoonemConfig} {x : UInt64}
    (hleave : ¬ x < config.lossModelParameters 0) (rest : List UInt64) :
    LeavesInside config (x :: rest) ↔
      rest = [] ∨
        (config.lossModelParameters 0 + config.lossModelParameters 1 ≤ x ∧
          ∀ y ∈ rest, y < config.lossModelParameters 4) := by
  constructor
  · intro h
    exact h [] x rest rfl (by simp) (UInt64.not_lt.mp hleave)
  · intro h before y later hsplit hbefore _
    cases before with
    | nil =>
        have heq := List.cons.inj hsplit
        rw [← heq.1, ← heq.2]
        exact h
    | cons z before =>
        have hhead : x = z := (List.cons.inj hsplit).1
        exact absurd (hhead ▸ (List.forall_mem_cons.mp hbefore).1) hleave

theorem inside_q1 (config : MoonemConfig) (xs : List UInt64) :
    Inside config 0 xs ↔ LeavesInside config xs := by
  have hindex : (0 * 2 + 0 : UInt64).toNat = 0 ∧ (0 * 2 + 1 : UInt64).toNat = 1 := by decide
  have hflip : (0 : UInt64) ^^^ 3 = 3 ∧ (0 : UInt64) ^^^ 2 = 2 := by decide
  induction xs with
  | nil => simp [Inside, readsAlong, leavesInside_nil]
  | cons x rest ih =>
      rw [inside_cons]
      simp only [netemReads, netemMove, hindex.1, hindex.2]
      by_cases hstay : x < config.lossModelParameters 0
      · rw [leavesInside_cons_stay hstay]
        simp [hstay, ih, declaredParameters]
      · rw [leavesInside_cons_leave hstay]
        by_cases hkeep : x < config.lossModelParameters 0 + config.lossModelParameters 1
        · have hnot := UInt64.not_le.mpr hkeep
          simp [hstay, hkeep, hnot, hflip.1, inside_q4, declaredParameters]
        · have hmove := UInt64.not_lt.mp hkeep
          have hreads : ∀ i ∈ [0, 1], i < declaredParameters := by decide
          have hempty : rest = [] → ∀ y ∈ rest, y < config.lossModelParameters 4 := by
            intro h
            simp [h]
          simp only [hstay, hkeep, if_false, hflip.2, inside_q3, hmove, true_and]
          constructor
          · intro h
            exact .inr h.2
          · intro h
            exact ⟨hreads, h.elim hempty id⟩

/-- Over any run from the initial state, the state stays below four, and the accesses
stay inside the declared array exactly when the first draw that leaves q1 is the last
one, or leads to q3 with every later draw staying there. -/
theorem netem_accesses_inside_iff (config : MoonemConfig) (seed : UInt64) (n : Nat) :
    (∀ k ≤ n, (drawn (netemDrop config) ⟨seed, 0⟩ k).state < 4) ∧
      ((∀ i ∈ netemRunReads config ⟨seed, 0⟩ n, i < declaredParameters) ↔
        LeavesInside config (netemValues seed n)) := by
  constructor
  · intro k _
    exact drawn_netemDrop_lt_four config (by decide : (0 : UInt64) < 4) k
  · rw [netemRunReads_eq]
    exact inside_q1 config (netemValues seed n)

def neverStay : MoonemConfig := ⟨0, 0, 32768, 1, .netem, 0, fun _ => 0⟩

/-- The first packet moves to q3, and the second reads the word behind the array. -/
theorem netem_reads_outside :
    ¬ ∀ i ∈ netemRunReads neverStay ⟨neverStay.lossSeed, 0⟩ 2, i < declaredParameters := by
  have hlong (random : UInt64) : ∃ x y, netemValues random 2 = [x, y] := ⟨_, _, rfl⟩
  have hvalues := hlong neverStay.lossSeed
  rcases hvalues with ⟨x, y, hvalues⟩
  rw [netemRunReads_eq, hvalues]
  intro hinside
  have hleaves := (inside_q1 neverStay [x, y]).mp hinside
  have hfirst : ¬ x < neverStay.lossModelParameters 0 := UInt64.not_lt_zero
  rw [leavesInside_cons_leave hfirst] at hleaves
  simp [neverStay] at hleaves

end MoonGen.Moonem

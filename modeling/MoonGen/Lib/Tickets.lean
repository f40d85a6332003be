/-! # Tickets

Every key has a counter. A draw takes the value of the key's counter and raises
it, so that a pass over a list of keys hands each key consecutive tickets, as many
as the list names it.
-/

namespace MoonGen.Tickets

variable {κ : Type u} [DecidableEq κ]

def bump (counter : κ → Nat) (k : κ) : κ → Nat := fun j => if j = k then counter j + 1 else counter j

/-- Each key takes the value of its counter and raises it. -/
def draw (counter : κ → Nat) : List κ → List (κ × Nat)
  | [] => []
  | k :: rest => (k, counter k) :: draw (bump counter k) rest

def drawnFor (k : κ) (tickets : List (κ × Nat)) : List Nat :=
  (tickets.filter fun t => t.1 = k).map Prod.snd

/-- A key draws consecutive tickets, as many as the pass names it. -/
theorem drawnFor_draw (counter : κ → Nat) (keys : List κ) (k : κ) :
    drawnFor k (draw counter keys) = List.range' (counter k) (keys.count k) := by
  induction keys generalizing counter with
  | nil => rfl
  | cons first rest ih =>
      have hrest := ih (bump counter first)
      unfold drawnFor at hrest ⊢
      rw [draw, List.filter_cons, List.count_cons]
      by_cases h : first = k
      · subst h
        simp only [decide_true, if_true, List.map_cons, hrest, bump, beq_self_eq_true,
          List.range'_succ]
      · have hne : (first == k) = false := by simpa using h
        simp only [h, decide_false, Bool.false_eq_true, if_false, hrest, bump, Ne.symm h, hne,
          Nat.add_zero]

end MoonGen.Tickets

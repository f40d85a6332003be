/-! # Bounded FIFO rings

A ring holds at most `capacity` items. A bulk enqueue takes all items or, when
there is not enough room, none. A burst dequeue takes a prefix.
-/

namespace MoonGen

structure Ring (α : Type u) where
  contents : List α
  capacity : Nat
  bounded : contents.length ≤ capacity

namespace Ring

variable {α : Type u}

def empty (capacity : Nat) : Ring α := ⟨[], capacity, Nat.zero_le _⟩

def free (r : Ring α) : Nat := r.capacity - r.contents.length

def enqueueBulk (r : Ring α) (items : List α) : Ring α :=
  if h : (r.contents ++ items).length ≤ r.capacity then ⟨r.contents ++ items, r.capacity, h⟩ else r

def dequeued (r : Ring α) (n : Nat) : Ring α :=
  ⟨r.contents.drop n, r.capacity, Nat.le_trans (by simp) r.bounded⟩

theorem enqueueBulk_of_room {r : Ring α} {items : List α} (h : items.length ≤ r.free) :
    (r.enqueueBulk items).contents = r.contents ++ items := by
  have hb := r.bounded
  have hroom : (r.contents ++ items).length ≤ r.capacity := by
    simp only [free, List.length_append] at h ⊢
    omega
  rw [enqueueBulk, dif_pos hroom]

theorem enqueueBulk_of_full {r : Ring α} {items : List α} (h : ¬ items.length ≤ r.free) :
    r.enqueueBulk items = r := by
  have hfull : ¬ (r.contents ++ items).length ≤ r.capacity := by
    simp only [free, List.length_append] at h ⊢
    omega
  rw [enqueueBulk, dif_neg hfull]

@[simp] theorem dequeued_contents (r : Ring α) (n : Nat) :
    (r.dequeued n).contents = r.contents.drop n := rfl

end Ring

end MoonGen

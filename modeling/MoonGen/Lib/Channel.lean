import Mathlib.Data.List.Count

/-! # A channel that loses and reorders

A message is underway, or has arrived and waits to be fetched, or is lost. Messages are not
copied, so what was sent is what was fetched and what the channel still has.
-/

namespace MoonGen

structure Channel (α : Type) where
  flying : List α
  queue : List α
  lost : List α
deriving Repr, DecidableEq

namespace Channel

variable {α : Type}

def empty : Channel α := ⟨[], [], []⟩

def send (c : Channel α) (messages : List α) : Channel α :=
  { c with flying := c.flying ++ messages }

def deliver (c : Channel α) (k : Nat) : Option (Channel α) :=
  c.flying[k]?.map fun m => { c with flying := c.flying.eraseIdx k, queue := c.queue ++ [m] }

def lose (c : Channel α) (k : Nat) : Option (Channel α) :=
  c.flying[k]?.map fun m => { c with flying := c.flying.eraseIdx k, lost := c.lost ++ [m] }

def fetch (c : Channel α) (n : Nat) : List α × Channel α :=
  (c.queue.take n, { c with queue := c.queue.drop n })

variable [DecidableEq α]

def total (c : Channel α) (m : α) : Nat := c.flying.count m + c.queue.count m + c.lost.count m

@[simp] theorem total_empty (m : α) : (empty : Channel α).total m = 0 := rfl

theorem total_send (c : Channel α) (messages : List α) (m : α) :
    (c.send messages).total m = c.total m + messages.count m := by
  simp only [total, send, List.count_append]
  omega

theorem count_eraseIdx {l : List α} {k : Nat} {x : α} (h : l[k]? = some x) (m : α) :
    (l.eraseIdx k).count m + [x].count m = l.count m := by
  obtain ⟨hk, hget⟩ := List.getElem?_eq_some_iff.mp h
  have hsplit : l = l.take k ++ x :: l.drop (k + 1) := by
    rw [← hget, List.getElem_cons_drop, List.take_append_drop]
  rw [List.eraseIdx_eq_take_drop_succ, List.count_append]
  conv_rhs => rw [hsplit, List.count_append, List.count_cons]
  rw [List.count_singleton]
  omega

theorem total_deliver {c c' : Channel α} {k : Nat} (h : c.deliver k = some c') (m : α) :
    c'.total m = c.total m := by
  obtain ⟨x, hx, rfl⟩ := Option.map_eq_some_iff.mp h
  have hcount := count_eraseIdx hx m
  simp only [total, List.count_append]
  omega

theorem total_lose {c c' : Channel α} {k : Nat} (h : c.lose k = some c') (m : α) :
    c'.total m = c.total m := by
  obtain ⟨x, hx, rfl⟩ := Option.map_eq_some_iff.mp h
  have hcount := count_eraseIdx hx m
  simp only [total, List.count_append]
  omega

theorem total_fetch (c : Channel α) (n : Nat) (m : α) :
    (c.fetch n).2.total m + (c.fetch n).1.count m = c.total m := by
  have hqueue : (c.queue.take n).count m + (c.queue.drop n).count m = c.queue.count m := by
    rw [← List.count_append, List.take_append_drop]
  simp only [total, fetch]
  omega

end Channel

end MoonGen

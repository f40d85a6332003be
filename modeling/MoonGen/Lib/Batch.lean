/-! # Fixed-size batch buffers

A batch collects items in an array of `size` slots and hands the filled slots
over when the array is full or when its owner asks for it. `overrun` records a
store past the last slot. Nothing here depends on what the items are or where
they go.
-/

namespace MoonGen

structure Batch (α : Type u) where
  slots : List α
  handed : List (List α)
  overrun : Bool
deriving Repr, DecidableEq

namespace Batch

variable {α : Type u} {size : Nat}

def empty : Batch α := ⟨[], [], false⟩

def put (size : Nat) (b : Batch α) (item : α) : Batch α :=
  { b with
    slots := b.slots ++ [item]
    overrun := b.overrun || decide (size ≤ b.slots.length) }

def flush (b : Batch α) : Batch α :=
  { b with slots := [], handed := b.handed ++ [b.slots] }

def emit (size : Nat) (b : Batch α) (item : α) : Batch α :=
  let b := b.put size item
  if size ≤ b.slots.length then b.flush else b

def emitAll (size : Nat) (b : Batch α) (items : List α) : Batch α :=
  items.foldl (emit size) b

/-- A hand-over that skips an empty array. -/
def flushRest (b : Batch α) : Batch α := if b.slots = [] then b else b.flush

def contents (b : Batch α) : List α := b.handed.flatten ++ b.slots

@[simp] theorem contents_empty : (empty : Batch α).contents = [] := rfl

@[simp] theorem contents_put (b : Batch α) (item : α) :
    (b.put size item).contents = b.contents ++ [item] := by
  simp [contents, put]

@[simp] theorem contents_flush (b : Batch α) : b.flush.contents = b.contents := by
  simp [contents, flush]

@[simp] theorem contents_emit (b : Batch α) (item : α) :
    (b.emit size item).contents = b.contents ++ [item] := by
  unfold emit
  dsimp only
  split <;> simp

@[simp] theorem contents_emitAll (b : Batch α) (items : List α) :
    (b.emitAll size items).contents = b.contents ++ items := by
  induction items generalizing b with
  | nil => simp [emitAll]
  | cons item items ih =>
      change (emitAll size (b.emit size item) items).contents = _
      rw [ih, contents_emit]
      simp

@[simp] theorem contents_flushRest (b : Batch α) : b.flushRest.contents = b.contents := by
  unfold flushRest
  split <;> simp

@[simp] theorem slots_flushRest (b : Batch α) : b.flushRest.slots = [] := by
  unfold flushRest
  split
  · assumption
  · rfl

@[simp] theorem overrun_flushRest (b : Batch α) : b.flushRest.overrun = b.overrun := by
  unfold flushRest
  split <;> rfl

/-- A forced hand-over after a store is a store followed by handing over the rest. -/
theorem flush_put_eq_flushRest_emit (b : Batch α) (item : α) :
    (b.put size item).flush = (b.emit size item).flushRest := by
  unfold emit
  dsimp only
  split
  · exact (if_pos (show (b.put size item).flush.slots = [] from rfl)).symm
  · rw [flushRest, if_neg (by simp [put])]

/-- Between two stores: room for one more, no store out of range, and only full
arrays handed over so far. -/
structure Ready (size : Nat) (b : Batch α) : Prop where
  room : b.slots.length < size
  inRange : b.overrun = false
  full : ∀ burst ∈ b.handed, burst.length = size

theorem ready_empty (hsize : 0 < size) : Ready size (empty : Batch α) :=
  ⟨hsize, rfl, by simp [empty]⟩

theorem Ready.emit {b : Batch α} (h : Ready size b) (item : α) : Ready size (b.emit size item) := by
  have hroom := h.room
  have hrange : (b.put size item).overrun = false := by
    simp [put, h.inRange, Nat.not_le.mpr hroom]
  unfold Batch.emit
  dsimp only
  split
  next hfull =>
    refine ⟨by simp only [flush, List.length_nil]; omega, hrange, ?_⟩
    intro burst hmem
    rcases List.mem_append.mp hmem with hold | hnew
    · exact h.full burst hold
    · rw [List.mem_singleton.mp hnew]
      simp only [put, List.length_append, List.length_singleton] at hfull ⊢
      omega
  next hpart => exact ⟨Nat.lt_of_not_le hpart, hrange, h.full⟩

theorem Ready.emitAll {b : Batch α} (h : Ready size b) (items : List α) :
    Ready size (b.emitAll size items) := by
  induction items generalizing b with
  | nil => exact h
  | cons item items ih => exact ih (h.emit item)

theorem Ready.slots_eq_nil_iff {b : Batch α} (h : Ready size b) :
    b.slots = [] ↔ size ∣ b.contents.length := by
  have hfull : b.handed.flatten.length = size * b.handed.length := by
    have hmap : b.handed.map List.length = b.handed.map (fun _ => size) :=
      List.map_congr_left h.full
    rw [List.length_flatten, hmap, List.map_const', List.sum_replicate_nat, Nat.mul_comm]
  have hroom := h.room
  rw [contents, List.length_append, hfull, Nat.dvd_add_right (Nat.dvd_mul_right _ _)]
  constructor
  · intro hnil
    simp [hnil]
  · intro hdvd
    exact List.eq_nil_of_length_eq_zero (Nat.eq_zero_of_dvd_of_lt hdvd hroom)

end Batch

end MoonGen

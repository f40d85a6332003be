/-! # Files written through a mapping

A writer maps a file that is larger than what it has written, stores its chunks one
behind the other, lets the file grow when the mapping gets too small, and cuts the rest
off at the end. Whatever the rule for growing is, the closed file holds the chunks in
the order in which they were stored.
-/

namespace MoonGen

variable {α : Type u}

structure MappedFile (α : Type u) where
  content : List α
  offset : Nat
  inside : offset ≤ content.length

namespace MappedFile

def create (fill : α) (size : Nat) : MappedFile α where
  content := List.replicate size fill
  offset := 0
  inside := Nat.zero_le _

/-- The file at a larger size; a file that has the size already stays as it is. -/
def grow (fill : α) (size : Nat) (f : MappedFile α) : MappedFile α where
  content := f.content ++ List.replicate (size - f.content.length) fill
  offset := f.offset
  inside := by
    rw [List.length_append]
    exact Nat.le_add_right_of_le f.inside

/-- A chunk stored at the offset, which moves to a position that is not behind the chunk.
Where the chunk does not fit the file gets longer. -/
def putTo (chunk : List α) (f : MappedFile α) (position : Nat)
    (hposition : position ≤ f.offset + chunk.length) : MappedFile α where
  content := f.content.take f.offset ++ chunk ++ f.content.drop (f.offset + chunk.length)
  offset := position
  inside := by
    have hinside := f.inside
    simp only [List.length_append, List.length_take]
    omega

def put (chunk : List α) (f : MappedFile α) : MappedFile α :=
  f.putTo chunk (f.offset + chunk.length) (Nat.le_refl _)

/-- What is left of the file when it is cut off behind the last chunk. -/
def close (f : MappedFile α) : List α := f.content.take f.offset

@[simp] theorem grow_offset (fill : α) (size : Nat) (f : MappedFile α) :
    (f.grow fill size).offset = f.offset := rfl

@[simp] theorem put_offset (chunk : List α) (f : MappedFile α) :
    (f.put chunk).offset = f.offset + chunk.length := rfl

theorem length_create (fill : α) (size : Nat) : (create fill size).content.length = size :=
  List.length_replicate

theorem length_grow {fill : α} {size : Nat} {f : MappedFile α} (h : f.content.length ≤ size) :
    (f.grow fill size).content.length = size := by
  simp only [grow, List.length_append, List.length_replicate]
  omega

theorem length_put {chunk : List α} {f : MappedFile α}
    (h : f.offset + chunk.length ≤ f.content.length) :
    (f.put chunk).content.length = f.content.length := by
  have hinside := f.inside
  simp only [put, putTo, List.length_append, List.length_take, List.length_drop]
  omega

@[simp] theorem close_create (fill : α) (size : Nat) : (create fill size).close = [] := rfl

@[simp] theorem close_grow (fill : α) (size : Nat) (f : MappedFile α) :
    (f.grow fill size).close = f.close :=
  List.take_append_of_le_length f.inside

/-- Of a chunk, the closed file holds the part that the offset moved over. -/
theorem close_putTo {chunk : List α} {part position : Nat} {f : MappedFile α}
    (hpart : part ≤ chunk.length) (heq : position = f.offset + part)
    (hposition : position ≤ f.offset + chunk.length) :
    (f.putTo chunk position hposition).close = f.close ++ chunk.take part := by
  subst heq
  have hlength : (f.content.take f.offset).length = f.offset := List.length_take_of_le f.inside
  simp only [close, putTo, List.append_assoc]
  rw [List.take_append, hlength, Nat.add_sub_cancel_left, List.take_take,
    Nat.min_eq_right (Nat.le_add_right _ _), List.take_append_of_le_length hpart]

@[simp] theorem close_put (chunk : List α) (f : MappedFile α) :
    (f.put chunk).close = f.close ++ chunk := by
  rw [put, close_putTo (Nat.le_refl _) rfl, List.take_length]

end MappedFile

end MoonGen

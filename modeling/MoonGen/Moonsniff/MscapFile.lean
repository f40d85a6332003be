import MoonGen.Lib.MappedFile
import MoonGen.Moonsniff.Capture

/-! # Writing and reading back mscap files

The embedding of the writer in `moonsniff-io.lua`. It maps the file at a size of its
own choice, doubles it when a record would not fit, and cuts the file off at its offset
on `close`. What a closed file holds does not depend on the sizes.
-/

namespace MoonGen.Moonsniff

open Loop

/-! ## The writer -/

/-- `size` is the length of the mapping. -/
structure Writer where
  file : MappedFile UInt8
  size : Nat

namespace Writer

/-- `newWriter`: the file is truncated to nothing and then allocated. -/
def new (initialFileSize : Nat) : Writer := ⟨.create 0 initialFileSize, initialFileSize⟩

def resize (size : Nat) (w : Writer) : Writer := ⟨w.file.grow 0 size, size⟩

def makeRoom (w : Writer) : Writer :=
  if w.file.offset + mscapSize ≥ w.size then w.resize (w.size * 2) else w

def write (w : Writer) (r : Mscap) : Writer :=
  { w.makeRoom with file := w.makeRoom.file.put (writeMscap r) }

def writeAll (w : Writer) (rs : List Mscap) : Writer := rs.foldl write w

/-- `close`, which truncates the file to the offset. -/
def close (w : Writer) : List UInt8 := w.file.close

/-- The mapping covers the file, and it is not used up. -/
structure Ready (w : Writer) : Prop where
  mapped : w.file.content.length = w.size
  large : mscapSize ≤ w.size
  unused : w.file.offset < w.size

theorem new_ready {initialFileSize : Nat} (h : mscapSize ≤ initialFileSize) :
    (new initialFileSize).Ready where
  mapped := MappedFile.length_create 0 initialFileSize
  large := h
  unused := Nat.lt_of_lt_of_le (show 0 < mscapSize by decide) h

def HasRoom (w : Writer) : Prop := w.file.offset + mscapSize ≤ w.size

/-- One doubling is enough, since the offset is inside the mapping. -/
theorem Ready.makeRoom {w : Writer} (h : w.Ready) :
    w.makeRoom.HasRoom ∧ w.makeRoom.file.content.length = w.makeRoom.size ∧
      w.file.offset + mscapSize < w.makeRoom.size := by
  have hmapped := h.mapped
  have hlarge := h.large
  have hunused := h.unused
  unfold Writer.makeRoom
  split
  next hfull =>
    have hlength : (w.file.grow 0 (w.size * 2)).content.length = w.size * 2 :=
      MappedFile.length_grow (by omega)
    refine ⟨?_, hlength, ?_⟩
    · simp only [HasRoom, resize, MappedFile.grow_offset]
      omega
    · simp only [resize]
      omega
  next hfree =>
    refine ⟨?_, hmapped, ?_⟩
    · unfold HasRoom
      omega
    · omega

@[simp] theorem makeRoom_offset (w : Writer) : w.makeRoom.file.offset = w.file.offset := by
  unfold Writer.makeRoom
  split
  · rfl
  · rfl

@[simp] theorem makeRoom_close (w : Writer) : w.makeRoom.close = w.close := by
  unfold Writer.makeRoom
  split
  · exact MappedFile.close_grow 0 _ w.file
  · rfl

theorem Ready.write {w : Writer} (h : w.Ready) (r : Mscap) : (w.write r).Ready := by
  obtain ⟨hroom, hmapped, hunused⟩ := h.makeRoom
  refine ⟨?_, ?_, ?_⟩
  · refine (MappedFile.length_put ?_).trans hmapped
    rw [writeMscap_length, hmapped]
    exact hroom
  · exact Nat.le_trans (Nat.le_add_left _ _) hunused.le
  · simp only [Writer.write, MappedFile.put_offset, makeRoom_offset, writeMscap_length]
    exact hunused

theorem Ready.writeAll {w : Writer} (h : w.Ready) (rs : List Mscap) : (w.writeAll rs).Ready := by
  induction rs generalizing w with
  | nil => exact h
  | cons r rest ih => exact ih (h.write r)

theorem close_writeAll (w : Writer) (rs : List Mscap) :
    (w.writeAll rs).close = w.close ++ rs.flatMap writeMscap := by
  have hone (w : Writer) (r : Mscap) : (w.write r).close = w.close ++ [r].flatMap writeMscap := by
    rw [← makeRoom_close w, List.flatMap_singleton]
    exact MappedFile.close_put (writeMscap r) w.makeRoom.file
  have hall := foldl_appends Writer.close some writeMscap hone w rs
  rw [List.filterMap_some] at hall
  exact hall

def WritesInside (w : Writer) (rs : List Mscap) : Prop :=
  ∀ before r after, rs = before ++ r :: after → (w.writeAll before).makeRoom.HasRoom

end Writer

/-! ## Reading back -/

/-- `readSingle` until it gives nil. -/
def Reader.readAll : Nat → Reader → Option (List Mscap)
  | 0, _ => none
  | fuel + 1, r =>
      match r.readSingle with
      | (none, _) => some []
      | (some m, r) => (readAll fuel r).map (m :: ·)

/-- Every loop that ends has read the remaining records, and a loop with a round for each
of them ends. -/
theorem Reader.readAll_eq {fuel : Nat} {r : Reader} (h : r.remaining.length < fuel) :
    r.readAll fuel = some r.remaining := by
  induction fuel generalizing r with
  | zero => exact absurd h (Nat.not_lt_zero _)
  | succ fuel ih =>
      cases hrest : r.remaining with
      | nil => simp only [readAll, readSingle_nil hrest]
      | cons m rest =>
          obtain ⟨hm, hnext⟩ := readSingle_cons hrest
          rw [hrest, List.length_cons] at h
          have hread : r.readSingle.2.readAll fuel = some rest := by
            rw [← hnext]
            apply ih
            rw [hnext]
            exact Nat.lt_of_succ_lt_succ h
          have hpair : r.readSingle = (some m, r.readSingle.2) := Prod.ext hm rfl
          rw [readAll, hpair]
          simp only [hread, Option.map_some]

def readBack (fuel : Nat) (file : List UInt8) : Option (List Mscap) :=
  (newReader file).bind (Reader.readAll fuel)

/-- A file of records reads back as these records, unless it is empty: then it cannot be
mapped. -/
theorem readBack_iff (rs : List Mscap) :
    (∃ fuel, readBack fuel (rs.flatMap writeMscap) = some rs) ↔ rs ≠ [] := by
  cases rs with
  | nil => simp [readBack, newReader]
  | cons r rest =>
      have hne : (r :: rest).flatMap writeMscap ≠ [] := by
        intro hnil
        have hlength := congrArg List.length hnil
        rw [List.flatMap_cons, List.length_append, writeMscap_length] at hlength
        simp [mscapSize] at hlength
      have hremaining : (Reader.mk ((r :: rest).flatMap writeMscap) 0).remaining = r :: rest :=
        records_write (r :: rest)
      have hread := Reader.readAll_eq (r := ⟨(r :: rest).flatMap writeMscap, 0⟩)
        (Nat.lt_succ_self _)
      rw [hremaining] at hread
      refine iff_of_true ⟨(r :: rest).length.succ, ?_⟩ (List.cons_ne_nil _ _)
      rw [readBack, newReader, if_neg hne, Option.bind_some]
      exact hread

/-- The writer stays inside its mapping, and what it or the logger has written reads back
exactly when it is not empty. -/
theorem mscap_reads_back_iff (initialFileSize : Nat) (h : 12 ≤ initialFileSize) :
    (∀ rs, (Writer.new initialFileSize).WritesInside rs) ∧
    (∀ rs, (∃ fuel, readBack fuel ((Writer.new initialFileSize).writeAll rs).close = some rs) ↔
      rs ≠ []) ∧
    (∀ embedded seqnumOffset bursts,
      (∃ fuel, readBack fuel (msLogPkts embedded seqnumOffset [] bursts).file =
        some (msRecords embedded seqnumOffset bursts)) ↔
      msRecords embedded seqnumOffset bursts ≠ []) := by
  refine ⟨?_, ?_, ?_⟩
  · intro rs before r after _
    exact ((Writer.new_ready h).writeAll before).makeRoom.1
  · intro rs
    have hclose : ((Writer.new initialFileSize).writeAll rs).close = rs.flatMap writeMscap :=
      Writer.close_writeAll (Writer.new initialFileSize) rs
    rw [hclose]
    exact readBack_iff rs
  · intro embedded seqnumOffset bursts
    rw [msLogPkts_file, List.nil_append]
    exact readBack_iff _

theorem mscap_reads_back_smallest_file :
    12 ≤ 12 ∧ ∃ fuel, readBack fuel ((Writer.new 12).writeAll
        [⟨1000, 7⟩, ⟨9223372036854775808, 4294967295⟩]).close =
      some [⟨1000, 7⟩, ⟨9223372036854775808, 4294967295⟩] :=
  ⟨Nat.le_refl 12, ((mscap_reads_back_iff 12 (Nat.le_refl 12)).2.1 _).mpr (List.cons_ne_nil _ _)⟩

/-- A writer that is closed without a record leaves a file that the reader cannot map. -/
theorem empty_mscap_not_readable :
    ¬ ∃ fuel, readBack fuel ((Writer.new (512 * 1024 * 1024)).writeAll []).close = some [] := by
  rintro ⟨fuel, hread⟩
  have hnone : readBack fuel ((Writer.new (512 * 1024 * 1024)).writeAll []).close = none := rfl
  rw [hnone] at hread
  cases hread

end MoonGen.Moonsniff

import Mathlib.Algebra.Order.Ring.Nat

/-! # The mscap file format

The embedding of the reader and the writer in `moonsniff-io.lua`. A file is a
sequence of records of twelve bytes, a 64-bit timestamp and a 32-bit
identification, both little-endian. The reader keeps an offset into the mapped
file and gives a record as long as twelve bytes are left.
-/

namespace MoonGen.Moonsniff

structure Mscap where
  timestamp : UInt64
  identification : UInt32
deriving Repr, DecidableEq

def mscapSize : Nat := 12

/-! ## Little-endian words -/

def ofBytes : List UInt8 → Nat
  | [] => 0
  | b :: rest => b.toNat + 256 * ofBytes rest

def toBytes : Nat → Nat → List UInt8
  | 0, _ => []
  | width + 1, n => UInt8.ofNat n :: toBytes width (n / 256)

@[simp] theorem toBytes_length (width n : Nat) : (toBytes width n).length = width := by
  induction width generalizing n with
  | zero => rfl
  | succ width ih => simp [toBytes, ih]

theorem ofBytes_toBytes {width n : Nat} (h : n < 256 ^ width) :
    ofBytes (toBytes width n) = n := by
  induction width generalizing n with
  | zero =>
      rw [Nat.pow_zero] at h
      simp only [toBytes, ofBytes]
      omega
  | succ width ih =>
      have hdiv : n / 256 < 256 ^ width := by
        rw [Nat.pow_succ] at h
        exact Nat.div_lt_of_lt_mul (by omega)
      have hbyte : (UInt8.ofNat n).toNat = n % 256 := UInt8.toNat_ofNat'
      simp only [toBytes, ofBytes, ih hdiv, hbyte]
      omega

/-! ## Records -/

/-- The record at the start of some bytes, as the cast to `struct mscap*` reads it. -/
def castMscap (bytes : List UInt8) : Mscap :=
  ⟨UInt64.ofNat (ofBytes (bytes.take 8)), UInt32.ofNat (ofBytes ((bytes.drop 8).take 4))⟩

def writeMscap (r : Mscap) : List UInt8 :=
  toBytes 8 r.timestamp.toNat ++ toBytes 4 r.identification.toNat

@[simp] theorem writeMscap_length (r : Mscap) : (writeMscap r).length = mscapSize := by
  simp [writeMscap, mscapSize]

theorem castMscap_writeMscap (r : Mscap) (rest : List UInt8) :
    castMscap (writeMscap r ++ rest) = r := by
  have htake : (writeMscap r ++ rest).take 8 = toBytes 8 r.timestamp.toNat := by
    rw [writeMscap, List.append_assoc, List.take_left' (toBytes_length 8 _)]
  have hdrop : (writeMscap r ++ rest).drop 8 = toBytes 4 r.identification.toNat ++ rest := by
    rw [writeMscap, List.append_assoc, List.drop_left' (toBytes_length 8 _)]
  have htimestamp : ofBytes (toBytes 8 r.timestamp.toNat) = r.timestamp.toNat :=
    ofBytes_toBytes r.timestamp.toNat_lt
  have hident : ofBytes (toBytes 4 r.identification.toNat) = r.identification.toNat :=
    ofBytes_toBytes r.identification.toNat_lt
  rw [castMscap, htake, hdrop, List.take_left' (toBytes_length 4 _), htimestamp, hident]
  simp

/-- The records of a file; a rest of fewer than twelve bytes is not one. -/
def records (bytes : List UInt8) : List Mscap :=
  (List.range (bytes.length / mscapSize)).map fun k => castMscap (bytes.drop (mscapSize * k))

theorem records_of_short {bytes : List UInt8} (h : bytes.length < mscapSize) :
    records bytes = [] := by
  simp [records, Nat.div_eq_of_lt h]

theorem records_of_long {bytes : List UInt8} (h : mscapSize ≤ bytes.length) :
    records bytes = castMscap bytes :: records (bytes.drop mscapSize) := by
  have hcount : bytes.length / mscapSize = (bytes.length - mscapSize) / mscapSize + 1 :=
    Nat.div_eq_sub_div (by decide) h
  simp only [records, List.length_drop, hcount, List.range_succ_eq_map, List.map_cons, List.map_map,
    Nat.mul_zero, List.drop_zero, List.cons.injEq, true_and]
  apply List.map_congr_left
  intro k _
  simp only [Function.comp_apply, List.drop_drop]
  congr 2
  rw [Nat.mul_succ, Nat.add_comm]

theorem records_write (rs : List Mscap) : records (rs.flatMap writeMscap) = rs := by
  induction rs with
  | nil => rfl
  | cons r rest ih =>
      have hlong : mscapSize ≤ (writeMscap r ++ rest.flatMap writeMscap).length := by
        rw [List.length_append, writeMscap_length]
        omega
      rw [List.flatMap_cons, records_of_long hlong, castMscap_writeMscap,
        List.drop_left' (writeMscap_length r), ih]

/-! ## The reader -/

structure Reader where
  bytes : List UInt8
  offset : Nat

/-- `newReader` maps the file; mapping an empty file fails. -/
def newReader (file : List UInt8) : Option Reader :=
  if file = [] then none else some ⟨file, 0⟩

def Reader.readSingle (r : Reader) : Option Mscap × Reader :=
  let fileRemaining := r.bytes.length - r.offset
  if fileRemaining < mscapSize then (none, r)
  else (some (castMscap (r.bytes.drop r.offset)), { r with offset := r.offset + mscapSize })

def Reader.remaining (r : Reader) : List Mscap := records (r.bytes.drop r.offset)

theorem Reader.readSingle_nil {r : Reader} (h : r.remaining = []) : r.readSingle = (none, r) := by
  unfold readSingle
  by_cases hshort : r.bytes.length - r.offset < mscapSize
  · exact if_pos hshort
  · rw [remaining, records_of_long (by rw [List.length_drop]; omega)] at h
    cases h

theorem Reader.readSingle_cons {r : Reader} {m : Mscap} {rest : List Mscap}
    (h : r.remaining = m :: rest) : r.readSingle.1 = some m ∧ r.readSingle.2.remaining = rest := by
  unfold readSingle
  by_cases hshort : r.bytes.length - r.offset < mscapSize
  · rw [remaining, records_of_short (by rw [List.length_drop]; omega)] at h
    cases h
  · rw [remaining, records_of_long (by rw [List.length_drop]; omega), List.cons.injEq,
      List.drop_drop] at h
    rw [if_neg hshort, h.1]
    exact ⟨rfl, h.2⟩

end MoonGen.Moonsniff

import Mathlib.Algebra.Order.Ring.Nat

/-! # Flow tags

`Flow:prepare` writes the uid of a flow into the last four bytes of its packets,
and the count thread reads it back to choose a counter. The embedding of
`separateUid` and `setPayload` in `flow/instance.lua`, and of `getUid` and the
receive loop of `countThread` in `threads/count.lua`.
-/

namespace MoonGen.Interface

/-! ## Encoder -/

def separateUid (uid : UInt32) : UInt8 × UInt8 × UInt8 × UInt8 :=
  (((uid >>> 24) &&& 0xff).toUInt8, ((uid >>> 16) &&& 0xff).toUInt8,
    ((uid >>> 8) &&& 0xff).toUInt8, ((uid >>> 0) &&& 0xff).toUInt8)

/-- The closure of `Flow:prepare`, with the packet size and the separated uid it captures. -/
def setPayload (size : Nat) (p : UInt8 × UInt8 × UInt8 × UInt8) (bytes : List UInt8) : List UInt8 :=
  (((bytes.set (size - 1) p.1).set (size - 2) p.2.1).set (size - 3) p.2.2.1).set (size - 4) p.2.2.2

def tagged (uid : UInt32) (bytes : List UInt8) : List UInt8 :=
  setPayload bytes.length (separateUid uid) bytes

/-! ## Decoder -/

def byteAt (bytes : List UInt8) (i : Nat) : Nat := (bytes[i]?.getD 0).toNat

def getUid (bytes : List UInt8) (length : Nat) : Nat :=
  byteAt bytes (length - 1) * 0xffffff
    + byteAt bytes (length - 2) * 0xffff
    + byteAt bytes (length - 3) * 0xff
    + byteAt bytes (length - 4)

abbrev Counters := Nat → Nat

def countPacket (counters : Counters) (buf : List UInt8) : Counters :=
  fun key => if key = getUid buf buf.length then counters key + 1 else counters key

def countBufs (counters : Counters) (bufs : List (List UInt8)) : Counters :=
  bufs.foldl countPacket counters

/-! ## What the decoder makes of a tag -/

@[simp] theorem tagged_length (uid : UInt32) (bytes : List UInt8) :
    (tagged uid bytes).length = bytes.length := by
  simp [tagged, setPayload]

theorem byteAt_setPayload {bytes : List UInt8} {n : Nat} (h : bytes.length = n + 4)
    (p0 p1 p2 p3 : UInt8) :
    let written := setPayload (n + 4) (p0, p1, p2, p3) bytes
    byteAt written (n + 3) = p0.toNat ∧ byteAt written (n + 2) = p1.toNat ∧
      byteAt written (n + 1) = p2.toNat ∧ byteAt written n = p3.toNat := by
  simp [byteAt, setPayload, h]

theorem byte_toNat (uid shift : UInt32) {k : Nat} (hshift : shift.toNat = k) (hk : k < 32) :
    ((uid >>> shift) &&& 0xff).toUInt8.toNat = uid.toNat / 2 ^ k % 256 := by
  have hand : ∀ n : Nat, n &&& 255 = n % 256 := fun n => Nat.and_two_pow_sub_one_eq_mod n 8
  rw [UInt32.toNat_toUInt8, UInt32.toNat_and, UInt32.toNat_shiftRight, hshift, Nat.mod_eq_of_lt hk,
    Nat.shiftRight_eq_div_pow, show (0xff : UInt32).toNat = 255 from rfl, hand, Nat.mod_mod]

def upperBytes (uid : UInt32) : Nat :=
  uid.toNat / 2 ^ 24 % 256 + uid.toNat / 2 ^ 16 % 256 + uid.toNat / 2 ^ 8 % 256

/-- Repeated division by 256 in place of the shifts, which `omega` can follow. -/
theorem shifts_eq_div (n : Nat) : n / 2 ^ 8 = n / 256 ∧ n / 2 ^ 16 = n / 256 / 256 ∧
    n / 2 ^ 24 = n / 256 / 256 / 256 := by
  refine ⟨rfl, ?_, ?_⟩
  · exact (Nat.div_div_eq_div_mul n 256 256).symm
  · rw [Nat.div_div_eq_div_mul n 256 256]
    exact (Nat.div_div_eq_div_mul n (256 * 256) 256).symm

/-- The decoder weighs each byte above the lowest with one less than its place value. -/
theorem getUid_tagged (uid : UInt32) {bytes : List UInt8} (h : 4 ≤ bytes.length) :
    getUid (tagged uid bytes) bytes.length + upperBytes uid = uid.toNat := by
  obtain ⟨n, hn⟩ : ∃ n, bytes.length = n + 4 := ⟨bytes.length - 4, by omega⟩
  obtain ⟨e0, e1, e2, e3⟩ := byteAt_setPayload hn ((uid >>> 24) &&& 0xff).toUInt8
    ((uid >>> 16) &&& 0xff).toUInt8 ((uid >>> 8) &&& 0xff).toUInt8 ((uid >>> 0) &&& 0xff).toUInt8
  rw [byte_toNat uid 24 (k := 24) rfl (by omega)] at e0
  rw [byte_toNat uid 16 (k := 16) rfl (by omega)] at e1
  rw [byte_toNat uid 8 (k := 8) rfl (by omega)] at e2
  rw [byte_toNat uid 0 (k := 0) rfl (by omega)] at e3
  have hlt := uid.toNat_lt
  obtain ⟨s1, s2, s3⟩ := shifts_eq_div uid.toNat
  rw [tagged, separateUid, hn, getUid, upperBytes]
  simp only [Nat.add_sub_cancel, show n + 4 - 1 = n + 3 from rfl, show n + 4 - 2 = n + 2 from rfl,
    show n + 4 - 3 = n + 1 from rfl, e0, e1, e2, e3, s1, s2, s3, Nat.pow_zero, Nat.div_one]
  omega

theorem upperBytes_eq_zero_iff (uid : UInt32) : upperBytes uid = 0 ↔ uid < 256 := by
  have hlt := uid.toNat_lt
  obtain ⟨s1, s2, s3⟩ := shifts_eq_div uid.toNat
  rw [UInt32.lt_iff_toNat_lt, show (256 : UInt32).toNat = 256 from rfl, upperBytes, s1, s2, s3]
  constructor
  · intro h
    obtain ⟨⟨h3, h2⟩, h1⟩ : ((uid.toNat / 256 / 256 / 256 % 256 = 0 ∧
        uid.toNat / 256 / 256 % 256 = 0) ∧ uid.toNat / 256 % 256 = 0) := by
      simpa only [Nat.add_eq_zero_iff] using h
    have htop : uid.toNat / 256 / 256 / 256 = 0 := by
      rw [← h3]
      exact (Nat.mod_eq_of_lt (by omega)).symm
    omega
  · intro h
    omega

/-! ## Round trip and collisions -/

/-- The decoder returns the uid that was written exactly for the uids of one byte, and
two flows are counted under one key exactly when their uids differ by as much as
their upper bytes do. -/
theorem getUid_tagged_iff (uid other : UInt32) (bytes otherBytes : List UInt8)
    (hsize : 60 ≤ bytes.length) (hother : 60 ≤ otherBytes.length) :
    (getUid (tagged uid bytes) bytes.length = uid.toNat ↔ uid < 256) ∧
      (getUid (tagged uid bytes) bytes.length = getUid (tagged other otherBytes) otherBytes.length ↔
        uid.toNat + upperBytes other = other.toNat + upperBytes uid) := by
  have hread := getUid_tagged uid (Nat.le_trans (by decide) hsize)
  have hreadOther := getUid_tagged other (Nat.le_trans (by decide) hother)
  rw [← upperBytes_eq_zero_iff uid]
  constructor
  · omega
  · omega

theorem getUid_tagged_one_two :
    60 ≤ (List.replicate 60 (0 : UInt8)).length ∧
      (getUid (tagged 1 (List.replicate 60 0)) 60 = 1 ↔ (1 : UInt32) < 256) ∧
      (getUid (tagged 1 (List.replicate 60 0)) 60 = getUid (tagged 2 (List.replicate 60 0)) 60 ↔
        1 + upperBytes 2 = 2 + upperBytes 1) :=
  ⟨by decide, getUid_tagged_iff 1 2 (List.replicate 60 0) (List.replicate 60 0) (by decide)
    (by decide)⟩

/-- The flows with uids 255 and 256 share the counter of the first. -/
theorem getUid_collision :
    getUid (tagged 255 (List.replicate 60 0)) 60 = 255 ∧
      getUid (tagged 256 (List.replicate 60 0)) 60 = 255 := by
  decide +kernel

/-! ## Counting -/

theorem countBufs_eq (counters : Counters) (bufs : List (List UInt8)) (key : Nat) :
    countBufs counters bufs key =
      counters key + bufs.countP fun buf => getUid buf buf.length = key := by
  induction bufs generalizing counters with
  | nil => rfl
  | cons buf rest ih =>
      have hrest := ih (countPacket counters buf)
      rw [countBufs, List.foldl_cons]
      rw [countBufs] at hrest
      rw [hrest, List.countP_cons]
      by_cases h : key = getUid buf buf.length
      · subst h
        simp [countPacket]
        omega
      · simp [countPacket, h, Ne.symm h]

theorem getUid_tagged_of_lt {uid : UInt32} {bytes : List UInt8} (hsmall : uid < 256)
    (hlen : 4 ≤ bytes.length) :
    getUid (tagged uid bytes) (tagged uid bytes).length = uid.toNat := by
  have hread := getUid_tagged uid hlen
  rw [(upperBytes_eq_zero_iff uid).mpr hsmall, Nat.add_zero] at hread
  rw [tagged_length]
  exact hread

theorem countBufs_tagged {traffic : List (UInt32 × List UInt8)}
    (h : ∀ p ∈ traffic, p.1 < 256 ∧ 4 ≤ p.2.length) (uid : UInt32) :
    countBufs (fun _ => 0) (traffic.map fun p => tagged p.1 p.2) uid.toNat =
      traffic.countP fun p => p.1 = uid := by
  have hsame : ∀ p ∈ traffic,
      decide (getUid (tagged p.1 p.2) (tagged p.1 p.2).length = uid.toNat) = true ↔
        decide (p.1 = uid) = true := by
    intro p hp
    simp only [decide_eq_true_eq]
    rw [getUid_tagged_of_lt (h p hp).1 (h p hp).2, UInt32.toNat_inj]
  calc countBufs (fun _ => 0) (traffic.map fun p => tagged p.1 p.2) uid.toNat
      = 0 + (traffic.map fun p => tagged p.1 p.2).countP fun buf =>
          getUid buf buf.length = uid.toNat := countBufs_eq _ _ _
    _ = traffic.countP fun p =>
          getUid (tagged p.1 p.2) (tagged p.1 p.2).length = uid.toNat := by
        rw [Nat.zero_add, List.countP_map]
        rfl
    _ = traffic.countP fun p => p.1 = uid := List.countP_congr hsame

end MoonGen.Interface

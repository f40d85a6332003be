import Mathlib.Algebra.Order.Floor.Ring
import Mathlib.Data.Rat.Floor
import Mathlib.Tactic.Linarith
import Mathlib.Tactic.FieldSimp
import Mathlib.Tactic.Positivity
import MoonGen.RateControl.CustomLimiter

/-! # Replaying a pcap file

`replay` reads a file in batches and gives every packet the time since the packet before
it, in bytes on the wire, as the delay for the software rate limiter. The timestamps are
64-bit integers, so the script's arithmetic is unsigned and every division rounds down.
-/

namespace MoonGen

open RateLimiter Loop

theorem Double.toUInt64_bounds {q : Rat} (hnonneg : 0 ≤ q) (hlt : q < 2 ^ 64) :
    ((Double.toUInt64 q).toNat : Rat) ≤ q ∧ q < (Double.toUInt64 q).toNat + 1 := by
  have hfloor : 0 ≤ ⌊q⌋ := Int.floor_nonneg.mpr hnonneg
  have hcast : ((⌊q⌋.toNat : Nat) : Rat) = (⌊q⌋ : Rat) := by
    exact_mod_cast congrArg (fun i : Int => (i : Rat)) (Int.toNat_of_nonneg hfloor)
  have hdown : ((⌊q⌋.toNat : Nat) : Rat) ≤ q := hcast ▸ Int.floor_le q
  have hfits : ⌊q⌋.toNat < 2 ^ 64 := by
    exact_mod_cast lt_of_le_of_lt hdown hlt
  have hvalue : (Double.toUInt64 q).toNat = ⌊q⌋.toNat := by
    show (UInt64.ofNat q.floor.toNat).toNat = _
    rw [UInt64.toNat_ofNat']
    exact Nat.mod_eq_of_lt hfits
  rw [hvalue]
  exact ⟨hdown, hcast ▸ Int.lt_floor_add_one q⟩

structure Replay where
  /-- The option of the command line. -/
  multiplier : Rat
  /-- In Mbit/s. -/
  linkSpeed : UInt32
  /-- What the division of 64-bit integers gives for a divisor of zero. -/
  divZero : UInt64

namespace Replay

/-- The multiplier becomes a 64-bit integer where it divides one. -/
def divisor (r : Replay) : UInt64 := numberToUint64 r.multiplier

def divide (r : Replay) (delay : UInt64) : UInt64 :=
  if r.divisor = 0 then r.divZero else delay / r.divisor

/-- The delay in bytes of a packet behind one at `prev`, both in nanoseconds. -/
def delay (r : Replay) (prev ts : UInt64) : UInt64 :=
  r.divide (ts - prev) * r.linkSpeed.toUInt64 / 8000

/-- The loop over a batch. A packet from before the last one counts as one at its time. -/
def setDelays (r : Replay) : UInt64 → List Mbuf → List Mbuf × UInt64
  | prev, [] => ([], prev)
  | prev, buf :: bufs =>
      let ts := if prev > buf.timestamp then prev else buf.timestamp
      let rest := r.setDelays ts bufs
      (buf.setTimestampDynfield (r.delay prev ts) :: rest.1, rest.2)

/-- The time of the last packet is that of the first one of the batch if it is not known. -/
def previous (prev : UInt64) : List Mbuf → UInt64
  | [] => prev
  | buf :: _ => if prev = 0 then buf.timestamp else prev

/-- The main loop over what it reads, one list a read; an empty read is the end of the file.
The result is what it hands on, batch by batch. -/
def replay (r : Replay) (loop : Bool) : UInt64 → List (List Mbuf) → List (List Mbuf)
  | _, [] => []
  | prev, bufs :: reads =>
      if bufs.isEmpty then
        if loop then replay r loop 0 reads else []
      else if 0 < r.multiplier then
        let delayed := r.setDelays (previous prev bufs) bufs
        delayed.1 :: replay r loop delayed.2 reads
      else bufs :: replay r loop prev reads

/-! ## One pass over a file, however it is read -/

theorem setDelays_append (r : Replay) (prev : UInt64) (xs ys : List Mbuf) :
    r.setDelays prev (xs ++ ys) =
      ((r.setDelays prev xs).1 ++ (r.setDelays (r.setDelays prev xs).2 ys).1,
        (r.setDelays (r.setDelays prev xs).2 ys).2) := by
  induction xs generalizing prev with
  | nil => rfl
  | cons buf bufs ih => simp [setDelays, ih]

theorem prev_le_setDelays (r : Replay) (prev : UInt64) (bufs : List Mbuf) :
    prev ≤ (r.setDelays prev bufs).2 := by
  induction bufs generalizing prev with
  | nil => exact UInt64.le_refl _
  | cons buf bufs ih =>
      refine UInt64.le_trans ?_ (ih _)
      split
      · exact UInt64.le_refl _
      · exact UInt64.not_lt.mp ‹_›

theorem replay_pass (r : Replay) (loop : Bool) (hmultiplier : 0 < r.multiplier) {prev : UInt64}
    (hprev : prev ≠ 0) (pass rest : List (List Mbuf)) (hcut : ∀ bufs ∈ pass, bufs ≠ []) :
    (r.replay loop prev (pass ++ rest)).flatten =
      (r.setDelays prev pass.flatten).1 ++
        (r.replay loop (r.setDelays prev pass.flatten).2 rest).flatten := by
  induction pass generalizing prev with
  | nil => rfl
  | cons bufs pass ih =>
      rcases List.forall_mem_cons.mp hcut with ⟨hbufs, hpass⟩
      have hprevious : previous prev bufs = prev := by
        cases bufs with
        | nil => rfl
        | cons buf bufs => exact if_neg hprev
      have hnext : (r.setDelays prev bufs).2 ≠ 0 := by
        intro hzero
        have hle := prev_le_setDelays r prev bufs
        rw [hzero] at hle
        exact hprev (UInt64.le_zero_iff.mp hle)
      rw [List.flatten_cons, setDelays_append, List.cons_append, replay, if_neg (by simpa using hbufs),
        if_pos hmultiplier, hprevious, List.flatten_cons, ih hnext hpass, List.append_assoc]

def delayed (r : Replay) (pkts : List Mbuf) : List Mbuf := (r.setDelays (previous 0 pkts) pkts).1

theorem replay_first_pass (r : Replay) (loop : Bool) (hmultiplier : 0 < r.multiplier)
    (pass rest : List (List Mbuf)) (hcut : ∀ bufs ∈ pass, bufs ≠ [])
    (hfirst : ∀ buf ∈ pass.flatten.head?, buf.timestamp ≠ 0) :
    ∃ prev, (r.replay loop 0 (pass ++ rest)).flatten =
      r.delayed pass.flatten ++ (r.replay loop prev rest).flatten := by
  cases pass with
  | nil => exact ⟨0, rfl⟩
  | cons bufs pass =>
      cases bufs with
      | nil => exact absurd rfl (hcut [] (List.mem_cons_self ..))
      | cons buf bufs =>
          have hprev : buf.timestamp ≠ 0 := hfirst buf (by simp)
          -- the first read finds the time of its first packet
          have hsame : r.replay loop 0 ((buf :: bufs) :: pass ++ rest) =
              r.replay loop buf.timestamp ((buf :: bufs) :: pass ++ rest) := by
            simp [replay, previous, hmultiplier]
          rw [hsame, replay_pass r loop hmultiplier hprev _ rest hcut]
          exact ⟨_, rfl⟩

theorem replay_reset (r : Replay) {loop : Bool} (h : loop = true) (prev : UInt64)
    (reads : List (List Mbuf)) : r.replay loop prev ([] :: reads) = r.replay loop 0 reads := by
  simp [replay, h]

/-- A whole run hands on the packets of its passes, each with the delays of its own file. -/
theorem replay_passes (r : Replay) (loop : Bool) (hmultiplier : 0 < r.multiplier)
    (done : List (List (List Mbuf))) (current : List (List Mbuf)) (hloop : loop = true ∨ done = [])
    (hcut : ∀ pass ∈ done ++ [current], ∀ bufs ∈ pass, bufs ≠ [])
    (hfirst : ∀ pass ∈ done ++ [current], ∀ buf ∈ pass.flatten.head?, buf.timestamp ≠ 0) :
    (r.replay loop 0 (done.flatMap (· ++ [[]]) ++ current)).flatten =
      ((done ++ [current]).map List.flatten).flatMap r.delayed := by
  induction done with
  | nil =>
      have hpass := replay_first_pass r loop hmultiplier current [] (hcut _ (by simp))
        (hfirst _ (by simp))
      rcases hpass with ⟨prev, hpass⟩
      rw [List.append_nil] at hpass
      simp [hpass, replay]
  | cons pass done ih =>
      have hon : loop = true := by
        rcases hloop with hon | hnil
        · exact hon
        · cases hnil
      have hpass := replay_first_pass r loop hmultiplier pass
        ([] :: (done.flatMap (· ++ [[]]) ++ current)) (hcut _ (by simp)) (hfirst _ (by simp))
      rcases hpass with ⟨prev, hpass⟩
      rw [replay_reset r hon,
        ih (.inl hon) (fun p hp => hcut p (List.mem_cons_of_mem _ hp))
          (fun p hp => hfirst p (List.mem_cons_of_mem _ hp))] at hpass
      simpa using hpass

@[simp] theorem map_addr_setDelays (r : Replay) (prev : UInt64) (bufs : List Mbuf) :
    (r.setDelays prev bufs).1.map Mbuf.addr = bufs.map Mbuf.addr := by
  induction bufs generalizing prev with
  | nil => rfl
  | cons buf bufs ih => simp [setDelays, ih]

theorem setDelays_take (r : Replay) (prev : UInt64) (bufs : List Mbuf) (n : Nat) :
    (r.setDelays prev (bufs.take n)).1 = (r.setDelays prev bufs).1.take n := by
  induction bufs generalizing prev n with
  | nil => simp [setDelays]
  | cons buf bufs ih =>
      cases n with
      | zero => rfl
      | succ n => simp [setDelays, ih]

theorem toNat_setDelays (r : Replay) (prev : UInt64) (bufs : List Mbuf) :
    (r.setDelays prev bufs).2.toNat =
      (bufs.map fun buf => buf.timestamp.toNat).foldl max prev.toNat := by
  induction bufs generalizing prev with
  | nil => rfl
  | cons buf bufs ih =>
      have hts : (if prev > buf.timestamp then prev else buf.timestamp).toNat =
          max prev.toNat buf.timestamp.toNat := by
        split
        · have hlt : buf.timestamp.toNat < prev.toNat := UInt64.lt_iff_toNat_lt.mp ‹_›
          omega
        · have hle : prev.toNat ≤ buf.timestamp.toNat := by
            exact UInt64.le_iff_toNat_le.mp (UInt64.not_lt.mp ‹_›)
          omega
      rw [setDelays]
      simp only [ih, hts, List.map_cons, List.foldl_cons]

/-! ## Delays as times -/

section Times

variable (r : Replay) (tscHz : UInt64)

/-- A time of the file in cycles of the clock, at the speed of the replay. -/
def ideal (nanoseconds : Nat) : Rat :=
  nanoseconds * tscHz.toNat / (r.divisor.toNat * 1000000000)

/-- The cycles a packet can lose to rounding: a nanosecond, a byte on the wire and a cycle. -/
def rounding : Rat :=
  tscHz.toNat / 1000000000 + 8 * tscHz.toNat / (r.linkSpeed.toNat * 1000000) + 1

structure Fits (nanoseconds : Nat) : Prop where
  bytes : nanoseconds / r.divisor.toNat * r.linkSpeed.toNat < 2 ^ 64
  cycles : r.ideal tscHz nanoseconds < 2 ^ 64

variable {r} {tscHz}

theorem ideal_mono {a b : Nat} (h : a ≤ b) : r.ideal tscHz a ≤ r.ideal tscHz b := by
  unfold ideal
  gcongr

theorem Fits.mono {a b : Nat} (hb : r.Fits tscHz b) (h : a ≤ b) : r.Fits tscHz a := by
  constructor
  · exact Nat.lt_of_le_of_lt (Nat.mul_le_mul_right _ (Nat.div_le_div_right h)) hb.bytes
  · exact lt_of_le_of_lt (ideal_mono h) hb.cycles

theorem ideal_add (a b : Nat) : r.ideal tscHz (a + b) = r.ideal tscHz a + r.ideal tscHz b := by
  unfold ideal
  push_cast
  ring

theorem bytes_bounds {ns d v l : Nat} (hv : 0 < v) (hl : 0 < l) (hd : d = ns / v * l / 8000) :
    (d : Rat) * 8000 * v ≤ ns * l ∧ (ns : Rat) * l < v * (d * 8000 + 8000 + l) := by
  have hdown : d * 8000 ≤ ns / v * l := hd ▸ Nat.div_mul_le_self _ _
  have hup : ns / v * l < d * 8000 + 8000 := by
    rw [hd]
    exact Nat.lt_div_mul_add (by norm_num)
  have hns : ns / v * v ≤ ns := Nat.div_mul_le_self _ _
  have hns' : ns < ns / v * v + v := Nat.lt_div_mul_add hv
  constructor
  · have hle : d * 8000 * v ≤ ns * l := by nlinarith
    exact_mod_cast hle
  · have hlt : ns * l < v * (d * 8000 + 8000 + l) := by nlinarith
    exact_mod_cast hlt

theorem toNat_delay {prev ts : UInt64} (hle : prev ≤ ts) (hdivisor : 0 < r.divisor.toNat)
    (hfits : r.Fits tscHz (ts.toNat - prev.toNat)) :
    (r.delay prev ts).toNat =
      (ts.toNat - prev.toNat) / r.divisor.toNat * r.linkSpeed.toNat / 8000 := by
  have hnonzero : r.divisor ≠ 0 := by
    intro hzero
    rw [hzero] at hdivisor
    exact absurd hdivisor (Nat.lt_irrefl 0)
  have hsub : (ts - prev).toNat = ts.toNat - prev.toNat := UInt64.toNat_sub_of_le _ _ hle
  rw [delay, divide, if_neg hnonzero, UInt64.toNat_div, UInt64.toNat_mul, UInt64.toNat_div, hsub,
    UInt32.toNat_toUInt64, Nat.mod_eq_of_lt hfits.bytes]
  rfl

/-- The time of a delay in bytes, before it is cut to whole cycles, against the time that the
delay was computed from. -/
theorem ideal_bounds (tscHz : UInt64) {ns d : Nat} (hdivisor : 0 < r.divisor.toNat)
    (hspeed : 0 < r.linkSpeed.toNat)
    (hbytes : (d : Rat) * 8000 * r.divisor.toNat ≤ ns * r.linkSpeed.toNat ∧
      (ns : Rat) * r.linkSpeed.toNat <
        r.divisor.toNat * (d * 8000 + 8000 + r.linkSpeed.toNat)) :
    (d * 8 / (r.linkSpeed.toNat * 1000000) * tscHz.toNat : Rat) ≤ r.ideal tscHz ns ∧
      r.ideal tscHz ns ≤ (d * 8 / (r.linkSpeed.toNat * 1000000) * tscHz.toNat : Rat) +
        (r.rounding tscHz - 1) := by
  have hv : (0 : Rat) < r.divisor.toNat := by exact_mod_cast hdivisor
  have hl : (0 : Rat) < r.linkSpeed.toNat := by exact_mod_cast hspeed
  have htsc : (0 : Rat) ≤ tscHz.toNat := Nat.cast_nonneg _
  constructor
  · unfold ideal
    rw [div_mul_eq_mul_div, div_le_div_iff₀ (by positivity) (by positivity)]
    nlinarith [hbytes.1]
  · have hns : (ns / r.divisor.toNat : Rat) ≤
        (d * 8000 + 8000 + r.linkSpeed.toNat) / r.linkSpeed.toNat := by
      rw [div_le_div_iff₀ hv hl]
      linarith [hbytes.2]
    calc r.ideal tscHz ns = tscHz.toNat / 1000000000 * (ns / r.divisor.toNat : Rat) := by
          unfold ideal
          field_simp
      _ ≤ tscHz.toNat / 1000000000 *
          ((d * 8000 + 8000 + r.linkSpeed.toNat) / r.linkSpeed.toNat) := by gcongr
      _ = _ := by
          unfold rounding
          field_simp
          ring

theorem customCycles_bounds {prev ts : UInt64} (buf : Mbuf) (hle : prev ≤ ts)
    (hdivisor : 0 < r.divisor.toNat) (hspeed : 0 < r.linkSpeed.toNat)
    (hfits : r.Fits tscHz (ts.toNat - prev.toNat)) :
    ((customCycles Rat r.linkSpeed tscHz
        (buf.setTimestampDynfield (r.delay prev ts))).toNat : Rat) ≤
          r.ideal tscHz (ts.toNat - prev.toNat) ∧
      r.ideal tscHz (ts.toNat - prev.toNat) ≤
        (customCycles Rat r.linkSpeed tscHz
          (buf.setTimestampDynfield (r.delay prev ts))).toNat + r.rounding tscHz := by
  have hdelay := toNat_delay hle hdivisor hfits
  have hbytes := bytes_bounds hdivisor hspeed hdelay
  have height : (r.delay prev ts * 8).toNat = (r.delay prev ts).toNat * 8 := by
    rw [UInt64.toNat_mul]
    apply Nat.mod_eq_of_lt
    have hbytes := hfits.bytes
    have hdown := Nat.div_mul_le_self
      ((ts.toNat - prev.toNat) / r.divisor.toNat * r.linkSpeed.toNat) 8000
    rw [← hdelay] at hdown
    show (r.delay prev ts).toNat * 8 < 2 ^ 64
    omega
  have hideal := hfits.cycles
  generalize ts.toNat - prev.toNat = ns at hbytes hideal ⊢
  -- what the loop converts to an integer
  have hcycles : customCycles Rat r.linkSpeed tscHz
      (buf.setTimestampDynfield (r.delay prev ts)) = Double.toUInt64
        ((r.delay prev ts).toNat * 8 / (r.linkSpeed.toNat * 1000000) * tscHz.toNat : Rat) := by
    have hmillion : (1000000 : UInt64).toNat = 1000000 := rfl
    simp only [customCycles, Mbuf.setTimestampDynfield_timestamp, Double.mul_rat, Double.div_rat,
      Double.ofUInt64_rat, height, UInt32.toNat_toUInt64, hmillion]
    norm_num
  obtain ⟨hle', hup⟩ := ideal_bounds tscHz hdivisor hspeed hbytes
  generalize (r.delay prev ts).toNat = d at hcycles hle' hup
  rcases Double.toUInt64_bounds (by positivity) (lt_of_le_of_lt hle' hideal) with ⟨hdown, hnext⟩
  rw [hcycles]
  constructor
  · exact hdown.trans hle'
  · linarith

theorem rounding_nonneg : 0 ≤ r.rounding tscHz := by
  unfold rounding
  positivity

/-- Over packets in a row the delays add up to the time between them, less the rounding of
each. -/
theorem cycles_setDelays (hdivisor : 0 < r.divisor.toNat) (hspeed : 0 < r.linkSpeed.toNat)
    (prev : UInt64) (bufs : List Mbuf)
    (hfits : r.Fits tscHz ((r.setDelays prev bufs).2.toNat - prev.toNat)) :
    (cycles (customCycles Rat r.linkSpeed tscHz) (r.setDelays prev bufs).1 : Rat) ≤
        r.ideal tscHz ((r.setDelays prev bufs).2.toNat - prev.toNat) ∧
      r.ideal tscHz ((r.setDelays prev bufs).2.toNat - prev.toNat) ≤
        cycles (customCycles Rat r.linkSpeed tscHz) (r.setDelays prev bufs).1 +
          bufs.length * r.rounding tscHz := by
  induction bufs generalizing prev with
  | nil => simp [setDelays, ideal]
  | cons buf bufs ih =>
      rw [setDelays] at hfits ⊢
      generalize hts : (if prev > buf.timestamp then prev else buf.timestamp) = ts at hfits ⊢
      have hprev : prev ≤ ts := by
        rw [← hts]
        split
        · exact UInt64.le_refl _
        · exact UInt64.not_lt.mp ‹_›
      have hle := UInt64.le_iff_toNat_le.mp hprev
      have hlast := UInt64.le_iff_toNat_le.mp (prev_le_setDelays r ts bufs)
      simp only at hfits ⊢
      have hsum : (r.setDelays ts bufs).2.toNat - prev.toNat =
          (ts.toNat - prev.toNat) + ((r.setDelays ts bufs).2.toNat - ts.toNat) := by omega
      rw [hsum] at hfits ⊢
      have hone := customCycles_bounds buf hprev hdivisor hspeed (hfits.mono (Nat.le_add_right _ _))
      have hrest := ih ts (hfits.mono (Nat.le_add_left _ _))
      generalize buf.setTimestampDynfield (r.delay prev ts) = delayed at hone ⊢
      rw [ideal_add, ← List.singleton_append, cycles_append, cycles_singleton]
      push_cast
      constructor
      · linarith [hone.1, hrest.1]
      · simp only [List.length_cons]
        push_cast
        linarith [hone.2, hrest.2]

end Times

/-! ## The times of a recording -/

/-- The time from the first of packets to the latest one, in nanoseconds. -/
def span (pkts : List Mbuf) : Nat :=
  let times := pkts.map fun buf => buf.timestamp.toNat
  times.foldl max (times.headD 0) - times.headD 0

/-- When the packet at a position of a replay was recorded, the passes put one behind the
other, counted from the first packet. The position is given as the number of packets up to
and including this one. -/
def elapsed : List (List Mbuf) → Nat → Nat
  | [], _ => 0
  | pkts :: passes, n => span (pkts.take n) + elapsed passes (n - pkts.length)

def recorded (passes : List (List Mbuf)) : Nat := (passes.map span).sum

theorem span_eq (r : Replay) (pkts : List Mbuf) :
    span pkts = (r.setDelays (previous 0 pkts) pkts).2.toNat - (previous 0 pkts).toNat := by
  have hfirst : (previous 0 pkts).toNat =
      (pkts.map fun buf => buf.timestamp.toNat).headD 0 := by
    cases pkts with
    | nil => rfl
    | cons buf bufs => rfl
  rw [toNat_setDelays, hfirst]
  rfl

theorem le_foldl_max (a : Nat) (times : List Nat) : a ≤ times.foldl max a := by
  induction times generalizing a with
  | nil => exact Nat.le_refl _
  | cons t times ih => exact (Nat.le_max_left a t).trans (ih _)

theorem span_take_le (pkts : List Mbuf) (n : Nat) : span (pkts.take n) ≤ span pkts := by
  cases pkts with
  | nil => simp
  | cons buf bufs =>
      cases n with
      | zero => exact Nat.zero_le _
      | succ n =>
          have hlater := le_foldl_max
            (((bufs.take n).map fun b => b.timestamp.toNat).foldl max buf.timestamp.toNat)
            ((bufs.drop n).map fun b => b.timestamp.toNat)
          rw [← List.foldl_append, ← List.map_append, List.take_append_drop] at hlater
          simp only [span, List.take_succ_cons, List.map_cons, List.headD_cons, List.foldl_cons,
            Nat.max_self]
          exact Nat.sub_le_sub_right hlater _

theorem elapsed_le (passes : List (List Mbuf)) (n : Nat) : elapsed passes n ≤ recorded passes := by
  induction passes generalizing n with
  | nil => exact Nat.le_refl _
  | cons pkts passes ih =>
      have hspan := span_take_le pkts n
      have hrest := ih (n - pkts.length)
      simp only [elapsed, recorded, List.map_cons, List.sum_cons] at hrest ⊢
      omega

section Passes

variable {r : Replay} {tscHz : UInt64}

theorem delayed_take (pkts : List Mbuf) (n : Nat) :
    r.delayed (pkts.take n) = (r.delayed pkts).take n := by
  cases n with
  | zero => rfl
  | succ n =>
      cases pkts with
      | nil => rfl
      | cons buf bufs => exact setDelays_take r buf.timestamp (buf :: bufs) (n + 1)

theorem length_delayed (pkts : List Mbuf) : (r.delayed pkts).length = pkts.length := by
  have haddr := congrArg List.length (map_addr_setDelays r (previous 0 pkts) pkts)
  rw [List.length_map, List.length_map] at haddr
  exact haddr

theorem cycles_delayed (hdivisor : 0 < r.divisor.toNat) (hspeed : 0 < r.linkSpeed.toNat)
    (pkts : List Mbuf) (hfits : r.Fits tscHz (span pkts)) :
    (cycles (customCycles Rat r.linkSpeed tscHz) (r.delayed pkts) : Rat) ≤
        r.ideal tscHz (span pkts) ∧
      r.ideal tscHz (span pkts) ≤
        cycles (customCycles Rat r.linkSpeed tscHz) (r.delayed pkts) +
          pkts.length * r.rounding tscHz := by
  rw [span_eq r] at hfits ⊢
  exact cycles_setDelays hdivisor hspeed _ pkts hfits

theorem cycles_passes (hdivisor : 0 < r.divisor.toNat) (hspeed : 0 < r.linkSpeed.toNat)
    (passes : List (List Mbuf)) (n : Nat) (hfits : r.Fits tscHz (recorded passes)) :
    (cycles (customCycles Rat r.linkSpeed tscHz) ((passes.flatMap r.delayed).take n) : Rat) ≤
        r.ideal tscHz (elapsed passes n) ∧
      r.ideal tscHz (elapsed passes n) ≤
        cycles (customCycles Rat r.linkSpeed tscHz) ((passes.flatMap r.delayed).take n) +
          n * r.rounding tscHz := by
  induction passes generalizing n with
  | nil =>
      have hloss : 0 ≤ n * r.rounding tscHz := mul_nonneg (Nat.cast_nonneg n) rounding_nonneg
      simpa [elapsed, ideal] using hloss
  | cons pkts passes ih =>
      have hsum : recorded (pkts :: passes) = span pkts + recorded passes := by simp [recorded]
      rw [hsum] at hfits
      have hspan : r.Fits tscHz (span (pkts.take n)) :=
        hfits.mono ((span_take_le pkts n).trans (Nat.le_add_right _ _))
      have hpass := cycles_delayed hdivisor hspeed (pkts.take n) hspan
      have hrest := ih (n - pkts.length) (hfits.mono (Nat.le_add_left _ _))
      have hcount : (n : Rat) = (pkts.take n).length + (n - pkts.length : Nat) := by
        rw [List.length_take]
        exact_mod_cast (by omega : n = min n pkts.length + (n - pkts.length))
      rw [List.flatMap_cons, List.take_append, length_delayed, ← delayed_take, cycles_append,
        elapsed, ideal_add]
      push_cast
      constructor
      · linarith [hpass.1, hrest.1]
      · rw [hcount, add_mul]
        linarith [hpass.2, hrest.2]

/-- The delays of packets that have been handed on take no longer than the file. -/
theorem cycles_le_recorded (hdivisor : 0 < r.divisor.toNat) (hspeed : 0 < r.linkSpeed.toNat)
    {passes : List (List Mbuf)} (hfits : r.Fits tscHz (recorded passes)) {handed : List Mbuf}
    (hhanded : handed <+: passes.flatMap r.delayed) :
    (cycles (customCycles Rat r.linkSpeed tscHz) handed : Rat) ≤
      r.ideal tscHz (recorded passes) := by
  have hall := (cycles_passes hdivisor hspeed passes (passes.flatMap r.delayed).length hfits).1
  rw [List.take_length] at hall
  calc (cycles (customCycles Rat r.linkSpeed tscHz) handed : Rat)
      ≤ cycles (customCycles Rat r.linkSpeed tscHz) (passes.flatMap r.delayed) := by
        exact_mod_cast cycles_le_of_prefix _ hhanded
    _ ≤ r.ideal tscHz (elapsed passes (passes.flatMap r.delayed).length) := hall
    _ ≤ r.ideal tscHz (recorded passes) := ideal_mono (elapsed_le _ _)

end Passes

/-! ## Replays into the rate limiter -/

/-- What a replay reads: passes over the file that it has ended and the one it is in, each
in portions. The first packet of every pass has a time. -/
structure Reads where
  loop : Bool
  done : List (List (List Mbuf))
  current : List (List Mbuf)
  looped : loop = true ∨ done = []
  cut : ∀ pass ∈ done ++ [current], ∀ bufs ∈ pass, bufs ≠ []
  stamped : ∀ pass ∈ done ++ [current], ∀ buf ∈ pass.flatten.head?, buf.timestamp ≠ 0

def Reads.batches (reads : Reads) : List (List Mbuf) :=
  reads.done.flatMap (· ++ [[]]) ++ reads.current

def Reads.passes (reads : Reads) : List (List Mbuf) :=
  (reads.done ++ [reads.current]).map List.flatten

theorem divisor_pos {r : Replay} (h : 1 ≤ r.multiplier) (hlt : r.multiplier < 2 ^ 64) :
    0 < r.divisor.toNat := by
  have hfloor : (r.divisor.toNat : Int) = ⌊r.multiplier⌋ :=
    toNat_numberToUint64 (zero_le_one.trans h) hlt
  have hone : 1 ≤ ⌊r.multiplier⌋ := Int.le_floor.mpr (by exact_mod_cast h)
  omega

/-- A replay with a rate multiplier of at least one, over a file that it can read in any
portions and any number of times, and the rate limiter that it feeds, in every interleaving
and exact arithmetic. The packets go out in the order of the file. None goes out before the
time at which it was recorded, divided by the integer part of the multiplier and counted
from the start of the limiter, less a nanosecond, a byte on the wire and a cycle for each
packet up to it, and none waits longer than until that time. -/
theorem replay_keeps_recorded_times (r : Replay) (reads : Reads) (tscHz : UInt64) (capacity : Nat)
    (cur : UInt64) (actions : List (TimedAction Mbuf Unit)) (s : Timed Mbuf)
    (hmultiplier : 1 ≤ r.multiplier) (hmultiplier' : r.multiplier < 2 ^ 64)
    (hspeed : 0 < r.linkSpeed.toNat)
    (hbytes : recorded reads.passes / r.divisor.toNat * r.linkSpeed.toNat < 2 ^ 64)
    (hcycles : cur.toNat + r.ideal tscHz (recorded reads.passes) < 2 ^ 64)
    (hrun : runs (customStep (customCycles Rat r.linkSpeed tscHz)) (Timed.start capacity cur)
      actions = some s)
    (hreplay : s.limiter.enqueued <+: (r.replay reads.loop 0 reads.batches).flatten) :
    s.limiter.sent.map Mbuf.addr <+: reads.passes.flatten.map Mbuf.addr ∧
      (∀ (k : Nat) (τ : UInt64), s.handed[k]? = some τ →
        (cur.toNat + r.ideal tscHz (elapsed reads.passes (k + 1)) : Rat) ≤
          τ.toNat + (k + 1) * r.rounding tscHz) ∧
      ∀ (now : UInt64) (isRunning accepted : Bool) (t : Timed Mbuf),
        s.wait = .nextSend → t.wait = .nextSend →
        customStep (customCycles Rat r.linkSpeed tscHz) s (.limiter now isRunning accepted ()) =
          some t →
        (now.toNat : Rat) <
          cur.toNat + r.ideal tscHz (elapsed reads.passes (s.limiter.sent.length + 1)) := by
  have hdivisor := divisor_pos hmultiplier hmultiplier'
  have hfits : r.Fits tscHz (recorded reads.passes) := by
    refine ⟨hbytes, ?_⟩
    have hcur : (0 : Rat) ≤ cur.toNat := Nat.cast_nonneg _
    linarith
  have hpasses := fun n => cycles_passes hdivisor hspeed reads.passes n hfits
  rw [Reads.batches, replay_passes r reads.loop (lt_of_lt_of_le one_pos hmultiplier) _ _
    reads.looped reads.cut reads.stamped, ← Reads.passes] at hreplay
  have hbound : cur.toNat + cycles (customCycles Rat r.linkSpeed tscHz) s.limiter.enqueued <
      2 ^ 64 := by
    have hle := cycles_le_recorded hdivisor hspeed hfits hreplay
    have hlt : (cur.toNat + cycles (customCycles Rat r.linkSpeed tscHz) s.limiter.enqueued : Rat) <
        2 ^ 64 := by linarith
    exact_mod_cast hlt
  have hs := runs_scheduled (start_scheduled capacity cur) hrun hbound
  have hsent := hs.fifo.trans hreplay
  refine ⟨?_, ?_, ?_⟩
  · have haddr : (reads.passes.flatMap r.delayed).map Mbuf.addr =
        reads.passes.flatten.map Mbuf.addr := by
      rw [List.map_flatMap, List.map_flatten, List.flatMap_def]
      simp [delayed]
    rw [← haddr]
    exact hsent.map Mbuf.addr
  · intro k τ hk
    have hlength : k < s.limiter.sent.length := by
      rw [← hs.handed_length]
      exact (List.getElem?_eq_some_iff.mp hk).1
    have hearly : (cur.toNat + cycles (customCycles Rat r.linkSpeed tscHz)
        (s.limiter.sent.take (k + 1)) : Rat) ≤ τ.toNat := by
      exact_mod_cast hs.not_early k τ hk
    rw [List.prefix_iff_eq_take.mp hsent, List.take_take, Nat.min_eq_left hlength] at hearly
    have hdrift := (hpasses (k + 1)).2
    push_cast at hdrift
    linarith
  · intro now isRunning accepted t hwait hwait' hstep
    have hearly := (hs.waits_iff hwait hstep).mp hwait'
    have hwaiting := hs.waiting (by simp [hwait])
    cases hheld : s.limiter.pc.held with
    | nil => exact absurd hheld hwaiting
    | cons p rest =>
        have hrunning : s.limiter.pc ≠ .returned := by
          intro hpc
          exact hwaiting (by rw [hpc]; rfl)
        have hfifo := (hs.underway hrunning).fifo
        have hnext : s.limiter.sent ++ [p] <+: reads.passes.flatMap r.delayed := by
          rw [hheld, List.cons_append, ← List.singleton_append, ← List.append_assoc] at hfifo
          exact List.IsPrefix.trans ⟨_, hfifo⟩ hreplay
        rw [hheld, List.head?_cons, Option.toList_some, List.prefix_iff_eq_take.mp hnext,
          List.length_append, List.length_singleton] at hearly
        have hearly' : (now.toNat : Rat) < cur.toNat + cycles (customCycles Rat r.linkSpeed tscHz)
            ((reads.passes.flatMap r.delayed).take (s.limiter.sent.length + 1)) := by
          exact_mod_cast hearly
        linarith [(hpasses (s.limiter.sent.length + 1)).1]

/-- A file of two packets, two microseconds apart, read in two portions and then in one. -/
def twice : Reads where
  loop := true
  done := [[[⟨0, 60, 1000, 0⟩], [⟨1, 60, 3000, 0⟩]]]
  current := [[⟨2, 60, 1000, 0⟩, ⟨3, 60, 3000, 0⟩]]
  looped := .inl rfl
  cut := by simp
  stamped := by simp

/-- The rate multiplier is one and a half, so the file is replayed at its own speed. -/
def unhurried : Replay := ⟨3 / 2, 10000, 0⟩

def twoSent : List (TimedAction Mbuf Unit) :=
  .enqueue (unhurried.replay true 0 twice.batches).flatten ::
    List.replicate 8 (.limiter 100 true true ()) ++
      .limiter 150 true true () :: List.replicate 2 (.limiter 2200 true true ())

theorem replay_keeps_recorded_times_twice :
    ∃ s, runs (customStep (customCycles Rat 10000 1000000000)) (Timed.start 8 100) twoSent =
        some s ∧ s.handed = [100, 2200] ∧
      ∀ (k : Nat) (τ : UInt64), s.handed[k]? = some τ →
        (100 + unhurried.ideal 1000000000 (elapsed twice.passes (k + 1)) : Rat) ≤
          τ.toNat + (k + 1) * unhurried.rounding 1000000000 := by
  have hvalues : (runs (customStep (customCycles Rat 10000 1000000000)) (Timed.start 8 100)
      twoSent).map (fun s => (s.handed, s.limiter.enqueued)) =
        some ([100, 2200], (unhurried.replay true 0 twice.batches).flatten) := by
    decide +kernel
  rcases Option.map_eq_some_iff.mp hvalues with ⟨s, hrun, hs⟩
  simp only [Prod.mk.injEq] at hs
  have hdivisor : unhurried.divisor.toNat = 1 := by decide +kernel
  have hrecorded : recorded twice.passes = 4000 := by decide +kernel
  have hcycles : ((100 : UInt64).toNat : Rat) +
      unhurried.ideal 1000000000 (recorded twice.passes) < 2 ^ 64 := by
    have hcur : (100 : UInt64).toNat = 100 := rfl
    have htsc : (1000000000 : UInt64).toNat = 1000000000 := rfl
    rw [hrecorded, ideal, hdivisor, hcur, htsc]
    norm_num
  have hmain := replay_keeps_recorded_times unhurried twice 1000000000 8 100 twoSent s
    (by norm_num [unhurried]) (by norm_num [unhurried]) (by decide)
    (by rw [hrecorded, hdivisor]; decide) hcycles hrun (by rw [hs.2]; exact List.prefix_rfl)
  exact ⟨s, hrun, hs.1, hmain.2.1⟩

end Replay

end MoonGen

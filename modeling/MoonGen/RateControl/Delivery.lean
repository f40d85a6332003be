import Mathlib.Algebra.Order.Ring.Nat
import MoonGen.RateControl.Crc

/-! # What one call of the limiter hands to the NIC

`framesFor` lists the frames a batch calls for: before each surviving packet the
fillers of its gap, then the packet. The call stores exactly these frames in
order, and its array is handed over whenever it is full. What is left in the
array at the end goes out only when the last entry of the batch is a packet.
-/

namespace MoonGen.RateLimiterCRC

open Loop

/-! ## The frames a batch calls for -/

structure Gap where
  delay : UInt64
  frames : List Frame

def gapStep (l : RateLimiterCRC) (g : Gap) : Gap :=
  ⟨g.delay - l.wireSize (l.getDelayPacket g.delay), g.frames ++ [l.getDelayPacket g.delay]⟩

def gap (l : RateLimiterCRC) (fuel : Nat) (delay : UInt64) : Option Gap :=
  whileFuel (fun g : Gap => l.needsDelayPacket g.delay) l.gapStep fuel ⟨delay, []⟩

/-- The carried remainder threads through the batch; NULL entries call for nothing. -/
def framesFor (l : RateLimiterCRC) (fuel : Nat) : UInt64 → List (Option Mbuf) → Option Gap
  | missing, [] => some ⟨missing, []⟩
  | missing, none :: rest => framesFor l fuel missing rest
  | missing, some pkt :: rest =>
      (l.gap fuel (pkt.timestamp + missing)).bind fun g =>
        (framesFor l fuel g.delay rest).map fun g' => ⟨g'.delay, g.frames ++ .load pkt :: g'.frames⟩

theorem gap_frames_invalid {l : RateLimiterCRC} {fuel : Nat} {delay : UInt64} {g : Gap}
    (h : l.gap fuel delay = some g) : g.frames.filterMap Frame.load? = [] := by
  have hinv := whileFuel_invariant (fun g : Gap => g.frames.filterMap Frame.load? = [])
    (fun g hg _ => by simp [gapStep, hg, getDelayPacket, Frame.load?]) (s := ⟨delay, []⟩) rfl h
  exact hinv.1

theorem framesFor_induction {l : RateLimiterCRC} {fuel : Nat}
    {motive : UInt64 → List (Option Mbuf) → Gap → Prop}
    (nil : ∀ missing, motive missing [] ⟨missing, []⟩)
    (null : ∀ missing rest g, motive missing rest g → motive missing (none :: rest) g)
    (load : ∀ missing pkt rest gap tail, l.gap fuel (pkt.timestamp + missing) = some gap →
      motive gap.delay rest tail →
      motive missing (some pkt :: rest) ⟨tail.delay, gap.frames ++ .load pkt :: tail.frames⟩)
    {missing : UInt64} {entries : List (Option Mbuf)} {g : Gap}
    (h : l.framesFor fuel missing entries = some g) : motive missing entries g := by
  induction entries generalizing missing g with
  | nil =>
      cases h
      exact nil missing
  | cons entry rest ih =>
      cases entry with
      | none => exact null missing rest g (ih h)
      | some pkt =>
          obtain ⟨gap, hgap, hrest⟩ := Option.bind_eq_some_iff.mp h
          obtain ⟨tail, htail, rfl⟩ := Option.map_eq_some_iff.mp hrest
          exact load missing pkt rest gap tail hgap (ih htail)

theorem framesFor_loads {l : RateLimiterCRC} {fuel : Nat} {missing : UInt64}
    {entries : List (Option Mbuf)} {g : Gap} (h : l.framesFor fuel missing entries = some g) :
    g.frames.filterMap Frame.load? = entries.filterMap id := by
  refine framesFor_induction
    (motive := fun _ entries g => g.frames.filterMap Frame.load? = entries.filterMap id) ?_ ?_ ?_ h
  · intro missing
    rfl
  · intro missing rest g ih
    exact ih
  · intro missing pkt rest gap tail hgap ih
    simp [gap_frames_invalid hgap, Frame.load?, ih]

theorem framesFor_ends_in_load {l : RateLimiterCRC} {fuel : Nat} {missing : UInt64}
    {entries : List (Option Mbuf)} {g : Gap} (h : l.framesFor fuel missing entries = some g) :
    g.frames = [] ∨ ∃ init pkt, g.frames = init ++ [.load pkt] := by
  refine framesFor_induction
    (motive := fun _ _ g => g.frames = [] ∨ ∃ init pkt, g.frames = init ++ [.load pkt]) ?_ ?_ ?_ h
  · intro missing
    exact .inl rfl
  · intro missing rest g ih
    exact ih
  · intro missing pkt rest gap tail _ ih
    right
    rcases ih with hnil | ⟨init, last, hlast⟩
    · exact ⟨gap.frames, pkt, by simp [hnil]⟩
    · exact ⟨gap.frames ++ .load pkt :: init, last, by simp [hlast]⟩

/-! ## The call stores exactly these frames -/

def SendState.withGap (l : RateLimiterCRC) (s : SendState) (g : Gap) : SendState :=
  { s with
    delay := g.delay
    batch := s.batch.emitAll transmitBufferSize g.frames
    numBadPkts := g.frames.foldl (fun n _ => n + 1) s.numBadPkts
    numBadBytes := g.frames.foldl (fun n f => n + (l.wireSize f - 20).toUInt32) s.numBadBytes }

theorem delayPackets_eq (l : RateLimiterCRC) (fuel : Nat) (s : SendState) :
    l.delayPackets fuel s = (l.gap fuel s.delay).map (s.withGap l) := by
  have hbody : ∀ g, l.delayPacket (s.withGap l g) = s.withGap l (l.gapStep g) := by
    intro g
    simp [delayPacket, SendState.withGap, gapStep, Batch.emitAll, List.foldl_append]
  unfold delayPackets gap
  exact (whileFuel_map (s.withGap l) (fun _ => rfl) hbody fuel ⟨s.delay, []⟩).symm

def closeBatch (entries : List (Option Mbuf)) (b : Batch Frame) : Batch Frame :=
  match entries.getLast? with
  | some (some _) => b.flushRest
  | _ => b

theorem closeBatch_cons_cons (entry next : Option Mbuf) (rest : List (Option Mbuf))
    (b : Batch Frame) : closeBatch (entry :: next :: rest) b = closeBatch (next :: rest) b := by
  simp [closeBatch, List.getLast?_cons_cons]

@[simp] theorem loadPacket_previousMissingDelay (last : Bool) (pkt : Mbuf) (s : SendState) :
    (loadPacket last pkt s).previousMissingDelay = s.delay := rfl

theorem loadPacket_batch (last : Bool) (pkt : Mbuf) (s : SendState) :
    (loadPacket last pkt s).batch =
      if last then (s.batch.emit transmitBufferSize (.load pkt)).flushRest
      else s.batch.emit transmitBufferSize (.load pkt) := by
  cases last with
  | true => simpa [loadPacket] using Batch.flush_put_eq_flushRest_emit s.batch (.load pkt)
  | false => simp [loadPacket, Batch.emit]

/-- Carried remainder and array after the loop, as functions of the frame list. -/
theorem sendLoop_eq (l : RateLimiterCRC) (fuel : Nat) (entries : List (Option Mbuf))
    (s : SendState) :
    (l.sendLoop fuel entries s).map (fun t => (t.previousMissingDelay, t.batch)) =
      (l.framesFor fuel s.previousMissingDelay entries).map
        (fun g => (g.delay, closeBatch entries (s.batch.emitAll transmitBufferSize g.frames))) := by
  induction entries generalizing s with
  | nil => rfl
  | cons entry rest ih =>
      cases entry with
      | none =>
          rw [sendLoop, framesFor, ih]
          cases rest with
          | nil => rfl
          | cons next rest => simp only [closeBatch_cons_cons]
      | some pkt =>
          rw [sendLoop, framesFor, delayPackets_eq]
          cases hgap : l.gap fuel (pkt.timestamp + s.previousMissingDelay) with
          | none => rfl
          | some g =>
              simp only [Option.map_some, Option.bind_some, ih]
              cases rest with
              | nil =>
                  simp [framesFor, loadPacket_batch, closeBatch, SendState.withGap,
                    Batch.emitAll, List.foldl_append]
              | cons next rest =>
                  simp [loadPacket_batch, closeBatch_cons_cons, SendState.withGap,
                    Batch.emitAll, List.foldl_append, Function.comp_def]

/-! ## Sizes for which every gap ends -/

/-- A gap without bytes gets no filler, and the overhead is at most half the filler size.
The callers set 1500 and 9000 bytes and default to an overhead of 20. -/
structure Sized (l : RateLimiterCRC) : Prop where
  positive : 0 < l.minPacketSize.toNat + l.packetOverhead.toNat
  noWrap : l.minPacketSize.toNat + l.packetOverhead.toNat < 2 ^ 64
  overhead : 2 * l.packetOverhead.toNat ≤ l.invalidPacketSize.toNat
  least : 50 ≤ l.invalidPacketSize.toNat
  most : l.invalidPacketSize.toNat < 2 ^ 32

theorem needsDelayPacket_iff {l : RateLimiterCRC} (hl : l.Sized) (delay : UInt64) :
    l.needsDelayPacket delay = true ↔
      l.minPacketSize.toNat + l.packetOverhead.toNat ≤ delay.toNat := by
  have hwrap := hl.noWrap
  simp only [needsDelayPacket, decide_eq_true_eq, UInt64.le_iff_toNat_le, UInt64.toNat_add]
  rw [Nat.mod_eq_of_lt hwrap]

/-- The three regimes of the share, without the 64-bit arithmetic. -/
theorem delayShare_toNat {l : RateLimiterCRC} (hl : l.Sized) (delay : UInt64) :
    (l.delayShare delay).toNat =
      if delay.toNat ≤ l.invalidPacketSize.toNat then delay.toNat
      else if 2 * l.invalidPacketSize.toNat - 100 < delay.toNat then l.invalidPacketSize.toNat
      else delay.toNat / 2 := by
  have hleast := hl.least
  have hmost := hl.most
  have hmul : (2 * l.invalidPacketSize).toNat = 2 * l.invalidPacketSize.toNat := by
    rw [UInt64.toNat_mul]
    exact Nat.mod_eq_of_lt (by simp only [UInt64.reduceToNat]; omega)
  have hle : 100 ≤ 2 * l.invalidPacketSize := by
    rw [UInt64.le_iff_toNat_le, hmul]
    simp only [UInt64.reduceToNat]
    omega
  have hdouble : (2 * l.invalidPacketSize - 100).toNat = 2 * l.invalidPacketSize.toNat - 100 := by
    rw [UInt64.toNat_sub_of_le _ _ hle, hmul]
    rfl
  simp only [delayShare, UInt64.le_iff_toNat_le, gt_iff_lt, UInt64.lt_iff_toNat_lt, hdouble]
  split
  · rfl
  · split
    · rfl
    · exact UInt64.toNat_div delay 2

theorem delayShare_bounds {l : RateLimiterCRC} (hl : l.Sized) {delay : UInt64}
    (h : l.needsDelayPacket delay = true) :
    0 < (l.delayShare delay).toNat ∧ (l.delayShare delay).toNat ≤ delay.toNat ∧
      l.packetOverhead.toNat ≤ (l.delayShare delay).toNat ∧
      (l.delayShare delay).toNat < 2 ^ 32 := by
  have hmin := (needsDelayPacket_iff hl delay).mp h
  have hshare := delayShare_toNat hl delay
  obtain ⟨hpos, hwrap, hover, hleast, hmost⟩ := hl
  split at hshare
  · omega
  · split at hshare
    · omega
    · omega

theorem wireSize_getDelayPacket {l : RateLimiterCRC} (hl : l.Sized) {delay : UInt64}
    (h : l.needsDelayPacket delay = true) :
    l.wireSize (l.getDelayPacket delay) = l.delayShare delay := by
  obtain ⟨_, _, hover, hlt⟩ := delayShare_bounds hl h
  have hsub : (l.delayShare delay - l.packetOverhead).toNat =
      (l.delayShare delay).toNat - l.packetOverhead.toNat :=
    UInt64.toNat_sub_of_le _ _ (UInt64.le_iff_toNat_le.mpr hover)
  apply UInt64.toNat_inj.mp
  simp only [wireSize, getDelayPacket, Frame.pktLen, UInt64.toNat_add, UInt32.toNat_toUInt64,
    UInt64.toNat_toUInt32, hsub]
  omega

/-- Each filler covers part of the delay, so the loop ends. -/
theorem gap_exists {l : RateLimiterCRC} (hl : l.Sized) (delay : UInt64) :
    ∃ g, l.gap delay.toNat delay = some g := by
  refine whileFuel_terminates (fun _ => True) (fun g : Gap => g.delay.toNat) ?_ trivial
    (Nat.le_refl _)
  intro g _ hg
  obtain ⟨hpos, hle, _, _⟩ := delayShare_bounds hl hg
  refine ⟨trivial, ?_⟩
  simp only [gapStep]
  rw [wireSize_getDelayPacket hl hg,
    UInt64.toNat_sub_of_le _ _ (UInt64.le_iff_toNat_le.mpr hle)]
  omega

theorem gap_mono {l : RateLimiterCRC} {fuel : Nat} {delay : UInt64} {g : Gap} (extra : Nat)
    (h : l.gap fuel delay = some g) : l.gap (fuel + extra) delay = some g :=
  whileFuel_mono extra h

theorem framesFor_mono {l : RateLimiterCRC} {fuel : Nat} {missing : UInt64}
    {entries : List (Option Mbuf)} {g : Gap} (extra : Nat)
    (h : l.framesFor fuel missing entries = some g) :
    l.framesFor (fuel + extra) missing entries = some g := by
  refine framesFor_induction
    (motive := fun missing entries g => l.framesFor (fuel + extra) missing entries = some g)
    ?_ ?_ ?_ h
  · intro missing
    rfl
  · intro missing rest g ih
    exact ih
  · intro missing pkt rest gap tail hgap ih
    rw [framesFor, gap_mono extra hgap, Option.bind_some, ih, Option.map_some]

theorem framesFor_unique {l : RateLimiterCRC} {fuel fuel' : Nat} {missing : UInt64}
    {entries : List (Option Mbuf)} {g g' : Gap} (h : l.framesFor fuel missing entries = some g)
    (h' : l.framesFor fuel' missing entries = some g') : g = g' := by
  have hleft := framesFor_mono fuel' h
  have hright := framesFor_mono fuel h'
  rw [Nat.add_comm] at hright
  exact Option.some.inj (hleft.symm.trans hright)

theorem framesFor_exists {l : RateLimiterCRC} (hl : l.Sized) (missing : UInt64)
    (entries : List (Option Mbuf)) : ∃ fuel g, l.framesFor fuel missing entries = some g := by
  induction entries generalizing missing with
  | nil => exact ⟨0, _, rfl⟩
  | cons entry rest ih =>
      cases entry with
      | none => exact ih missing
      | some pkt =>
          obtain ⟨gap, hgap⟩ := gap_exists hl (pkt.timestamp + missing)
          obtain ⟨fuel, tail, htail⟩ := ih gap.delay
          refine ⟨(pkt.timestamp + missing).toNat + fuel,
            ⟨tail.delay, gap.frames ++ .load pkt :: tail.frames⟩, ?_⟩
          rw [framesFor, gap_mono fuel hgap, Option.bind_some, Nat.add_comm,
            framesFor_mono _ htail, Option.map_some]

/-! ## Delivery -/

/-- The call returns without leaving its array, and the bursts it handed to the
NIC are, fillers aside, the batch without its NULL entries. -/
def Delivers (l : RateLimiterCRC) (port : Port) (loadPkts : List (Option Mbuf)) : Prop :=
  ∃ fuel out bursts, l.sendPackets fuel port loadPkts = some out ∧ out.outOfRange = false ∧
    out.port.handed = port.handed ++ bursts ∧
    bursts.flatten.filterMap Frame.load? = loadPkts.filterMap id

/-- The fillers of every gap end, and a batch that ends in a NULL entry calls for
a whole number of arrays. -/
def LeavesNothing (l : RateLimiterCRC) (loadPkts : List (Option Mbuf)) : Prop :=
  ∃ fuel g, l.framesFor fuel l.previousMissingDelay loadPkts = some g ∧
    (loadPkts.getLast? = some none → transmitBufferSize ∣ g.frames.length)

theorem leavesNothing_of_last {l : RateLimiterCRC} (hl : l.Sized) {loadPkts : List (Option Mbuf)}
    (hlast : loadPkts.getLast? ≠ some none) : l.LeavesNothing loadPkts := by
  obtain ⟨fuel, g, hg⟩ := framesFor_exists hl l.previousMissingDelay loadPkts
  exact ⟨fuel, g, hg, fun h => absurd h hlast⟩

def finalBatch (loadPkts : List (Option Mbuf)) (g : Gap) : Batch Frame :=
  closeBatch loadPkts (Batch.empty.emitAll transmitBufferSize g.frames)

theorem sendPackets_eq (l : RateLimiterCRC) (fuel : Nat) (port : Port)
    (loadPkts : List (Option Mbuf)) :
    (l.sendPackets fuel port loadPkts).map
        (fun out => (out.limiter, out.port.handed, out.outOfRange)) =
      (l.framesFor fuel l.previousMissingDelay loadPkts).map (fun g =>
        ({ l with previousMissingDelay := g.delay },
          port.handed ++ (finalBatch loadPkts g).handed, (finalBatch loadPkts g).overrun)) := by
  have h := congrArg (Option.map fun (r : UInt64 × Batch Frame) =>
    ({ l with previousMissingDelay := r.1 }, port.handed ++ r.2.handed, r.2.overrun))
    (sendLoop_eq l fuel loadPkts (.start l))
  simpa only [sendPackets, Option.map_map, Function.comp_def, finishSend, SendState.start,
    finalBatch] using h

theorem sendPackets_spec {l : RateLimiterCRC} {fuel : Nat} {port : Port}
    {loadPkts : List (Option Mbuf)} {out : SendOutcome}
    (h : l.sendPackets fuel port loadPkts = some out) :
    ∃ g, l.framesFor fuel l.previousMissingDelay loadPkts = some g ∧
      out.limiter = { l with previousMissingDelay := g.delay } ∧
      out.port.handed = port.handed ++ (finalBatch loadPkts g).handed ∧
      out.outOfRange = (finalBatch loadPkts g).overrun := by
  have heq := sendPackets_eq l fuel port loadPkts
  rw [h, Option.map_some] at heq
  obtain ⟨g, hg, hout⟩ := Option.map_eq_some_iff.mp heq.symm
  simp only [Prod.mk.injEq] at hout
  exact ⟨g, hg, hout.1.symm, hout.2.1.symm, hout.2.2.symm⟩

theorem sendPackets_returns {l : RateLimiterCRC} {fuel : Nat} (port : Port)
    {loadPkts : List (Option Mbuf)} {g : Gap}
    (h : l.framesFor fuel l.previousMissingDelay loadPkts = some g) :
    ∃ out, l.sendPackets fuel port loadPkts = some out := by
  have heq := sendPackets_eq l fuel port loadPkts
  rw [h, Option.map_some] at heq
  obtain ⟨out, hout, _⟩ := Option.map_eq_some_iff.mp heq
  exact ⟨out, hout⟩

theorem ready_emitAll_frames (frames : List Frame) :
    ((Batch.empty : Batch Frame).emitAll transmitBufferSize frames).Ready transmitBufferSize :=
  (Batch.ready_empty (by decide)).emitAll frames

theorem finalBatch_contents (loadPkts : List (Option Mbuf)) (g : Gap) :
    (finalBatch loadPkts g).contents = g.frames := by
  unfold finalBatch closeBatch
  split <;> simp

theorem finalBatch_overrun (loadPkts : List (Option Mbuf)) (g : Gap) :
    (finalBatch loadPkts g).overrun = false := by
  have hready := (ready_emitAll_frames g.frames).inRange
  unfold finalBatch closeBatch
  split <;> simp [hready]

/-- Something stays in the array exactly when the last entry is NULL and the
frames do not fill whole arrays. -/
theorem finalBatch_slots_eq_nil_iff (loadPkts : List (Option Mbuf)) (g : Gap)
    (hnil : loadPkts = [] → g.frames = []) :
    (finalBatch loadPkts g).slots = [] ↔
      (loadPkts.getLast? = some none → transmitBufferSize ∣ g.frames.length) := by
  have hslots := (ready_emitAll_frames g.frames).slots_eq_nil_iff
  rw [Batch.contents_emitAll, Batch.contents_empty, List.nil_append] at hslots
  unfold finalBatch closeBatch
  cases hlast : loadPkts.getLast? with
  | none =>
      have hframes := hnil (List.getLast?_eq_none_iff.mp hlast)
      simp [hframes, Batch.emitAll, Batch.empty]
  | some entry =>
      cases entry with
      | none => simpa using hslots
      | some pkt => simp

theorem framesFor_nil {l : RateLimiterCRC} {fuel : Nat} {missing : UInt64}
    {loadPkts : List (Option Mbuf)} {g : Gap} (h : l.framesFor fuel missing loadPkts = some g)
    (hnil : loadPkts = []) : g.frames = [] := by
  subst hnil
  cases h
  rfl

/-- The frames end in a load packet, so the packets are all handed over only when
the whole array is. -/
theorem handed_loads_iff {l : RateLimiterCRC} {fuel : Nat} {missing : UInt64}
    {loadPkts : List (Option Mbuf)} {g : Gap} (h : l.framesFor fuel missing loadPkts = some g) :
    (finalBatch loadPkts g).handed.flatten.filterMap Frame.load? = loadPkts.filterMap id ↔
      (finalBatch loadPkts g).slots = [] := by
  have hcontents := finalBatch_contents loadPkts g
  rw [← framesFor_loads h, ← hcontents, Batch.contents, List.filterMap_append]
  constructor
  · intro hloads
    have hnone : (finalBatch loadPkts g).slots.filterMap Frame.load? = [] :=
      List.self_eq_append_right.mp hloads
    rcases List.eq_nil_or_concat (finalBatch loadPkts g).slots with hnil | ⟨init, last, hlast⟩
    · exact hnil
    · rw [Batch.contents, hlast] at hcontents
      rcases framesFor_ends_in_load h with hempty | ⟨front, pkt, hpkt⟩
      · simp [hempty] at hcontents
      · rw [hpkt, List.concat_eq_append, ← List.append_assoc] at hcontents
        have hload : last = .load pkt := (List.append_inj' hcontents rfl).2 |> List.singleton_inj.mp
        simp [hlast, hload, Frame.load?] at hnone
  · intro hslots
    simp [hslots]

/-- A call delivers its batch exactly when its gaps end and nothing stays in the
array; the array is never indexed out of range. -/
theorem sendPackets_delivers_iff (l : RateLimiterCRC) (port : Port)
    (loadPkts : List (Option Mbuf)) :
    (l.Delivers port loadPkts ↔ l.LeavesNothing loadPkts) ∧
      (∀ fuel out, l.sendPackets fuel port loadPkts = some out → out.outOfRange = false) ∧
      (l.Sized → ∃ fuel out, l.sendPackets fuel port loadPkts = some out) := by
  refine ⟨⟨?_, ?_⟩, ?_, ?_⟩
  · rintro ⟨fuel, out, bursts, hcall, _, hhanded, hloads⟩
    obtain ⟨g, hg, _, hport, _⟩ := sendPackets_spec hcall
    rw [hport, List.append_cancel_left_eq] at hhanded
    rw [← hhanded] at hloads
    refine ⟨fuel, g, hg, ?_⟩
    exact (finalBatch_slots_eq_nil_iff loadPkts g (framesFor_nil hg)).mp
      ((handed_loads_iff hg).mp hloads)
  · rintro ⟨fuel, g, hg, hwhole⟩
    obtain ⟨out, hcall⟩ := sendPackets_returns port hg
    obtain ⟨g', hg', _, hport, hrange⟩ := sendPackets_spec hcall
    obtain rfl : g = g' := Option.some.inj (hg.symm.trans hg')
    refine ⟨fuel, out, _, hcall, hrange.trans (finalBatch_overrun loadPkts g), hport, ?_⟩
    exact (handed_loads_iff hg).mpr
      ((finalBatch_slots_eq_nil_iff loadPkts g (framesFor_nil hg)).mpr hwhole)
  · intro fuel out hcall
    obtain ⟨g, _, _, _, hrange⟩ := sendPackets_spec hcall
    rw [hrange, finalBatch_overrun]
  · intro hl
    obtain ⟨fuel, g, hg⟩ := framesFor_exists hl l.previousMissingDelay loadPkts
    exact ⟨fuel, sendPackets_returns port hg⟩

/-- A packet without delay followed by a dropped one stays in the array. -/
theorem sendPackets_keeps_packet_before_null :
    ¬ (RateLimiterCRC.new 84 20 9000).Delivers ⟨[], 0, 0⟩ [some ⟨1, 60, 0, 0⟩, none] := by
  rintro ⟨fuel, out, bursts, hcall, _, hhanded, hloads⟩
  have hgap : (RateLimiterCRC.new 84 20 9000).gap fuel 0 = some ⟨0, []⟩ :=
    whileFuel_exit fuel rfl
  have hframes : (RateLimiterCRC.new 84 20 9000).framesFor fuel 0 [some ⟨1, 60, 0, 0⟩, none] =
      some ⟨0, [.load ⟨1, 60, 0, 0⟩]⟩ := by
    simp [framesFor, hgap]
  obtain ⟨g, hg, _, hport, _⟩ := sendPackets_spec hcall
  obtain rfl : _ = g := Option.some.inj (hframes.symm.trans hg)
  rw [hport, List.append_cancel_left_eq] at hhanded
  rw [← hhanded] at hloads
  revert hloads
  decide

end MoonGen.RateLimiterCRC

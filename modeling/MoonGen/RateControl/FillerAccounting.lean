import Mathlib.Algebra.Order.Ring.Int
import Mathlib.Data.List.Basic
import Mathlib.Logic.Function.Basic
import MoonGen.RateControl.Delivery

/-! # The statistics of the fillers

`send_packets` counts the fillers it stores in two 32-bit locals and adds them to the
64-bit registers of the port. `hookTxStats` subtracts the registers from what the NIC
has counted. Three calls hand fillers to the NIC, and one of them counts them.
-/

namespace MoonGen

def Frame.isFiller : Frame → Bool
  | .load _ => false
  | .invalid _ _ => true

/-- A frame on the wire, with the overhead of the limiter that has sent it. -/
structure SentFrame where
  overhead : UInt64
  frame : Frame
deriving Repr, DecidableEq

def SentFrame.bytes (f : SentFrame) : Int := f.frame.pktLen.toNat + f.overhead.toNat - 20

def SentFrame.isFiller (f : SentFrame) : Bool := f.frame.isFiller

def tally (frames : List SentFrame) : Int := (frames.map SentFrame.bytes).sum

@[simp] theorem tally_nil : tally [] = 0 := rfl

@[simp] theorem tally_append (frames more : List SentFrame) :
    tally (frames ++ more) = tally frames + tally more := by
  simp [tally]

theorem tally_cons (f : SentFrame) (frames : List SentFrame) :
    tally (f :: frames) = f.bytes + tally frames := by
  simp [tally]

theorem tally_ge (frames : List SentFrame) : -20 * (frames.length : Int) ≤ tally frames := by
  induction frames with
  | nil => simp
  | cons f frames ih =>
      rw [tally_cons, List.length_cons]
      unfold SentFrame.bytes
      push_cast
      omega

namespace RateLimiterCRC

open Loop

/-! ## The limiters of one port -/

/-- All limiters of a port, the port, and what its NIC has been given. -/
structure PortState where
  limiters : Nat → RateLimiterCRC
  port : Port
  sent : List SentFrame

inductive Call where
  | sendPackets (loadPkts : List (Option Mbuf))
  | emptyDelay (numPackets : UInt16)
  | sendTimestampPacket (numPackets : UInt16)
  | setInvalidPacketSize (size : UInt64)
deriving Repr, DecidableEq

namespace PortState

def start (limiters : Nat → RateLimiterCRC) : PortState := ⟨limiters, ⟨[], 0, 0⟩, []⟩

/-- The state after a call on limiter `i`, with the bursts that the call has handed over. -/
def handOver (s : PortState) (i : Nat) (limiter : RateLimiterCRC) (port : Port) : PortState where
  limiters := Function.update s.limiters i limiter
  port := port
  sent := s.sent ++ (port.handed.drop s.port.handed.length).flatten.map
    (SentFrame.mk (s.limiters i).packetOverhead)

def step (fuel : Nat) (s : PortState) : Nat × Call → Option PortState
  | (i, .sendPackets loadPkts) =>
      ((s.limiters i).sendPackets fuel s.port loadPkts).map fun out =>
        s.handOver i out.limiter out.port
  | (i, .emptyDelay numPackets) =>
      some (s.handOver i (s.limiters i) ((s.limiters i).emptyDelay s.port numPackets).1)
  | (i, .sendTimestampPacket numPackets) =>
      some (s.handOver i (s.limiters i) ((s.limiters i).sendTimestampPacket s.port numPackets).1)
  | (i, .setInvalidPacketSize size) =>
      some (s.handOver i ((s.limiters i).setInvalidPacketSize size) s.port)

def fillers (s : PortState) : List SentFrame := s.sent.filter SentFrame.isFiller

def loads (s : PortState) : List SentFrame := s.sent.filter fun f => !f.isFiller

/-- The function that `hookTxStats` puts in place of `getTxStats`. `old` is the one of libmoon, a
function of what the NIC has been given. -/
def getTxStats (old : List SentFrame → Int × Int) (s : PortState) : Int × Int :=
  ((old s.sent).1 - s.port.badPktsSent.toNat, (old s.sent).2 - s.port.badBytesSent.toNat)

/-- The NIC counts all frames, and their bytes with the checksum. -/
def CountsFrames (old : List SentFrame → Int × Int) : Prop :=
  ∀ frames : List SentFrame, old frames = ((frames.length : Int), tally frames)

/-- The registers hold the fillers on the wire, so what is reported are the load packets. -/
structure Exact (old : List SentFrame → Int × Int) (s : PortState) : Prop where
  pkts : s.port.badPktsSent.toNat = s.fillers.length
  bytes : (s.port.badBytesSent.toNat : Int) = tally s.fillers
  reported : s.getTxStats old = ((s.loads.length : Int), tally s.loads)

def Fits (s : PortState) : Prop := s.fillers.length < 2 ^ 64 ∧ tally s.fillers < 2 ^ 64

end PortState

/-! ## What a call adds -/

theorem tally_filter_add (frames : List SentFrame) :
    tally (frames.filter SentFrame.isFiller) + tally (frames.filter fun f => !f.isFiller) =
      tally frames := by
  induction frames with
  | nil => rfl
  | cons f frames ih =>
      cases hf : f.isFiller <;> simp [hf, tally_cons] <;> omega

namespace PortState

variable {old : List SentFrame → Int × Int}

theorem exact_of_registers (hold : CountsFrames old) {s : PortState}
    (hpkts : s.port.badPktsSent.toNat = s.fillers.length)
    (hbytes : (s.port.badBytesSent.toNat : Int) = tally s.fillers) : s.Exact old := by
  refine ⟨hpkts, hbytes, ?_⟩
  have hlength : s.sent.length = s.fillers.length + s.loads.length :=
    List.length_eq_length_filter_add SentFrame.isFiller
  have htally := tally_filter_add s.sent
  rw [← fillers, ← loads] at htally
  rw [getTxStats, hold, hpkts, hbytes, hlength]
  simp only [Prod.mk.injEq]
  constructor
  · push_cast
    omega
  · omega

/-- A call that adds `pkts` and `bytes` to the registers keeps them exact exactly when these
are the number and the bytes of the fillers that it sends. -/
theorem exact_iff_of_added (hnic : CountsFrames old) {s s' : PortState} (h : s.Exact old)
    (hfits : s'.Fits) (pkts bytes : UInt32) {more : List SentFrame}
    (hpkts : s'.port.badPktsSent = s.port.badPktsSent + pkts.toUInt64)
    (hbytes : s'.port.badBytesSent = s.port.badBytesSent + bytes.toUInt64)
    (hsent : s'.sent = s.sent ++ more) :
    s'.Exact old ↔ pkts.toNat = (more.filter SentFrame.isFiller).length ∧
      (bytes.toNat : Int) = tally (more.filter SentFrame.isFiller) := by
  have hfillers : s'.fillers = s.fillers ++ more.filter SentFrame.isFiller := by
    simp [fillers, hsent]
  have hwrapPkts := congrArg UInt64.toNat hpkts
  have hwrapBytes := congrArg UInt64.toNat hbytes
  rw [UInt64.toNat_add, UInt32.toNat_toUInt64, h.pkts] at hwrapPkts
  rw [UInt64.toNat_add, UInt32.toNat_toUInt64] at hwrapBytes
  have hold := h.bytes
  have hpktsLt := pkts.toNat_lt
  have hbytesLt := bytes.toNat_lt
  obtain ⟨hfitPkts, hfitBytes⟩ := hfits
  rw [hfillers, List.length_append] at hfitPkts
  rw [hfillers, tally_append] at hfitBytes
  constructor
  · intro h'
    have hcount := h'.pkts
    have htotal := h'.bytes
    rw [hfillers, List.length_append] at hcount
    rw [hfillers, tally_append] at htotal
    have hsame : pkts.toNat = (more.filter SentFrame.isFiller).length := by omega
    -- fewer than 2^32 fillers cannot take the byte register below zero by a whole turn
    have hlow := tally_ge (more.filter SentFrame.isFiller)
    refine ⟨hsame, ?_⟩
    omega
  · rintro ⟨hcount, htotal⟩
    apply exact_of_registers hnic
    · rw [hfillers, List.length_append]
      omega
    · rw [hfillers, tally_append]
      omega

end PortState

/-! ## What `send_packets` counts -/

def fillersOf (l : RateLimiterCRC) (frames : List Frame) : List SentFrame :=
  (frames.map (SentFrame.mk l.packetOverhead)).filter SentFrame.isFiller

@[simp] theorem fillersOf_append (l : RateLimiterCRC) (frames more : List Frame) :
    l.fillersOf (frames ++ more) = l.fillersOf frames ++ l.fillersOf more := by
  simp [fillersOf]

theorem fillersOf_load (l : RateLimiterCRC) (pkt : Mbuf) (frames : List Frame) :
    l.fillersOf (.load pkt :: frames) = l.fillersOf frames := by
  simp [fillersOf, SentFrame.isFiller, Frame.isFiller]

theorem fillersOf_invalid (l : RateLimiterCRC) {f : Frame} (hf : f.isFiller = true)
    (frames : List Frame) :
    l.fillersOf (f :: frames) = ⟨l.packetOverhead, f⟩ :: l.fillersOf frames := by
  simp [fillersOf, SentFrame.isFiller, hf]

theorem wireSize_sub_toUInt32 (l : RateLimiterCRC) (f : Frame) :
    (l.wireSize f - 20).toUInt32 = UInt32.ofInt (SentFrame.mk l.packetOverhead f).bytes := by
  apply UInt32.toNat_inj.mp
  have hlen := f.pktLen.toNat_lt
  have hover := l.packetOverhead.toNat_lt
  simp only [wireSize, SentFrame.bytes, UInt64.toNat_toUInt32, UInt64.toNat_sub, UInt64.toNat_add,
    UInt32.toNat_toUInt64, UInt32.ofInt, UInt32.toNat_ofNat', UInt64.reduceToNat]
  omega

/-- The two locals after some frames have been stored. -/
def counted (l : RateLimiterCRC) (locals : UInt32 × UInt32) (frames : List Frame) :
    UInt32 × UInt32 :=
  (locals.1 + UInt32.ofNat (l.fillersOf frames).length,
    locals.2 + UInt32.ofInt (tally (l.fillersOf frames)))

theorem counted_nil (l : RateLimiterCRC) (locals : UInt32 × UInt32) :
    l.counted locals [] = locals := by
  have hzero : UInt32.ofInt 0 = 0 := rfl
  simp [counted, fillersOf, hzero]

theorem counted_append (l : RateLimiterCRC) (locals : UInt32 × UInt32) (frames more : List Frame) :
    l.counted locals (frames ++ more) = l.counted (l.counted locals frames) more := by
  simp [counted, UInt32.ofNat_add, UInt32.add_assoc]

theorem counted_load (l : RateLimiterCRC) (locals : UInt32 × UInt32) (pkt : Mbuf)
    (frames : List Frame) : l.counted locals (.load pkt :: frames) = l.counted locals frames := by
  simp only [counted, fillersOf_load]

theorem counted_gap {l : RateLimiterCRC} {fuel : Nat} {delay : UInt64} {g : Gap}
    (h : l.gap fuel delay = some g) (s : SendState) :
    ((s.withGap l g).numBadPkts, (s.withGap l g).numBadBytes) =
      l.counted (s.numBadPkts, s.numBadBytes) g.frames := by
  have hinv : ∀ g : Gap, ((s.withGap l g).numBadPkts, (s.withGap l g).numBadBytes) =
        l.counted (s.numBadPkts, s.numBadBytes) g.frames → l.needsDelayPacket g.delay = true →
      ((s.withGap l (l.gapStep g)).numBadPkts, (s.withGap l (l.gapStep g)).numBadBytes) =
        l.counted (s.numBadPkts, s.numBadBytes) (l.gapStep g).frames := by
    intro g hg _
    have hone : l.fillersOf [l.getDelayPacket g.delay] =
        [⟨l.packetOverhead, l.getDelayPacket g.delay⟩] := fillersOf_invalid l rfl []
    simp only [SendState.withGap, gapStep, List.foldl_append, List.foldl_cons, List.foldl_nil,
      counted_append] at hg ⊢
    rw [← hg, wireSize_sub_toUInt32, counted, hone, tally_cons, tally_nil, Int.add_zero]
    rfl
  exact (whileFuel_invariant _ hinv (l.counted_nil _).symm h).1

theorem sendLoop_counted (l : RateLimiterCRC) (fuel : Nat) (entries : List (Option Mbuf))
    (s : SendState) :
    (l.sendLoop fuel entries s).map (fun t => (t.numBadPkts, t.numBadBytes)) =
      (l.framesFor fuel s.previousMissingDelay entries).map
        (fun g => l.counted (s.numBadPkts, s.numBadBytes) g.frames) := by
  induction entries generalizing s with
  | nil => simp [sendLoop, framesFor, counted_nil]
  | cons entry rest ih =>
      cases entry with
      | none => exact ih s
      | some pkt =>
          rw [sendLoop, framesFor, delayPackets_eq]
          cases hgap : l.gap fuel (pkt.timestamp + s.previousMissingDelay) with
          | none => rfl
          | some g =>
              have hlocals := counted_gap hgap
                { s with delay := pkt.timestamp + s.previousMissingDelay }
              simp only [Option.map_some, Option.bind_some, ih, Option.map_map]
              congr 1
              funext tail
              simp only [Function.comp_apply, counted_append, counted_load]
              exact congrArg (fun locals => l.counted locals tail.frames) hlocals

theorem sendPackets_registers {l : RateLimiterCRC} {fuel : Nat} {port : Port}
    {loadPkts : List (Option Mbuf)} {out : SendOutcome} {g : Gap}
    (h : l.sendPackets fuel port loadPkts = some out)
    (hg : l.framesFor fuel l.previousMissingDelay loadPkts = some g) :
    out.port.badPktsSent =
        port.badPktsSent + (UInt32.ofNat (l.fillersOf g.frames).length).toUInt64 ∧
      out.port.badBytesSent =
        port.badBytesSent + (UInt32.ofInt (tally (l.fillersOf g.frames))).toUInt64 := by
  obtain ⟨t, ht, rfl⟩ := Option.map_eq_some_iff.mp h
  have hcounted := sendLoop_counted l fuel loadPkts (.start l)
  rw [ht, SendState.start, hg, Option.map_some, Option.map_some, Option.some.injEq] at hcounted
  simp only [counted, UInt32.zero_add, Prod.mk.injEq] at hcounted
  rw [finishSend, hcounted.1, hcounted.2]
  exact ⟨rfl, rfl⟩

theorem finalBatch_slots_lt (loadPkts : List (Option Mbuf)) (g : Gap) :
    (finalBatch loadPkts g).slots.length < transmitBufferSize := by
  have hroom := (ready_emitAll_frames g.frames).room
  unfold finalBatch closeBatch
  split
  · simp [transmitBufferSize]
  · exact hroom

/-- Locals of 32 bits hold what was sent of some fillers exactly when all were sent and both
numbers fit. -/
theorem registers_iff {stored sent kept : List SentFrame} (hsplit : stored = sent ++ kept)
    (hkept : kept.length < transmitBufferSize) :
    ((UInt32.ofNat stored.length).toNat = sent.length ∧
        ((UInt32.ofInt (tally stored)).toNat : Int) = tally sent) ↔
      kept = [] ∧ stored.length < 2 ^ 32 ∧ 0 ≤ tally stored ∧ tally stored < 2 ^ 32 := by
  have hlength : stored.length = sent.length + kept.length := by
    rw [hsplit, List.length_append]
  have hpkts : (UInt32.ofNat stored.length).toNat = stored.length % 2 ^ 32 := UInt32.toNat_ofNat'
  have hbytes : ((UInt32.ofInt (tally stored)).toNat : Int) = tally stored % 2 ^ 32 := by
    rw [UInt32.ofInt, UInt32.toNat_ofNat']
    omega
  rw [hpkts, hbytes]
  unfold transmitBufferSize at hkept
  constructor
  · rintro ⟨hcount, htotal⟩
    -- fewer than a whole turn of the counter can stay behind
    have hnone : kept.length = 0 := by omega
    obtain rfl := List.eq_nil_of_length_eq_zero hnone
    rw [List.append_nil] at hsplit
    subst hsplit
    exact ⟨rfl, by omega, by omega, by omega⟩
  · rintro ⟨rfl, hcount, hlow, hhigh⟩
    rw [List.append_nil] at hsplit
    subst hsplit
    exact ⟨by omega, by omega⟩

/-! ## Runs of calls -/

namespace PortState

variable {old : List SentFrame → Int × Int}

/-- The call counts the fillers that it sends. `empty_delay` and `send_timestamp_packet` count
nothing. `send_packets` counts what it stores: none of it may stay in the array, and number
and bytes must fit in 32 bits. -/
def Counts (s : PortState) : Nat × Call → Prop
  | (i, .sendPackets loadPkts) =>
      ∃ fuel g,
        (s.limiters i).framesFor fuel (s.limiters i).previousMissingDelay loadPkts = some g ∧
        (s.limiters i).fillersOf (finalBatch loadPkts g).slots = [] ∧
        ((s.limiters i).fillersOf g.frames).length < 2 ^ 32 ∧
        0 ≤ tally ((s.limiters i).fillersOf g.frames) ∧
        tally ((s.limiters i).fillersOf g.frames) < 2 ^ 32
  | (_, .emptyDelay numPackets) => numPackets = 0
  | (_, .sendTimestampPacket numPackets) => numPackets = 0
  | (_, .setInvalidPacketSize _) => True

theorem handOver_sent {s : PortState} {i : Nat} {limiter : RateLimiterCRC} {port : Port}
    (bursts : List (List Frame)) (h : port.handed = s.port.handed ++ bursts) :
    (s.handOver i limiter port).sent =
      s.sent ++ bursts.flatten.map (SentFrame.mk (s.limiters i).packetOverhead) := by
  rw [handOver, h, List.drop_left]

theorem exact_iff_of_uncounted (hold : CountsFrames old) {s : PortState} (h : s.Exact old)
    {i : Nat} {limiter : RateLimiterCRC} {numPackets : UInt16} {size : UInt64}
    (hfits : (s.handOver i limiter (s.port.dpdkSendAllPackets
      (allocMbufs numPackets size.toUInt16))).Fits) :
    (s.handOver i limiter (s.port.dpdkSendAllPackets
      (allocMbufs numPackets size.toUInt16))).Exact old ↔ numPackets = 0 := by
  have hsent : (s.handOver i limiter (s.port.dpdkSendAllPackets
      (allocMbufs numPackets size.toUInt16))).sent = s.sent ++
        List.replicate numPackets.toNat
          ⟨(s.limiters i).packetOverhead, .invalid size.toUInt16 size.toUInt16.toUInt32⟩ := by
    rw [handOver_sent [allocMbufs numPackets size.toUInt16] rfl]
    simp [allocMbufs]
  rw [exact_iff_of_added hold h hfits 0 0 (by simp [handOver, Port.dpdkSendAllPackets])
    (by simp [handOver, Port.dpdkSendAllPackets]) hsent]
  rw [List.filter_replicate_of_pos rfl, List.length_replicate]
  constructor
  · rintro ⟨hcount, _⟩
    exact UInt16.toNat_inj.mp hcount.symm
  · rintro rfl
    exact ⟨rfl, rfl⟩

theorem exact_iff_of_sendPackets (hold : CountsFrames old) {s : PortState} (h : s.Exact old)
    {i fuel : Nat} {loadPkts : List (Option Mbuf)} {out : SendOutcome}
    (hout : (s.limiters i).sendPackets fuel s.port loadPkts = some out)
    (hfits : (s.handOver i out.limiter out.port).Fits) :
    (s.handOver i out.limiter out.port).Exact old ↔ s.Counts (i, .sendPackets loadPkts) := by
  obtain ⟨g, hg, _, hhanded, _⟩ := sendPackets_spec hout
  obtain ⟨hpkts, hbytes⟩ := sendPackets_registers hout hg
  have hsplit : (s.limiters i).fillersOf g.frames =
      (s.limiters i).fillersOf (finalBatch loadPkts g).handed.flatten ++
        (s.limiters i).fillersOf (finalBatch loadPkts g).slots := by
    rw [← fillersOf_append, ← Batch.contents, finalBatch_contents]
  have hkept : ((s.limiters i).fillersOf (finalBatch loadPkts g).slots).length <
      transmitBufferSize := by
    refine Nat.lt_of_le_of_lt (List.length_filter_le _ _) ?_
    rw [List.length_map]
    exact finalBatch_slots_lt loadPkts g
  rw [exact_iff_of_added hold h hfits _ _ hpkts hbytes (handOver_sent _ hhanded)]
  refine (registers_iff hsplit hkept).trans ?_
  constructor
  · intro hcounts
    exact ⟨fuel, g, hg, hcounts⟩
  · rintro ⟨fuel', g', hg', hcounts⟩
    obtain rfl := framesFor_unique hg hg'
    exact hcounts

theorem exact_of_nothing_sent (hold : CountsFrames old) {s : PortState} (h : s.Exact old) (i : Nat)
    (limiter : RateLimiterCRC) : (s.handOver i limiter s.port).Exact old := by
  have hsent : (s.handOver i limiter s.port).sent = s.sent := by
    rw [handOver_sent [] (List.append_nil _).symm]
    simp
  apply exact_of_registers hold
  · rw [fillers, hsent]
    exact h.pkts
  · rw [fillers, hsent]
    exact h.bytes

theorem exact_step_iff (hold : CountsFrames old) {s s' : PortState} {fuel : Nat}
    {input : Nat × Call} (h : s.Exact old) (hstep : s.step fuel input = some s')
    (hfits : s'.Fits) : s'.Exact old ↔ s.Counts input := by
  obtain ⟨i, call⟩ := input
  cases call with
  | sendPackets loadPkts =>
      obtain ⟨out, hout, rfl⟩ := Option.map_eq_some_iff.mp hstep
      exact exact_iff_of_sendPackets hold h hout hfits
  | emptyDelay numPackets =>
      cases hstep
      exact exact_iff_of_uncounted hold h hfits
  | sendTimestampPacket numPackets =>
      cases hstep
      exact exact_iff_of_uncounted hold h hfits
  | setInvalidPacketSize size =>
      cases hstep
      exact iff_of_true (exact_of_nothing_sent hold h i _) trivial

theorem exact_start (hold : CountsFrames old) (limiters : Nat → RateLimiterCRC) :
    (start limiters).Exact old :=
  exact_of_registers hold rfl rfl

end PortState

open PortState in
/-- The registers are exact in every state of a run exactly when every call of the run counts
the fillers that it sends. -/
theorem accounting_exact_iff (old : List SentFrame → Int × Int) (hold : CountsFrames old)
    (fuel : Nat) (limiters : Nat → RateLimiterCRC)
    (calls : List (Nat × Call)) (t : PortState)
    (hrun : runs (step fuel) (start limiters) calls = some t)
    (hfits : ∀ s, Reached (step fuel) (start limiters) calls s → s.Fits) :
    (∀ s, Reached (step fuel) (start limiters) calls s → s.Exact old) ↔
      Along (step fuel) Counts (start limiters) calls := by
  refine forall_reached_iff_along (exact_start hold limiters) hrun ?_
  intro s input s' hexact hstep hreached
  exact exact_step_iff hold hexact hstep (hfits s' hreached)

open PortState in
theorem accounting_exact_one_filler :
    ∃ t, runs (step 1) (start fun _ => .new 84 20 9000)
        [(0, .sendPackets [some ⟨1, 60, 1000, 0⟩])] = some t ∧
      ∀ s, Reached (step 1) (start fun _ => .new 84 20 9000)
        [(0, .sendPackets [some ⟨1, 60, 1000, 0⟩])] s →
          s.Exact fun frames => ((frames.length : Int), tally frames) := by
  obtain ⟨t, ht⟩ : ∃ t, step 1 (start fun _ => .new 84 20 9000)
      (0, .sendPackets [some ⟨1, 60, 1000, 0⟩]) = some t := ⟨_, rfl⟩
  have hnumbers : (step 1 (start fun _ => .new 84 20 9000)
      (0, .sendPackets [some ⟨1, 60, 1000, 0⟩])).map
        (fun t => (t.fillers.length, tally t.fillers)) = some (1, 980) := by decide +kernel
  rw [ht, Option.map_some, Option.some.injEq, Prod.mk.injEq] at hnumbers
  have hrun : runs (step 1) (start fun _ => .new 84 20 9000)
      [(0, .sendPackets [some ⟨1, 60, 1000, 0⟩])] = some t := by simp [runs, ht]
  refine ⟨t, hrun, (accounting_exact_iff _ (fun _ => rfl) 1 (fun _ => .new 84 20 9000) _ t hrun
    ?_).mpr ?_⟩
  · intro s hs
    rcases (reached_cons ht).mp hs with rfl | hs
    · exact ⟨by decide, by decide⟩
    · rw [reached_nil hs, Fits, hnumbers.1, hnumbers.2]
      decide
  · refine ⟨⟨1, ⟨0, [.invalid 980 980, .load ⟨1, 60, 1000, 0⟩]⟩, rfl, ?_⟩, fun _ _ => trivial⟩
    decide +kernel

open PortState in
/-- The fillers of one idle round of the transmit loop are not counted. -/
theorem emptyDelay_not_counted :
    ∃ t, runs (step 0) (start fun _ => .new 84 20 1500) [(0, .emptyDelay 64)] = some t ∧
      t.Fits ∧ ∀ old, ¬ t.Exact old := by
  refine ⟨_, rfl, ⟨by decide +kernel, by decide +kernel⟩, ?_⟩
  intro old h
  exact absurd h.pkts (by decide +kernel)

end RateLimiterCRC

end MoonGen

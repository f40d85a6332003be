import MoonGen.RateControl.Placement

/-! # The schedule on the wire

A script sends its packets with calls of `rateLimiterCRC:sendWithDelay`. The delay of a packet
is the number of bytes between the end of the packet before it and its own start. What the
fillers cannot cover is carried from packet to packet and from call to call, so the positions
on the wire keep to the requested ones, however long the script runs and however it cuts its
packets into calls.
-/

namespace MoonGen

open Loop

def Port.wire (port : Port) : List Frame := port.handed.flatten

namespace RateLimiterCRC

/-- Where a packet is to start, after the packets `done`: their delays and sizes, and its own
delay. -/
def due (l : RateLimiterCRC) (done : List Mbuf) (pkt : Mbuf) : Nat :=
  (done.map fun p => p.timestamp.toNat + (p.pktLen.toNat + l.packetOverhead.toNat)).sum +
    pkt.timestamp.toNat

/-- The packet after the packets `done` starts at its position or less than `leastWire` bytes
before it. `offset` is what was missing before the first packet. -/
def OnSchedule (l : RateLimiterCRC) (offset : Nat) (frames : List Frame) (done : List Mbuf)
    (pkt : Mbuf) : Prop :=
  ∃ before after, frames = before ++ .load pkt :: after ∧ before.filterMap Frame.load? = done ∧
    wireBytes l.packetOverhead before ≤ offset + l.due done pkt ∧
    offset + l.due done pkt < wireBytes l.packetOverhead before + l.leastWire

theorem OnSchedule.later {l : RateLimiterCRC} {offset : Nat} {p : Mbuf} {fillers : Gap}
    (htotal : wireBytes l.packetOverhead fillers.frames + fillers.delay.toNat =
      offset + p.timestamp.toNat)
    (hloads : fillers.frames.filterMap Frame.load? = []) {frames : List Frame} {done : List Mbuf}
    {pkt : Mbuf} (h : l.OnSchedule fillers.delay.toNat frames done pkt) :
    l.OnSchedule offset (fillers.frames ++ .load p :: frames) (p :: done) pkt := by
  obtain ⟨before, after, rfl, rfl, hle, hlt⟩ := h
  refine ⟨fillers.frames ++ .load p :: before, after, by simp, by simp [hloads, Frame.load?], ?_, ?_⟩
  all_goals
    simp only [wireBytes_append, wireBytes_cons, Frame.pktLen, due, List.map_cons, List.sum_cons]
    simp only [due] at hle hlt
    omega

/-- No delay is so long that adding what is missing overflows. -/
def Short (l : RateLimiterCRC) (pkts : List Mbuf) : Prop :=
  ∀ p ∈ pkts, p.timestamp.toNat + l.leastWire ≤ 2 ^ 64

end RateLimiterCRC

end MoonGen

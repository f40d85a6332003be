import Mathlib.Algebra.Order.Ring.Nat
import Mathlib.Logic.Relation
import MoonGen.Moonem.Ownership

/-! # The software path from receive loop to transmit loop

A software receive loop enqueues groups of packets; `sw_transmitter_loop_delay`
dequeues bursts that need not respect the groups, waits for the timestamp of the
first packet it has not sent yet, and sends as many packets as that packet's
burst size says. The two threads and the clock interleave freely.
-/

namespace MoonGen.Moonem

open Sieve

variable {D : Type}

/-! ## The transmit loop -/

/-- `pending` is the transmit loop's array from its index on; `polled` says that
its wait for the first of these packets is over. -/
structure SwPath (D : Type) (loop : ReceiveLoop) where
  rx : loop.State D
  ring : Ring Mbuf
  entered : List Mbuf
  pending : List Mbuf
  polled : Bool
  sent : List (UInt64 × List Mbuf)
  clock : UInt64

namespace SwPath

variable {loop : ReceiveLoop}

def dequeueBurst (s : SwPath D loop) (n : Nat) : SwPath D loop :=
  { s with pending := s.ring.contents.take n, ring := s.ring.dequeued n }

def packetBurst (s : SwPath D loop) (m : Mbuf) : Nat := min m.burstSize.toNat s.pending.length

def sendGroup (s : SwPath D loop) (m : Mbuf) : SwPath D loop :=
  { s with
    pending := s.pending.drop (s.packetBurst m)
    polled := false
    sent := s.sent ++ [(s.clock, s.pending.take (s.packetBurst m))] }

end SwPath

/-! ## Groups -/

/-- Every packet's burst size counts the packets from it to the end of its group,
and these carry its timestamp. -/
def Grouped : List Mbuf → Prop
  | [] => True
  | m :: rest => 0 < m.burstSize.toNat ∧ m.burstSize.toNat ≤ rest.length + 1 ∧
      (∀ x ∈ rest.take (m.burstSize.toNat - 1), x.timestamp = m.timestamp) ∧ Grouped rest

theorem Grouped.drop {l : List Mbuf} (h : Grouped l) (n : Nat) : Grouped (l.drop n) := by
  induction n generalizing l with
  | zero => exact h
  | succ n ih =>
      cases l with
      | nil => trivial
      | cons m rest => exact ih h.2.2.2

/-- Groups do not reach beyond the end of the list, so lists can be joined. -/
theorem Grouped.append {l more : List Mbuf} (h : Grouped l) (hmore : Grouped more) :
    Grouped (l ++ more) := by
  induction l with
  | nil => exact hmore
  | cons m rest ih =>
      obtain ⟨hpos, hlen, hsame, hrest⟩ := h
      rw [List.cons_append]
      refine ⟨hpos, ?_, ?_, ih hrest⟩
      · rw [List.length_append]
        omega
      · intro x hx
        rw [List.take_append_of_le_length (by omega)] at hx
        exact hsame x hx

theorem Grouped.same_timestamp {m : Mbuf} {rest : List Mbuf} (h : Grouped (m :: rest)) {x : Mbuf}
    (hx : x ∈ (m :: rest).take m.burstSize.toNat) : x.timestamp = m.timestamp := by
  obtain ⟨hpos, _, hsame, _⟩ := h
  obtain ⟨n, hn⟩ : ∃ n, m.burstSize.toNat = n + 1 := ⟨m.burstSize.toNat - 1, by omega⟩
  rw [hn, List.take_succ_cons] at hx
  rw [hn] at hsame
  rcases List.mem_cons.mp hx with rfl | hx
  · rfl
  · exact hsame x hx

theorem Grouped.burstSize_pos {l : List Mbuf} (h : Grouped l) {m : Mbuf} (hm : m ∈ l) :
    0 < m.burstSize.toNat := by
  induction l with
  | nil => cases hm
  | cons x rest ih =>
      rcases List.mem_cons.mp hm with rfl | hm
      · exact h.1
      · exact ih h.2.2.2 hm

theorem stampBurst_timestamp {timestamp : UInt64} {bufs : List Mbuf} {x : Mbuf}
    (hx : x ∈ stampBurst timestamp bufs) : x.timestamp = timestamp := by
  induction bufs with
  | nil => cases hx
  | cons m rest ih =>
      rcases List.mem_cons.mp hx with rfl | hx
      · rfl
      · exact ih hx

theorem stampBurst_grouped (timestamp : UInt64) {bufs : List Mbuf} (h : bufs.length < 2 ^ 32) :
    Grouped (stampBurst timestamp bufs) := by
  induction bufs with
  | nil => trivial
  | cons m rest ih =>
      have hlen : rest.length + 1 < 2 ^ 32 := h
      have hsize : (UInt64.ofNat (rest.length + 1)).toUInt32.toNat = rest.length + 1 := by
        rw [UInt64.toNat_toUInt32, UInt64.toNat_ofNat']
        omega
      refine ⟨?_, ?_, ?_, ih (by omega)⟩
      · rw [Mbuf.setBurstSizeDynfield_burstSize, hsize]
        omega
      · apply Nat.le_of_eq
        rw [Mbuf.setBurstSizeDynfield_burstSize, hsize, stampBurst_length]
      · intro x hx
        exact stampBurst_timestamp (List.mem_of_mem_take hx)

theorem singletons_grouped {bufs : List Mbuf} (h : ∀ m ∈ bufs, m.burstSize = 1) : Grouped bufs := by
  induction bufs with
  | nil => trivial
  | cons m rest ih =>
      have hone : m.burstSize.toNat = 1 := by rw [h m (by simp)]; rfl
      refine ⟨by omega, by omega, ?_, ih fun x hx => h x (List.mem_cons_of_mem m hx)⟩
      intro x hx
      simp [hone] at hx

section Loops

variable [Double D]

/-- The loops of `moonem_sw.cpp` that feed `sw_transmitter_loop_delay`. -/
def ReceiveLoop.Software : ReceiveLoop → Prop
  | .swDelay | .swRateTokenBucket | .swRateLeakyBucket => True
  | _ => False

theorem iterate_out_length_le (tscHz : UInt64) (config : MoonemConfig) (loop : ReceiveLoop)
    (s : loop.State D) (rx : RxBurst) :
    (loop.iterate tscHz config s rx).out.length ≤ burstSize := by
  have hlen := (iterate_splits tscHz config loop s rx).length_eq
  have hshort := rx.short
  simp only [addrs, List.length_append, List.length_map] at hlen
  omega

theorem iterate_grouped (tscHz : UInt64) (config : MoonemConfig) {loop : ReceiveLoop}
    (hsw : loop.Software) (s : loop.State D) (rx : RxBurst) :
    Grouped (loop.iterate tscHz config s rx).out := by
  have hlen := iterate_out_length_le tscHz config loop s rx
  have hsmall : burstSize < 2 ^ 32 := by decide
  cases loop with
  | delay | rateLeakyBucket | rateTokenBucket => cases hsw
  | swDelay =>
      simp only [ReceiveLoop.iterate, swReceiverLoopDelay, stampBurst_length] at hlen ⊢
      exact stampBurst_grouped _ (Nat.lt_of_le_of_lt hlen hsmall)
  | swRateTokenBucket =>
      simp only [ReceiveLoop.iterate, swReceiverLoopRateTokenBucket] at hlen ⊢
      split
      next => trivial
      next hne =>
        rw [if_neg hne, stampBurst_length] at hlen
        exact stampBurst_grouped _ (Nat.lt_of_le_of_lt hlen hsmall)
  | swRateLeakyBucket =>
      apply singletons_grouped
      intro m hm
      obtain ⟨a, _, rfl⟩ := List.mem_map.mp hm
      rfl

end Loops

/-! ## What holds in every interleaving -/

namespace SwPath

variable {loop : ReceiveLoop} {tscHz : UInt64} {config : MoonemConfig}

def sentPackets (s : SwPath D loop) : List Mbuf := s.sent.flatMap Prod.snd

structure Inv (s : SwPath D loop) : Prop where
  fifo : s.sentPackets ++ (s.pending ++ s.ring.contents) = s.entered
  grouped : Grouped (s.pending ++ s.ring.contents)
  idle : s.pending = [] → s.polled = false
  reached : s.polled = true → ∀ m rest, s.pending = m :: rest → m.timestamp ≤ s.clock
  onTime : ∀ call ∈ s.sent, ∀ m ∈ call.2, m.timestamp ≤ call.1

theorem Inv.tick {s : SwPath D loop} (h : s.Inv) {clock : UInt64} (later : s.clock ≤ clock) :
    ({ s with clock := clock } : SwPath D loop).Inv := by
  refine ⟨h.fifo, h.grouped, h.idle, ?_, h.onTime⟩
  intro hp m rest hhead
  exact UInt64.le_trans (h.reached hp m rest hhead) later

theorem Inv.dequeueBurst {s : SwPath D loop} (h : s.Inv) (hidle : s.pending = []) (n : Nat) :
    (s.dequeueBurst n).Inv := by
  have hpolled := h.idle hidle
  have hsplit : (s.dequeueBurst n).pending ++ (s.dequeueBurst n).ring.contents =
      s.pending ++ s.ring.contents := by
    simp [SwPath.dequeueBurst, hidle]
  refine ⟨?_, ?_, fun _ => hpolled, ?_, h.onTime⟩
  · rw [hsplit]
    exact h.fifo
  · rw [hsplit]
    exact h.grouped
  · intro hp
    exact absurd (hpolled.symm.trans hp) (by decide)

theorem Inv.poll {s : SwPath D loop} (h : s.Inv) {m : Mbuf} {rest : List Mbuf}
    (hhead : s.pending = m :: rest) (hreached : ¬ s.clock < m.timestamp) :
    ({ s with polled := true } : SwPath D loop).Inv := by
  refine ⟨h.fifo, h.grouped, ?_, ?_, h.onTime⟩
  · intro hnil
    rw [hhead] at hnil
    cases hnil
  · intro _ m' rest' hhead'
    obtain ⟨rfl, _⟩ := List.cons.inj (hhead.symm.trans hhead')
    exact UInt64.not_lt.mp hreached

/-- The packets of one call share the timestamp that was waited for, also when
the dequeue has cut their group. -/
theorem Inv.group_timestamp {s : SwPath D loop} (h : s.Inv) {m : Mbuf} {rest : List Mbuf}
    (hhead : s.pending = m :: rest) {x : Mbuf} (hx : x ∈ s.pending.take (s.packetBurst m)) :
    x.timestamp = m.timestamp := by
  have hgroup := h.grouped
  rw [hhead, List.cons_append] at hgroup
  apply hgroup.same_timestamp
  rw [packetBurst, ← List.take_take, List.take_length, hhead] at hx
  rw [← List.cons_append, List.take_append]
  exact List.mem_append_left _ hx

theorem Inv.sendGroup {s : SwPath D loop} (h : s.Inv) {m : Mbuf} {rest : List Mbuf}
    (hhead : s.pending = m :: rest) (hpolled : s.polled = true) : (s.sendGroup m).Inv := by
  refine ⟨?_, ?_, fun _ => rfl, fun hp => (nomatch hp), ?_⟩
  · simp only [SwPath.sendGroup, sentPackets, List.flatMap_append, List.flatMap_singleton,
      List.append_assoc]
    rw [← List.append_assoc (List.take _ _), List.take_append_drop]
    exact h.fifo
  · have hle : s.packetBurst m ≤ s.pending.length := Nat.min_le_right _ _
    have hrest := h.grouped.drop (s.packetBurst m)
    rw [List.drop_append_of_le_length hle] at hrest
    exact hrest
  · intro call hcall x hx
    rcases List.mem_append.mp hcall with hold | hnew
    · exact h.onTime call hold x hx
    · rw [List.mem_singleton.mp hnew] at hx ⊢
      rw [h.group_timestamp hhead hx]
      exact h.reached hpolled m rest hhead

/-- The burst size read is never zero, so every call of the transmit loop sends
something. -/
theorem Inv.sendGroup_advances {s : SwPath D loop} (h : s.Inv) {m : Mbuf} {rest : List Mbuf}
    (hhead : s.pending = m :: rest) :
    m.burstSize ≠ 0 ∧ (s.sendGroup m).pending.length < s.pending.length := by
  have hpos := h.grouped.burstSize_pos (m := m) (by simp [hhead])
  have hlen : 0 < s.pending.length := by simp [hhead]
  constructor
  · intro hzero
    simp [hzero] at hpos
  · simp only [SwPath.sendGroup, packetBurst, List.length_drop]
    omega

variable [Double D]

def init (config : MoonemConfig) (capacity : Nat) (clock : UInt64) : SwPath D loop :=
  ⟨loop.init config, .empty capacity, [], [], false, [], clock⟩

/-- The receive loop serves one burst. `entered` records what the ring took. -/
def receive (tscHz : UInt64) (config : MoonemConfig) (s : SwPath D loop) (burst : RxBurst) :
    SwPath D loop :=
  let it := loop.iterate tscHz config s.rx burst
  { s with
    rx := it.state
    ring := s.ring.enqueueBulk it.out
    entered := if it.out.length ≤ s.ring.free then s.entered ++ it.out else s.entered }

inductive Step (tscHz : UInt64) (config : MoonemConfig) : SwPath D loop → SwPath D loop → Prop where
  | tick {s : SwPath D loop} {clock : UInt64} (later : s.clock ≤ clock) :
      Step tscHz config s { s with clock := clock }
  | receive {s : SwPath D loop} (burst : RxBurst) :
      Step tscHz config s (s.receive tscHz config burst)
  | dequeue {s : SwPath D loop} {n : Nat} (idle : s.pending = []) (least : 1 ≤ n)
      (most : n ≤ burstSize) (there : n ≤ s.ring.contents.length) :
      Step tscHz config s (s.dequeueBurst n)
  | poll {s : SwPath D loop} {m : Mbuf} {rest : List Mbuf} (head : s.pending = m :: rest)
      (reached : ¬ s.clock < m.timestamp) : Step tscHz config s { s with polled := true }
  | send {s : SwPath D loop} {m : Mbuf} {rest : List Mbuf} (head : s.pending = m :: rest)
      (polled : s.polled = true) : Step tscHz config s (s.sendGroup m)

def Reachable (tscHz : UInt64) (config : MoonemConfig) (capacity : Nat) (clock : UInt64) :
    SwPath D loop → Prop :=
  Relation.ReflTransGen (Step tscHz config) (init config capacity clock)

theorem init_inv (config : MoonemConfig) (capacity : Nat) (clock : UInt64) :
    (init config capacity clock : SwPath D loop).Inv :=
  ⟨rfl, trivial, fun _ => rfl, fun h => (nomatch h), fun _ h => (nomatch h)⟩

theorem Inv.receive {s : SwPath D loop} (h : s.Inv) (hsw : loop.Software) (burst : RxBurst) :
    (s.receive tscHz config burst).Inv := by
  by_cases hroom : (loop.iterate tscHz config s.rx burst).out.length ≤ s.ring.free
  · have hring := Ring.enqueueBulk_of_room hroom
    refine ⟨?_, ?_, h.idle, h.reached, h.onTime⟩
    · simp only [SwPath.receive, hring, if_pos hroom, ← h.fifo, sentPackets, List.append_assoc]
    · simp only [SwPath.receive, hring]
      rw [← List.append_assoc]
      exact h.grouped.append (iterate_grouped tscHz config hsw s.rx burst)
  · have hring := Ring.enqueueBulk_of_full hroom
    refine ⟨?_, ?_, h.idle, h.reached, h.onTime⟩
    · simpa only [SwPath.receive, hring, if_neg hroom, sentPackets] using h.fifo
    · simpa only [SwPath.receive, hring] using h.grouped

theorem Inv.step {s s' : SwPath D loop} (h : s.Inv) (hsw : loop.Software)
    (hstep : Step tscHz config s s') : s'.Inv := by
  cases hstep with
  | tick later => exact h.tick later
  | receive burst => exact h.receive hsw burst
  | dequeue idle _ _ _ => exact h.dequeueBurst idle _
  | poll head reached => exact h.poll head reached
  | send head polled => exact h.sendGroup head polled

theorem Reachable.inv {capacity : Nat} {clock : UInt64} {s : SwPath D loop} (hsw : loop.Software)
    (h : Reachable tscHz config capacity clock s) : s.Inv := by
  induction h with
  | refl => exact init_inv config capacity clock
  | tail _ hstep ih => exact ih.step hsw hstep

theorem Inv.drains_from {s : SwPath D loop} (h : s.Inv) (hclock : ∀ t, t ≤ s.clock) :
    ∃ s', Relation.ReflTransGen (Step tscHz config) s s' ∧ s'.pending = [] ∧
      s'.sentPackets = s.sentPackets ++ s.pending := by
  -- on the length of the array, which every group shortens
  induction hn : s.pending.length using Nat.strong_induction_on generalizing s with
  | _ n ih =>
      cases hhead : s.pending with
      | nil => exact ⟨s, .refl, hhead, (List.append_nil _).symm⟩
      | cons m rest =>
          have hreached : ¬ s.clock < m.timestamp := UInt64.not_lt.mpr (hclock _)
          have hpolled := h.poll hhead hreached
          have hshort := (hpolled.sendGroup_advances hhead).2
          obtain ⟨s', hsteps, hempty, hall⟩ :=
            ih _ (hn ▸ hshort) (hpolled.sendGroup hhead rfl) hclock rfl
          refine ⟨s', .head (.poll hhead hreached) (.head (.send hhead rfl) hsteps), hempty, ?_⟩
          rw [hall, ← hhead]
          simp only [SwPath.sendGroup, sentPackets, List.flatMap_append, List.flatMap_singleton,
            List.append_assoc, List.take_append_drop]

theorem Inv.drains {s : SwPath D loop} (h : s.Inv) :
    ∃ s', Relation.ReflTransGen (Step tscHz config) s s' ∧ s'.pending = [] ∧
      s'.sentPackets = s.sentPackets ++ s.pending := by
  have hlast : ∀ t : UInt64, t ≤ 0xFFFFFFFFFFFFFFFF := by
    intro t
    have hlt := t.toNat_lt
    rw [UInt64.le_iff_toNat_le]
    simp only [UInt64.reduceToNat]
    omega
  obtain ⟨s', hsteps, hempty, hall⟩ := (h.tick (hlast s.clock)).drains_from hlast
  exact ⟨s', .head (.tick (hlast s.clock)) hsteps, hempty, hall⟩

structure DeliversInOrder (tscHz : UInt64) (config : MoonemConfig) (s : SwPath D loop) : Prop where
  /-- What was sent, what is still in the transmit loop's array and what is still in
  the ring are, in this order, the packets that entered the ring. -/
  fifo : s.sentPackets ++ (s.pending ++ s.ring.contents) = s.entered
  onTime : ∀ call ∈ s.sent, ∀ m ∈ call.2, m.timestamp ≤ call.1
  advances : ∀ m rest, s.pending = m :: rest →
    m.burstSize ≠ 0 ∧ (s.sendGroup m).pending.length < s.pending.length
  /-- The packets in the array can all be sent, in order. -/
  drains : ∃ s', Relation.ReflTransGen (Step tscHz config) s s' ∧ s'.pending = [] ∧
    s'.sentPackets = s.sentPackets ++ s.pending

/-- In every interleaving of a software receive loop with the transmit loop, packets
are handed to the NIC once and in order, none before the clock reached its own
timestamp, and the transmit loop never stops at a packet. -/
theorem reachable_delivers_in_order (tscHz : UInt64) (config : MoonemConfig) (capacity : Nat)
    (clock : UInt64) (hsw : loop.Software) (s : SwPath D loop)
    (h : Reachable tscHz config capacity clock s) : s.DeliversInOrder tscHz config := by
  have hinv := h.inv hsw
  exact ⟨hinv.fifo, hinv.onTime, fun m rest hhead => hinv.sendGroup_advances hhead, hinv.drains⟩

theorem reachable_delivers_in_order_cut_group :
    ∃ s : SwPath Rat .swDelay, Reachable 1000000000 (delayOnly 5) 4 0 s ∧
      s.sentPackets = [⟨1, 60, 12, 2⟩] ∧ s.DeliversInOrder 1000000000 (delayOnly 5) := by
  let burst : RxBurst := ⟨[⟨1, 60, 0, 0⟩, ⟨2, 60, 0, 0⟩], 7, by decide⟩
  let received :=
    (init (delayOnly 5) 4 0 : SwPath Rat .swDelay).receive 1000000000 (delayOnly 5) burst
  let late : SwPath Rat .swDelay := { received with clock := 20 }
  let cut := late.dequeueBurst 1
  have hhead : cut.pending = [⟨1, 60, 12, 2⟩] := by decide +kernel
  have hreach : Reachable 1000000000 (delayOnly 5) 4 0 (({ cut with polled := true } :
      SwPath Rat .swDelay).sendGroup ⟨1, 60, 12, 2⟩) :=
    .tail (.tail (.tail (.tail (.tail .refl (.receive burst)) (.tick (by decide)))
      (.dequeue rfl (by decide) (by decide) (by decide +kernel)))
      (.poll hhead (by decide))) (.send hhead rfl)
  have hsw : ReceiveLoop.swDelay.Software := trivial
  have hsent := reachable_delivers_in_order 1000000000 (delayOnly 5) 4 0 hsw _ hreach
  exact ⟨_, hreach, by decide +kernel, hsent⟩

end SwPath

end MoonGen.Moonem

import Mathlib.Algebra.BigOperators.Group.List.Lemmas
import MoonGen.Lib.Channel
import MoonGen.Lib.Loop
import MoonGen.Rfc2544.Throughput

/-! # The slaves of a run

The throughput and the frame loss benchmark measure with the same slaves. Up to three load
slaves send through a queue each, first to the port before the port of the run and then to the
port itself. A counter slave counts what it receives by destination port. When the timers run out
or somebody stops the script is not fixed here, nor what the device under test does with a packet,
except that it does not copy it. Assumed of libmoon: `bar:wait` returns once all slaves for which
the barrier was made have called it, and `queue:send` puts as many packets on the wire as it
returns.
-/

namespace MoonGen.Rfc2544

open Loop

inductive LoadPhase where
  | lookup
  | waiting
  | warmup
  | benchmark
  | returned
deriving Repr, DecidableEq

structure LoadSlave where
  phase : LoadPhase
  total : Nat
deriving Repr, DecidableEq

inductive CounterPhase where
  | starting
  | waiting
  | counting
  | returned
deriving Repr, DecidableEq

structure CounterSlave where
  phase : CounterPhase
  ctrs : Nat → Nat

/-- `pkt.udp:setDstPort`; the field has 16 bits. -/
def dstPort (port : Nat) : Nat := port % 65536

/-- A run on a port. The wire has the destination ports of the packets. -/
structure Measuring where
  port : Nat
  loads : List LoadSlave
  counter : CounterSlave
  /-- How many slaves the barrier still waits for. -/
  missing : Nat
  wire : Channel Nat

inductive Act where
  /-- The load slave with the number has the address and waits at the barrier. -/
  | arrive (i : Nat)
  | pass (i : Nat)
  /-- `sendBufs(bufs, port - 1)`, with as many packets as `queue:send` returns. -/
  | warm (i n : Nat)
  /-- The timer of the warm-up has run out and is reset. -/
  | reset (i : Nat)
  | send (i n : Nat)
  | finish (i : Nat)
  | counterArrive
  | counterPass
  /-- `queue:tryRecv`, with the number it returns. -/
  | recv (n : Nat)
  | counterFinish
  | deliver (k : Nat)
  | lose (k : Nat)
  /-- Somebody else sends a packet to the port. -/
  | foreign (port : Nat)
deriving Repr, DecidableEq

namespace Measuring

def start (port numQueues : Nat) (wire : Channel Nat) : Measuring where
  port := port
  loads := List.replicate numQueues ⟨.lookup, 0⟩
  counter := ⟨.starting, fun _ => 0⟩
  missing := numQueues + 1
  wire := wire

def advance (s : Measuring) (i : Nat) (old new : LoadPhase) : Option Measuring :=
  match s.loads[i]? with
  | some load =>
      if load.phase = old then some { s with loads := s.loads.set i { load with phase := new } }
      else none
  | none => none

/-- `ctrs[port] = (ctrs[port] or 0) + 1` for each packet. -/
def countPorts (ctrs : Nat → Nat) (ports : List Nat) : Nat → Nat :=
  ports.foldl (fun ctrs port => Function.update ctrs port (ctrs port + 1)) ctrs

def step (s : Measuring) : Act → Option Measuring
  | .arrive i => (s.advance i .lookup .waiting).map fun t => { t with missing := t.missing - 1 }
  | .pass i => if s.missing = 0 then s.advance i .waiting .warmup else none
  | .warm i n =>
      (s.advance i .warmup .warmup).map fun t =>
        { t with wire := t.wire.send (List.replicate n (dstPort (t.port - 1))) }
  | .reset i => s.advance i .warmup .benchmark
  | .send i n =>
      (s.advance i .benchmark .benchmark).map fun t =>
        { t with
          loads := t.loads.modify i fun load => { load with total := load.total + n }
          wire := t.wire.send (List.replicate n (dstPort t.port)) }
  | .finish i => s.advance i .benchmark .returned
  | .counterArrive =>
      if s.counter.phase = .starting then
        some { s with counter := { s.counter with phase := .waiting }, missing := s.missing - 1 }
      else none
  | .counterPass =>
      if s.counter.phase = .waiting ∧ s.missing = 0 then
        some { s with counter := { s.counter with phase := .counting } }
      else none
  | .recv n =>
      if s.counter.phase = .counting then
        let (bufs, wire) := s.wire.fetch n
        some { s with
          counter := { s.counter with ctrs := countPorts s.counter.ctrs bufs }
          wire := wire }
      else none
  | .counterFinish =>
      if s.counter.phase = .counting then
        some { s with counter := { s.counter with phase := .returned } }
      else none
  | .deliver k => (s.wire.deliver k).map fun wire => { s with wire := wire }
  | .lose k => (s.wire.lose k).map fun wire => { s with wire := wire }
  | .foreign port => some { s with wire := s.wire.send [dstPort port] }

def spkts (s : Measuring) : Nat := (s.loads.map LoadSlave.total).sum

/-- What the master gets when all slaves have returned. -/
def result (s : Measuring) : Option Measurement :=
  if s.loads.all (fun load => load.phase = .returned) ∧ s.counter.phase = .returned then
    some ⟨s.spkts, s.counter.ctrs s.port⟩
  else none

/-- A whole run with what its slaves and the network do, in the order in which they do it. -/
def measure (port numQueues : Nat) (wire : Channel Nat) (acts : List Act) :
    Option (Measurement × Channel Nat) :=
  (runs step (start port numQueues wire) acts).bind fun s => s.result.map fun m => (m, s.wire)

/-! ## What an act does -/

theorem advance_cases {s s' : Measuring} {i : Nat} {old new : LoadPhase}
    (h : s.advance i old new = some s') :
    ∃ load, s.loads[i]? = some load ∧ load.phase = old ∧
      s' = { s with loads := s.loads.set i { load with phase := new } } := by
  unfold advance at h
  cases hload : s.loads[i]? with
  | none =>
      rw [hload] at h
      cases h
  | some load =>
      rw [hload] at h
      dsimp only at h
      split at h
      · rename_i hphase
        exact ⟨load, rfl, hphase, (Option.some.inj h).symm⟩
      · cases h

theorem advance_spkts {s s' : Measuring} {i : Nat} {old new : LoadPhase}
    (h : s.advance i old new = some s') : s'.spkts = s.spkts := by
  obtain ⟨load, hload, -, rfl⟩ := advance_cases h
  obtain ⟨hi, hget⟩ := List.getElem?_eq_some_iff.mp hload
  have hsame : (s.loads.set i { load with phase := new }).map LoadSlave.total =
      s.loads.map LoadSlave.total := by
    rw [List.map_set]
    apply List.ext_getElem?
    intro j
    rw [List.getElem?_set]
    split
    · rename_i hj
      subst hj
      simp [hi, hget]
    · rfl
  rw [spkts, spkts, hsame]

theorem countPorts_apply (ctrs : Nat → Nat) (ports : List Nat) (q : Nat) :
    countPorts ctrs ports q = ctrs q + ports.count q := by
  induction ports generalizing ctrs with
  | nil => rfl
  | cons port rest ih =>
      show countPorts (Function.update ctrs port (ctrs port + 1)) rest q = _
      rw [ih, Function.update_apply, List.count_cons]
      by_cases hq : q = port
      · subst hq
        rw [if_pos rfl, beq_self_eq_true, if_pos rfl]
        omega
      · have hne : (port == q) = false := beq_eq_false_iff_ne.mpr fun h => hq h.symm
        rw [if_neg hq, hne]
        rfl

end Measuring

def Act.sent (port : Nat) : Act → List Nat
  | .warm _ n => List.replicate n (dstPort (port - 1))
  | .send _ n => List.replicate n (dstPort port)
  | .foreign other => [dstPort other]
  | _ => []

/-- The packets that an act adds to the total of a load slave. -/
def Act.measured : Act → Nat
  | .send _ n => n
  | _ => 0

namespace Measuring

def holds (s : Measuring) (q : Nat) : Nat := s.wire.total q + s.counter.ctrs q

/-- The books of an act: the total of the load slaves, and each port. -/
structure Books (s : Measuring) (a : Act) (s' : Measuring) : Prop where
  port : s'.port = s.port
  queues : s'.loads.length = s.loads.length
  spkts : s'.spkts = s.spkts + a.measured
  holds : ∀ q, s'.holds q = s.holds q + (a.sent s.port).count q

theorem advance_books {s t : Measuring} {i : Nat} {old new : LoadPhase}
    (h : s.advance i old new = some t) :
    t.port = s.port ∧ t.loads.length = s.loads.length ∧ t.spkts = s.spkts ∧ t.wire = s.wire ∧
      t.counter = s.counter := by
  have hspkts := advance_spkts h
  obtain ⟨load, -, -, rfl⟩ := advance_cases h
  exact ⟨rfl, List.length_set, hspkts, rfl, rfl⟩

theorem Books.of_advance {s t : Measuring} {a : Act} {i : Nat} {old new : LoadPhase}
    (h : s.advance i old new = some t) (hsent : a.sent s.port = []) (hmeasured : a.measured = 0) :
    Books s a t := by
  obtain ⟨hport, hqueues, hspkts, hwire, hcounter⟩ := advance_books h
  constructor
  · exact hport
  · exact hqueues
  · rw [hspkts, hmeasured, Nat.add_zero]
  · intro q
    rw [Measuring.holds, Measuring.holds, hwire, hcounter, hsent, List.count_nil, Nat.add_zero]

theorem Books.of_wire {s : Measuring} {a : Act} (counter : CounterSlave) (wire : Channel Nat)
    (missing : Nat) (hmeasured : a.measured = 0)
    (hholds : ∀ q, wire.total q + counter.ctrs q = s.holds q + (a.sent s.port).count q) :
    Books s a { s with counter := counter, wire := wire, missing := missing } where
  port := rfl
  queues := rfl
  spkts := by rw [hmeasured]; rfl
  holds := hholds

theorem sum_modify_total (loads : List LoadSlave) (i n : Nat) (hi : i < loads.length) :
    ((loads.modify i fun load => { load with total := load.total + n }).map LoadSlave.total).sum =
      (loads.map LoadSlave.total).sum + n := by
  induction loads generalizing i with
  | nil => cases hi
  | cons load rest ih =>
      cases i with
      | zero =>
          show load.total + n + (rest.map LoadSlave.total).sum = _
          rw [List.map_cons, List.sum_cons]
          omega
      | succ i =>
          have hrest := ih i (Nat.lt_of_succ_lt_succ hi)
          rw [List.modify_succ_cons, List.map_cons, List.sum_cons, hrest, List.map_cons,
            List.sum_cons]
          omega

theorem step_books {s s' : Measuring} {a : Act} (h : s.step a = some s') : Books s a s' := by
  cases a with
  | arrive i =>
      obtain ⟨t, ht, rfl⟩ := Option.map_eq_some_iff.mp h
      have hbooks : Books s (.arrive i) t := .of_advance ht rfl rfl
      exact ⟨hbooks.port, hbooks.queues, hbooks.spkts, hbooks.holds⟩
  | pass i =>
      rw [step] at h
      split at h
      · exact .of_advance h rfl rfl
      · cases h
  | warm i n =>
      obtain ⟨t, ht, rfl⟩ := Option.map_eq_some_iff.mp h
      obtain ⟨hport, hqueues, hspkts, hwire, hcounter⟩ := advance_books ht
      refine ⟨hport, hqueues, hspkts, ?_⟩
      intro q
      show (t.wire.send _).total q + t.counter.ctrs q = _
      rw [Channel.total_send, hwire, hcounter, hport, holds, Act.sent]
      omega
  | reset i => exact .of_advance h rfl rfl
  | send i n =>
      obtain ⟨t, ht, rfl⟩ := Option.map_eq_some_iff.mp h
      obtain ⟨hport, hqueues, hspkts, hwire, hcounter⟩ := advance_books ht
      have hi : i < t.loads.length := by
        obtain ⟨load, hload, -, -⟩ := advance_cases ht
        rw [hqueues]
        exact (List.getElem?_eq_some_iff.mp hload).choose
      constructor
      · exact hport
      · exact (List.length_modify _ _ _).trans hqueues
      · exact (sum_modify_total t.loads i n hi).trans (congrArg (· + n) hspkts)
      · intro q
        show (t.wire.send _).total q + t.counter.ctrs q = _
        rw [Channel.total_send, hwire, hcounter, hport, holds, Act.sent]
        omega
  | finish i => exact .of_advance h rfl rfl
  | counterArrive =>
      rw [step] at h
      split at h
      · cases h
        exact .of_wire _ _ _ rfl fun q => rfl
      · cases h
  | counterPass =>
      rw [step] at h
      split at h
      · cases h
        exact .of_wire _ _ _ rfl fun q => rfl
      · cases h
  | recv n =>
      rw [step] at h
      split at h
      · cases h
        refine .of_wire _ _ _ rfl ?_
        intro q
        have hfetch := s.wire.total_fetch n q
        show (s.wire.fetch n).2.total q + countPorts s.counter.ctrs (s.wire.fetch n).1 q =
          s.wire.total q + s.counter.ctrs q
        rw [countPorts_apply]
        omega
      · cases h
  | counterFinish =>
      rw [step] at h
      split at h
      · cases h
        exact .of_wire _ _ _ rfl fun q => rfl
      · cases h
  | deliver k =>
      obtain ⟨wire, hwire, rfl⟩ := Option.map_eq_some_iff.mp h
      refine .of_wire _ _ _ rfl ?_
      intro q
      rw [Channel.total_deliver hwire]
      rfl
  | lose k =>
      obtain ⟨wire, hwire, rfl⟩ := Option.map_eq_some_iff.mp h
      refine .of_wire _ _ _ rfl ?_
      intro q
      rw [Channel.total_lose hwire]
      rfl
  | foreign port =>
      cases h
      refine .of_wire _ _ _ rfl ?_
      intro q
      rw [Channel.total_send, holds, Act.sent]
      omega

end Measuring

/-! ## What a run counts -/

/-- Ports from `lo` up to `hi` that no packet has yet, nor any packet a port that is none. -/
def Unused (lo hi : Nat) (wire : Channel Nat) : Prop :=
  ∀ q, lo ≤ q ∧ q < hi ∨ 65536 ≤ q → wire.total q = 0

def Act.Keeps (lo hi : Nat) (a : Act) : Prop :=
  ∀ port, a = .foreign port → dstPort port < lo ∨ hi ≤ dstPort port

theorem dstPort_lt (port : Nat) : dstPort port < 65536 := Nat.mod_lt _ (by decide)

theorem dstPort_of_lt {port : Nat} (h : port < 65536) : dstPort port = port := Nat.mod_eq_of_lt h

theorem Act.count_sent {port hi : Nat} (hpos : 0 < port) (hhi : hi ≤ 65536) {a : Act}
    (ha : a.Keeps port hi) {q : Nat} (hq : port ≤ q ∧ q < hi ∨ 65536 ≤ q) :
    (a.sent port).count q = if q = port ∧ port < 65536 then a.measured else 0 := by
  have hlow := dstPort_lt port
  cases a with
  | warm i n =>
      have hwarm := dstPort_lt (port - 1)
      have hne : dstPort (port - 1) ≠ q := by
        rcases hq with ⟨hle, hlt⟩ | hbig
        · rw [dstPort_of_lt (by omega)]
          omega
        · omega
      simp only [Act.sent, Act.measured, List.count_replicate, beq_eq_false_iff_ne.mpr hne, ite_self]
      rfl
  | send i n =>
      simp only [Act.sent, Act.measured, List.count_replicate, beq_iff_eq]
      by_cases hport : port < 65536
      · rw [dstPort_of_lt hport]
        simp only [hport, and_true, eq_comm]
      · rw [if_neg (by omega), if_neg (by omega)]
  | foreign other =>
      have hother := ha other rfl
      have hlt := dstPort_lt other
      have hne : dstPort other ≠ q := by omega
      simp [Act.sent, Act.measured, hne]
  | _ => simp [Act.sent, Act.measured]

namespace Measuring

/-- The port of a run has what its load slaves have sent; the ports after it have nothing. -/
def Counted (port hi : Nat) (s : Measuring) : Prop :=
  s.port = port ∧ ∀ q, port ≤ q ∧ q < hi ∨ 65536 ≤ q →
    s.holds q = if q = port ∧ port < 65536 then s.spkts else 0

theorem counted_start {port hi : Nat} (numQueues : Nat) {wire : Channel Nat}
    (h : Unused port hi wire) : Counted port hi (start port numQueues wire) := by
  refine ⟨rfl, ?_⟩
  intro q hq
  have hspkts : (start port numQueues wire).spkts = 0 := by
    simp [spkts, start]
  rw [hspkts, ite_self]
  exact h q hq

theorem Counted.step {port hi : Nat} (hpos : 0 < port) (hhi : hi ≤ 65536) {s s' : Measuring}
    {a : Act} (hs : Counted port hi s) (ha : a.Keeps port hi) (h : s.step a = some s') :
    Counted port hi s' := by
  have hbooks := step_books h
  refine ⟨hbooks.port.trans hs.1, ?_⟩
  intro q hq
  rw [hbooks.holds, hs.1, hs.2 q hq, Act.count_sent hpos hhi ha hq, hbooks.spkts]
  split
  · rfl
  · rfl

/-- In a run on an unused port, whatever the order in which the slaves and the network act, the
counter slave counts packets of this run's load slaves only and each of them once. What they
sent and it did not count is lost or still underway. The ports after it stay unused. A port
that does not fit into the field counts nothing. -/
theorem measure_spec {port hi : Nat} (hpos : 0 < port) (hhi : hi ≤ 65536) {numQueues : Nat}
    {wire wire' : Channel Nat} (hwire : Unused port hi wire) {acts : List Act}
    (hacts : ∀ a ∈ acts, a.Keeps port hi) {m : Measurement}
    (h : measure port numQueues wire acts = some (m, wire')) :
    (port < hi → m.spkts = m.rpkts + wire'.total port) ∧ (65536 ≤ port → m.rpkts = 0) ∧
      Unused (port + 1) hi wire' := by
  obtain ⟨s, hrun, hresult⟩ := Option.bind_eq_some_iff.mp h
  obtain ⟨m', hm, heq⟩ := Option.map_eq_some_iff.mp hresult
  obtain ⟨hport, hholds⟩ : Counted port hi s :=
    runs_invariant (Counted port hi) (fun _ _ _ hs ha hstep => hs.step hpos hhi ha hstep)
      (counted_start numQueues hwire) (along_of_forall step _ hacts) hrun
  cases heq
  obtain ⟨-, rfl⟩ : _ ∧ Measurement.mk s.spkts (s.counter.ctrs s.port) = m := by
    simpa only [result, Option.ite_none_right_eq_some, Option.some.injEq] using hm
  rw [hport]
  refine ⟨?_, ?_, ?_⟩
  · intro hlt
    have hown := hholds port (.inl ⟨Nat.le_refl _, hlt⟩)
    rw [if_pos ⟨rfl, by omega⟩, holds] at hown
    show s.spkts = s.counter.ctrs port + s.wire.total port
    omega
  · intro hbig
    have hown := hholds port (.inr hbig)
    rw [if_neg (by omega), holds] at hown
    show s.counter.ctrs port = 0
    omega
  · intro q hq
    have hother := hholds q (by omega)
    rw [if_neg (by omega), holds] at hother
    omega

end Measuring

end MoonGen.Rfc2544

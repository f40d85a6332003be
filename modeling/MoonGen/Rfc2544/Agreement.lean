import MoonGen.Lib.Lockstep
import MoonGen.Rfc2544.BackToBack

/-! # Both slaves of the back-to-back benchmark at once

`backtobackLoadSlave` is the left party and writes `rsns.sent`,
`backtobackCounterSlave` is the right one and writes `rsns.received`. In a round a
slave sends or counts a burst, writes its cell, waits at the barrier and compares
its own number with the cell of the other. Of libmoon it is assumed that `bar:wait`
returns once both have arrived; the sleeps, and the calls of `reinit` that they are for,
are left out. A slave that finds the script stopped (`dpdk.running()`) takes no further
step, and what `sendBurst` returns is an input.
-/

namespace MoonGen.Rfc2544.BackToBack

open Lockstep Loop

/-- The branch of a round: none for the first try, which is thrown away. -/
def top (s : Slave) (own : Nat) (cell : Option Nat) : Option Bool :=
  if s.first then none else some (some own == cell)

def slave (granularity : Rat) (maxPkts : Int) : Machine Slave Nat (Option Bool) where
  start := .start maxPkts
  reads s := !s.first
  branch := top
  next s branch := s.judge granularity (branch.getD false)
  finished := Slave.finished
  branch_comm := by
    intro s v w
    simp [top, BEq.comm]
  branch_unread := by
    intro s v v' cell cell' h
    simp only [Bool.not_eq_eq_eq_not, Bool.not_false] at h
    simp [top, h]
  start_running := rfl

/-- The same branch and the same burst count in every round; when one slave has finished, the
other has not gone further, and has finished if it has come as far; the same result. -/
structure SlavesAgree (s : System Slave Nat (Option Bool)) : Prop where
  top : ∀ (round : Nat) b b', (s.party .left).branches[round]? = some b →
    (s.party .right).branches[round]? = some b' → b = b'
  count : ∀ (round : Nat) x y, (s.party .left).rounds[round]? = some x →
    (s.party .right).rounds[round]? = some y → x.1.count = y.1.count
  finish : ∀ r, (s.party r).phase = .done →
    (s.party r.other).branches.length ≤ (s.party r).branches.length ∧
      ((s.party r.other).branches.length = (s.party r).branches.length →
        (s.party r.other).phase = .done)
  longest : (s.party .left).phase = .done → (s.party .right).phase = .done →
    (s.party .left).state.longest = (s.party .right).state.longest

/-- In every order of steps in which no slave writes its cell while the other, at the same
barrier, has still to read it, the slaves agree at every point. -/
theorem slaves_agree (granularity : Rat) (maxPkts : Int) (rsns : Role → Option Nat)
    (inputs : List (Role × Action Nat)) (s : System Slave Nat (Option Bool))
    (hrun : runs (step (slave granularity maxPkts)) (init (slave granularity maxPkts) rsns) inputs =
      some s)
    (hturn : Along (step (slave granularity maxPkts)) (InTurn (slave granularity maxPkts))
      (init (slave granularity maxPkts) rsns) inputs) : SlavesAgree s := by
  have hagree := agree_of_inTurn hrun hturn
  refine ⟨hagree.branches, ?_, hagree.finish, ?_⟩
  · intro round x y hx hy
    rw [hagree.rounds round x y hx hy]
  · intro hload hcounter
    rw [hagree.result hload hcounter]

/-! ## A burst of four through a buffer of two -/

def both (a b : Action Nat) : List (Role × Action Nat) := [(.left, a), (.right, b)]

/-- Both slaves come behind the barrier of a round with these two numbers. -/
def exchange (sent received : Nat) : List (Role × Action Nat) :=
  both (.publish sent) (.publish received) ++ both .arrive .arrive ++ both .pass .pass

def twoRounds : List (Role × Action Nat) :=
  both .arrive .arrive ++ both .pass .pass ++ exchange 4 2 ++ both .read .read ++ exchange 4 2

theorem slaves_agree_inTurn :
    ∃ s, runs (step (slave 1 4)) (init (slave 1 4) fun _ => none)
        (twoRounds ++ both .read .read ++ exchange 2 2 ++ both .read .read) = some s ∧
      SlavesAgree s := by
  have hsome : (runs (step (slave 1 4)) (init (slave 1 4) fun _ => none)
      (twoRounds ++ both .read .read ++ exchange 2 2 ++ both .read .read)).isSome = true := by
    decide +kernel
  obtain ⟨s, hrun⟩ := Option.isSome_iff_exists.mp hsome
  exact ⟨s, hrun, slaves_agree 1 4 _ _ s hrun (by decide +kernel)⟩

/-- The load slave has sent its next burst before the counter slave reads `rsns.sent`: it takes
the burst of two for the one of four, and finishes with that. -/
theorem counterSlave_overtaken :
    ∃ s, runs (step (slave 1 4)) (init (slave 1 4) fun _ => none)
        (twoRounds ++ [(.left, .read), (.left, .publish 2), (.right, .read)]) = some s ∧
      (s.party .right).phase = .done ∧ (s.party .right).state.longest = 4 ∧ ¬ SlavesAgree s := by
  have hend : (runs (step (slave 1 4)) (init (slave 1 4) fun _ => none)
      (twoRounds ++ [(.left, .read), (.left, .publish 2), (.right, .read)])).map (fun s =>
        ((s.party .right).phase, (s.party .right).state.longest, (s.party .left).branches[1]?,
          (s.party .right).branches[1]?)) =
      some (.done, 4, some (some false), some (some true)) := by decide +kernel
  obtain ⟨s, hrun, hs⟩ := Option.map_eq_some_iff.mp hend
  simp only [Prod.mk.injEq] at hs
  obtain ⟨hphase, hlongest, hload, hcounter⟩ := hs
  refine ⟨s, hrun, hphase, hlongest, ?_⟩
  intro h
  exact absurd (h.top 1 _ _ hload hcounter) (by decide)

end MoonGen.Rfc2544.BackToBack

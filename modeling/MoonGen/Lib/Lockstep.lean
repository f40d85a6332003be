import Mathlib.Logic.Function.Basic
import MoonGen.Lib.Loop

/-! # Two parties in lock step

Two copies of one deterministic machine work in rounds. In a round each of them
publishes a value in its own cell, waits at a barrier, reads the cell of the other
and takes a branch that both values decide. The barrier lets a party go on when the
other has arrived as often, so it keeps the rounds together but does not protect
the cells: a party that is ahead may publish its next value before the other has
read the last one. In runs in which that does not happen the copies agree.
-/

namespace MoonGen.Lockstep

open Loop

universe u v w

/-- The machine of which both parties run a copy. The branch depends on the two values in
the same way for both, and on none of them in a state that does not read. -/
structure Machine (σ : Type u) (ν : Type v) (β : Type w) where
  start : σ
  reads : σ → Bool
  branch : σ → ν → Option ν → β
  next : σ → β → σ
  finished : σ → Bool
  branch_comm : ∀ s v w, branch s v (some w) = branch s w (some v)
  branch_unread : ∀ s v v' cell cell', reads s = false → branch s v cell = branch s v' cell'
  start_running : finished start = false

inductive Role where
  | left
  | right
deriving Repr, DecidableEq

def Role.other : Role → Role
  | .left => .right
  | .right => .left

@[simp] theorem Role.other_other (r : Role) : r.other.other = r := by cases r <;> rfl

@[simp] theorem Role.other_ne (r : Role) : r.other ≠ r := by cases r <;> decide

theorem Role.eq_or_eq_other (q r : Role) : q = r ∨ q = r.other := by
  cases q <;> cases r <;> simp [other]

/-- Where a party stands: before and at the barrier in front of the first round, and then
in a round, with the value that it has published. -/
inductive Phase (ν : Type v) where
  | setup
  | gate
  | working
  | published (own : ν)
  | waiting (own : ν)
  | reading (own : ν)
  | done
deriving Repr, DecidableEq

def Phase.after {ν : Type v} : Bool → Phase ν
  | true => .done
  | false => .working

/-- At the barrier of a round or behind it, with the other cell still to be read. -/
def Phase.awaits {ν : Type v} : Phase ν → Bool
  | .waiting _ | .reading _ => true
  | _ => false

structure Party (σ : Type u) (ν : Type v) (β : Type w) where
  state : σ
  phase : Phase ν
  arrived : Nat
  passed : Nat
  rounds : List (σ × ν)
  branches : List β

inductive Action (ν : Type v) where
  | arrive
  | pass
  | publish (value : ν)
  | read
deriving Repr, DecidableEq

section Steps

variable {σ : Type u} {ν : Type v} {β : Type w}

/-- One step of a party. `isOpen` says whether the barrier lets it pass, `peer` is the cell of
the other party. -/
def Party.act (m : Machine σ ν β) (isOpen : Bool) (peer : Option ν) (me : Party σ ν β) :
    Action ν → Option (Party σ ν β)
  | .arrive =>
      match me.phase with
      | .setup => some { me with phase := .gate, arrived := me.arrived + 1 }
      | .published own => some { me with phase := .waiting own, arrived := me.arrived + 1 }
      | _ => none
  | .pass =>
      match me.phase, isOpen with
      | .gate, true => some { me with phase := .working, passed := me.passed + 1 }
      | .waiting own, true => some { me with phase := .reading own, passed := me.passed + 1 }
      | _, _ => none
  | .publish value =>
      match me.phase with
      | .working =>
          some { me with phase := .published value, rounds := me.rounds ++ [(me.state, value)] }
      | _ => none
  | .read =>
      match me.phase with
      | .reading own =>
          let branch := m.branch me.state own peer
          let state := m.next me.state branch
          some { me with
            state := state
            phase := .after (m.finished state)
            branches := me.branches ++ [branch] }
      | _ => none

structure System (σ : Type u) (ν : Type v) (β : Type w) where
  party : Role → Party σ ν β
  cell : Role → Option ν

def init (m : Machine σ ν β) (cell : Role → Option ν) : System σ ν β :=
  ⟨fun _ => ⟨m.start, .setup, 0, 0, [], []⟩, cell⟩

/-- The barrier releases a party when the other has arrived as often. -/
def System.isOpen (s : System σ ν β) (r : Role) : Bool :=
  decide ((s.party r).arrived ≤ (s.party r.other).arrived)

def System.write (s : System σ ν β) (r : Role) : Action ν → Role → Option ν
  | .publish value => Function.update s.cell r (some value)
  | _ => s.cell

def step (m : Machine σ ν β) (s : System σ ν β) (i : Role × Action ν) : Option (System σ ν β) :=
  ((s.party i.1).act m (s.isOpen i.1) (s.cell i.1.other) i.2).map fun me =>
    ⟨Function.update s.party i.1 me, s.write i.1 i.2⟩

def Party.pending (m : Machine σ ν β) (me : Party σ ν β) : Bool := me.phase.awaits && m.reads me.state

/-- A value is not published while the other party has still to read the one before. -/
def InTurn (m : Machine σ ν β) (s : System σ ν β) : Role × Action ν → Prop
  | (r, .publish _) =>
      ¬ ((s.party r.other).pending m = true ∧ (s.party r.other).arrived = (s.party r).arrived)
  | _ => True

instance (m : Machine σ ν β) (s : System σ ν β) : DecidablePred (InTurn m s)
  | (_, .publish _) => inferInstanceAs (Decidable (¬ (_ ∧ _)))
  | (_, .arrive) => isTrue trivial
  | (_, .pass) => isTrue trivial
  | (_, .read) => isTrue trivial

structure Agree (s : System σ ν β) : Prop where
  branches : ∀ (i : Nat) b b', (s.party .left).branches[i]? = some b →
    (s.party .right).branches[i]? = some b' → b = b'
  rounds : ∀ (i : Nat) x y, (s.party .left).rounds[i]? = some x →
    (s.party .right).rounds[i]? = some y → x.1 = y.1
  finish : ∀ r, (s.party r).phase = .done →
    (s.party r.other).branches.length ≤ (s.party r).branches.length ∧
      ((s.party r.other).branches.length = (s.party r).branches.length →
        (s.party r.other).phase = .done)
  result : (s.party .left).phase = .done → (s.party .right).phase = .done →
    (s.party .left).state = (s.party .right).state

end Steps

/-! ## What a step can do -/

section Moves

variable {σ : Type u} {ν : Type v} {β : Type w} {m : Machine σ ν β} {isOpen : Bool}
  {peer : Option ν} {me me' : Party σ ν β}

inductive Moves (m : Machine σ ν β) (isOpen : Bool) (peer : Option ν) (me : Party σ ν β) :
    Action ν → Party σ ν β → Prop where
  | enter (h : me.phase = .setup) :
      Moves m isOpen peer me .arrive { me with phase := .gate, arrived := me.arrived + 1 }
  | begin (h : me.phase = .gate) (hopen : isOpen = true) :
      Moves m isOpen peer me .pass { me with phase := .working, passed := me.passed + 1 }
  | publish (value : ν) (h : me.phase = .working) :
      Moves m isOpen peer me (.publish value)
        { me with phase := .published value, rounds := me.rounds ++ [(me.state, value)] }
  | arrive (own : ν) (h : me.phase = .published own) :
      Moves m isOpen peer me .arrive { me with phase := .waiting own, arrived := me.arrived + 1 }
  | pass (own : ν) (h : me.phase = .waiting own) (hopen : isOpen = true) :
      Moves m isOpen peer me .pass { me with phase := .reading own, passed := me.passed + 1 }
  | read (own : ν) (h : me.phase = .reading own) :
      Moves m isOpen peer me .read
        { me with
          state := m.next me.state (m.branch me.state own peer)
          phase := .after (m.finished (m.next me.state (m.branch me.state own peer)))
          branches := me.branches ++ [m.branch me.state own peer] }

theorem moves_of_act {a : Action ν} (h : me.act m isOpen peer a = some me') :
    Moves m isOpen peer me a me' := by
  cases a with
  | arrive =>
      cases hphase : me.phase with
      | setup =>
          simp only [Party.act, hphase, Option.some.injEq] at h
          subst h
          exact .enter hphase
      | published own =>
          simp only [Party.act, hphase, Option.some.injEq] at h
          subst h
          exact .arrive own hphase
      | _ => simp [Party.act, hphase] at h
  | pass =>
      cases hopen : isOpen with
      | false => cases hphase : me.phase <;> simp [Party.act, hphase, hopen] at h
      | true =>
          subst hopen
          cases hphase : me.phase with
          | gate =>
              simp only [Party.act, hphase, Option.some.injEq] at h
              subst h
              exact .begin hphase rfl
          | waiting own =>
              simp only [Party.act, hphase, Option.some.injEq] at h
              subst h
              exact .pass own hphase rfl
          | _ => simp [Party.act, hphase] at h
  | publish value =>
      cases hphase : me.phase with
      | working =>
          simp only [Party.act, hphase, Option.some.injEq] at h
          subst h
          exact .publish value hphase
      | _ => simp [Party.act, hphase] at h
  | read =>
      cases hphase : me.phase with
      | reading own =>
          simp only [Party.act, hphase, Option.some.injEq] at h
          subst h
          exact .read own hphase
      | _ => simp [Party.act, hphase] at h

theorem step_cases {s s' : System σ ν β} {r : Role} {a : Action ν} (h : step m s (r, a) = some s') :
    Moves m (s.isOpen r) (s.cell r.other) (s.party r) a (s'.party r) ∧
      s'.party r.other = s.party r.other ∧ s'.cell = s.write r a := by
  obtain ⟨me, hact, rfl⟩ := Option.map_eq_some_iff.mp h
  refine ⟨?_, ?_, rfl⟩
  · simpa using moves_of_act hact
  · simp

end Moves

/-! ## The history of a party -/

section History

variable {σ : Type u} {ν : Type v} {β : Type w} {m : Machine σ ν β} {isOpen : Bool}
  {peer : Option ν} {a : Action ν} {me me' : Party σ ν β}

def Machine.replay (m : Machine σ ν β) (branches : List β) : σ := branches.foldl m.next m.start

theorem Machine.replay_concat (m : Machine σ ν β) (branches : List β) (b : β) :
    m.replay (branches ++ [b]) = m.next (m.replay branches) b := by
  simp [replay]

namespace Phase

def begun : Phase ν → Nat
  | .published _ | .waiting _ | .reading _ => 1
  | _ => 0

/-- The arrivals at the barrier, beyond one for each ended round. -/
def arrivals : Phase ν → Nat
  | .setup => 0
  | .waiting _ | .reading _ => 2
  | _ => 1

def passes : Phase ν → Nat
  | .setup | .gate => 0
  | .reading _ => 2
  | _ => 1

def own? : Phase ν → Option ν
  | .published own | .waiting own | .reading own => some own
  | _ => none

variable (finished : Bool)

@[simp] theorem begun_after : (after finished : Phase ν).begun = 0 := by cases finished <;> rfl

@[simp] theorem arrivals_after : (after finished : Phase ν).arrivals = 1 := by
  cases finished <;> rfl

@[simp] theorem passes_after : (after finished : Phase ν).passes = 1 := by cases finished <;> rfl

@[simp] theorem own?_after : (after finished : Phase ν).own? = none := by cases finished <;> rfl

@[simp] theorem awaits_after : (after finished : Phase ν).awaits = false := by
  cases finished <;> rfl

@[simp] theorem after_eq_done : (after finished : Phase ν) = .done ↔ finished = true := by
  cases finished <;> simp [after]

end Phase

structure History (m : Machine σ ν β) (me : Party σ ν β) : Prop where
  length_rounds : me.rounds.length = me.branches.length + me.phase.begun
  arrived : me.arrived = me.branches.length + me.phase.arrivals
  passed : me.passed = me.branches.length + me.phase.passes
  state : me.state = m.replay me.branches
  rounds : ∀ (i : Nat) x, me.rounds[i]? = some x → x.1 = m.replay (me.branches.take i)
  own : ∀ v, me.phase.own? = some v → me.rounds[me.branches.length]? = some (me.state, v)
  running : ∀ i < me.branches.length, m.finished (m.replay (me.branches.take i)) = false
  done : me.phase = .done ↔ m.finished me.state = true

theorem History.bounds (h : History m me) :
    me.rounds.length ≤ me.passed ∧ me.passed ≤ me.arrived ∧
      me.arrived ≤ me.rounds.length + 1 := by
  rw [h.length_rounds, h.arrived, h.passed]
  cases me.phase <;> simp [Phase.begun, Phase.arrivals, Phase.passes]

theorem History.passed_succ (h : History m me) (hphase : me.phase.arrivals = me.phase.passes + 1) :
    me.passed + 1 = me.arrived := by
  rw [h.arrived, h.passed, hphase]
  rfl

theorem History.arrived_of_awaits (h : History m me) (hphase : me.phase.awaits = true) :
    me.arrived = me.branches.length + 2 := by
  rw [h.arrived]
  cases hp : me.phase <;> simp_all [Phase.awaits, Phase.arrivals]

theorem history_init (m : Machine σ ν β) : History m ⟨m.start, .setup, 0, 0, [], []⟩ where
  length_rounds := rfl
  arrived := rfl
  passed := rfl
  state := rfl
  rounds := by simp
  own := by simp [Phase.own?]
  running := by simp
  done := by simp [m.start_running]

theorem History.length_working (h : History m me) (hphase : me.phase = .working) :
    me.rounds.length = me.branches.length := by
  simpa [hphase, Phase.begun] using h.length_rounds

theorem History.rounds_publish (h : History m me) (hphase : me.phase = .working) (value : ν)
    (i : Nat) {x : σ × ν} (hx : (me.rounds ++ [(me.state, value)])[i]? = some x) :
    x.1 = m.replay (me.branches.take i) := by
  have hlength := h.length_working hphase
  rcases Nat.lt_trichotomy i me.rounds.length with hlt | heq | hgt
  · rw [List.getElem?_append_left hlt] at hx
    exact h.rounds i x hx
  · rw [heq, List.getElem?_concat_length] at hx
    cases hx
    rw [heq, hlength, List.take_length]
    exact h.state
  · rw [List.getElem?_eq_none (by simpa using Nat.succ_le_of_lt hgt)] at hx
    cases hx

theorem History.rounds_read (h : History m me) {own : ν} (hphase : me.phase = .reading own) (b : β)
    (i : Nat) {x : σ × ν} (hx : me.rounds[i]? = some x) :
    x.1 = m.replay ((me.branches ++ [b]).take i) := by
  obtain ⟨hi, _⟩ := List.getElem?_eq_some_iff.mp hx
  rw [h.length_rounds, hphase, Phase.begun] at hi
  rw [List.take_append_of_le_length (by omega)]
  exact h.rounds i x hx

theorem History.running_read (h : History m me) {own : ν} (hphase : me.phase = .reading own) (b : β)
    {i : Nat} (hi : i < (me.branches ++ [b]).length) :
    m.finished (m.replay ((me.branches ++ [b]).take i)) = false := by
  rw [List.length_append, List.length_singleton] at hi
  rw [List.take_append_of_le_length (by omega)]
  rcases Nat.lt_succ_iff_lt_or_eq.mp hi with hlt | rfl
  · exact h.running i hlt
  · rw [List.take_length, ← h.state]
    have hdone := h.done
    rw [hphase] at hdone
    simpa using hdone

theorem History.moves (h : History m me) (hmove : Moves m isOpen peer me a me') :
    History m me' := by
  have hlength := h.length_rounds
  have harrived := h.arrived
  have hpassed := h.passed
  have hown := h.own
  have hdone := h.done
  cases hmove with
  | enter hphase =>
      rw [hphase] at hlength harrived hpassed hdone
      exact ⟨hlength, by simpa [Phase.arrivals] using harrived, hpassed, h.state, h.rounds,
        by simp [Phase.own?], h.running, by simpa using hdone⟩
  | begin hphase _ =>
      rw [hphase] at hlength harrived hpassed hdone
      exact ⟨hlength, harrived, by simpa [Phase.passes] using hpassed, h.state, h.rounds,
        by simp [Phase.own?], h.running, by simpa using hdone⟩
  | publish value hphase =>
      rw [hphase] at harrived hpassed hdone
      refine ⟨by simp [h.length_working hphase, Phase.begun], harrived, hpassed, h.state,
        fun i x => h.rounds_publish hphase value i, ?_, h.running, by simpa using hdone⟩
      intro v hv
      cases hv
      show (me.rounds ++ [(me.state, value)])[me.branches.length]? = _
      rw [← h.length_working hphase, List.getElem?_concat_length]
  | arrive own hphase =>
      rw [hphase] at hlength harrived hpassed hown hdone
      exact ⟨hlength, by simpa [Phase.arrivals] using harrived, hpassed, h.state, h.rounds, hown,
        h.running, by simpa using hdone⟩
  | pass own hphase _ =>
      rw [hphase] at hlength harrived hpassed hown hdone
      exact ⟨hlength, harrived, by simpa [Phase.passes] using hpassed, h.state, h.rounds, hown,
        h.running, by simpa using hdone⟩
  | read own hphase =>
      rw [hphase] at hlength harrived hpassed
      have hstate : m.next me.state (m.branch me.state own peer) =
          m.replay (me.branches ++ [m.branch me.state own peer]) := by
        rw [m.replay_concat, ← h.state]
      have hlength : me.rounds.length = me.branches.length + 1 := hlength
      have harrived : me.arrived = me.branches.length + 2 := harrived
      have hpassed : me.passed = me.branches.length + 2 := hpassed
      exact ⟨by simp [hlength], by simp [harrived], by simp [hpassed], hstate,
        fun i x => h.rounds_read hphase _ i, by simp, fun i => h.running_read hphase _,
        Phase.after_eq_done _⟩

theorem Moves.arrived_le (hmove : Moves m isOpen peer me a me') : me.arrived ≤ me'.arrived := by
  cases hmove <;> simp

theorem Moves.rounds_get (hmove : Moves m isOpen peer me a me') {i : Nat} {x : σ × ν}
    (hx : me.rounds[i]? = some x) : me'.rounds[i]? = some x := by
  cases hmove with
  | publish value _ =>
      obtain ⟨hi, _⟩ := List.getElem?_eq_some_iff.mp hx
      rw [← hx]
      exact List.getElem?_append_left hi
  | _ => exact hx

end History

/-! ## What holds of both parties -/

section Invariant

variable {σ : Type u} {ν : Type v} {β : Type w} {m : Machine σ ν β} {s s' : System σ ν β}
  {r : Role} {a : Action ν}

/-- A branch was taken on the values that both have published in its round. -/
def Founded (m : Machine σ ν β) (s : System σ ν β) (r : Role) : Prop :=
  ∀ (i : Nat) b, (s.party r).branches[i]? = some b →
    ∃ x y, (s.party r).rounds[i]? = some x ∧ (s.party r.other).rounds[i]? = some y ∧
      b = m.branch x.1 x.2 (some y.2)

structure Inv (m : Machine σ ν β) (s : System σ ν β) : Prop where
  history : ∀ r, History m (s.party r)
  barrier : ∀ r, (s.party r).passed ≤ (s.party r.other).arrived
  cell : ∀ r x, (s.party r).rounds.getLast? = some x → s.cell r = some x.2
  unread : ∀ r, (s.party r).pending m = true →
    (s.party r.other).rounds.length ≤ (s.party r).branches.length + 1
  founded : ∀ r, Founded m s r

theorem inv_init (m : Machine σ ν β) (cell : Role → Option ν) : Inv m (init m cell) where
  history := fun _ => history_init m
  barrier := fun _ => Nat.le_refl 0
  cell := by simp [init]
  unread := by simp [init, Party.pending, Phase.awaits]
  founded := by simp [Founded, init]

theorem barrier_step (h : Inv m s) (hstep : step m s (r, a) = some s') (q : Role) :
    (s'.party q).passed ≤ (s'.party q.other).arrived := by
  obtain ⟨hmove, hother, _⟩ := step_cases hstep
  have hhistory := h.history r
  have hbarrier := h.barrier r
  rcases Role.eq_or_eq_other q r with rfl | rfl
  · rw [hother]
    generalize s'.party q = me' at hmove
    cases hmove with
    | begin hphase hopen =>
        have hat := hhistory.passed_succ (by rw [hphase]; rfl)
        exact hat.symm ▸ of_decide_eq_true hopen
    | pass own hphase hopen =>
        have hat := hhistory.passed_succ (by rw [hphase]; rfl)
        exact hat.symm ▸ of_decide_eq_true hopen
    | _ => exact hbarrier
  · rw [Role.other_other, hother]
    have hle := h.barrier r.other
    rw [Role.other_other] at hle
    exact Nat.le_trans hle hmove.arrived_le

theorem cell_step (h : Inv m s) (hstep : step m s (r, a) = some s') (q : Role) (x : σ × ν)
    (hx : (s'.party q).rounds.getLast? = some x) : s'.cell q = some x.2 := by
  obtain ⟨hmove, hother, hcell⟩ := step_cases hstep
  rw [hcell]
  rcases Role.eq_or_eq_other q r with rfl | rfl
  · generalize s'.party q = me' at hmove hx
    cases hmove with
    | publish value _ =>
        simp only [List.getLast?_concat, Option.some.injEq] at hx
        subst hx
        simp [System.write]
    | _ => exact h.cell q x hx
  · rw [hother] at hx
    have hkeep : s.write r a r.other = s.cell r.other := by
      cases a <;> simp [System.write]
    rw [hkeep]
    exact h.cell r.other x hx

theorem Inv.rounds_le_arrived (h : Inv m s) (r : Role) :
    (s.party r.other).rounds.length ≤ (s.party r).arrived := by
  have hbarrier := h.barrier r.other
  rw [Role.other_other] at hbarrier
  exact Nat.le_trans (h.history r.other).bounds.1 hbarrier

theorem unread_step (h : Inv m s) (hturn : InTurn m s (r, a)) (hstep : step m s (r, a) = some s')
    (q : Role) (hpending : (s'.party q).pending m = true) :
    (s'.party q.other).rounds.length ≤ (s'.party q).branches.length + 1 := by
  obtain ⟨hmove, hother, _⟩ := step_cases hstep
  rcases Role.eq_or_eq_other q r with rfl | rfl
  · rw [hother]
    have harrived := (h.history q).arrived
    have hle := h.rounds_le_arrived q
    have hunread := h.unread q
    generalize s'.party q = me' at hmove hpending
    cases hmove with
    | arrive own hphase =>
        rw [harrived, hphase] at hle
        exact hle
    | pass own hphase _ =>
        apply hunread
        simpa [Party.pending, Phase.awaits, hphase] using hpending
    | read own hphase => simp [Party.pending] at hpending
    | _ => simp [Party.pending, Phase.awaits] at hpending
  · rw [hother] at hpending ⊢
    have hunread := h.unread r.other hpending
    rw [Role.other_other] at hunread ⊢
    generalize s'.party r = me' at hmove
    cases hmove with
    | publish value hphase =>
        -- the other party is at most one round behind, and the turn rules that out
        have hmine := (h.history r).length_working hphase
        have harrived := (h.history r).arrived
        have hpassed := (h.history r).passed
        have hbarrier := h.barrier r
        have hawaits := (Bool.and_eq_true_iff.mp hpending).1
        have hlate := (h.history r.other).arrived_of_awaits hawaits
        have hne : (s.party r.other).arrived ≠ (s.party r).arrived :=
          fun heq => hturn ⟨hpending, heq⟩
        rw [hphase] at harrived hpassed
        simp only [Phase.arrivals, Phase.passes] at harrived hpassed
        simp only [List.length_append, List.length_singleton]
        omega
    | _ => exact hunread

theorem Inv.peer_value (h : Inv m s) {own : ν} (hphase : (s.party r).phase = .reading own) :
    ∃ y, (s.party r.other).rounds[(s.party r).branches.length]? = some y ∧
      (m.reads (s.party r).state = true → s.cell r.other = some y.2) := by
  have hpassed := (h.history r).passed
  have hbarrier := h.barrier r
  have hbegun := (h.history r.other).bounds.2.2
  rw [hphase, Phase.passes] at hpassed
  have hlt : (s.party r).branches.length < (s.party r.other).rounds.length := by omega
  refine ⟨(s.party r.other).rounds[(s.party r).branches.length], List.getElem?_eq_getElem hlt, ?_⟩
  intro hreads
  have hle := h.unread r (by simp [Party.pending, Phase.awaits, hphase, hreads])
  apply h.cell
  rw [List.getLast?_eq_getElem?, ← List.getElem?_eq_getElem hlt]
  congr 1
  omega

theorem founded_step (h : Inv m s) (hstep : step m s (r, a) = some s') (q : Role) :
    Founded m s' q := by
  obtain ⟨hmove, hother, _⟩ := step_cases hstep
  intro i b hb
  rcases Role.eq_or_eq_other q r with rfl | rfl
  · have hkeep : (s.party q).branches[i]? = some b →
        ∃ x y, (s'.party q).rounds[i]? = some x ∧ (s'.party q.other).rounds[i]? = some y ∧
          b = m.branch x.1 x.2 (some y.2) := by
      intro hold
      obtain ⟨x, y, hx, hy, hbranch⟩ := h.founded q i b hold
      exact ⟨x, y, hmove.rounds_get hx, by rw [hother]; exact hy, hbranch⟩
    rw [hother] at hkeep ⊢
    have hown := (h.history q).own
    generalize s'.party q = me' at hmove hb hkeep
    cases hmove with
    | read own hphase =>
        rcases Nat.lt_or_ge i (s.party q).branches.length with hlt | hge
        · rw [List.getElem?_append_left hlt] at hb
          exact hkeep hb
        · obtain ⟨hi, _⟩ := List.getElem?_eq_some_iff.mp hb
          have hi : i = (s.party q).branches.length := by
            rw [List.length_append, List.length_singleton] at hi
            omega
          subst hi
          rw [List.getElem?_concat_length, Option.some.injEq] at hb
          obtain ⟨y, hy, hcell⟩ := h.peer_value hphase
          refine ⟨((s.party q).state, own), y, hown own (by rw [hphase]; rfl), hy, ?_⟩
          rw [← hb]
          cases hreads : m.reads (s.party q).state with
          | true => rw [hcell hreads]
          | false => exact m.branch_unread _ _ _ _ _ hreads
    | _ => exact hkeep hb
  · rw [hother] at hb ⊢
    obtain ⟨x, y, hx, hy, hbranch⟩ := h.founded r.other i b hb
    rw [Role.other_other] at hy ⊢
    exact ⟨x, y, hx, hmove.rounds_get hy, hbranch⟩

theorem Inv.step (h : Inv m s) (hturn : InTurn m s (r, a)) (hstep : step m s (r, a) = some s') :
    Inv m s' where
  history := by
    intro q
    obtain ⟨hmove, hother, _⟩ := step_cases hstep
    rcases Role.eq_or_eq_other q r with rfl | rfl
    · exact (h.history q).moves hmove
    · rw [hother]
      exact h.history r.other
  barrier := barrier_step h hstep
  cell := cell_step h hstep
  unread := unread_step h hturn hstep
  founded := founded_step h hstep

theorem inv_of_runs {cell : Role → Option ν} {inputs : List (Role × Action ν)}
    (hrun : runs (Lockstep.step m) (init m cell) inputs = some s)
    (hturn : Along (Lockstep.step m) (InTurn m) (init m cell) inputs) : Inv m s :=
  runs_invariant (Inv m) (fun _ _ _ hs hi hst => hs.step hi hst) (inv_init m cell) hturn hrun

end Invariant

/-! ## Agreement -/

section Agreement

variable {σ : Type u} {ν : Type v} {β : Type w} {m : Machine σ ν β} {s : System σ ν β}

/-- In a round that both have ended, both have taken the same branch if they came to it with
the same branches. -/
theorem Inv.branch_eq (h : Inv m s) (r : Role) {i : Nat} {b b' : β}
    (htake : (s.party r).branches.take i = (s.party r.other).branches.take i)
    (hb : (s.party r).branches[i]? = some b) (hb' : (s.party r.other).branches[i]? = some b') :
    b = b' := by
  obtain ⟨x, y, hx, hy, rfl⟩ := h.founded r i b hb
  obtain ⟨y', x', hy', hx', rfl⟩ := h.founded r.other i b' hb'
  rw [Role.other_other, hx] at hx'
  rw [hy] at hy'
  cases hx'
  cases hy'
  have hstate : x.1 = y.1 := by
    rw [(h.history r).rounds i x hx, (h.history r.other).rounds i y hy, htake]
  rw [hstate]
  exact m.branch_comm _ _ _

theorem Inv.take_eq (h : Inv m s) (r : Role) {i : Nat} (hi : i ≤ (s.party r).branches.length)
    (hi' : i ≤ (s.party r.other).branches.length) :
    (s.party r).branches.take i = (s.party r.other).branches.take i := by
  induction i with
  | zero => rfl
  | succ i ih =>
      have htake := ih (Nat.le_of_succ_le hi) (Nat.le_of_succ_le hi')
      have hb := List.getElem?_eq_getElem (Nat.lt_of_succ_le hi)
      have hb' := List.getElem?_eq_getElem (Nat.lt_of_succ_le hi')
      rw [List.take_add_one, List.take_add_one, htake, hb, hb', h.branch_eq r htake hb hb']

theorem Inv.state_eq (h : Inv m s) (r : Role)
    (hlength : (s.party r.other).branches.length = (s.party r).branches.length) :
    (s.party r.other).state = (s.party r).state := by
  have htake := h.take_eq r (Nat.le_refl _) (Nat.le_of_eq hlength.symm)
  rw [List.take_length, ← hlength, List.take_length] at htake
  rw [(h.history r.other).state, (h.history r).state, htake]

theorem Inv.finish (h : Inv m s) (r : Role) (hdone : (s.party r).phase = .done) :
    (s.party r.other).branches.length ≤ (s.party r).branches.length ∧
      ((s.party r.other).branches.length = (s.party r).branches.length →
        (s.party r.other).phase = .done) := by
  have hfinished := (h.history r).done.mp hdone
  constructor
  · by_contra hlt
    have hlt := Nat.lt_of_not_le hlt
    have hrunning := (h.history r.other).running _ hlt
    rw [← h.take_eq r (Nat.le_refl _) (Nat.le_of_lt hlt), List.take_length,
      ← (h.history r).state, hfinished] at hrunning
    cases hrunning
  · intro hlength
    rw [(h.history r.other).done, h.state_eq r hlength]
    exact hfinished

theorem Inv.agree (h : Inv m s) : Agree s where
  branches := by
    intro i b b' hb hb'
    obtain ⟨hi, _⟩ := List.getElem?_eq_some_iff.mp hb
    obtain ⟨hi', _⟩ := List.getElem?_eq_some_iff.mp hb'
    exact h.branch_eq .left (h.take_eq .left (Nat.le_of_lt hi) (Nat.le_of_lt hi')) hb hb'
  rounds := by
    intro i x y hx hy
    have hlength : ∀ r z, (s.party r).rounds[i]? = some z → i ≤ (s.party r).branches.length := by
      intro r z hz
      obtain ⟨hi, _⟩ := List.getElem?_eq_some_iff.mp hz
      have hbegun := (h.history r).length_rounds
      have hone : (s.party r).phase.begun ≤ 1 := by
        cases (s.party r).phase <;> simp [Phase.begun]
      omega
    rw [(h.history .left).rounds i x hx, (h.history .right).rounds i y hy,
      h.take_eq .left (hlength .left x hx) (hlength .right y hy)]
    rfl
  finish := h.finish
  result := by
    intro hleft hright
    have hle := (h.finish .left hleft).1
    have hge := (h.finish .right hright).1
    exact (h.state_eq .left (Nat.le_antisymm hle hge)).symm

/-- In every run in which the values are published in turn, the copies agree at every point. -/
theorem agree_of_inTurn {cell : Role → Option ν} {inputs : List (Role × Action ν)}
    (hrun : runs (step m) (init m cell) inputs = some s)
    (hturn : Along (step m) (InTurn m) (init m cell) inputs) : Agree s :=
  (inv_of_runs hrun hturn).agree

end Agreement

end MoonGen.Lockstep

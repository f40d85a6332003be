import MoonGen.Lib.Barrier
import MoonGen.Rfc2544.Slaves

/-! # The barrier of the slaves

The master makes the barrier for the load slaves and the counter slave. No load slave sends
before all of them are there, and none waits for ever. The steps of a barrier, `Barrier.Step`, are
what is assumed of libmoon's.
-/

namespace MoonGen.Rfc2544

open Loop

def LoadPhase.place : LoadPhase → Barrier.Place
  | .lookup => .outside
  | .waiting => .waiting
  | .warmup => .inside
  | .benchmark => .inside
  | .returned => .inside

def CounterPhase.place : CounterPhase → Barrier.Place
  | .starting => .outside
  | .waiting => .waiting
  | .counting => .inside
  | .returned => .inside

theorem LoadPhase.place_outside {p : LoadPhase} : p.place = .outside ↔ p = .lookup := by
  cases p <;> simp [LoadPhase.place]

theorem LoadPhase.place_waiting {p : LoadPhase} : p.place = .waiting ↔ p = .waiting := by
  cases p <;> simp [LoadPhase.place]

theorem CounterPhase.place_outside {p : CounterPhase} : p.place = .outside ↔ p = .starting := by
  cases p <;> simp [CounterPhase.place]

theorem CounterPhase.place_waiting {p : CounterPhase} : p.place = .waiting ↔ p = .waiting := by
  cases p <;> simp [CounterPhase.place]

namespace Measuring

/-- The barrier of a run; the counter slave is the last party. -/
def barrier (s : Measuring) : Barrier where
  parties := s.loads.map (fun load => load.phase.place) ++ [s.counter.phase.place]
  missing := s.missing

theorem barrier_start (port numQueues : Nat) (wire : Channel Nat) :
    (start port numQueues wire).barrier = .start (numQueues + 1) := by
  simp only [barrier, start, Barrier.start, List.map_replicate, List.replicate_succ']
  rfl

theorem mem_parties {s : Measuring} {p : Barrier.Place} :
    p ∈ s.barrier.parties ↔
      (∃ load ∈ s.loads, load.phase.place = p) ∨ s.counter.phase.place = p := by
  simp [barrier, eq_comm]

theorem advance_parties {s t : Measuring} {i : Nat} {old new : LoadPhase}
    (h : s.advance i old new = some t) :
    s.barrier.parties[i]? = some old.place ∧
      t.barrier.parties = s.barrier.parties.set i new.place ∧ t.missing = s.missing := by
  obtain ⟨load, hload, rfl, rfl⟩ := advance_cases h
  obtain ⟨hi, hget⟩ := List.getElem?_eq_some_iff.mp hload
  have hlen : i < (s.loads.map fun load => load.phase.place).length := by
    rw [List.length_map]
    exact hi
  refine ⟨?_, ?_, rfl⟩
  · rw [barrier, List.getElem?_append_left hlen, List.getElem?_map, hload]
    rfl
  · simp only [barrier]
    rw [List.map_set, List.set_append_left _ _ hlen]

theorem counter_parties (s : Measuring) (c : CounterSlave) :
    s.barrier.parties[s.loads.length]? = some s.counter.phase.place ∧
      ({ s with counter := c } : Measuring).barrier.parties =
        s.barrier.parties.set s.loads.length c.phase.place := by
  have hlen : (s.loads.map fun load => load.phase.place).length = s.loads.length :=
    List.length_map _
  constructor
  · rw [barrier, List.getElem?_append_right hlen.le, hlen, Nat.sub_self]
    rfl
  · simp only [barrier]
    rw [List.set_append_right _ _ hlen.le, hlen, Nat.sub_self]
    rfl

/-- An act is a step of the barrier, or leaves it alone. -/
theorem step_barrier {s s' : Measuring} {a : Act} (h : s.step a = some s') :
    s'.barrier = s.barrier ∨ Barrier.Step s.barrier s'.barrier := by
  -- a slave inside the barrier stays inside
  have hinside {i : Nat} {old new : LoadPhase} {t : Measuring}
      (hstep : s.advance i old new = some t) (hplace : new.place = old.place) :
      t.barrier = s.barrier := by
    obtain ⟨hget, hparties, hmissing⟩ := advance_parties hstep
    obtain ⟨hi, hi'⟩ := List.getElem?_eq_some_iff.mp hget
    have hsame : t.barrier.parties = s.barrier.parties := by
      rw [hparties, hplace, ← hi', List.set_getElem_self]
    exact congrArg₂ Barrier.mk hsame hmissing
  cases a with
  | arrive i =>
      obtain ⟨t, ht, rfl⟩ := Option.map_eq_some_iff.mp h
      obtain ⟨hget, hparties, hmissing⟩ := advance_parties ht
      exact .inr (.arrive i hget hparties (congrArg (· - 1) hmissing))
  | pass i =>
      rw [step] at h
      split at h
      · rename_i hopen
        obtain ⟨hget, hparties, hmissing⟩ := advance_parties h
        exact .inr (.pass i hget hopen hparties hmissing)
      · cases h
  | warm i n =>
      obtain ⟨t, ht, rfl⟩ := Option.map_eq_some_iff.mp h
      have hsame := hinside ht rfl
      exact .inl hsame
  | reset i => exact .inl (hinside h rfl)
  | send i n =>
      obtain ⟨t, ht, rfl⟩ := Option.map_eq_some_iff.mp h
      left
      rw [← hinside ht rfl]
      have hphases : (t.loads.modify i fun load => { load with total := load.total + n }).map
          (fun load => load.phase.place) = t.loads.map fun load => load.phase.place := by
        apply List.ext_getElem?
        intro j
        rw [List.getElem?_map, List.getElem?_modify, List.getElem?_map]
        cases t.loads[j]? with
        | none => rfl
        | some load =>
            show some (if i = j then _ else load : LoadSlave).phase.place = some load.phase.place
            split
            · rfl
            · rfl
      simp only [barrier, hphases]
  | finish i => exact .inl (hinside h rfl)
  | counterArrive =>
      rw [step] at h
      split at h
      · rename_i hphase
        cases h
        obtain ⟨hget, hparties⟩ := s.counter_parties { s.counter with phase := .waiting }
        rw [hphase] at hget
        exact .inr (.arrive _ hget hparties rfl)
      · cases h
  | counterPass =>
      rw [step] at h
      split at h
      · rename_i hguard
        cases h
        obtain ⟨hget, hparties⟩ := s.counter_parties { s.counter with phase := .counting }
        rw [hguard.1] at hget
        exact .inr (.pass _ hget hguard.2 hparties rfl)
      · cases h
  | recv n =>
      rw [step] at h
      split at h
      · cases h
        exact .inl rfl
      · cases h
  | counterFinish =>
      rw [step] at h
      split at h
      · rename_i hphase
        cases h
        left
        simp only [barrier, hphase]
        rfl
      · cases h
  | deliver k =>
      obtain ⟨wire, -, rfl⟩ := Option.map_eq_some_iff.mp h
      exact .inl rfl
  | lose k =>
      obtain ⟨wire, -, rfl⟩ := Option.map_eq_some_iff.mp h
      exact .inl rfl
  | foreign port =>
      cases h
      exact .inl rfl

theorem barrier_inv {port numQueues : Nat} {wire : Channel Nat} {acts : List Act} {s : Measuring}
    (h : runs step (start port numQueues wire) acts = some s) : s.barrier.Inv := by
  refine runs_keeps (fun s => s.barrier.Inv) ?_ ?_ h
  · intro s a s' hinv hstep
    rcases step_barrier hstep with hsame | hmove
    · rw [hsame]
      exact hinv
    · exact hinv.step hmove
  · rw [barrier_start]
    exact Barrier.inv_start _

end Measuring

/-! ## Every run can be completed -/

def LoadPhase.left : LoadPhase → Nat
  | .lookup => 4
  | .waiting => 3
  | .warmup => 2
  | .benchmark => 1
  | .returned => 0

def CounterPhase.left : CounterPhase → Nat
  | .starting => 3
  | .waiting => 2
  | .counting => 1
  | .returned => 0

namespace Measuring

def left (s : Measuring) : Nat :=
  (s.loads.map fun load => load.phase.left).sum + s.counter.phase.left

theorem sum_set_lt {loads : List LoadSlave} {i : Nat} {load : LoadSlave} (new : LoadSlave)
    (hget : loads[i]? = some load) (hlt : new.phase.left < load.phase.left) :
    ((loads.set i new).map fun load => load.phase.left).sum <
      (loads.map fun load => load.phase.left).sum := by
  induction loads generalizing i with
  | nil => cases hget
  | cons first rest ih =>
      cases i with
      | zero =>
          cases hget
          simpa using hlt
      | succ i =>
          have hrest := ih hget
          simpa using hrest

theorem exists_advance {s : Measuring} {load : LoadSlave} (hmem : load ∈ s.loads)
    (new : LoadPhase) (hlt : new.left < load.phase.left) :
    ∃ i t, s.advance i load.phase new = some t ∧ t.left < s.left := by
  obtain ⟨i, hi, hget⟩ := List.getElem_of_mem hmem
  have hload : s.loads[i]? = some load := by rw [List.getElem?_eq_getElem hi, hget]
  refine ⟨i, { s with loads := s.loads.set i { load with phase := new } }, ?_, ?_⟩
  · simp only [advance, hload, if_true]
  · have hsum := sum_set_lt { load with phase := new } hload hlt
    simp only [left]
    omega

def CanGoOn (s : Measuring) : Prop := ∃ a s', s.step a = some s' ∧ s'.left < s.left

theorem canGoOn_of_outside {s : Measuring} (hout : .outside ∈ s.barrier.parties) : s.CanGoOn := by
  rcases mem_parties.mp hout with ⟨load, hmem, hplace⟩ | hplace
  · have hphase := LoadPhase.place_outside.mp hplace
    obtain ⟨i, t, ht, hlt⟩ := exists_advance hmem .waiting (by rw [hphase]; decide)
    rw [hphase] at ht
    exact ⟨.arrive i, { t with missing := t.missing - 1 }, by rw [step, ht, Option.map_some], hlt⟩
  · have hphase := CounterPhase.place_outside.mp hplace
    refine ⟨.counterArrive, _, by rw [step, if_pos hphase], ?_⟩
    simp only [left, hphase, CounterPhase.left]
    omega

theorem canGoOn_of_waiting {s : Measuring} (hwait : .waiting ∈ s.barrier.parties)
    (hzero : s.missing = 0) : s.CanGoOn := by
  rcases mem_parties.mp hwait with ⟨load, hmem, hplace⟩ | hplace
  · have hphase := LoadPhase.place_waiting.mp hplace
    obtain ⟨i, t, ht, hlt⟩ := exists_advance hmem .warmup (by rw [hphase]; decide)
    rw [hphase] at ht
    exact ⟨.pass i, t, by rw [step, if_pos hzero, ht], hlt⟩
  · have hphase := CounterPhase.place_waiting.mp hplace
    refine ⟨.counterPass, _, by rw [step, if_pos ⟨hphase, hzero⟩], ?_⟩
    simp only [left, hphase, CounterPhase.left]
    omega

theorem canGoOn_of_inside {s : Measuring} (hall : ∀ p ∈ s.barrier.parties, p = .inside)
    (hopen : s.result = none) : s.CanGoOn := by
  by_cases hloads : ∃ load ∈ s.loads, load.phase ≠ .returned
  · obtain ⟨load, hmem, hne⟩ := hloads
    have hplace := hall _ (mem_parties.mpr (.inl ⟨load, hmem, rfl⟩))
    cases hp : load.phase with
    | warmup =>
        obtain ⟨i, t, ht, hlt⟩ := exists_advance hmem .benchmark (by rw [hp]; decide)
        rw [hp] at ht
        exact ⟨.reset i, t, ht, hlt⟩
    | benchmark =>
        obtain ⟨i, t, ht, hlt⟩ := exists_advance hmem .returned (by rw [hp]; decide)
        rw [hp] at ht
        exact ⟨.finish i, t, ht, hlt⟩
    | returned => exact absurd hp hne
    | _ =>
        rw [hp] at hplace
        cases hplace
  · have hplace := hall _ (mem_parties.mpr (.inr rfl))
    have hret : (s.loads.all fun load => load.phase = .returned) = true := by simpa using hloads
    cases hp : s.counter.phase with
    | counting =>
        refine ⟨.counterFinish, _, by rw [step, if_pos hp], ?_⟩
        simp only [left, hp, CounterPhase.left]
        omega
    | returned =>
        rw [result, if_pos ⟨hret, hp⟩] at hopen
        cases hopen
    | _ =>
        rw [hp] at hplace
        cases hplace

theorem canGoOn {s : Measuring} (hinv : s.barrier.Inv) (hopen : s.result = none) : s.CanGoOn := by
  rcases hinv.progress with hall | hout | ⟨hwait, hzero⟩
  · exact canGoOn_of_inside hall hopen
  · exact canGoOn_of_outside hout
  · exact canGoOn_of_waiting hwait hzero

theorem exists_completion {port numQueues : Nat} {wire : Channel Nat} {acts : List Act}
    {s : Measuring} (h : runs step (start port numQueues wire) acts = some s) :
    ∃ more t m, runs step s more = some t ∧ t.result = some m := by
  induction hleft : s.left using Nat.strongRecOn generalizing acts s with
  | ind n ih =>
      cases hresult : s.result with
      | some m => exact ⟨[], s, m, rfl, hresult⟩
      | none =>
          obtain ⟨a, s', hstep, hlt⟩ := canGoOn (barrier_inv h) hresult
          have hrun : runs step (start port numQueues wire) (acts ++ [a]) = some s' := by
            rw [runs_append, h, Option.bind_some, runs, hstep]
            rfl
          obtain ⟨more, t, m, hmore, hm⟩ := ih s'.left (hleft ▸ hlt) hrun rfl
          exact ⟨a :: more, t, m, by rw [runs, hstep, Option.bind_some, hmore], hm⟩

theorem inside_of_advance {s : Measuring} {i : Nat} {old new : LoadPhase}
    (h : (s.advance i old new).isSome) (hplace : old.place = .inside) :
    .inside ∈ s.barrier.parties := by
  obtain ⟨t, ht⟩ := Option.isSome_iff_exists.mp h
  obtain ⟨hget, -, -⟩ := advance_parties ht
  rw [hplace] at hget
  exact List.mem_of_getElem? hget

/-- Whatever the order of the acts, a load slave can send only when the counter slave and all
other load slaves have reached the barrier. The barrier never blocks a run for good: from
every state that it can reach, it can be completed. -/
theorem slaves_meet {port numQueues : Nat} {wire : Channel Nat} {acts : List Act} {s : Measuring}
    (h : runs step (start port numQueues wire) acts = some s) :
    (∀ i n, (s.step (.warm i n)).isSome ∨ (s.step (.send i n)).isSome →
      s.counter.phase ≠ .starting ∧ ∀ load ∈ s.loads, load.phase ≠ .lookup) ∧
    ∃ more t m, runs step s more = some t ∧ t.result = some m := by
  refine ⟨?_, exists_completion h⟩
  intro i n hsend
  have hinside : .inside ∈ s.barrier.parties := by
    rcases hsend with hwarm | hbench
    · rw [step, Option.isSome_map] at hwarm
      exact inside_of_advance hwarm rfl
    · rw [step, Option.isSome_map] at hbench
      exact inside_of_advance hbench rfl
  have hnone := (barrier_inv h).outside_notMem hinside
  constructor
  · intro hphase
    exact hnone (mem_parties.mpr (.inr (by rw [hphase]; rfl)))
  · intro load hmem hphase
    exact hnone (mem_parties.mpr (.inl ⟨load, hmem, by rw [hphase]; rfl⟩))

theorem slaves_meet_three_waiting :
    ∃ s more t m, runs step (start 43 3 .empty) [.arrive 2, .arrive 0, .arrive 1] = some s ∧
      s.step (.pass 0) = none ∧ runs step s more = some t ∧ t.result = some m := by
  obtain ⟨more, t, m, hmore, hm⟩ := (slaves_meet
    (show runs step (start 43 3 .empty) [.arrive 2, .arrive 0, .arrive 1] = some _ from rfl)).2
  exact ⟨_, more, t, m, rfl, rfl, hmore, hm⟩

end Measuring

end MoonGen.Rfc2544

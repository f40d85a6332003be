import Mathlib.Algebra.BigOperators.Group.List.Basic
import Mathlib.Algebra.Order.Ring.Int
import Mathlib.Data.Rat.Floor
import MoonGen.Interface.LimitOptions

/-! # The load thread

The embedding of `loadThread` in `threads/load.lua`: the loop that allocates an array of
buffers, updates and counts its packets, and hands it to the queue. With a data limit the loop
counts down and leaves through a branch of its own, which hands over what is left of the limit.
A buffer carries whether checksum offloading was requested since its fields were written.
-/

namespace MoonGen.Interface

structure Buf (P : Type) where
  pkt : P
  offloaded : Bool
deriving Repr, DecidableEq

/-- A call of `send` or `sendN`: the buffers that the queue gets, and their number as it was
passed. -/
structure Hand (P : Type) where
  bufs : List (Buf P)
  count : Int
deriving Repr, DecidableEq

/-- What the thread runs with: the array and what it is filled with in each round, the flow, and
the answers of `mg.running()` and of the timer in each round. -/
structure LoadEnv (P F : Type) where
  size : Nat
  size_pos : 0 < size
  alloc : Nat → Nat → P
  isDynamic : Bool
  updateBuf : F → P → P × F
  running : Nat → Bool
  runtime : Option (Nat → Bool)

structure LoadState (P F : Type) where
  flow : F
  data : Option Int
  counted : Nat
  handed : List (Hand P)
  rounds : Nat
  broke : Bool

section Loop

variable {P F : Type}

def updateBufs (updateBuf : F → P → P × F) : F → Nat → List (Buf P) → List (Buf P) × F × Nat
  | flow, counted, [] => ([], flow, counted)
  | flow, counted, buf :: rest =>
      let (pkt, flow) := updateBuf flow buf.pkt
      let (rest, flow, counted) := updateBufs updateBuf flow (counted + 1) rest
      (⟨pkt, false⟩ :: rest, flow, counted)

def offloadUdpChecksums (bufs : List (Buf P)) : List (Buf P) :=
  bufs.map fun buf => { buf with offloaded := true }

def send (bufs : List (Buf P)) : Hand P := ⟨bufs, bufs.length⟩

def sendN (bufs : List (Buf P)) (n : Int) : Hand P := ⟨bufs.take n.toNat, n⟩

namespace LoadEnv

variable (env : LoadEnv P F)

def allocated (i : Nat) : List (Buf P) := (List.range env.size).map fun j => ⟨env.alloc i j, false⟩

/-- The packets of a round as they are to be sent, and the counter. -/
def prepared (s : LoadState P F) : List (Buf P) × F × Nat :=
  if env.isDynamic then updateBufs env.updateBuf s.flow s.counted (env.allocated s.rounds)
  else (env.allocated s.rounds, s.flow, s.counted + env.size)

def test (i : Nat) : Bool :=
  env.running i &&
    match env.runtime with
    | none => true
    | some runtime => runtime i

def round (s : LoadState P F) : LoadState P F :=
  let (bufs, flow, counted) := env.prepared s
  let sent : LoadState P F :=
    { s with
      flow := flow
      counted := counted
      handed := s.handed ++ [send (offloadUdpChecksums bufs)]
      rounds := s.rounds + 1 }
  match s.data with
  | none => sent
  | some data =>
      let data := data - env.size
      if data ≤ 0 then
        { s with
          flow := flow
          data := some data
          counted := counted
          handed := s.handed ++ [sendN bufs (env.size + data)]
          rounds := s.rounds + 1
          broke := true }
      else { sent with data := some data }

def init (flow : F) (dataLimit : Option Int) : LoadState P F := ⟨flow, dataLimit, 0, [], 0, false⟩

def step (s : LoadState P F) : LoadState P F :=
  if !s.broke && env.test s.rounds then env.round s else s

/-- The thread after `n` rounds, or where it has left the loop before. -/
def after (flow : F) (dataLimit : Option Int) : Nat → LoadState P F
  | 0 => init flow dataLimit
  | n + 1 => env.step (after flow dataLimit n)

end LoadEnv

/-! ## One round -/

theorem updateBufs_spec (updateBuf : F → P → P × F) (flow : F) (counted : Nat)
    (bufs : List (Buf P)) :
    (updateBufs updateBuf flow counted bufs).1.length = bufs.length ∧
      (∀ buf ∈ (updateBufs updateBuf flow counted bufs).1, buf.offloaded = false) ∧
      (updateBufs updateBuf flow counted bufs).2.2 = counted + bufs.length := by
  induction bufs generalizing flow counted with
  | nil => exact ⟨rfl, List.forall_mem_nil _, rfl⟩
  | cons buf rest ih =>
      have hrest := ih (updateBuf flow buf.pkt).2 (counted + 1)
      simp only [updateBufs, List.length_cons]
      refine ⟨congrArg (· + 1) hrest.1, List.forall_mem_cons.mpr ⟨rfl, hrest.2.1⟩, ?_⟩
      rw [hrest.2.2]
      omega

namespace LoadEnv

variable (env : LoadEnv P F)

theorem prepared_spec (s : LoadState P F) :
    (env.prepared s).1.length = env.size ∧
      (∀ buf ∈ (env.prepared s).1, buf.offloaded = false) ∧
      (env.prepared s).2.2 = s.counted + env.size := by
  have hlength : (env.allocated s.rounds).length = env.size := by
    simp [allocated]
  unfold prepared
  cases env.isDynamic with
  | true =>
      have hbufs := updateBufs_spec env.updateBuf s.flow s.counted (env.allocated s.rounds)
      rw [hlength] at hbufs
      exact hbufs
  | false =>
      refine ⟨hlength, ?_, rfl⟩
      intro buf hbuf
      rcases List.mem_map.mp hbuf with ⟨j, _, rfl⟩
      rfl

structure Full (h : Hand P) : Prop where
  count : h.count = env.size
  length : h.bufs.length = env.size
  offloaded : ∀ buf ∈ h.bufs, buf.offloaded = true

structure Going (dataLimit : Option Int) (s : LoadState P F) (n : Nat) : Prop where
  rounds : s.rounds = n
  broke : s.broke = false
  counted : s.counted = n * env.size
  data : s.data = dataLimit.map fun limit : Int => limit - ((n * env.size : Nat) : Int)
  left : ∀ limit ∈ dataLimit, 0 < n → ((n * env.size : Nat) : Int) < limit
  full : ∀ h ∈ s.handed, env.Full h
  length : s.handed.length = n

structure Left (limit : Int) (s : LoadState P F) (n : Nat) : Prop where
  broke : s.broke = true
  counted : s.counted = (n + 1) * env.size
  reached : limit ≤ ((n + 1) * env.size : Nat)
  left : 0 < n → ((n * env.size : Nat) : Int) < limit
  handed : ∃ full bufs, s.handed = full ++ [sendN bufs (limit - (n * env.size : Nat))] ∧
    (∀ h ∈ full, env.Full h) ∧ full.length = n ∧ bufs.length = env.size ∧
    ∀ buf ∈ bufs, buf.offloaded = false

theorem full_send {bufs : List (Buf P)} (h : bufs.length = env.size) :
    env.Full (send (offloadUdpChecksums bufs)) := by
  have hlength : (offloadUdpChecksums bufs).length = env.size := by
    rw [offloadUdpChecksums, List.length_map, h]
  refine ⟨congrArg Nat.cast hlength, hlength, ?_⟩
  intro buf hbuf
  rcases List.mem_map.mp hbuf with ⟨b, _, rfl⟩
  rfl

theorem Going.round {dataLimit : Option Int} {s : LoadState P F} {n : Nat}
    (h : env.Going dataLimit s n)
    (hleft : ∀ limit ∈ dataLimit, (((n + 1) * env.size : Nat) : Int) < limit) :
    env.Going dataLimit (env.round s) (n + 1) := by
  have hprepared := env.prepared_spec s
  have hsucc : (n + 1) * env.size = n * env.size + env.size := Nat.succ_mul n env.size
  have hhanded : ∀ h ∈ s.handed ++ [send (offloadUdpChecksums (env.prepared s).1)], env.Full h := by
    intro hand hmem
    rcases List.mem_append.mp hmem with hmem | hmem
    · exact h.full hand hmem
    · rw [List.mem_singleton.mp hmem]
      exact env.full_send hprepared.1
  have hlength : (s.handed ++ [send (offloadUdpChecksums (env.prepared s).1)]).length = n + 1 := by
    rw [List.length_append, h.length, List.length_singleton]
  have hcounted : (env.prepared s).2.2 = (n + 1) * env.size := by
    rw [hprepared.2.2, h.counted, hsucc]
  cases hdata : dataLimit with
  | none =>
      have hs : s.data = none := by
        rw [h.data, hdata]
        rfl
      simp only [LoadEnv.round, hs]
      refine ⟨congrArg (· + 1) h.rounds, h.broke, hcounted, rfl, ?_, hhanded, hlength⟩
      rintro limit ⟨⟩
  | some limit =>
      have hs : s.data = some (limit - (n * env.size : Nat)) := by
        rw [h.data, hdata]
        rfl
      have hlimit := hleft limit hdata
      have hpositive : ¬ limit - (n * env.size : Nat) - env.size ≤ 0 := by omega
      simp only [LoadEnv.round, hs, if_neg hpositive]
      refine ⟨congrArg (· + 1) h.rounds, h.broke, hcounted, ?_, ?_, hhanded, hlength⟩
      · rw [Option.map_some, Option.some.injEq]
        omega
      · rintro l ⟨⟩ _
        exact hlimit

/-- The round that reaches the limit counts a full array and hands over the rest of the limit. -/
theorem Going.round_last {limit : Int} {s : LoadState P F} {n : Nat}
    (h : env.Going (some limit) s n) (hreached : limit ≤ ((n + 1) * env.size : Nat)) :
    env.Left limit (env.round s) n := by
  have hprepared := env.prepared_spec s
  have hsucc : (n + 1) * env.size = n * env.size + env.size := Nat.succ_mul n env.size
  have hs : s.data = some (limit - (n * env.size : Nat)) := h.data
  have hdone : limit - (n * env.size : Nat) - env.size ≤ 0 := by omega
  simp only [LoadEnv.round, hs, if_pos hdone]
  refine ⟨rfl, ?_, hreached, h.left limit rfl, s.handed, (env.prepared s).1, ?_, h.full, h.length,
    hprepared.1, hprepared.2.1⟩
  · rw [hprepared.2.2, h.counted, hsucc]
  · have hcount : (env.size : Int) + (limit - (n * env.size : Nat) - env.size) =
        limit - (n * env.size : Nat) := by omega
    rw [hcount]

/-! ## Whole runs -/

section Run

variable (flow : F) (dataLimit : Option Int)

theorem going_init : env.Going dataLimit (init flow dataLimit) 0 := by
  refine ⟨rfl, rfl, (Nat.zero_mul _).symm, ?_, fun _ _ h => absurd h (Nat.lt_irrefl 0),
    List.forall_mem_nil _, rfl⟩
  cases dataLimit with
  | none => rfl
  | some limit => simp [init]

theorem step_of_test {s : LoadState P F} {n : Nat} (h : env.Going dataLimit s n)
    (htest : env.test n = true) : env.step s = env.round s := by
  rw [step, h.rounds, h.broke, htest]
  rfl

theorem step_of_not_test {s : LoadState P F} {n : Nat} (h : env.Going dataLimit s n)
    (htest : env.test n = false) : env.step s = s := by
  rw [step, h.rounds, h.broke, htest]
  rfl

theorem step_of_left {limit : Int} {s : LoadState P F} {n : Nat} (h : env.Left limit s n) :
    env.step s = s := by
  rw [step, h.broke]
  rfl

/-- After `n` rounds the thread is in its `n`-th round, or the loop has ended by its condition,
or by the limit in a round that was reached. -/
theorem after_cases (n : Nat) :
    (∃ m, env.Going dataLimit (env.after flow dataLimit n) m ∧ (∀ i < m, env.test i = true) ∧
        (m = n ∨ env.test m = false)) ∨
      ∃ m limit, dataLimit = some limit ∧ env.Left limit (env.after flow dataLimit n) m ∧
        ∀ i ≤ m, env.test i = true := by
  induction n with
  | zero =>
      exact .inl ⟨0, env.going_init flow dataLimit, fun i hi => absurd hi (Nat.not_lt_zero i), .inl rfl⟩
  | succ n ih =>
      have hafter : env.after flow dataLimit (n + 1) = env.step (env.after flow dataLimit n) := rfl
      rw [hafter]
      rcases ih with ⟨m, hgoing, hpassed, hm⟩ | ⟨m, limit, hlimit, hleft, hpassed⟩
      · cases htest : env.test m with
        | false =>
            rw [env.step_of_not_test dataLimit hgoing htest]
            exact .inl ⟨m, hgoing, hpassed, .inr htest⟩
        | true =>
            have hmn : m = n := hm.resolve_right (by rw [htest]; decide)
            have hpassed' : ∀ i ≤ m, env.test i = true := by
              intro i hi
              rcases Nat.lt_or_eq_of_le hi with hlt | rfl
              · exact hpassed i hlt
              · exact htest
            rw [env.step_of_test dataLimit hgoing htest]
            by_cases hmore : ∀ limit ∈ dataLimit, (((m + 1) * env.size : Nat) : Int) < limit
            · exact .inl ⟨m + 1, hgoing.round env hmore,
                fun i hi => hpassed' i (Nat.le_of_lt_succ hi), .inl (congrArg (· + 1) hmn)⟩
            · push Not at hmore
              rcases hmore with ⟨limit, hlimit, hreached⟩
              rw [Option.mem_def] at hlimit
              subst hlimit
              exact .inr ⟨m, limit, rfl, hgoing.round_last env hreached, hpassed'⟩
      · rw [env.step_of_left hleft]
        exact .inr ⟨m, limit, hlimit, hleft, hpassed⟩

/-! ## Equal treatment -/

/-- As many packets are handed over as were counted, and each went through
`offloadUdpChecksums` after its last update. -/
structure Alike (s : LoadState P F) : Prop where
  counted : (s.counted : Int) = (s.handed.map Hand.count).sum
  offloaded : ∀ h ∈ s.handed, ∀ buf ∈ h.bufs, buf.offloaded = true

theorem sum_count_full {full : List (Hand P)} (h : ∀ hand ∈ full, env.Full hand) :
    (full.map Hand.count).sum = ((full.length * env.size : Nat) : Int) := by
  induction full with
  | nil => simp
  | cons hand rest ih =>
      have hall := List.forall_mem_cons.mp h
      rw [List.map_cons, List.sum_cons, ih hall.2, hall.1.count, List.length_cons, Nat.succ_mul]
      omega

theorem Left.sum_count {limit : Int} {s : LoadState P F} {n : Nat} (h : env.Left limit s n) :
    (s.handed.map Hand.count).sum = limit := by
  rcases h.handed with ⟨full, bufs, hhanded, hfull, hlength, _⟩
  rw [hhanded, List.map_append, List.sum_append, env.sum_count_full hfull, hlength]
  simp only [sendN, List.map_cons, List.map_nil, List.sum_cons, List.sum_nil]
  omega

theorem Going.alike {s : LoadState P F} {n : Nat} (h : env.Going dataLimit s n) : Alike s := by
  refine ⟨?_, fun hand hmem => (h.full hand hmem).offloaded⟩
  rw [h.counted, env.sum_count_full h.full, h.length]

/-- The last array is counted as a full one. If it is one, its packets are not offloaded. -/
theorem Left.not_alike {limit : Int} {s : LoadState P F} {n : Nat} (h : env.Left limit s n) :
    ¬ Alike s := by
  intro halike
  have hcounted := halike.counted
  rw [h.sum_count env, h.counted] at hcounted
  rcases h.handed with ⟨full, bufs, hhanded, _, _, hlength, hplain⟩
  have hcount : (limit - (n * env.size : Nat)).toNat = bufs.length := by
    rw [hlength, ← hcounted, Nat.succ_mul]
    omega
  rcases List.exists_mem_of_length_pos (hlength ▸ env.size_pos) with ⟨buf, hbuf⟩
  have hlast : buf ∈ (sendN bufs (limit - (n * env.size : Nat))).bufs := by
    rw [sendN, hcount, List.take_length]
    exact hbuf
  have hoffloaded := halike.offloaded _ (by rw [hhanded]; exact List.mem_append_right _ List.mem_cons_self)
    buf hlast
  rw [hplain buf hbuf] at hoffloaded
  cases hoffloaded

theorem left_or_stopped (limit : Int) :
    (∃ m, env.Left limit (env.after flow (some limit) (limit.toNat + 1)) m) ∨
      ∃ i : Nat, env.test i = false ∧ (i = 0 ∨ ((i * env.size : Nat) : Int) < limit) := by
  rcases env.after_cases flow (some limit) (limit.toNat + 1) with
    ⟨m, hgoing, _, hm⟩ | ⟨m, limit', hlimit, hleft, _⟩
  · have hopen := hgoing.left limit rfl
    rcases hm with rfl | htest
    · have hmul : limit.toNat + 1 ≤ (limit.toNat + 1) * env.size :=
        Nat.le_mul_of_pos_right _ env.size_pos
      have hlt := hopen (Nat.succ_pos _)
      omega
    · exact .inr ⟨m, htest, (Nat.eq_zero_or_pos m).imp_right hopen⟩
  · cases hlimit
    exact .inl ⟨m, hleft⟩

/-- A run treats its packets alike exactly if it does not leave the loop with the data limit:
there is none, or the condition of the loop fails before the limit is reached. -/
theorem load_alike_iff {P F : Type} (env : LoadEnv P F) (flow : F) (dataLimit : Option Int) :
    (∀ n, Alike (env.after flow dataLimit n)) ↔
      ∀ limit ∈ dataLimit, ∃ i : Nat, env.test i = false ∧
        (i = 0 ∨ ((i * env.size : Nat) : Int) < limit) := by
  constructor
  · intro halike limit hlimit
    rw [Option.mem_def] at hlimit
    subst hlimit
    rcases env.left_or_stopped flow limit with ⟨m, hleft⟩ | hstopped
    · exact absurd (halike _) (hleft.not_alike env)
    · exact hstopped
  · intro hfails n
    rcases env.after_cases flow dataLimit n with ⟨m, hgoing, _⟩ | ⟨m, limit, hlimit, hleft, hpassed⟩
    · exact hgoing.alike env dataLimit
    · rcases hfails limit hlimit with ⟨i, htest, hi⟩
      have him : i ≤ m := by
        rcases hi with rfl | hi
        · exact Nat.zero_le m
        · have hlt : i * env.size < (m + 1) * env.size := by
            have := hleft.reached
            omega
          exact Nat.le_of_lt_succ (Nat.lt_of_mul_lt_mul_right hlt)
      rw [hpassed i him] at htest
      cases htest

end Run

/-! ## The data limit -/

theorem after_of_left (flow : F) (dataLimit : Option Int) {limit : Int} {n m : Nat}
    (h : env.Left limit (env.after flow dataLimit n) m) (k : Nat) :
    env.after flow dataLimit (n + k) = env.after flow dataLimit n := by
  induction k with
  | zero => rfl
  | succ k ih =>
      have hafter : env.after flow dataLimit (n + (k + 1)) =
          env.step (env.after flow dataLimit (n + k)) := rfl
      rw [hafter, ih, env.step_of_left h]

theorem left_of_running (flow : F) (limit : Int) (htest : ∀ i, env.test i = true) :
    ∃ m, env.Left limit (env.after flow (some limit) (limit.toNat + 1)) m := by
  rcases env.left_or_stopped flow limit with hleft | ⟨i, hfalse, _⟩
  · exact hleft
  · rw [htest i] at hfalse
    cases hfalse

/-- Full arrays, and one with the rest of the limit. -/
structure Met (limit : Int) (s : LoadState P F) : Prop where
  broke : s.broke = true
  arrays : ∃ (full : List (Hand P)) (last : Hand P), s.handed = full ++ [last] ∧
    (∀ h ∈ full, h.count = env.size ∧ h.bufs.length = env.size) ∧
    last.count ≤ env.size ∧ 0 ≤ last.count ∧ (last.bufs.length : Int) = last.count
  sum : (s.handed.map Hand.count).sum = limit

theorem Left.met {limit : Int} {s : LoadState P F} {n : Nat} (h : env.Left limit s n)
    (hlimit : 0 ≤ limit) : env.Met limit s := by
  rcases h.handed with ⟨full, bufs, hhanded, hfull, _, hlength, _⟩
  have hreached := h.reached
  have hleft := h.left
  have hsucc : (n + 1) * env.size = n * env.size + env.size := Nat.succ_mul n env.size
  refine ⟨h.broke, ⟨full, _, hhanded, fun hand hmem => ⟨(hfull hand hmem).count, (hfull hand hmem).length⟩,
    ?_, ?_⟩, h.sum_count env⟩
  · simp only [sendN]
    omega
  · have hcount : 0 ≤ limit - (n * env.size : Nat) := by
      rcases Nat.eq_zero_or_pos n with rfl | hn
      · rw [Nat.zero_mul]
        omega
      · have := hleft hn
        omega
    simp only [sendN, List.length_take, hlength]
    omega

end LoadEnv

inductive DataLimit where
  | number (n : Rat) (hn : 0 ≤ n)
  | text (num : Text) (numeral : Numeral num) (unit : SizeUnit)

namespace DataLimit

def value : DataLimit → OptionValue
  | number n _ => .number n
  | text num _ unit => .string (String.ofList (num ++ unit.text))

def bits (psize : Rat) : DataLimit → Rat
  | number n _ => n * 10 ^ 6
  | text num _ unit => decimal num * unit.bits psize

theorem parse_value (tonumber : ToNumber) (d : DataLimit) (psize : Rat) (error : ErrorHandler) :
    parseDataLimitOption tonumber psize (some d.value) error =
      .ok (some ⌈d.bits psize / (psize * 8)⌉, error) := by
  cases d with
  | number n hn =>
      rw [bits, mul_comm]
      rfl
  | text num numeral unit =>
      have hparts : LimitParts (String.ofList (num ++ unit.text)).toList num unit.text := by
        rw [String.toList_ofList]
        exact unit.limitParts numeral
      have hunit : unitOf psize (lower unit.text) = .ok (some (some (unit.bits psize))) := by
        rw [unit.lower_text, unitOf_size]
        rfl
      rw [bits, mul_comm]
      exact parseDataLimitOption_value tonumber hparts hunit error

theorem bits_nonneg (d : DataLimit) {psize : Rat} (hpsize : 0 < psize) : 0 ≤ d.bits psize := by
  cases d with
  | number n hn => exact mul_nonneg hn (by norm_num)
  | text num numeral unit =>
      have hnum : 0 ≤ decimal num := by
        unfold decimal
        positivity
      exact mul_nonneg hnum (unit.bits_pos hpsize).le

end DataLimit

theorem isLeast_ceil {a b : Rat} (hb : 0 < b) : IsLeast {n : Int | a ≤ n * b} ⌈a / b⌉ := by
  constructor
  · exact (div_le_iff₀ hb).mp (Int.le_ceil _)
  · intro n hn
    exact Int.ceil_le.mpr ((div_le_iff₀ hb).mpr hn)

/-- The limit is met with the least number of packets that reaches it, and the thread stops. -/
theorem dataLimit_met {P F : Type} (tonumber : ToNumber) (d : DataLimit) (pktLength : Option Nat)
    (error : ErrorHandler) (env : LoadEnv P F) (flow : F) (hruntime : env.runtime = none)
    (hrunning : ∀ i, env.running i = true) :
    ∃ N : Int,
      parseDataLimitOption tonumber (packetSize pktLength true) (some d.value) error =
          .ok (some (N : Rat), error) ∧
        IsLeast {n : Int | d.bits (packetSize pktLength true) ≤ n * (packetSize pktLength true * 8)} N ∧
        0 ≤ N ∧
        ∃ final, (∀ n ≥ N.toNat + 1, env.after flow (some N) n = final) ∧ env.Met N final := by
  have hpos : (0 : Rat) < packetSize pktLength true := Nat.cast_pos.mpr (packetSize_pos pktLength)
  have hpsize : (0 : Rat) < packetSize pktLength true * 8 := by positivity
  have hlimit : 0 ≤ ⌈d.bits (packetSize pktLength true) / (packetSize pktLength true * 8)⌉ :=
    Int.ceil_nonneg (div_nonneg (d.bits_nonneg hpos) hpsize.le)
  have htest : ∀ i, env.test i = true := by
    intro i
    rw [LoadEnv.test, hrunning i, hruntime]
    rfl
  refine ⟨_, d.parse_value tonumber _ error, isLeast_ceil hpsize, hlimit, ?_⟩
  rcases env.left_of_running flow _ htest with ⟨m, hleft⟩
  refine ⟨_, ?_, hleft.met env hlimit⟩
  intro n hn
  rcases Nat.exists_eq_add_of_le hn with ⟨k, rfl⟩
  exact env.after_of_left flow _ hleft k

def LoadEnv.pairs : LoadEnv Unit Unit where
  size := 2
  size_pos := by decide
  alloc := fun _ _ => ()
  isDynamic := false
  updateBuf := fun flow pkt => (pkt, flow)
  running := fun _ => true
  runtime := none

/-- Five packets go out as two pairs and one packet. -/
theorem dataLimit_met_pairs :
    LoadEnv.pairs.runtime = none ∧ (∀ i, LoadEnv.pairs.running i = true) ∧
      ∃ N : Int, parseDataLimitOption .plain (packetSize (some 60) true) (some (.string "5P"))
          ⟨none, []⟩ = .ok (some (N : Rat), ⟨none, []⟩) ∧
        ∃ final, (∀ n ≥ N.toNat + 1, LoadEnv.pairs.after () (some N) n = final) ∧
          LoadEnv.pairs.Met N final := by
  have hrunning : ∀ i, LoadEnv.pairs.running i = true := fun _ => rfl
  have hnumeral : Numeral "5".toList := .whole (by decide) (List.all_eq_true.mp rfl)
  rcases dataLimit_met .plain (.text "5".toList hnumeral ⟨.one, .packet, "P".toList, by decide⟩)
    (some 60) ⟨none, []⟩ LoadEnv.pairs () rfl hrunning with ⟨N, hparse, _, _, hfinal⟩
  exact ⟨rfl, hrunning, N, hparse, hfinal⟩

/-- With a limit of three packets, four are counted, and the last one is sent as it was updated. -/
theorem load_not_alike_pairs :
    ((LoadEnv.pairs.after () (some 3) 2).handed.map Hand.count).sum = 3 ∧
      (LoadEnv.pairs.after () (some 3) 2).counted = 4 ∧
      (LoadEnv.pairs.after () (some 3) 2).handed.getLast? = some ⟨[⟨(), false⟩], 1⟩ := by
  decide

end Loop

end MoonGen.Interface

import Mathlib.Data.List.Nodup
import Mathlib.Data.Rat.Floor
import Mathlib.Tactic.NormNum
import MoonGen.Moonem.LossModel
import MoonGen.Moonem.Ownership

/-! # The tasks of a path emulation

The rest of `master` in `moonem.lua`: after the configuration it starts the tasks that receive,
delay and send, for each thread and each direction. The tasks meet in queues and packet rings,
none of which may be used by two tasks at one end.
-/

namespace MoonGen.Moonem

/-! ## Tasks -/

inductive RxFunction where
  /-- `receiver_loop_rate_token_bucket_fwd` -/
  | tokenBucketFwd
  /-- `sw_receiver_loop_fwd` -/
  | swFwd
  | ring (loop : ReceiveLoop)
deriving Repr, DecidableEq

structure Queue where
  dev : Nat
  qid : Nat
deriving Repr, DecidableEq

inductive Sink where
  | queue (tx : Queue)
  | ring (id : Nat)
deriving Repr, DecidableEq

inductive Task where
  /-- `hw_rx_loop` or `sw_rx_loop`. -/
  | receive (fn : RxFunction) (rx : Queue) (sink : Sink)
  /-- `__MG_LAUNCH_TIMESTAMP_MAIN` or `sw_tx_loop`. -/
  | transmit (ring : Nat) (tx : Queue)
deriving Repr, DecidableEq

structure Ports where
  dev1 : Nat
  dev2 : Nat
  unidirectional : Bool
deriving Repr, DecidableEq

def Ports.oneWay (ports : Ports) : Bool := ports.unidirectional || ports.dev1 == ports.dev2

/-- The arguments as `master` passes them on to the tasks. -/
def Args.prepared (args : Args) : Args :=
  let scaled := { args with delay := args.delay * 1000000, rate := args.rate / args.threads }
  if scaled.delay = 0 ∧ scaled.rate = 0 then { scaled with hardware := false } else scaled

def hwRxLoop (args : Args) : RxFunction :=
  if args.delay = 0 then .tokenBucketFwd
  else if args.rate = 0 then .ring .delay
  else if args.leakyBucket then .ring .rateLeakyBucket
  else .ring .rateTokenBucket

def swRxLoop (args : Args) : RxFunction :=
  if args.delay = 0 ∧ args.rate = 0 then .swFwd
  else if args.rate = 0 then .ring .swDelay
  else if args.leakyBucket then .ring .swRateLeakyBucket
  else .ring .swRateTokenBucket

structure Started where
  tasks : List Task
  rings : Nat
deriving Repr, DecidableEq

namespace Started

def forward (fn : RxFunction) (s : Started) (rx tx : Queue) : Started :=
  { s with tasks := s.tasks ++ [.receive fn rx (.queue tx)] }

/-- A new packet ring, a receiving and a sending task. -/
def connect (fn : RxFunction) (s : Started) (rx tx : Queue) : Started :=
  ⟨s.tasks ++ [.receive fn rx (.ring s.rings), .transmit s.rings tx], s.rings + 1⟩

/-- The ring of `launch_timestamp.new`, its timer and a receiving task. -/
def launch (fn : RxFunction) (s : Started) (rx tx : Queue) : Started :=
  ⟨s.tasks ++ [.transmit s.rings tx, .receive fn rx (.ring s.rings)], s.rings + 1⟩

/-- The body of the loops over the threads; `link` is what it does for one direction. -/
def bothWays (link : Started → Queue → Queue → Started) (ports : Ports) (s : Started) (i : Nat) :
    Started :=
  let there := link s ⟨ports.dev1, i⟩ ⟨ports.dev2, i⟩
  if ports.oneWay then there else link there ⟨ports.dev2, i⟩ ⟨ports.dev1, i⟩

/-- `for i=0,args.threads-1 do`. -/
def perThread (link : Started → Queue → Queue → Started) (ports : Ports) (threads : Rat) : Started :=
  (List.range threads.floor.toNat).foldl (bothWays link ports) ⟨[], 0⟩

end Started

/-- The tasks that `master` starts, where it does not end with a message. -/
def masterTasks (args : Args) (ports : Ports) : Option (List Task) :=
  (master args).map fun _ =>
    let args := args.prepared
    if args.hardware = false ∧ args.delay = 0 ∧ args.rate = 0 then
      (Started.perThread (.forward (swRxLoop args)) ports args.threads).tasks
    else if args.hardware ∧ args.delay = 0 then
      (Started.perThread (.forward (hwRxLoop args)) ports args.threads).tasks
    else if args.hardware then
      (Started.bothWays (.launch (hwRxLoop args)) ports ⟨[], 0⟩ 0).tasks
    else (Started.perThread (.connect (swRxLoop args)) ports args.threads).tasks

/-! ## Paths -/

structure Path where
  rx : Queue
  fn : RxFunction
  tx : Queue
deriving Repr, DecidableEq

namespace Task

def empties (id : Nat) : Task → Option Queue
  | .receive .. => none
  | .transmit ring tx => if ring = id then some tx else none

def paths (tasks : List Task) : Task → List Path
  | .receive fn rx (.queue tx) => [⟨rx, fn, tx⟩]
  | .receive fn rx (.ring id) => (tasks.filterMap (empties id)).map fun tx => ⟨rx, fn, tx⟩
  | .transmit .. => []

def fills? : Task → Option Nat
  | .receive _ _ (.ring id) => some id
  | _ => none

def drains? : Task → Option Nat
  | .transmit ring _ => some ring
  | _ => none

def rx? : Task → Option Queue
  | .receive _ rx _ => some rx
  | .transmit .. => none

def tx? : Task → Option Queue
  | .receive _ _ (.queue tx) => some tx
  | .receive _ _ (.ring _) => none
  | .transmit _ tx => some tx

theorem empties_eq_none {t : Task} {id : Nat} (h : t.drains? ≠ some id) : t.empties id = none := by
  cases t with
  | receive fn rx sink => rfl
  | transmit ring tx => exact if_neg fun heq => h (congrArg some heq)

theorem filterMap_empties_eq_nil {tasks : List Task} {id : Nat}
    (h : ∀ u ∈ tasks, u.drains? ≠ some id) : tasks.filterMap (empties id) = [] :=
  List.filterMap_eq_nil_iff.mpr fun u hu => empties_eq_none (h u hu)

theorem paths_congr {tasks others : List Task} {t : Task}
    (h : ∀ id, t.fills? = some id →
      tasks.filterMap (empties id) = others.filterMap (empties id)) :
    t.paths tasks = t.paths others := by
  cases t with
  | transmit ring tx => rfl
  | receive fn rx sink =>
      cases sink with
      | queue tx => rfl
      | ring id => rw [paths, paths, h id rfl]

end Task

def paths (tasks : List Task) : List Path := tasks.flatMap (Task.paths tasks)

theorem paths_append {n : Nat} {tasks more : List Task}
    (hfills : ∀ t ∈ tasks, ∀ id, t.fills? = some id → id < n)
    (hdrains : ∀ t ∈ tasks, ∀ id, t.drains? = some id → id < n)
    (hmoreFills : ∀ t ∈ more, ∀ id, t.fills? = some id → n ≤ id)
    (hmoreDrains : ∀ t ∈ more, ∀ id, t.drains? = some id → n ≤ id) :
    paths (tasks ++ more) = paths tasks ++ paths more := by
  rw [paths, List.flatMap_append]
  congr 1
  · apply List.flatMap_congr
    intro t ht
    apply Task.paths_congr
    intro id hid
    have hnone : more.filterMap (Task.empties id) = [] := by
      apply Task.filterMap_empties_eq_nil
      intro u hu hdrain
      exact absurd (hfills t ht id hid) (Nat.not_lt.mpr (hmoreDrains u hu id hdrain))
    rw [List.filterMap_append, hnone, List.append_nil]
  · apply List.flatMap_congr
    intro t ht
    apply Task.paths_congr
    intro id hid
    have hnone : tasks.filterMap (Task.empties id) = [] := by
      apply Task.filterMap_empties_eq_nil
      intro u hu hdrain
      exact absurd (hdrains u hu id hdrain) (Nat.not_lt.mpr (hmoreFills t ht id hid))
    rw [List.filterMap_append, hnone, List.nil_append]

/-! ## Exclusive use -/

section Fresh

variable {use : Task → Option Nat} {tasks more : List Task} {n rings : Nat}

theorem uses_below_append (hle : n ≤ rings)
    (hold : ∀ t ∈ tasks, ∀ id, use t = some id → id < n)
    (hnew : ∀ t ∈ more, ∀ id, use t = some id → n ≤ id ∧ id < rings) :
    ∀ t ∈ tasks ++ more, ∀ id, use t = some id → id < rings := by
  intro t ht id hid
  rcases List.mem_append.mp ht with hin | hin
  · exact Nat.lt_of_lt_of_le (hold t hin id hid) hle
  · exact (hnew t hin id hid).2

theorem nodup_uses_append (hold : ∀ t ∈ tasks, ∀ id, use t = some id → id < n)
    (hnew : ∀ t ∈ more, ∀ id, use t = some id → n ≤ id ∧ id < rings)
    (h : (tasks.filterMap use).Nodup) (hmore : (more.filterMap use).Nodup) :
    ((tasks ++ more).filterMap use).Nodup := by
  rw [List.filterMap_append]
  apply h.append hmore
  intro id hin hin'
  rcases List.mem_filterMap.mp hin with ⟨t, ht, hid⟩
  rcases List.mem_filterMap.mp hin' with ⟨u, hu, hid'⟩
  exact absurd (hold t ht id hid) (Nat.not_lt.mpr (hnew u hu id hid').1)

end Fresh

/-- The tasks make up the given paths. Every queue and every ring has one user at each end. -/
structure Wired (s : Started) (ps : List Path) : Prop where
  paths : paths s.tasks = ps
  fillsBelow : ∀ t ∈ s.tasks, ∀ id, t.fills? = some id → id < s.rings
  drainsBelow : ∀ t ∈ s.tasks, ∀ id, t.drains? = some id → id < s.rings
  fills : (s.tasks.filterMap Task.fills?).Nodup
  drains : (s.tasks.filterMap Task.drains?).Nodup
  rx : s.tasks.filterMap Task.rx? = ps.map Path.rx
  tx : s.tasks.filterMap Task.tx? = ps.map Path.tx

namespace Wired

theorem empty : Wired ⟨[], 0⟩ [] where
  paths := rfl
  fillsBelow := fun _ ht => absurd ht List.not_mem_nil
  drainsBelow := fun _ ht => absurd ht List.not_mem_nil
  fills := List.nodup_nil
  drains := List.nodup_nil
  rx := rfl
  tx := rfl

variable {s : Started} {ps : List Path} {fn : RxFunction}

theorem extend (h : Wired s ps) {more : List Task} {rings : Nat} {p : Path}
    (hrings : s.rings ≤ rings) (hpaths : Moonem.paths more = [p])
    (hfills : ∀ t ∈ more, ∀ id, t.fills? = some id → s.rings ≤ id ∧ id < rings)
    (hdrains : ∀ t ∈ more, ∀ id, t.drains? = some id → s.rings ≤ id ∧ id < rings)
    (honce : (more.filterMap Task.fills?).Nodup ∧ (more.filterMap Task.drains?).Nodup)
    (hends : more.filterMap Task.rx? = [p.rx] ∧ more.filterMap Task.tx? = [p.tx]) :
    Wired ⟨s.tasks ++ more, rings⟩ (ps ++ [p]) where
  paths := by
    show Moonem.paths (s.tasks ++ more) = _
    rw [paths_append h.fillsBelow h.drainsBelow (fun t ht id hid => (hfills t ht id hid).1)
      (fun t ht id hid => (hdrains t ht id hid).1), h.paths, hpaths]
  fillsBelow := uses_below_append hrings h.fillsBelow hfills
  drainsBelow := uses_below_append hrings h.drainsBelow hdrains
  fills := nodup_uses_append h.fillsBelow hfills h.fills honce.1
  drains := nodup_uses_append h.drainsBelow hdrains h.drains honce.2
  rx := by
    show (s.tasks ++ more).filterMap Task.rx? = _
    rw [List.filterMap_append, h.rx, hends.1, List.map_append]
    rfl
  tx := by
    show (s.tasks ++ more).filterMap Task.tx? = _
    rw [List.filterMap_append, h.tx, hends.2, List.map_append]
    rfl

theorem forward (h : Wired s ps) (rx tx : Queue) :
    Wired (s.forward fn rx tx) (ps ++ [⟨rx, fn, tx⟩]) := by
  apply h.extend (Nat.le_refl _) rfl
  · simp [Task.fills?]
  · simp [Task.drains?]
  · exact ⟨List.nodup_nil, List.nodup_nil⟩
  · exact ⟨rfl, rfl⟩

theorem connect (h : Wired s ps) (rx tx : Queue) :
    Wired (s.connect fn rx tx) (ps ++ [⟨rx, fn, tx⟩]) := by
  apply h.extend (Nat.le_succ _)
  · simp [Moonem.paths, Task.paths, Task.empties, List.filterMap_cons]
  · simp [Task.fills?]
  · simp [Task.drains?]
  · exact ⟨List.nodup_singleton _, List.nodup_singleton _⟩
  · exact ⟨rfl, rfl⟩

theorem launch (h : Wired s ps) (rx tx : Queue) :
    Wired (s.launch fn rx tx) (ps ++ [⟨rx, fn, tx⟩]) := by
  apply h.extend (Nat.le_succ _)
  · simp [Moonem.paths, Task.paths, Task.empties, List.filterMap_cons]
  · simp [Task.fills?]
  · simp [Task.drains?]
  · exact ⟨List.nodup_singleton _, List.nodup_singleton _⟩
  · exact ⟨rfl, rfl⟩

end Wired

def ways (fn : RxFunction) (ports : Ports) (i : Nat) : List Path :=
  ⟨⟨ports.dev1, i⟩, fn, ⟨ports.dev2, i⟩⟩ ::
    if ports.oneWay then [] else [⟨⟨ports.dev2, i⟩, fn, ⟨ports.dev1, i⟩⟩]

def Links (fn : RxFunction) (link : Started → Queue → Queue → Started) : Prop :=
  ∀ s ps rx tx, Wired s ps → Wired (link s rx tx) (ps ++ [⟨rx, fn, tx⟩])

namespace Wired

variable {fn : RxFunction} {link : Started → Queue → Queue → Started}

theorem bothWays (hlink : Links fn link) (ports : Ports) {s : Started} {ps : List Path}
    (h : Wired s ps) (i : Nat) :
    Wired (Started.bothWays link ports s i) (ps ++ ways fn ports i) := by
  have hthere := hlink s ps ⟨ports.dev1, i⟩ ⟨ports.dev2, i⟩ h
  unfold Started.bothWays ways
  cases ports.oneWay with
  | true => exact hthere
  | false =>
      have hback := hlink _ _ ⟨ports.dev2, i⟩ ⟨ports.dev1, i⟩ hthere
      rw [List.append_assoc] at hback
      exact hback

theorem threads (hlink : Links fn link) (ports : Ports) {s : Started} {ps : List Path}
    (h : Wired s ps) (is : List Nat) :
    Wired (is.foldl (Started.bothWays link ports) s) (ps ++ is.flatMap (ways fn ports)) := by
  induction is generalizing s ps with
  | nil => simpa using h
  | cons i rest ih =>
      have hrest := ih (h.bothWays hlink ports i)
      rw [List.append_assoc] at hrest
      exact hrest

theorem perThread (hlink : Links fn link) (ports : Ports) (n : Nat) :
    Wired (Started.perThread link ports n) ((List.range n).flatMap (ways fn ports)) := by
  have hfloor : ((n : Nat) : Rat).floor.toNat = n :=
    congrArg Int.toNat (Rat.floor_intCast n)
  have hall := threads hlink ports empty (List.range n)
  rw [Started.perThread, hfloor]
  exact hall

end Wired

/-! ## What `master` starts -/

inductive Bucket where
  | token
  | leaky
deriving Repr, DecidableEq

def RxFunction.limiter : RxFunction → Option Bucket
  | .swFwd | .ring .delay | .ring .swDelay => none
  | .tokenBucketFwd | .ring .rateTokenBucket | .ring .swRateTokenBucket => some .token
  | .ring .rateLeakyBucket | .ring .swRateLeakyBucket => some .leaky

def RxFunction.hardware : RxFunction → Bool
  | .tokenBucketFwd | .ring .delay | .ring .rateTokenBucket | .ring .rateLeakyBucket => true
  | .swFwd | .ring .swDelay | .ring .swRateTokenBucket | .ring .swRateLeakyBucket => false

structure Serves (args : Args) (fn : RxFunction) : Prop where
  rate : fn.limiter =
    if args.rate = 0 then none else some (if args.leakyBucket then .leaky else .token)
  delay : args.delay ≠ 0 → ∃ loop, fn = .ring loop
  hardware : fn.hardware = true ↔ args.hardware = true ∧ (args.delay ≠ 0 ∨ args.rate ≠ 0)

section Prepared

variable {args : Args}

theorem prepared_eq : ∃ hardware, args.prepared =
    { args with delay := args.delay * 1000000, rate := args.rate / args.threads,
                hardware := hardware } := by
  unfold Args.prepared
  dsimp only
  split
  · exact ⟨false, rfl⟩
  · exact ⟨args.hardware, rfl⟩

theorem prepared_delay : args.prepared.delay = args.delay * 1000000 := by
  obtain ⟨hardware, h⟩ := @prepared_eq args
  rw [h]

theorem prepared_rate : args.prepared.rate = args.rate / args.threads := by
  obtain ⟨hardware, h⟩ := @prepared_eq args
  rw [h]

theorem prepared_leakyBucket : args.prepared.leakyBucket = args.leakyBucket := by
  obtain ⟨hardware, h⟩ := @prepared_eq args
  rw [h]

theorem prepared_threads : args.prepared.threads = args.threads := by
  obtain ⟨hardware, h⟩ := @prepared_eq args
  rw [h]

theorem prepared_delay_eq_zero : args.prepared.delay = 0 ↔ args.delay = 0 := by
  rw [prepared_delay]
  constructor
  · intro h
    exact (mul_eq_zero.mp h).resolve_right (by norm_num)
  · intro h
    rw [h, zero_mul]

theorem prepared_rate_eq_zero (hthreads : args.threads ≠ 0) :
    args.prepared.rate = 0 ↔ args.rate = 0 := by
  rw [prepared_rate, div_eq_zero_iff, or_iff_left hthreads]

theorem prepared_hardware (hthreads : args.threads ≠ 0) :
    args.prepared.hardware = true ↔
      args.hardware = true ∧ (args.delay ≠ 0 ∨ args.rate ≠ 0) := by
  have hdelay := (@prepared_delay_eq_zero args).not
  have hrate := (prepared_rate_eq_zero hthreads).not
  rw [prepared_delay] at hdelay
  rw [prepared_rate] at hrate
  rw [ne_eq, ne_eq, ← hdelay, ← hrate]
  unfold Args.prepared
  dsimp only
  split
  next hzero => simp [hzero.1, hzero.2]
  next hnot =>
    rw [not_and_or] at hnot
    exact (and_iff_left hnot).symm

theorem serves_sw (hthreads : args.threads ≠ 0) (hsw : args.prepared.hardware = false) :
    Serves args (swRxLoop args.prepared) := by
  have hnot : ¬ (args.hardware = true ∧ (args.delay ≠ 0 ∨ args.rate ≠ 0)) := by
    rw [← prepared_hardware hthreads, hsw]
    exact Bool.false_ne_true
  unfold swRxLoop
  simp only [prepared_delay_eq_zero, prepared_rate_eq_zero hthreads, prepared_leakyBucket]
  constructor
  · by_cases hrate : args.rate = 0
    · by_cases hdelay : args.delay = 0
      · simp [hrate, hdelay, RxFunction.limiter]
      · simp [hrate, hdelay, RxFunction.limiter]
    · cases args.leakyBucket <;> simp [hrate, RxFunction.limiter]
  · intro hdelay
    by_cases hrate : args.rate = 0
    · exact ⟨.swDelay, by simp [hdelay, hrate]⟩
    · cases args.leakyBucket <;> simp [hrate]
  · rw [iff_false_right hnot]
    split
    · exact Bool.false_ne_true
    · split
      · exact Bool.false_ne_true
      · split <;> exact Bool.false_ne_true

theorem serves_hw (hthreads : args.threads ≠ 0) (hhw : args.prepared.hardware = true)
    (hleaky : args.delay = 0 → args.leakyBucket = false) : Serves args (hwRxLoop args.prepared) := by
  have hasked := (prepared_hardware hthreads).mp hhw
  unfold hwRxLoop
  simp only [prepared_delay_eq_zero, prepared_rate_eq_zero hthreads, prepared_leakyBucket]
  constructor
  · by_cases hdelay : args.delay = 0
    · have hrate : args.rate ≠ 0 := hasked.2.resolve_left (not_not.mpr hdelay)
      simp [hdelay, hrate, hleaky hdelay, RxFunction.limiter]
    · by_cases hrate : args.rate = 0
      · simp [hrate, hdelay, RxFunction.limiter]
      · cases args.leakyBucket <;> simp [hrate, hdelay, RxFunction.limiter]
  · intro hdelay
    by_cases hrate : args.rate = 0
    · exact ⟨.delay, by simp [hdelay, hrate]⟩
    · cases args.leakyBucket <;> simp [hrate, hdelay]
  · rw [iff_true_right hasked]
    split
    · rfl
    · split
      · rfl
      · split <;> rfl

end Prepared

theorem leakyBucket_of_master {args : Args} {config : MoonemConfig} (h : master args = some config)
    (hhw : args.hardware = true) (hdelay : args.delay = 0) : args.leakyBucket = false := by
  by_contra hset
  exact (master_accepts h).1 ⟨hhw, hdelay, Bool.not_eq_false _ ▸ hset⟩

theorem threads_of_master {args : Args} {config : MoonemConfig} (h : master args = some config)
    (hhw : args.hardware = true) (hdelay : args.delay ≠ 0) : args.threads ≤ 1 := by
  by_contra hmany
  exact (master_accepts h).2.1 ⟨hhw, hdelay, not_le.mp hmany⟩

/-- The threads use queues of their own, and so do the directions of a thread. -/
theorem nodup_ways (fn : RxFunction) (ports : Ports) (n : Nat) (ends : Path → Queue)
    (hends : ends = Path.rx ∨ ends = Path.tx) :
    (((List.range n).flatMap (ways fn ports)).map ends).Nodup := by
  have hqid : ∀ i, ∀ q ∈ (ways fn ports i).map ends, q.qid = i := by
    intro i q hq
    rcases hends with rfl | rfl
    all_goals
      unfold ways at hq
      cases hway : ports.oneWay with
      | true =>
          rw [hway] at hq
          rw [List.mem_singleton.mp hq]
      | false =>
          rw [hway] at hq
          rcases List.mem_cons.mp hq with rfl | hback
          · rfl
          · rw [List.mem_singleton.mp hback]
  have hown : ∀ i, ((ways fn ports i).map ends).Nodup := by
    intro i
    cases hway : ports.oneWay with
    | true =>
        simp only [ways, hway, if_true]
        exact List.nodup_singleton _
    | false =>
        have hne : ports.dev1 ≠ ports.dev2 := by
          intro heq
          simp [Ports.oneWay, heq] at hway
        rcases hends with rfl | rfl
        · simp [ways, hway, hne]
        · simp [ways, hway, Ne.symm hne]
  rw [List.map_flatMap, List.nodup_flatMap]
  refine ⟨fun i _ => hown i, List.nodup_range.imp ?_⟩
  intro i j hne q hi hj
  exact hne ((hqid i q hi).symm.trans (hqid j q hj))

theorem Wired.exclusive {fn : RxFunction} {ports : Ports} {n : Nat} {s : Started}
    (h : Wired s ((List.range n).flatMap (ways fn ports))) :
    Moonem.paths s.tasks = (List.range n).flatMap (ways fn ports) ∧
      (s.tasks.filterMap Task.rx?).Nodup ∧ (s.tasks.filterMap Task.tx?).Nodup ∧
      (s.tasks.filterMap Task.fills?).Nodup ∧ (s.tasks.filterMap Task.drains?).Nodup := by
  refine ⟨h.paths, ?_, ?_, h.fills, h.drains⟩
  · rw [h.rx]
    exact nodup_ways fn ports n _ (.inl rfl)
  · rw [h.tx]
    exact nodup_ways fn ports n _ (.inr rfl)

/-- Whatever arguments `master` accepts, each thread has one path for each direction, from its
queue of one device through the function that the options ask for to its queue of the other. -/
theorem moonem_wiring (args : Args) (ports : Ports) (tasks : List Task)
    (h : masterTasks args ports = some tasks) (n : Nat) (hn : 0 < n) (hthreads : args.threads = n) :
    ∃ fn, Serves args fn ∧ paths tasks = (List.range n).flatMap (ways fn ports) ∧
      (tasks.filterMap Task.rx?).Nodup ∧ (tasks.filterMap Task.tx?).Nodup ∧
      (tasks.filterMap Task.fills?).Nodup ∧ (tasks.filterMap Task.drains?).Nodup := by
  obtain ⟨config, hconfig, htasks⟩ := Option.map_eq_some_iff.mp h
  have hne : args.threads ≠ 0 := by
    rw [hthreads]
    exact_mod_cast hn.ne'
  dsimp only at htasks
  rw [prepared_threads, hthreads] at htasks
  cases hhw : args.prepared.hardware with
  | false =>
      refine ⟨swRxLoop args.prepared, serves_sw hne hhw, ?_⟩
      rw [hhw] at htasks
      by_cases hplain : args.prepared.delay = 0 ∧ args.prepared.rate = 0
      · rw [if_pos ⟨rfl, hplain⟩] at htasks
        rw [← htasks]
        exact (Wired.perThread (fun _ _ rx tx h => h.forward rx tx) ports n).exclusive
      · rw [if_neg (fun hall => hplain hall.2), if_neg (fun hall => Bool.false_ne_true hall.1),
          if_neg Bool.false_ne_true] at htasks
        rw [← htasks]
        exact (Wired.perThread (fun _ _ rx tx h => h.connect rx tx) ports n).exclusive
  | true =>
      have hasked := ((prepared_hardware hne).mp hhw).1
      refine ⟨hwRxLoop args.prepared, serves_hw hne hhw (leakyBucket_of_master hconfig hasked), ?_⟩
      rw [hhw, if_neg (fun hall => Bool.false_ne_true hall.1.symm)] at htasks
      by_cases hdelay : args.prepared.delay = 0
      · rw [if_pos ⟨rfl, hdelay⟩] at htasks
        rw [← htasks]
        exact (Wired.perThread (fun _ _ rx tx h => h.forward rx tx) ports n).exclusive
      · -- with a delay in hardware there is one thread
        rw [if_neg (fun hall => hdelay hall.2), if_pos rfl] at htasks
        have hle := threads_of_master hconfig hasked fun hzero =>
          hdelay (prepared_delay_eq_zero.mpr hzero)
        rw [hthreads] at hle
        have hone : n = 1 := Nat.le_antisymm (by exact_mod_cast hle) hn
        have hlinks : Links (hwRxLoop args.prepared) (Started.launch (hwRxLoop args.prepared)) :=
          fun _ _ rx tx h => h.launch rx tx
        rw [← htasks, hone]
        exact Wired.exclusive (Wired.threads hlinks ports Wired.empty (List.range 1))

theorem moonem_wiring_software :
    ∃ tasks, masterTasks ⟨10, 100, 0, none, none, false, false, 32768, 12345, 2⟩ ⟨0, 1, false⟩ =
        some tasks ∧
      ∃ fn, Serves ⟨10, 100, 0, none, none, false, false, 32768, 12345, 2⟩ fn ∧
        paths tasks = (List.range 2).flatMap (ways fn ⟨0, 1, false⟩) ∧
        (tasks.filterMap Task.rx?).Nodup ∧ (tasks.filterMap Task.tx?).Nodup ∧
        (tasks.filterMap Task.fills?).Nodup ∧ (tasks.filterMap Task.drains?).Nodup := by
  have haccepted : (masterTasks ⟨10, 100, 0, none, none, false, false, 32768, 12345, 2⟩
      ⟨0, 1, false⟩).isSome = true := by
    decide +kernel
  obtain ⟨tasks, htasks⟩ := Option.isSome_iff_exists.mp haccepted
  exact ⟨tasks, htasks, moonem_wiring _ _ tasks htasks 2 (by decide) rfl⟩

end MoonGen.Moonem

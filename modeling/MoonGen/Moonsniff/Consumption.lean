import MoonGen.Moonsniff.ArrMatch

/-! # Consumption of the pre-DuT capture

A trace says which record each slot of the matching array holds: the last one
inserted and not looked up since. The counters of `match` are compared with the
trace, and the inserted records with the file.
-/

namespace MoonGen.Moonsniff

open Loop Match

/-! ## Traces -/

def Slots : Type := UInt32 → Option Mscap

def Slots.empty : Slots := fun _ => none

def Slots.set (slots : Slots) (i : UInt32) (holder : Option Mscap) : Slots :=
  fun j => if j = i then holder else slots j

def Slots.apply (slots : Slots) : Event → Slots
  | .insert cap => slots.set (ident cap) (some cap)
  | .lookup cap => slots.set (ident cap) none

def Slots.after (slots : Slots) (trace : List Event) : Slots := trace.foldl Slots.apply slots

def Event.inserted? : Event → Option Mscap
  | .insert cap => some cap
  | .lookup _ => none

def inserted (trace : List Event) : List Mscap := trace.filterMap Event.inserted?

def hits (p : Mscap → Bool) : Slots → List Event → Nat
  | _, [] => 0
  | slots, .insert cap :: rest =>
      (if (slots (ident cap)).any p then 1 else 0) + hits p (slots.apply (.insert cap)) rest
  | slots, .lookup cap :: rest => hits p (slots.apply (.lookup cap)) rest

theorem hits_append (p : Mscap → Bool) (slots : Slots) (trace more : List Event) :
    hits p slots (trace ++ more) = hits p slots trace + hits p (slots.after trace) more := by
  induction trace generalizing slots with
  | nil => simp [hits, Slots.after]
  | cons e rest ih =>
      cases e with
      | insert cap =>
          simp only [List.cons_append, hits, ih, Slots.after, List.foldl_cons]
          omega
      | lookup cap => simp only [List.cons_append, hits, ih, Slots.after, List.foldl_cons]

theorem hits_lookups (p : Mscap → Bool) (slots : Slots) (caps : List Mscap) :
    hits p slots (caps.map .lookup) = 0 := by
  induction caps generalizing slots with
  | nil => rfl
  | cons cap rest ih => exact ih _

def stamped (cap : Mscap) : Bool := cap.timestamp ≠ 0

/-- A record whose timestamp looks like an empty slot. -/
def unstamped (cap : Mscap) : Bool := cap.timestamp = 0

theorem hits_stamped_add_unstamped (slots : Slots) (trace : List Event) :
    hits stamped slots trace + hits unstamped slots trace = hits (fun _ => true) slots trace := by
  induction trace generalizing slots with
  | nil => rfl
  | cons e rest ih =>
      cases e with
      | lookup cap => exact ih _
      | insert cap =>
          have hrest := ih (slots.apply (.insert cap))
          simp only [hits]
          cases slots (ident cap) with
          | none =>
              simp only [Option.any_none, Bool.false_eq_true, if_false]
              omega
          | some holder =>
              by_cases hzero : holder.timestamp = 0
              · have hs : stamped holder = false := by simp [stamped, hzero]
                have hu : unstamped holder = true := by simp [unstamped, hzero]
                simp only [Option.any_some, hs, hu, Bool.false_eq_true, if_true, if_false]
                omega
              · have hs : stamped holder = true := by simp [stamped, hzero]
                have hu : unstamped holder = false := by simp [unstamped, hzero]
                simp only [Option.any_some, hs, hu, Bool.false_eq_true, if_true, if_false]
                omega

/-! ## The array and the counters follow the trace -/

def entryOf : Option Mscap → Entry
  | some cap => ⟨cap.timestamp, cap.identification⟩
  | none => ⟨0, 0⟩

structure Recorded (m : Match) : Prop where
  map : ∀ i, m.map i = entryOf (Slots.empty.after m.trace i)
  prePkts : m.prePkts = (inserted m.trace).length
  overwrites : m.overwrites = hits stamped .empty m.trace

theorem start_recorded (prereader postreader : Reader) : Recorded (start prereader postreader) :=
  ⟨fun _ => rfl, rfl, rfl⟩

theorem after_snoc (slots : Slots) (trace : List Event) (e : Event) :
    slots.after (trace ++ [e]) = (slots.after trace).apply e := by
  simp [Slots.after]

theorem Recorded.insertPre {m : Match} (h : Recorded m) (cap : Mscap) :
    Recorded (m.insertPre cap) := by
  refine ⟨?_, ?_, ?_⟩
  · intro i
    simp only [Match.insertPre, after_snoc, Slots.apply, Slots.set, setEntry]
    by_cases hi : i = ident cap
    · rw [if_pos hi, if_pos hi]
      rfl
    · rw [if_neg hi, if_neg hi]
      exact h.map i
  · simp [Match.insertPre, inserted, h.prePkts, Event.inserted?]
  · simp only [Match.insertPre, hits_append, hits, Nat.add_zero, h.overwrites, h.map (ident cap)]
    cases Slots.empty.after m.trace (ident cap) with
    | none => simp [entryOf]
    | some holder =>
        by_cases hzero : holder.timestamp = 0
        · simp [entryOf, stamped, hzero]
        · simp [entryOf, stamped, hzero]

theorem Recorded.computeLatency {m : Match} (h : Recorded m) (post : Mscap) :
    Recorded (m.computeLatency post) := by
  refine ⟨?_, ?_, ?_⟩
  · intro i
    simp only [Match.computeLatency, after_snoc, Slots.apply, Slots.set, setEntry]
    by_cases hi : i = ident post
    · rw [if_pos hi, if_pos hi]
      rfl
    · rw [if_neg hi, if_neg hi]
      exact h.map i
  · simp [Match.computeLatency, inserted, h.prePkts, Event.inserted?]
  · simp [Match.computeLatency, hits_append, hits, h.overwrites]

/-! ## Prefill -/

/-- The records `initialFill` goes on with. -/
def fillable (initialId : UInt32) (cap : Mscap) : Bool :=
  decide (initialId ≤ ident cap) && decide (ident cap < indexBitmask - 100)

structure SamePost (m m' : Match) : Prop where
  precap : m'.precap = m.precap
  postcap : m'.postcap = m.postcap
  postreader : m'.postreader = m.postreader

theorem fillGuard_some (initialId : UInt32) (cap : Mscap) (m : Match) :
    fillGuard initialId ⟨some cap, ident cap, m⟩ = fillable initialId cap := by
  simp [fillGuard, fillable]

def filledOne (m : Match) (cap : Mscap) : Match :=
  { m.insertPre cap with prereader := m.prereader.readSingle.2 }

theorem filledOne_recorded {m : Match} (h : Recorded m) (cap : Mscap) :
    Recorded (filledOne m cap) := by
  have hinsert := h.insertPre cap
  exact ⟨hinsert.map, hinsert.prePkts, hinsert.overwrites⟩

theorem fillBody_last {m : Match} (h : m.prereader.remaining = []) (cap : Mscap) :
    fillBody ⟨some cap, ident cap, m⟩ = ⟨none, ident cap, filledOne m cap⟩ := by
  simp only [fillBody, filledOne, Reader.readSingle_nil h]

theorem fillBody_next {m : Match} {next : Mscap} {rest : List Mscap}
    (h : m.prereader.remaining = next :: rest) (cap : Mscap) :
    fillBody ⟨some cap, ident cap, m⟩ = ⟨some next, ident next, filledOne m cap⟩ := by
  simp only [fillBody, filledOne, (Reader.readSingle_cons h).1]

/-- What the loop leaves when it starts at `cap` with `rest` still in the reader: the
fillable records are inserted, and the one that stops the loop is taken from the
reader. -/
structure Filled (initialId : UInt32) (cap : Mscap) (rest : List Mscap) (m m' : Match) : Prop where
  trace : m'.trace = m.trace ++ ((cap :: rest).takeWhile (fillable initialId)).map .insert
  remaining : m'.prereader.remaining =
    (cap :: rest).drop (((cap :: rest).takeWhile (fillable initialId)).length + 1)
  same : SamePost m m'
  recorded : Recorded m'

theorem filled_stop {initialId : UInt32} {cap : Mscap} (hcap : fillable initialId cap = false)
    {rest : List Mscap} {m : Match} (hrest : m.prereader.remaining = rest) (hm : Recorded m) :
    Filled initialId cap rest m m := by
  have hnone : (cap :: rest).takeWhile (fillable initialId) = [] :=
    List.takeWhile_cons_of_neg (by simp [hcap])
  refine ⟨?_, ?_, ⟨rfl, rfl, rfl⟩, hm⟩
  · rw [hnone, List.map_nil, List.append_nil]
  · rw [hnone, hrest]
    rfl

theorem filled_last {initialId : UInt32} {cap : Mscap} (hcap : fillable initialId cap = true)
    {m : Match} (hrest : m.prereader.remaining = []) (hm : Recorded m) :
    Filled initialId cap [] m (filledOne m cap) := by
  have hone : [cap].takeWhile (fillable initialId) = [cap] := List.takeWhile_cons_of_pos hcap
  refine ⟨?_, ?_, ⟨rfl, rfl, rfl⟩, filledOne_recorded hm cap⟩
  · rw [hone]
    rfl
  · rw [hone]
    simpa [filledOne, Reader.readSingle_nil hrest] using hrest

theorem Filled.next {initialId : UInt32} {cap next : Mscap} (hcap : fillable initialId cap = true)
    {rest : List Mscap} {m m' : Match} (h : Filled initialId next rest (filledOne m cap) m') :
    Filled initialId cap (next :: rest) m m' := by
  refine ⟨?_, ?_, ⟨h.same.precap, h.same.postcap, h.same.postreader⟩, h.recorded⟩
  · rw [h.trace, List.takeWhile_cons_of_pos hcap, List.map_cons]
    simp [filledOne, Match.insertPre]
  · rw [h.remaining, List.takeWhile_cons_of_pos hcap]
    rfl

theorem fill_spec (initialId : UInt32) (cap : Mscap) (rest : List Mscap) (m : Match) (fuel : Nat)
    (hrest : m.prereader.remaining = rest) (hfuel : rest.length < fuel) (hm : Recorded m) :
    ∃ f, whileFuel (fillGuard initialId) fillBody fuel ⟨some cap, ident cap, m⟩ = some f ∧
      Filled initialId cap rest m f.state := by
  have hguard := fillGuard_some initialId cap m
  -- on the records still in the reader: each round takes one of them
  induction rest generalizing cap m fuel with
  | nil =>
      cases hcap : fillable initialId cap with
      | false =>
          exact ⟨_, whileFuel_exit fuel (hguard.trans hcap), filled_stop hcap hrest hm⟩
      | true =>
          obtain ⟨fuel, rfl⟩ : ∃ n, fuel = n + 1 := Nat.exists_eq_succ_of_ne_zero (by omega)
          rw [whileFuel_succ fuel (hguard.trans hcap), fillBody_last hrest]
          exact ⟨_, whileFuel_exit fuel rfl, filled_last hcap hrest hm⟩
  | cons next rest ih =>
      cases hcap : fillable initialId cap with
      | false =>
          exact ⟨_, whileFuel_exit fuel (hguard.trans hcap), filled_stop hcap hrest hm⟩
      | true =>
          obtain ⟨fuel, rfl⟩ : ∃ n, fuel = n + 1 := Nat.exists_eq_succ_of_ne_zero (by omega)
          have hremaining : (filledOne m cap).prereader.remaining = rest :=
            (Reader.readSingle_cons hrest).2
          have hshort : rest.length < fuel := by
            simp only [List.length_cons] at hfuel
            omega
          obtain ⟨f, hrun, hfilled⟩ := ih next _ fuel hremaining hshort (filledOne_recorded hm cap)
            (fillGuard_some initialId next _)
          rw [whileFuel_succ fuel (hguard.trans hcap), fillBody_next hrest]
          exact ⟨f, hrun, hfilled.next hcap⟩

/-! ## Main loops -/

def Holding (cap : Option Mscap) (r : Reader) : List Mscap → Prop
  | [] => cap = none
  | m :: rest => cap = some m ∧ r.remaining = rest

theorem holding_readSingle {r : Reader} {rest : List Mscap} (h : r.remaining = rest) :
    Holding r.readSingle.1 r.readSingle.2 rest := by
  cases rest with
  | nil => rw [Reader.readSingle_nil h]; rfl
  | cons m rest => exact Reader.readSingle_cons h

/-- One record of each file in turn, as long as both last. -/
def interleave : List Mscap → List Mscap → List Event
  | pre :: pres, post :: posts => .insert pre :: .lookup post :: interleave pres posts
  | _, _ => []

theorem mainBody_spec {m : Match} {pre post : Mscap} {pres posts : List Mscap}
    (hpre : Holding m.precap m.prereader (pre :: pres))
    (hpost : Holding m.postcap m.postreader (post :: posts)) (hm : Recorded m) :
    (mainBody m).trace = m.trace ++ [.insert pre, .lookup post] ∧
      Holding (mainBody m).precap (mainBody m).prereader pres ∧
      Holding (mainBody m).postcap (mainBody m).postreader posts ∧ Recorded (mainBody m) := by
  have hinsert := hm.insertPre pre
  simp only [mainBody, hpre.1, hpost.1]
  refine ⟨?_, holding_readSingle hpre.2, holding_readSingle hpost.2, ?_⟩
  · simp [Match.insertPre, Match.computeLatency]
  · apply Recorded.computeLatency
    exact ⟨hinsert.map, hinsert.prePkts, hinsert.overwrites⟩

theorem main_spec (pres posts : List Mscap) {m : Match} (fuel : Nat)
    (hpre : Holding m.precap m.prereader pres) (hpost : Holding m.postcap m.postreader posts)
    (hfuel : pres.length ≤ fuel) (hm : Recorded m) :
    ∃ m', whileFuel mainGuard mainBody fuel m = some m' ∧
      m'.trace = m.trace ++ interleave pres posts ∧
      Holding m'.postcap m'.postreader (posts.drop pres.length) ∧ Recorded m' := by
  induction pres generalizing posts m fuel with
  | nil =>
      have hguard : mainGuard m = false := by
        rw [mainGuard, show m.precap = none from hpre]
        rfl
      exact ⟨m, whileFuel_exit fuel hguard, by simp [interleave], hpost, hm⟩
  | cons pre pres ih =>
      cases posts with
      | nil =>
          have hguard : mainGuard m = false := by
            rw [mainGuard, show m.postcap = none from hpost, Option.isSome_none, Bool.and_false]
          exact ⟨m, whileFuel_exit fuel hguard, by simp [interleave], hpost, hm⟩
      | cons post posts =>
          obtain ⟨fuel, rfl⟩ : ∃ n, fuel = n + 1 :=
            Nat.exists_eq_succ_of_ne_zero (by simp only [List.length_cons] at hfuel; omega)
          have hguard : mainGuard m = true := by
            rw [mainGuard, hpre.1, hpost.1]
            rfl
          obtain ⟨htrace, hpre', hpost', hm'⟩ := mainBody_spec hpre hpost hm
          have hshort : pres.length ≤ fuel := by
            simp only [List.length_cons] at hfuel
            omega
          obtain ⟨m', hrun, htrace', hleft, hrec⟩ := ih posts fuel hpre' hpost' hshort hm'
          refine ⟨m', ?_, ?_, hleft, hrec⟩
          · rw [whileFuel_succ fuel hguard]
            exact hrun
          · rw [htrace', htrace, List.append_assoc]
            rfl

theorem leftover_spec (posts : List Mscap) {m : Match} (fuel : Nat)
    (hpost : Holding m.postcap m.postreader posts) (hfuel : posts.length ≤ fuel)
    (hm : Recorded m) :
    ∃ m', whileFuel leftoverGuard leftoverBody fuel m = some m' ∧
      m'.trace = m.trace ++ posts.map .lookup ∧ Recorded m' := by
  induction posts generalizing m fuel with
  | nil =>
      have hguard : leftoverGuard m = false := by
        rw [leftoverGuard, show m.postcap = none from hpost]
        rfl
      exact ⟨m, whileFuel_exit fuel hguard, by simp, hm⟩
  | cons post posts ih =>
      obtain ⟨fuel, rfl⟩ : ∃ n, fuel = n + 1 :=
        Nat.exists_eq_succ_of_ne_zero (by simp only [List.length_cons] at hfuel; omega)
      have hguard : leftoverGuard m = true := by
        rw [leftoverGuard, hpost.1]
        rfl
      have hbody : leftoverBody m =
          Match.computeLatency { m with postPkts := m.postPkts + 1 } post := by
        simp only [leftoverBody, hpost.1]
      have hshort : posts.length ≤ fuel := by
        simp only [List.length_cons] at hfuel
        omega
      have hrec : Recorded (leftoverBody m) := by
        rw [hbody]
        apply Recorded.computeLatency
        exact ⟨hm.map, hm.prePkts, hm.overwrites⟩
      have hnext : Holding (leftoverBody m).postcap (leftoverBody m).postreader posts := by
        rw [hbody]
        exact holding_readSingle hpost.2
      obtain ⟨m', hrun, htrace, hrec'⟩ := ih fuel hnext hshort hrec
      refine ⟨m', ?_, ?_, hrec'⟩
      · rw [whileFuel_succ fuel hguard]
        exact hrun
      · rw [htrace, hbody]
        simp [Match.computeLatency]

/-! ## What is inserted -/

theorem inserted_append (trace more : List Event) :
    inserted (trace ++ more) = inserted trace ++ inserted more :=
  List.filterMap_append

theorem inserted_inserts (caps : List Mscap) : inserted (caps.map .insert) = caps := by
  induction caps with
  | nil => rfl
  | cons cap rest ih => exact congrArg (cap :: ·) ih

theorem inserted_lookups (caps : List Mscap) : inserted (caps.map .lookup) = [] := by
  induction caps with
  | nil => rfl
  | cons cap rest ih => exact ih

theorem inserted_interleave (pres posts : List Mscap) :
    inserted (interleave pres posts) = pres.take posts.length := by
  induction pres generalizing posts with
  | nil => simp [interleave, inserted]
  | cons pre pres ih =>
      cases posts with
      | nil => rfl
      | cons post posts => exact congrArg (pre :: ·) (ih posts)

/-- After a prefill of one record or more the first record is inserted again, where
the file has the record that stopped the prefill, or none. -/
theorem refilled_not_prefix {p : Mscap → Bool} {cap : Mscap} (hcap : p cap = true)
    (stream more : List Mscap) : ¬ stream.takeWhile p ++ cap :: more <+: stream := by
  intro hprefix
  have hboth : stream.takeWhile p ++ cap :: more <+: stream.takeWhile p ++ stream.dropWhile p := by
    rwa [List.takeWhile_append_dropWhile]
  rw [List.prefix_append_right_inj, List.cons_prefix_iff] at hboth
  obtain ⟨tail, hstop, _⟩ := hboth
  have hhead := List.head?_dropWhile_not p stream
  rw [hstop, List.head?_cons] at hhead
  exact absurd (hcap.symm.trans hhead) (by decide)

/-! ## Whole runs -/

theorem records_length_le (bytes : List UInt8) : (records bytes).length ≤ bytes.length := by
  simp only [records, List.length_map, List.length_range]
  exact Nat.div_le_self _ _

theorem newReader_of_records {file : List UInt8} {cap : Mscap} {rest : List Mscap}
    (h : records file = cap :: rest) : newReader file = some ⟨file, 0⟩ := by
  unfold newReader
  by_cases hnil : file = []
  · rw [hnil] at h
    cases h
  · exact if_neg hnil

def matchTrace (cap : Mscap) (rest posts : List Mscap) : List Event :=
  let filled := (cap :: rest).takeWhile (fillable (ident cap))
  let pres := cap :: (cap :: rest).drop (filled.length + 1)
  filled.map .insert ++ interleave pres posts ++ (posts.drop pres.length).map .lookup

theorem matchFiles_trace {pre post : List UInt8} {cap post0 : Mscap} {rest posts : List Mscap}
    (hpre : records pre = cap :: rest) (hpost : records post = post0 :: posts) :
    ∃ m, matchFiles (pre.length + post.length) pre post = some ⟨false, m⟩ ∧
      m.trace = matchTrace cap rest (post0 :: posts) ∧ Recorded m := by
  have hprelen := records_length_le pre
  have hpostlen := records_length_le post
  rw [hpre, List.length_cons] at hprelen
  rw [hpost, List.length_cons] at hpostlen
  obtain ⟨hprecap, hprerest⟩ := Reader.readSingle_cons (r := ⟨pre, 0⟩) hpre
  obtain ⟨hpostcap, hpostrest⟩ := Reader.readSingle_cons (r := ⟨post, 0⟩) hpost
  obtain ⟨f, hfill, hfilled⟩ := fill_spec (ident cap) cap rest
    (start ⟨pre, 0⟩ ⟨post, 0⟩) (pre.length + post.length) hprerest (by omega) (start_recorded _ _)
  have hmainpre := And.intro (hfilled.same.precap.trans hprecap) hfilled.remaining
  have hmainpost : Holding f.state.postcap f.state.postreader (post0 :: posts) := by
    rw [hfilled.same.postcap, hfilled.same.postreader]
    exact ⟨hpostcap, hpostrest⟩
  obtain ⟨hot, hmain, hmatched, hleft, hrec⟩ := main_spec (cap :: _) (post0 :: posts)
    (pre.length + post.length) hmainpre hmainpost
    (by simp only [List.length_cons, List.length_drop]; omega) hfilled.recorded
  obtain ⟨done, hleftover, hlooked, hrec⟩ := leftover_spec _ (pre.length + post.length)
    hleft (by simp only [List.length_cons, List.length_drop]; omega) hrec
  refine ⟨done, ?_, ?_, hrec⟩
  · simp only [matchFiles, newReader_of_records hpre, newReader_of_records hpost, matchRun]
    rw [show (start ⟨pre, 0⟩ ⟨post, 0⟩).precap = some cap from hprecap,
      show (start ⟨pre, 0⟩ ⟨post, 0⟩).postcap = some post0 from hpostcap]
    simp only [initialFill, hfill, Option.map_some, Option.bind_some, hmain, hleftover]
  · rw [hlooked, hmatched, hfilled.trace]
    rfl

theorem matchFiles_aborts (fuel : Nat) {pre post : List UInt8}
    (h : records pre = [] ∨ records post = []) :
    matchFiles fuel pre post = some ⟨true, start ⟨pre, 0⟩ ⟨post, 0⟩⟩ := by
  unfold matchFiles newReader
  by_cases hpre : pre = []
  · rw [if_pos hpre]
  · by_cases hpost : post = []
    · rw [if_neg hpre, if_pos hpost]
    · rw [if_neg hpre, if_neg hpost]
      simp only [matchRun]
      rcases h with hnone | hnone
      · have hcap : (start ⟨pre, 0⟩ ⟨post, 0⟩).precap = none :=
          congrArg Prod.fst (Reader.readSingle_nil (r := ⟨pre, 0⟩) hnone)
        rw [hcap]
      · have hcap : (start ⟨pre, 0⟩ ⟨post, 0⟩).postcap = none :=
          congrArg Prod.fst (Reader.readSingle_nil (r := ⟨post, 0⟩) hnone)
        rw [hcap]
        cases (start ⟨pre, 0⟩ ⟨post, 0⟩).precap <;> rfl

/-! ## Consumption of the file -/

/-- The inserted records are a prefix of the file, `pre_pkts` is their number, and
`overwrites` is the number of insertions that hit an unmatched earlier record. -/
structure Consumed (pre : List UInt8) (m : Match) : Prop where
  once : inserted m.trace <+: records pre
  prePkts : m.prePkts = (inserted m.trace).length
  overwrites : m.overwrites = hits (fun _ => true) .empty m.trace

/-- A file has no record, or the first identifier is so near the end that nothing
is prefilled and no record is inserted over an unmatched one with timestamp zero
while the two files are read in turn. -/
def NothingPrefilled (pre post : List UInt8) : Prop :=
  match records pre, records post with
  | cap :: rest, post0 :: posts =>
      indexBitmask - 100 ≤ ident cap ∧
        hits unstamped .empty (interleave (cap :: rest) (post0 :: posts)) = 0
  | _, _ => True

theorem Recorded.overwrites_iff {m : Match} (h : Recorded m) :
    m.overwrites = hits (fun _ => true) .empty m.trace ↔ hits unstamped .empty m.trace = 0 := by
  have hsplit := hits_stamped_add_unstamped .empty m.trace
  rw [h.overwrites]
  omega

theorem fillable_self (cap : Mscap) :
    fillable (ident cap) cap = true ↔ ¬ indexBitmask - 100 ≤ ident cap := by
  simp [fillable]

theorem inserted_matchTrace (cap : Mscap) (rest posts : List Mscap) :
    inserted (matchTrace cap rest posts) =
      (cap :: rest).takeWhile (fillable (ident cap)) ++
        (cap :: (cap :: rest).drop
          (((cap :: rest).takeWhile (fillable (ident cap))).length + 1)).take posts.length := by
  simp only [matchTrace, inserted_append, inserted_inserts, inserted_interleave, inserted_lookups,
    List.append_nil]

theorem hits_matchTrace {cap : Mscap} (hcap : fillable (ident cap) cap = false)
    (rest posts : List Mscap) :
    hits unstamped .empty (matchTrace cap rest posts) =
      hits unstamped .empty (interleave (cap :: rest) posts) := by
  simp only [matchTrace, List.takeWhile_cons, hcap, Bool.false_eq_true, if_false, List.map_nil,
    List.nil_append, List.length_nil, List.drop_succ_cons, List.drop_zero, hits_append,
    hits_lookups, Nat.add_zero]

theorem not_consumed_of_prefill {pre : List UInt8} {cap post0 : Mscap} {rest posts : List Mscap}
    {m : Match} (hpre : records pre = cap :: rest)
    (htrace : m.trace = matchTrace cap rest (post0 :: posts))
    (hcap : fillable (ident cap) cap = true) : ¬ Consumed pre m := by
  intro hconsumed
  have honce := hconsumed.once
  rw [htrace, hpre, inserted_matchTrace, List.length_cons, List.take_succ_cons] at honce
  exact refilled_not_prefix hcap _ _ honce

theorem consumed_iff_of_no_prefill {pre : List UInt8} {cap : Mscap} {rest posts : List Mscap}
    {m : Match} (hpre : records pre = cap :: rest) (htrace : m.trace = matchTrace cap rest posts)
    (hcap : fillable (ident cap) cap = false) (hrec : Recorded m) :
    Consumed pre m ↔ hits unstamped .empty (interleave (cap :: rest) posts) = 0 := by
  have honce : inserted m.trace <+: records pre := by
    rw [htrace, hpre, inserted_matchTrace]
    simp only [List.takeWhile_cons, hcap, Bool.false_eq_true, if_false, List.nil_append,
      List.length_nil, List.drop_succ_cons, List.drop_zero]
    exact List.take_prefix _ _
  rw [← hits_matchTrace hcap, ← htrace, ← hrec.overwrites_iff]
  constructor
  · exact Consumed.overwrites
  · intro hoverwrites
    exact ⟨honce, hrec.prePkts, hoverwrites⟩

/-- For every pair of files `match` ends, and it consumes the pre-DuT file without
loss or duplication exactly when nothing is prefilled and no unmatched record with
timestamp zero is overwritten, or when it aborts because a file has no record. -/
theorem match_consumes_iff (pre post : List UInt8) :
    ∃ outcome, matchFiles (pre.length + post.length) pre post = some outcome ∧
      (Consumed pre outcome.state ↔ NothingPrefilled pre post) := by
  cases hpre : records pre with
  | nil =>
      refine ⟨_, matchFiles_aborts _ (.inl hpre), iff_of_true ⟨?_, rfl, rfl⟩ ?_⟩
      · exact List.nil_prefix
      · simp only [NothingPrefilled, hpre]
  | cons cap rest =>
      cases hpost : records post with
      | nil =>
          refine ⟨_, matchFiles_aborts _ (.inr hpost), iff_of_true ⟨?_, rfl, rfl⟩ ?_⟩
          · exact List.nil_prefix
          · simp only [NothingPrefilled, hpre, hpost]
      | cons post0 posts =>
          obtain ⟨m, hrun, htrace, hrec⟩ := matchFiles_trace hpre hpost
          refine ⟨⟨false, m⟩, hrun, ?_⟩
          simp only [NothingPrefilled, hpre, hpost]
          by_cases hnear : indexBitmask - 100 ≤ ident cap
          · have hcap : fillable (ident cap) cap = false := by
              rw [Bool.eq_false_iff, ne_eq, fillable_self]
              exact not_not_intro hnear
            rw [consumed_iff_of_no_prefill hpre htrace hcap hrec]
            exact ⟨fun hfree => ⟨hnear, hfree⟩, And.right⟩
          · have hcap := (fillable_self cap).mpr hnear
            exact iff_of_false (not_consumed_of_prefill hpre htrace hcap) fun h => hnear h.1

/-- Two packets, captured on both sides: the first record is inserted twice. -/
theorem match_inserts_first_twice :
    ∃ outcome, matchFiles 48 ([⟨1000, 1⟩, ⟨2000, 2⟩].flatMap writeMscap)
        ([⟨1500, 1⟩, ⟨2500, 2⟩].flatMap writeMscap) = some outcome ∧
      inserted outcome.state.trace = [⟨1000, 1⟩, ⟨2000, 2⟩, ⟨1000, 1⟩] ∧
      ¬ Consumed ([⟨1000, 1⟩, ⟨2000, 2⟩].flatMap writeMscap) outcome.state := by
  have hrun : (matchFiles 48 ([⟨1000, 1⟩, ⟨2000, 2⟩].flatMap writeMscap)
      ([⟨1500, 1⟩, ⟨2500, 2⟩].flatMap writeMscap)).map
      (fun outcome => inserted outcome.state.trace) =
        some [⟨1000, 1⟩, ⟨2000, 2⟩, ⟨1000, 1⟩] := by
    decide +kernel
  obtain ⟨outcome, hrun, hinserted⟩ := Option.map_eq_some_iff.mp hrun
  refine ⟨outcome, hrun, hinserted, ?_⟩
  intro hconsumed
  have hlen := hconsumed.once.length_le
  rw [hinserted, records_write] at hlen
  simp at hlen

end MoonGen.Moonsniff

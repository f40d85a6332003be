import MoonGen.Lib.Loop
import MoonGen.Moonsniff.Mscap

/-! # Offline matching of two captures

The embedding of `match`, `initialFill` and `computeLatency` in `arrmatch.lua`.
The matching array is a function of the masked identifier. `trace` records, in
order, the records written to the array and those looked up in it; no decision
reads it.
-/

namespace MoonGen.Moonsniff

open Loop

def indexBitmask : UInt32 := 0x0FFFFFFF

def timeThresh : Int := -50

structure Entry where
  timestamp : UInt64
  identifier : UInt32
deriving Repr, DecidableEq

def ident (cap : Mscap) : UInt32 := cap.identification &&& indexBitmask

inductive Event where
  | insert (cap : Mscap)
  | lookup (cap : Mscap)
deriving Repr, DecidableEq

structure Match where
  prereader : Reader
  postreader : Reader
  precap : Option Mscap
  postcap : Option Mscap
  map : UInt32 → Entry
  prePkts : Nat
  postPkts : Nat
  overwrites : Nat
  misses : Nat
  /-- Arguments of `hs_update`. -/
  updates : List Int
  trace : List Event

namespace Match

def setEntry (map : UInt32 → Entry) (i : UInt32) (entry : Entry) : UInt32 → Entry :=
  fun j => if j = i then entry else map j

/-- A pre-DuT record is written to the array, in the prefill and in the main loop. -/
def insertPre (m : Match) (cap : Mscap) : Match :=
  { m with
    prePkts := m.prePkts + 1
    overwrites := if (m.map (ident cap)).timestamp ≠ 0 then m.overwrites + 1 else m.overwrites
    map := setEntry m.map (ident cap) ⟨cap.timestamp, cap.identification⟩
    trace := m.trace ++ [.insert cap] }

/-- The difference of two timestamps as `int64_t`, with the work-around for
differences between `-2^32` and `-2^31`. -/
def latency (ts : UInt64) (post : Mscap) : Int :=
  let diff := (post.timestamp - ts).toInt64.toInt
  if ts ≠ 0 ∧ diff < -2 ^ 31 ∧ -2 ^ 32 < diff then diff + 2 ^ 32 else diff

def computeLatency (m : Match) (post : Mscap) : Match :=
  let ts := (m.map (ident post)).timestamp
  let preIdentifier := (m.map (ident post)).identifier
  let diff := latency ts post
  -- a latency below the threshold is only logged
  let (updates, misses) :=
    if preIdentifier = post.identification then
      if ts ≠ 0 ∧ diff < timeThresh then (m.updates, m.misses)
      else if ts ≠ 0 then (m.updates ++ [diff], m.misses)
      else (m.updates, m.misses + 1)
    else (m.updates, m.misses + 1)
  { m with
    updates := updates
    misses := misses
    map := setEntry m.map (ident post) ⟨0, 0⟩
    postcap := m.postreader.readSingle.1
    postreader := m.postreader.readSingle.2
    trace := m.trace ++ [.lookup post] }

/-! ## Prefill -/

/-- The local variables of `initialFill`: its own `precap` and `pre_ident`. -/
structure Fill where
  precap : Option Mscap
  preIdent : UInt32
  state : Match

def fillGuard (initialId : UInt32) (f : Fill) : Bool :=
  f.precap.isSome && decide (initialId ≤ f.preIdent) && decide (f.preIdent < indexBitmask - 100)

def fillBody (f : Fill) : Fill :=
  match f.precap with
  | none => f
  | some cap =>
      let next := f.state.prereader.readSingle.1
      { precap := next
        preIdent := match next with
          | some cap' => ident cap'
          | none => f.preIdent
        state := { f.state.insertPre cap with prereader := f.state.prereader.readSingle.2 } }

/-- The array and the reader are shared with the caller; the caller's `precap` is not. -/
def initialFill (fuel : Nat) (cap : Mscap) (m : Match) : Option Match :=
  (whileFuel (fillGuard (ident cap)) fillBody fuel ⟨some cap, ident cap, m⟩).map Fill.state

/-! ## Main loops -/

def mainGuard (m : Match) : Bool := m.precap.isSome && m.postcap.isSome

def mainBody (m : Match) : Match :=
  match m.precap, m.postcap with
  | some pre, some post =>
      let m := { m with postPkts := m.postPkts + 1 }
      let m := m.insertPre pre
      let m := { m with
        precap := m.prereader.readSingle.1
        prereader := m.prereader.readSingle.2 }
      m.computeLatency post
  | _, _ => m

def leftoverGuard (m : Match) : Bool := m.postcap.isSome

def leftoverBody (m : Match) : Match :=
  match m.postcap with
  | some post => { m with postPkts := m.postPkts + 1 }.computeLatency post
  | none => m

end Match

/-- `aborted` when an error ends the script: a file cannot be mapped, or the first
record of one is missing and `getId` fails on it. -/
structure Outcome where
  aborted : Bool
  state : Match

open Match

def start (prereader postreader : Reader) : Match :=
  ⟨prereader.readSingle.2, postreader.readSingle.2, prereader.readSingle.1,
    postreader.readSingle.1, fun _ => ⟨0, 0⟩, 0, 0, 0, 0, [], []⟩

def matchRun (fuel : Nat) (m : Match) : Option Outcome :=
  match m.precap, m.postcap with
  | some precap, some _ =>
      (initialFill fuel precap m).bind fun filled =>
        (whileFuel mainGuard mainBody fuel filled).bind fun hot =>
          (whileFuel leftoverGuard leftoverBody fuel hot).map fun done => ⟨false, done⟩
  | _, _ => some ⟨true, m⟩

def matchFiles (fuel : Nat) (pre post : List UInt8) : Option Outcome :=
  match newReader pre, newReader post with
  | some prereader, some postreader => matchRun fuel (start prereader postreader)
  | _, _ => some ⟨true, start ⟨pre, 0⟩ ⟨post, 0⟩⟩

end MoonGen.Moonsniff

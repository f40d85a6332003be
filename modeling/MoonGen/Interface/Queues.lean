import Mathlib.Data.List.Perm.Basic
import MoonGen.Lib.Loop
import MoonGen.Lib.Tickets

/-! # Queue allocation

The start of a measurement makes two passes over the flows: the `prepare` functions
of the threads reserve queues with the device manager, and after `configure` their
`start` functions draw them. The embedding of `devmgr.lua` and of `prepare` and
`start` in `threads/arp.lua`, `load.lua`, `count.lua` and `timestamp.lua`.
`deviceStats.lua` reserves and draws nothing. A Lua error is `none`.
-/

namespace MoonGen.Interface

open Loop

/-! ## The device manager -/

structure Dev where
  rxq : Nat
  rsq : Nat
  txq : Nat
  rxqi : Nat
  rsqi : Nat
  txqi : Nat
  arpMac : Option Nat
deriving Repr, DecidableEq

abbrev Devices := Nat → Dev

/-- A record is made with zeros when a device is named first. -/
def newDevmgr : Devices := fun _ => ⟨0, 0, 0, 0, 0, 0, none⟩

def modify (devices : Devices) (key : Nat) (f : Dev → Dev) : Devices :=
  fun i => if i = key then f (devices i) else devices i

inductive Request where
  | tx (dev : Nat)
  | rx (dev : Nat)
  | rss (dev : Nat)
deriving Repr, DecidableEq

/-- `reserveTx`, `reserveRx` and `reserveRss`. -/
def reserve (devices : Devices) : Request → Devices
  | .tx dev => modify devices dev fun d => { d with txq := d.txq + 1 }
  | .rx dev => modify devices dev fun d => { d with rxq := d.rxq + 1 }
  | .rss dev => modify devices dev fun d => { d with rxq := d.rxq + 1, rsq := d.rsq + 1 }

/-- The number of the queue that `txQueue`, `rxQueue` or `rssQueue` returns. -/
def queueNumber (devices : Devices) : Request → Nat
  | .tx dev => (devices dev).txqi
  | .rx dev => (devices dev).rsq + (devices dev).rxqi
  | .rss dev => (devices dev).rsqi

/-- The index that `_inc` raises on the way. -/
def advance (devices : Devices) : Request → Devices
  | .tx dev => modify devices dev fun d => { d with txqi := d.txqi + 1 }
  | .rx dev => modify devices dev fun d => { d with rxqi := d.rxqi + 1 }
  | .rss dev => modify devices dev fun d => { d with rsqi := d.rsqi + 1 }

def reserveAll (devices : Devices) (requests : List Request) : Devices :=
  requests.foldl reserve devices

def handOut (devices : Devices) : List Request → List (Request × Nat)
  | [] => []
  | r :: rest => (r, queueNumber devices r) :: handOut (advance devices r) rest

structure PortConfig where
  rxQueues : Nat
  rssQueues : Nat
  txQueues : Nat
deriving Repr, DecidableEq

def configure (devices : Devices) (port : Nat) : PortConfig :=
  let v := devices port
  ⟨if v.rxq = 0 then 1 else v.rxq, v.rsq, if v.txq = 0 then 1 else v.txq⟩

/-! ## Threads -/

/-- What the threads read of a flow. `ethSrc` is `none` unless it is a number; `ipSrc` and
`ipDst` are the results of `ipString`, `none` for `nil`. -/
structure Flow where
  tx : List Nat
  rx : List Nat
  timestamp : Bool
  dependencies : List String
  ethSrc : Option Nat
  ipSrc : Option String
  ipDst : Option String
deriving Repr, DecidableEq

/-- The order in which `pairs` visits the keys of a table is not specified. -/
structure Pairs where
  keys : List Nat → List Nat
  perm : ∀ l, (keys l).Perm l

structure ArpThread where
  arpDevices : List (Nat × List String)
  flows : List Flow

def doesArp (flow : Flow) : Bool := flow.dependencies.contains "arp"

def insertIp (dev : Nat) (ip : String) : List (Nat × List String) → List (Nat × List String)
  | [] => [(dev, [ip])]
  | (d, ips) :: rest =>
      if d = dev then (d, if ip ∈ ips then ips else ips ++ [ip]) :: rest
      else (d, ips) :: insertIp dev ip rest

/-- A `nil` address is an error, as a table index must not be `nil`. -/
def addIp (thread : ArpThread) (dev : Nat) (ip : Option String) : Option ArpThread :=
  ip.map fun ip => { thread with arpDevices := insertIp dev ip thread.arpDevices }

/-- A device answers ARP requests with the source address of its first ARP flow, which must
be static. -/
def claimMac (flow : Flow) (devices : Devices) (dev : Nat) : Option Devices :=
  match (devices dev).arpMac with
  | some _ => some devices
  | none => flow.ethSrc.map fun mac => modify devices dev fun d => { d with arpMac := some mac }

/-- The body of the loop over the transmitting devices of an ARP flow. -/
def arpTx (flow : Flow) (s : ArpThread × Devices) (dev : Nat) : Option (ArpThread × Devices) :=
  (claimMac flow s.2 dev).bind fun devices =>
    (addIp s.1 dev flow.ipSrc).map fun thread => (thread, devices)

def arpRx (flow : Flow) (s : ArpThread × Devices) (dev : Nat) : Option (ArpThread × Devices) :=
  (addIp s.1 dev flow.ipDst).map fun thread => (thread, s.2)

def arpFlow (s : ArpThread × Devices) (flow : Flow) : Option (ArpThread × Devices) :=
  if doesArp flow then
    (runs (arpTx flow) ({ s.1 with flows := s.1.flows ++ [flow] }, s.2) flow.tx).bind fun s =>
      runs (arpRx flow) s flow.rx
  else some s

namespace ArpThread

def devs (thread : ArpThread) : List Nat := thread.arpDevices.map Prod.fst

def reserves (pairs : Pairs) (thread : ArpThread) : List Request :=
  (pairs.keys thread.devs).flatMap fun dev => [.tx dev, .rx dev]

def prepare (pairs : Pairs) (flows : List Flow) (devices : Devices) :
    Option (ArpThread × Devices) :=
  (runs arpFlow (⟨[], []⟩, devices) flows).map fun s => (s.1, reserveAll s.2 (s.1.reserves pairs))

def start (pairs : Pairs) (thread : ArpThread) : List Request :=
  if thread.flows.length = 0 then []
  else (pairs.keys thread.devs).flatMap fun dev => [.rx dev, .tx dev]

end ArpThread

/-- The clones that `prepare` of the load thread keeps, with their `tx_dev`. -/
def loadFlows (flows : List Flow) : List (Flow × Nat) :=
  flows.flatMap fun flow => flow.tx.map fun tx => (flow, tx)

def loadRequests (clones : List (Flow × Nat)) : List Request := clones.map fun c => .tx c.2

def countFlows (flows : List Flow) : List (Flow × Nat) :=
  flows.flatMap fun flow => flow.rx.map fun rx => (flow, rx)

def countRequests (clones : List (Flow × Nat)) : List Request := clones.map fun c => .rss c.2

/-- A clone of the timestamp thread has a `tx_dev` and an `rx_dev`. -/
structure Clone where
  flow : Flow
  txDev : Nat
  rxDev : Nat
deriving Repr, DecidableEq

/-- The clones of a timestamped flow; `rx[1]` indexes a table once per transmitting device. -/
def timestampClones (flow : Flow) : Option (List Clone) :=
  if flow.timestamp then
    match flow.tx, flow.rx with
    | [], _ => some []
    | _ :: _, [] => none
    | tx, rx :: _ => some (tx.map fun dev => ⟨flow, dev, rx⟩)
  else some []

/-- `tbl[key] = true` on a table used as a set. -/
def insertKey (keys : List Nat) (key : Nat) : List Nat :=
  if key ∈ keys then keys else keys ++ [key]

def keySet (keys : List Nat) : List Nat := keys.foldl insertKey []

namespace Timestamp

def flows (flows : List Flow) : Option (List Clone) :=
  runs (fun clones flow => (timestampClones flow).map (clones ++ ·)) [] flows

def reserves (pairs : Pairs) (clones : List Clone) : List Request :=
  ((pairs.keys (keySet (clones.map Clone.rxDev))).map .rx) ++
    (pairs.keys (keySet (clones.map Clone.txDev))).map .tx

/-- The local tables of `start`, as the sets of their keys, and the requests so far. -/
structure Start where
  txQueues : List Nat
  rxQueues : List Nat
  requests : List Request
deriving Repr, DecidableEq

def startClone (s : Start) (clone : Clone) : Start :=
  let s := if clone.txDev ∈ s.txQueues then s
    else { s with
      txQueues := s.txQueues ++ [clone.txDev]
      requests := s.requests ++ [.tx clone.txDev] }
  if clone.rxDev ∈ s.rxQueues then s
    else { s with
      rxQueues := s.rxQueues ++ [clone.rxDev]
      requests := s.requests ++ [.rx clone.rxDev] }

def start (clones : List Clone) : List Request :=
  (clones.foldl startClone ⟨[], [], []⟩).requests

end Timestamp

structure Threads where
  arp : ArpThread
  load : List (Flow × Nat)
  count : List (Flow × Nat)
  timestamp : List Clone

/-- The `prepare` functions in the order in which `master` calls them. -/
def prepareAll (pairs : Pairs) (flows : List Flow) : Option (Threads × Devices) :=
  (ArpThread.prepare pairs flows newDevmgr).bind fun (arp, devices) =>
    let load := loadFlows flows
    let devices := reserveAll devices (loadRequests load)
    let count := countFlows flows
    let devices := reserveAll devices (countRequests count)
    (Timestamp.flows flows).map fun timestamp =>
      (⟨arp, load, count, timestamp⟩,
        reserveAll devices (Timestamp.reserves pairs timestamp))

def startAll (pairs : Pairs) (threads : Threads) : List Request :=
  threads.arp.start pairs ++ countRequests threads.count ++ loadRequests threads.load ++
    Timestamp.start threads.timestamp

end MoonGen.Interface

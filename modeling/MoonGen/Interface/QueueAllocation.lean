import MoonGen.Interface.Queues

/-! # The queues handed out are the queues reserved

The requests of the second pass are a permutation of the reservations of the
first. Since every device numbers each kind of queue on its own, all queues of a
device are distinct, lie below what the device was configured with, and leave
none of its RSS queues unused.
-/

namespace MoonGen.Interface

open Loop Tickets

/-! ## Reservations -/

/-- `after` is `before` with these reservations made and no queue drawn. -/
structure Reserved (before after : Devices) (requests : List Request) : Prop where
  txq : ∀ dev, (after dev).txq = (before dev).txq + requests.count (.tx dev)
  rsq : ∀ dev, (after dev).rsq = (before dev).rsq + requests.count (.rss dev)
  rxq : ∀ dev, (after dev).rxq =
    (before dev).rxq + (requests.count (.rx dev) + requests.count (.rss dev))
  txqi : ∀ dev, (after dev).txqi = (before dev).txqi
  rxqi : ∀ dev, (after dev).rxqi = (before dev).rxqi
  rsqi : ∀ dev, (after dev).rsqi = (before dev).rsqi

theorem Reserved.refl (devices : Devices) : Reserved devices devices [] :=
  ⟨fun _ => rfl, fun _ => rfl, fun _ => rfl, fun _ => rfl, fun _ => rfl, fun _ => rfl⟩

theorem Reserved.trans {first second third : Devices} {rs more : List Request}
    (h : Reserved first second rs) (hmore : Reserved second third more) :
    Reserved first third (rs ++ more) := by
  constructor
  · intro dev
    rw [hmore.txq, h.txq, List.count_append, Nat.add_assoc]
  · intro dev
    rw [hmore.rsq, h.rsq, List.count_append, Nat.add_assoc]
  · intro dev
    rw [hmore.rxq, h.rxq, List.count_append, List.count_append]
    omega
  · intro dev
    rw [hmore.txqi, h.txqi]
  · intro dev
    rw [hmore.rxqi, h.rxqi]
  · intro dev
    rw [hmore.rsqi, h.rsqi]

theorem reserve_reserved (devices : Devices) (r : Request) :
    Reserved devices (reserve devices r) [r] := by
  cases r with
  | tx key | rx key | rss key =>
      constructor <;> intro dev <;> by_cases h : dev = key <;>
        simp [reserve, modify, h, Ne.symm, eq_comm]

theorem reserveAll_reserved (devices : Devices) (requests : List Request) :
    Reserved devices (reserveAll devices requests) requests := by
  induction requests generalizing devices with
  | nil => exact Reserved.refl devices
  | cons r rest ih => exact (reserve_reserved devices r).trans (ih (reserve devices r))

theorem setMac_reserved (devices : Devices) (key mac : Nat) :
    Reserved devices (modify devices key fun d => { d with arpMac := some mac }) [] := by
  constructor <;> intro dev <;> by_cases h : dev = key <;> simp [modify, h]

/-! ## Draws -/

def nextIndex (devices : Devices) : Request → Nat
  | .tx dev => (devices dev).txqi
  | .rx dev => (devices dev).rxqi
  | .rss dev => (devices dev).rsqi

/-- Where the queues of a kind start: the RSS queues of a device come first. -/
def firstQueue (devices : Devices) : Request → Nat
  | .tx _ | .rss _ => 0
  | .rx dev => (devices dev).rsq

theorem queueNumber_eq (devices : Devices) (r : Request) :
    queueNumber devices r = firstQueue devices r + nextIndex devices r := by
  cases r <;> simp [queueNumber, firstQueue, nextIndex]

theorem advance_spec (devices : Devices) (r : Request) :
    nextIndex (advance devices r) = bump (nextIndex devices) r ∧
      firstQueue (advance devices r) = firstQueue devices := by
  constructor
  · funext k
    cases r with
    | tx key | rx key | rss key =>
        cases k with
        | tx dev | rx dev | rss dev =>
            by_cases h : dev = key <;> simp [nextIndex, advance, modify, bump, h]
  · funext k
    cases r with
    | tx key | rx key | rss key =>
        cases k with
        | tx dev | rss dev => rfl
        | rx dev => by_cases h : dev = key <;> simp [firstQueue, advance, modify, h]

/-- Queues are tickets, shifted to where their kind starts. -/
theorem handOut_eq (devices : Devices) (requests : List Request) :
    handOut devices requests =
      (draw (nextIndex devices) requests).map fun t => (t.1, firstQueue devices t.1 + t.2) := by
  induction requests generalizing devices with
  | nil => rfl
  | cons r rest ih =>
      obtain ⟨hnext, hfirst⟩ := advance_spec devices r
      rw [handOut, ih, hnext, hfirst, queueNumber_eq, draw, List.map_cons]

theorem drawnFor_handOut (devices : Devices) (requests : List Request) (r : Request) :
    drawnFor r (handOut devices requests) =
      List.range' (firstQueue devices r + nextIndex devices r) (requests.count r) := by
  have hmap : ∀ tickets : List (Request × Nat),
      drawnFor r (tickets.map fun t => (t.1, firstQueue devices t.1 + t.2)) =
        (drawnFor r tickets).map (firstQueue devices r + ·) := by
    intro tickets
    induction tickets with
    | nil => rfl
    | cons t rest ih =>
        simp only [drawnFor, List.map_cons, List.filter_cons] at ih ⊢
        by_cases h : t.1 = r
        · simp only [h, decide_true, if_true, List.map_cons, ih]
        · simp only [h, decide_false, Bool.false_eq_true, if_false, ih]
  rw [handOut_eq, hmap, drawnFor_draw, List.map_add_range']

/-! ## The ARP thread -/

theorem claimMac_reserved {flow : Flow} {devices devices' : Devices} {dev : Nat}
    (h : claimMac flow devices dev = some devices') : Reserved devices devices' [] := by
  unfold claimMac at h
  split at h
  next =>
    cases h
    exact Reserved.refl devices
  next =>
    obtain ⟨mac, _, rfl⟩ := Option.map_eq_some_iff.mp h
    exact setMac_reserved devices dev mac

theorem addIp_flows {thread thread' : ArpThread} {dev : Nat} {ip : Option String}
    (h : addIp thread dev ip = some thread') : thread'.flows = thread.flows := by
  obtain ⟨_, _, rfl⟩ := Option.map_eq_some_iff.mp h
  rfl

structure ArpBusy (before : Devices) (s : ArpThread × Devices) : Prop where
  reserved : Reserved before s.2 []
  flows : s.1.flows ≠ []

theorem ArpBusy.tx {before : Devices} {flow : Flow} {s s' : ArpThread × Devices} {dev : Nat}
    (h : ArpBusy before s) (hstep : arpTx flow s dev = some s') : ArpBusy before s' := by
  obtain ⟨devices, hmac, hrest⟩ := Option.bind_eq_some_iff.mp hstep
  obtain ⟨thread, hip, rfl⟩ := Option.map_eq_some_iff.mp hrest
  exact ⟨h.reserved.trans (claimMac_reserved hmac), by rw [addIp_flows hip]; exact h.flows⟩

theorem ArpBusy.rx {before : Devices} {flow : Flow} {s s' : ArpThread × Devices} {dev : Nat}
    (h : ArpBusy before s) (hstep : arpRx flow s dev = some s') : ArpBusy before s' := by
  obtain ⟨thread, hip, rfl⟩ := Option.map_eq_some_iff.mp hstep
  exact ⟨h.reserved, by rw [addIp_flows hip]; exact h.flows⟩

/-- What the loop over the flows keeps: nothing is reserved yet, and there are ARP devices
only if there are ARP flows. -/
structure ArpInv (before : Devices) (s : ArpThread × Devices) : Prop where
  reserved : Reserved before s.2 []
  used : s.1.flows = [] → s.1.arpDevices = []

theorem ArpInv.flow {before : Devices} {flow : Flow} {s s' : ArpThread × Devices}
    (h : ArpInv before s) (hstep : arpFlow s flow = some s') : ArpInv before s' := by
  unfold arpFlow at hstep
  split at hstep
  next =>
    -- the flow itself is kept before its devices are
    have hbusy : ArpBusy before ({ s.1 with flows := s.1.flows ++ [flow] }, s.2) :=
      ⟨h.reserved, by simp⟩
    obtain ⟨mid, htx, hrx⟩ := Option.bind_eq_some_iff.mp hstep
    have hmid := runs_keeps (ArpBusy before) (fun _ _ _ => ArpBusy.tx) hbusy htx
    have hend := runs_keeps (ArpBusy before) (fun _ _ _ => ArpBusy.rx) hmid hrx
    exact ⟨hend.reserved, fun hnil => absurd hnil hend.flows⟩
  next =>
    cases hstep
    exact h

theorem arp_prepare_spec {pairs : Pairs} {flows : List Flow} {devices devices' : Devices}
    {arp : ArpThread} (h : ArpThread.prepare pairs flows devices = some (arp, devices')) :
    Reserved devices devices' (arp.reserves pairs) ∧ (arp.flows = [] → arp.arpDevices = []) := by
  obtain ⟨s, hrun, heq⟩ := Option.map_eq_some_iff.mp h
  cases heq
  have hinv : ArpInv devices s :=
    runs_keeps (ArpInv devices) (fun _ _ _ => ArpInv.flow) ⟨Reserved.refl devices, fun _ => rfl⟩
      hrun
  exact ⟨hinv.reserved.trans (reserveAll_reserved s.2 _), hinv.used⟩

theorem arp_start_perm (pairs again : Pairs) {arp : ArpThread}
    (h : arp.flows = [] → arp.arpDevices = []) :
    (arp.start again).Perm (arp.reserves pairs) := by
  unfold ArpThread.start ArpThread.reserves
  split
  next hnone =>
    have hdevs : arp.devs = [] := by
      rw [ArpThread.devs, h (List.length_eq_zero_iff.mp hnone)]
      rfl
    rw [hdevs, (pairs.perm []).eq_nil]
    exact List.Perm.refl []
  next =>
    have hkeys : (again.keys arp.devs).Perm (pairs.keys arp.devs) :=
      (again.perm _).trans (pairs.perm _).symm
    refine (List.Perm.flatMap_right _ hkeys).trans (List.Perm.flatMap_left _ ?_)
    intro dev _
    exact List.Perm.swap _ _ _

/-! ## The timestamp thread -/

namespace Timestamp

/-- One clone adds its devices to the two sets and asks for exactly the new ones. -/
theorem startClone_spec (s : Start) (clone : Clone) :
    (startClone s clone).txQueues = insertKey s.txQueues clone.txDev ∧
      (startClone s clone).rxQueues = insertKey s.rxQueues clone.rxDev ∧
      (s.requests.Perm (s.txQueues.map .tx ++ s.rxQueues.map .rx) →
        (startClone s clone).requests.Perm
          ((startClone s clone).txQueues.map .tx ++ (startClone s clone).rxQueues.map .rx)) := by
  unfold startClone insertKey
  by_cases htx : clone.txDev ∈ s.txQueues
  · by_cases hrx : clone.rxDev ∈ s.rxQueues
    · simp [htx, hrx]
    · simp only [htx, hrx, if_true, if_false, List.map_append, List.map_cons, List.map_nil,
        true_and]
      intro h
      rw [← List.append_assoc]
      exact h.append_right _
  · have hswap : ∀ l m : List Request, (l ++ m ++ [Request.tx clone.txDev]).Perm
        (l ++ [Request.tx clone.txDev] ++ m) := by
      intro l m
      rw [List.append_assoc, List.append_assoc]
      exact List.Perm.append_left l List.perm_append_comm
    by_cases hrx : clone.rxDev ∈ s.rxQueues
    · simp only [htx, hrx, if_true, if_false, List.map_append, List.map_cons, List.map_nil,
        true_and]
      intro h
      exact (h.append_right _).trans (hswap _ _)
    · simp only [htx, hrx, if_false, List.map_append, List.map_cons, List.map_nil, true_and]
      intro h
      rw [← List.append_assoc]
      exact ((h.append_right _).trans (hswap _ _)).append_right _

theorem start_spec (clones : List Clone) :
    (start clones).Perm ((keySet (clones.map Clone.txDev)).map .tx ++
      (keySet (clones.map Clone.rxDev)).map .rx) := by
  suffices h : ∀ s : Start, s.requests.Perm (s.txQueues.map .tx ++ s.rxQueues.map .rx) →
      (clones.foldl startClone s).requests.Perm
        (((clones.map Clone.txDev).foldl insertKey s.txQueues).map .tx ++
          ((clones.map Clone.rxDev).foldl insertKey s.rxQueues).map .rx) from
    h ⟨[], [], []⟩ (List.Perm.refl [])
  induction clones with
  | nil =>
      intro s h
      exact h
  | cons clone rest ih =>
      intro s h
      obtain ⟨htx, hrx, hperm⟩ := startClone_spec s clone
      have hrest := ih (startClone s clone) (hperm h)
      rw [htx, hrx] at hrest
      exact hrest

theorem start_perm (pairs : Pairs) (clones : List Clone) :
    (start clones).Perm (reserves pairs clones) := by
  refine (start_spec clones).trans (List.perm_append_comm.trans ?_)
  exact ((pairs.perm _).symm.map _).append ((pairs.perm _).symm.map _)

end Timestamp

/-! ## All threads -/

def reservations (pairs : Pairs) (threads : Threads) : List Request :=
  threads.arp.reserves pairs ++ loadRequests threads.load ++ countRequests threads.count ++
    Timestamp.reserves pairs threads.timestamp

/-- The two passes name the same queues. -/
theorem prepareAll_spec {pairs : Pairs} (again : Pairs) {flows : List Flow} {threads : Threads}
    {devices : Devices} (h : prepareAll pairs flows = some (threads, devices)) :
    Reserved newDevmgr devices (reservations pairs threads) ∧
      (startAll again threads).Perm (reservations pairs threads) := by
  obtain ⟨⟨arp, afterArp⟩, harp, hrest⟩ := Option.bind_eq_some_iff.mp h
  obtain ⟨clones, _, heq⟩ := Option.map_eq_some_iff.mp hrest
  cases heq
  obtain ⟨hreserved, hused⟩ := arp_prepare_spec harp
  constructor
  · exact ((hreserved.trans (reserveAll_reserved _ _)).trans (reserveAll_reserved _ _)).trans
      (reserveAll_reserved _ _)
  · unfold startAll reservations
    refine List.Perm.append ?_ (Timestamp.start_perm pairs clones)
    rw [List.append_assoc, List.append_assoc]
    exact (arp_start_perm pairs again hused).append List.perm_append_comm

structure ExactQueues (devices : Devices) (grants : List (Request × Nat)) : Prop where
  tx_distinct : ∀ dev, (drawnFor (.tx dev) grants).Nodup
  tx_below : ∀ dev, ∀ i ∈ drawnFor (.tx dev) grants, i < (configure devices dev).txQueues
  rx_distinct : ∀ dev, (drawnFor (.rss dev) grants ++ drawnFor (.rx dev) grants).Nodup
  rx_below : ∀ dev, ∀ i ∈ drawnFor (.rss dev) grants ++ drawnFor (.rx dev) grants,
    i < (configure devices dev).rxQueues
  rss_exact : ∀ dev, drawnFor (.rss dev) grants = List.range (devices dev).rsq
  rx_above : ∀ dev, ∀ i ∈ drawnFor (.rx dev) grants,
    (devices dev).rsq ≤ i ∧ i < (devices dev).rxq

theorem le_configured (n : Nat) : n ≤ if n = 0 then 1 else n := by
  split <;> omega

section Counts

variable {devices : Devices} {reserved requests : List Request}

theorem Reserved.rsq_le_rxq (h : Reserved newDevmgr devices reserved) (dev : Nat) :
    (devices dev).rsq ≤ (devices dev).rxq := by
  rw [h.rxq, h.rsq]
  simp only [newDevmgr]
  omega

theorem Reserved.drawnFor_tx (h : Reserved newDevmgr devices reserved)
    (hcount : ∀ r, requests.count r = reserved.count r) (dev : Nat) :
    drawnFor (.tx dev) (handOut devices requests) = List.range' 0 (devices dev).txq := by
  rw [drawnFor_handOut, hcount, h.txq, firstQueue, nextIndex, h.txqi]
  simp [newDevmgr]

theorem Reserved.drawnFor_rss (h : Reserved newDevmgr devices reserved)
    (hcount : ∀ r, requests.count r = reserved.count r) (dev : Nat) :
    drawnFor (.rss dev) (handOut devices requests) = List.range' 0 (devices dev).rsq := by
  rw [drawnFor_handOut, hcount, h.rsq, firstQueue, nextIndex, h.rsqi]
  simp [newDevmgr]

theorem Reserved.drawnFor_rx (h : Reserved newDevmgr devices reserved)
    (hcount : ∀ r, requests.count r = reserved.count r) (dev : Nat) :
    drawnFor (.rx dev) (handOut devices requests) =
      List.range' (devices dev).rsq ((devices dev).rxq - (devices dev).rsq) := by
  have hmore : (devices dev).rxq - (devices dev).rsq = reserved.count (.rx dev) := by
    rw [h.rxq, h.rsq]
    simp only [newDevmgr]
    omega
  rw [drawnFor_handOut, hcount, hmore, firstQueue, nextIndex, h.rxqi]
  rfl

theorem Reserved.drawnFor_receive (h : Reserved newDevmgr devices reserved)
    (hcount : ∀ r, requests.count r = reserved.count r) (dev : Nat) :
    drawnFor (.rss dev) (handOut devices requests) ++
      drawnFor (.rx dev) (handOut devices requests) = List.range' 0 (devices dev).rxq := by
  have hjoin := List.range'_append_1 (s := 0) (m := (devices dev).rsq)
    (n := (devices dev).rxq - (devices dev).rsq)
  rw [Nat.zero_add, Nat.add_sub_cancel' (h.rsq_le_rxq dev)] at hjoin
  rw [h.drawnFor_rss hcount, h.drawnFor_rx hcount, hjoin]

/-- Drawing as many queues of each kind as were reserved draws exactly these. -/
theorem exactQueues_of_counts (h : Reserved newDevmgr devices reserved)
    (hcount : ∀ r, requests.count r = reserved.count r) :
    ExactQueues devices (handOut devices requests) := by
  constructor
  · intro dev
    rw [h.drawnFor_tx hcount]
    exact List.nodup_range' 1
  · intro dev i hi
    rw [h.drawnFor_tx hcount, List.mem_range'_1] at hi
    exact Nat.lt_of_lt_of_le (by omega) (le_configured (devices dev).txq)
  · intro dev
    rw [h.drawnFor_receive hcount]
    exact List.nodup_range' 1
  · intro dev i hi
    rw [h.drawnFor_receive hcount, List.mem_range'_1] at hi
    exact Nat.lt_of_lt_of_le (by omega) (le_configured (devices dev).rxq)
  · intro dev
    rw [h.drawnFor_rss hcount, List.range_eq_range']
  · intro dev i hi
    have hsum := h.rsq_le_rxq dev
    rw [h.drawnFor_rx hcount, List.mem_range'_1] at hi
    omega

end Counts

theorem queues_exact (pairs again : Pairs) (flows : List Flow) (threads : Threads)
    (devices : Devices) (h : prepareAll pairs flows = some (threads, devices)) :
    ExactQueues devices (handOut devices (startAll again threads)) := by
  obtain ⟨hreserved, hperm⟩ := prepareAll_spec again h
  exact exactQueues_of_counts hreserved hperm.count_eq

/-- Two timestamped ARP flows between the same two ports, one of which sends twice. -/
def sharedPorts : List Flow :=
  [⟨[0, 0], [1], true, ["arp"], some 5, some "10.0.0.1", some "10.0.0.2"⟩,
    ⟨[0], [1], true, ["arp"], none, some "10.0.0.3", some "10.0.0.2"⟩]

def inOrder : Pairs := ⟨id, fun _ => List.Perm.refl _⟩

theorem queues_exact_sharedPorts : ∃ threads devices,
    prepareAll inOrder sharedPorts = some (threads, devices) ∧
      ExactQueues devices (handOut devices (startAll inOrder threads)) := by
  have hsome : (prepareAll inOrder sharedPorts).isSome = true := by decide +kernel
  obtain ⟨⟨threads, devices⟩, h⟩ := Option.isSome_iff_exists.mp hsome
  exact ⟨threads, devices, h, queues_exact inOrder inOrder sharedPorts threads devices h⟩

end MoonGen.Interface

import Mathlib.Data.Set.Card
import MoonGen.Interface.Packet

/-! # Chains of packets

`env.Flow` lets the packet of a flow inherit from the packet of its parent, which has
inherited before, and `getInstance` lets the packet of the overwrites inherit from
that of the flow. The nearest packet that defines a field should decide it. The
loops of `inherit` ask whether a field is there by testing its value, so they take a
function whose first value is `false` for a field that is not there.
-/

namespace MoonGen.Interface

open Traversal

abbrev FieldTable := String → Option FieldDef

/-- What a table defines for a field. A name of another form is reported and dropped. -/
def definition (f : String) (tbl : FieldTable) : Option FieldDef :=
  if (matchField f).isSome then tbl f else none

def definitions (chain : List FieldTable) (f : String) : List FieldDef :=
  chain.filterMap (definition f)

def nearest (chain : List FieldTable) (f : String) : Option FieldDef := (definitions chain f).head?

/-- A packet that a chain of tables, the nearest first, can lead to. -/
inductive Combined (setter : String → String → Bool) : List FieldTable → Packet → Prop where
  | root {tbl : FieldTable} (pairs : Listing tbl) {p : Packet} {errors : List PacketError}
      (h : Packet.new setter pairs = some (p, errors)) : Combined setter [tbl] p
  | child {tbl : FieldTable} (pairs : Listing tbl) {p : Packet} {errors : List PacketError}
      (h : Packet.new setter pairs = some (p, errors)) {chain : List FieldTable} {q : Packet}
      (hq : Combined setter chain q) (order : Packet.Pairs q) :
      Combined setter (tbl :: chain) (p.inherit order)

/-- Each field is as the nearest definition has it and in no other table, the list of dynamic
fields holds each once and its count is their number, and inheriting again changes nothing. -/
structure NearestWins (setter : String → String → Bool) (chain : List FieldTable) (r : Packet) :
    Prop where
  field : ∀ f, r.slot f = (nearest chain f).elim Slot.empty fun d => Slot.define f d Slot.empty
  nodup : (r.dynvars.list.map Dynvar.name).Nodup
  count : r.dynvars.count = r.dynvars.list.length ∧
    r.dynvars.count = {f | ∃ fn, nearest chain f = some (.func fn)}.ncard
  again : ∀ (q : Packet) (order : Packet.Pairs q), Combined setter chain.tail q →
    r.inherit order = r

/-- A value that passes the test of `inherit`, as numbers and strings do. -/
def FieldDef.Allowed : FieldDef → Prop
  | .static v => truthy (some v) = true
  | _ => True

/-- A function whose first value is `false`. -/
def FieldDef.Blank : FieldDef → Prop
  | .func f => f.first = .boolean false
  | _ => False

/-- Where the nearest definition is a function whose first value is `false`, all others are
such functions too. -/
def Unmixed (definitions : List FieldDef) : Prop :=
  ∀ d rest, definitions = d :: rest → d.Blank → ∀ e ∈ rest, e.Blank

/-! ## What becomes of the definitions of one field -/

section Resolve

variable {f : String}

def resolve (f : String) : List FieldDef → Slot
  | [] => Slot.empty
  | d :: rest => (Slot.define f d Slot.empty).inherit (resolve f rest)

theorem Slot.inherit_empty (s : Slot) : s.inherit Slot.empty = s := by
  obtain ⟨fill, dyn, dep⟩ := s
  cases dyn <;> cases dep <;> simp [inherit, empty]

theorem resolve_cons_of_not_blank {d : FieldDef} (hf : (matchField f).isSome = true)
    (hallowed : d.Allowed) (hblank : ¬ d.Blank) (rest : List FieldDef) :
    resolve f (d :: rest) = Slot.define f d Slot.empty ∧
      truthy (Slot.define f d Slot.empty).fill = true := by
  obtain ⟨name, hname⟩ := Option.isSome_iff_exists.mp hf
  have htruthy : truthy (Slot.define f d Slot.empty).fill = true := by
    cases d with
    | static v =>
        simp only [Slot.define, hname]
        exact hallowed
    | table t => simp [Slot.define, hname, truthy]
    | func fn =>
        simp only [Slot.define, hname]
        cases hfirst : fn.first with
        | boolean b =>
            cases b with
            | true => rfl
            | false => exact absurd hfirst hblank
        | _ => rfl
  exact ⟨Slot.inherit_of_truthy htruthy _, htruthy⟩

theorem resolve_cons_of_blank {d : FieldDef} (hf : (matchField f).isSome = true)
    (hblank : d.Blank) (rest : List FieldDef) :
    ∃ dyn, Slot.define f d Slot.empty = ⟨some (.boolean false), dyn, none⟩ ∧
      resolve f (d :: rest) =
        ⟨(resolve f rest).fill.or (some (.boolean false)), dyn, (resolve f rest).dep⟩ := by
  obtain ⟨name, hname⟩ := Option.isSome_iff_exists.mp hf
  cases d with
  | func fn =>
      have hfirst : fn.first = .boolean false := hblank
      have hdefine : Slot.define f (.func fn) Slot.empty =
          ⟨some (.boolean false), some ⟨name.1, name.2, fn, fn.first⟩, none⟩ := by
        simp [Slot.define, hname, hfirst, Slot.empty]
      refine ⟨_, hdefine, ?_⟩
      simp [resolve, hdefine, Slot.inherit, truthy]
  | static v => cases hblank
  | table t => cases hblank

/-- Nothing in it that a function with first value `false` would let through. -/
def Slot.Clear (s : Slot) : Prop :=
  s.dep = none ∧ (s.fill = none ∨ s.fill = some (.boolean false))

theorem resolve_clear_iff (hf : (matchField f).isSome = true) {ds : List FieldDef}
    (hallowed : ∀ d ∈ ds, d.Allowed) : (resolve f ds).Clear ↔ ∀ d ∈ ds, d.Blank := by
  induction ds with
  | nil => simp [resolve, Slot.Clear, Slot.empty]
  | cons d rest ih =>
      have ih := ih (fun e he => hallowed e (List.mem_cons_of_mem d he))
      by_cases hblank : d.Blank
      · obtain ⟨dyn, _, hresolve⟩ := resolve_cons_of_blank hf hblank rest
        rw [List.forall_mem_cons, ← ih, hresolve]
        simp only [hblank, true_and, Slot.Clear]
        cases (resolve f rest).fill <;> simp
      · obtain ⟨hresolve, htruthy⟩ :=
          resolve_cons_of_not_blank hf (hallowed d List.mem_cons_self) hblank rest
        rw [List.forall_mem_cons, hresolve]
        constructor
        · intro hclear
          rcases hclear.2 with hnone | hfalse
          · rw [hnone] at htruthy
            cases htruthy
          · rw [hfalse] at htruthy
            cases htruthy
        · intro hall
          exact absurd hall.1 hblank

/-- The nearest definition decides the field exactly when the definitions are not mixed. -/
theorem resolve_cons_iff (hf : (matchField f).isSome = true) {d : FieldDef} {rest : List FieldDef}
    (hallowed : ∀ e ∈ d :: rest, e.Allowed) :
    resolve f (d :: rest) = Slot.define f d Slot.empty ↔ (d.Blank → ∀ e ∈ rest, e.Blank) := by
  by_cases hblank : d.Blank
  · obtain ⟨dyn, hdefine, hresolve⟩ := resolve_cons_of_blank hf hblank rest
    rw [← resolve_clear_iff hf (fun e he => hallowed e (List.mem_cons_of_mem d he)), hdefine,
      hresolve]
    simp only [hblank, true_imp_iff, Slot.Clear, Slot.mk.injEq, true_and]
    cases (resolve f rest).fill <;> simp [and_comm]
  · exact iff_of_true
      (resolve_cons_of_not_blank hf (hallowed d List.mem_cons_self) hblank rest).1
      (fun h => absurd h hblank)

theorem resolve_dyn (hf : (matchField f).isSome = true) {ds : List FieldDef}
    (hallowed : ∀ d ∈ ds, d.Allowed) :
    (∃ dv, (resolve f ds).dyn = some dv) ↔ ∃ fn, ds.head? = some (.func fn) := by
  obtain ⟨name, hname⟩ := Option.isSome_iff_exists.mp hf
  cases ds with
  | nil => simp [resolve, Slot.empty]
  | cons d rest =>
      cases d with
      | func fn => simp [resolve, Slot.define, hname, Slot.inherit]
      | static v =>
          have hblank : ¬ (FieldDef.static v).Blank := not_false
          have hresolve := resolve_cons_of_not_blank hf (hallowed _ List.mem_cons_self) hblank rest
          rw [hresolve.1]
          simp [Slot.define, hname, Slot.empty]
      | table t =>
          have hblank : ¬ (FieldDef.table t).Blank := not_false
          have hresolve := resolve_cons_of_not_blank hf (hallowed _ List.mem_cons_self) hblank rest
          rw [hresolve.1]
          simp [Slot.define, hname, Slot.empty]

end Resolve

/-! ## Chains -/

section Chain

variable {setter : String → String → Bool} {tbl : FieldTable} {chain : List FieldTable}
  {p q r : Packet} {f : String}

theorem definitions_cons (tbl : FieldTable) (chain : List FieldTable) (f : String) :
    definitions (tbl :: chain) f = (definition f tbl).toList ++ definitions chain f := by
  cases h : definition f tbl <;> simp [definitions, h]

theorem resolve_definitions_cons (tbl : FieldTable) (chain : List FieldTable) (f : String) :
    resolve f (definitions (tbl :: chain) f) =
      ((tbl f).elim Slot.empty fun d => Slot.define f d Slot.empty).inherit
        (resolve f (definitions chain f)) := by
  rw [definitions_cons, definition]
  cases hmatch : matchField f with
  | none => cases tbl f <;> simp [Slot.define, hmatch]
  | some name => cases tbl f <;> simp [resolve]

theorem Combined.sound (h : Combined setter chain p) : p.dynvars.Sound := by
  induction h with
  | root pairs hnew => exact Packet.new_sound hnew
  | child pairs hnew _ order ih => exact Packet.inherit_sound (Packet.new_sound hnew) ih order

theorem Combined.slot (h : Combined setter chain p) (f : String) :
    p.slot f = resolve f (definitions chain f) := by
  induction h with
  | root pairs hnew =>
      rw [resolve_definitions_cons, Packet.new_slot hnew]
      exact (Slot.inherit_empty _).symm
  | child pairs hnew hq order ih =>
      rw [resolve_definitions_cons, ← ih, Packet.inherit_slot _ hq.sound, Packet.new_slot hnew]

theorem Combined.again (h : Combined setter chain r) (hq : Combined setter chain.tail q)
    (order : Packet.Pairs q) : r.inherit order = r := by
  apply Packet.inherit_eq_self hq.sound
  intro f
  rw [h.slot, hq.slot]
  cases chain with
  | nil => cases h
  | cons tbl chain =>
      rw [resolve_definitions_cons]
      exact Slot.inherit_inherit _ _

theorem mem_definitions {d : FieldDef} (h : d ∈ definitions chain f) :
    (matchField f).isSome = true ∧ ∃ tbl ∈ chain, tbl f = some d := by
  obtain ⟨tbl, htbl, hd⟩ := List.mem_filterMap.mp h
  unfold definition at hd
  split at hd
  · next hf => exact ⟨hf, tbl, htbl, hd⟩
  · cases hd

def AllowedChain (chain : List FieldTable) : Prop :=
  ∀ tbl ∈ chain, ∀ f d, tbl f = some d → d.Allowed

theorem AllowedChain.definitions (h : AllowedChain chain) {d : FieldDef} {rest : List FieldDef}
    (hds : definitions chain f = d :: rest) :
    (matchField f).isSome = true ∧ ∀ e ∈ d :: rest, e.Allowed := by
  rw [← hds]
  refine ⟨(mem_definitions (hds ▸ List.mem_cons_self)).1, ?_⟩
  intro e he
  obtain ⟨_, tbl, htbl, heq⟩ := mem_definitions he
  exact h tbl htbl f e heq

theorem Combined.slot_iff (h : Combined setter chain r) (hallowed : AllowedChain chain)
    (f : String) :
    (r.slot f = (nearest chain f).elim Slot.empty fun d => Slot.define f d Slot.empty) ↔
      Unmixed (definitions chain f) := by
  rw [h.slot, nearest, Unmixed]
  cases hds : definitions chain f with
  | nil => simp [resolve]
  | cons d rest =>
      obtain ⟨hf, hall⟩ := hallowed.definitions hds
      rw [List.head?_cons, Option.elim_some, resolve_cons_iff hf hall]
      simp

theorem Combined.mem_names (h : Combined setter chain r) (hallowed : AllowedChain chain)
    (f : String) :
    f ∈ r.dynvars.list.map Dynvar.name ↔ ∃ fn, nearest chain f = some (.func fn) := by
  have hdyn : r.dynvars.index f = (resolve f (definitions chain f)).dyn :=
    congrArg Slot.dyn (h.slot f)
  rw [h.sound.mem_names, hdyn, nearest]
  cases hds : definitions chain f with
  | nil => simp [resolve, Slot.empty]
  | cons d rest =>
      obtain ⟨hf, hall⟩ := hallowed.definitions hds
      exact resolve_dyn hf hall

theorem Combined.count_eq (h : Combined setter chain r) (hallowed : AllowedChain chain) :
    r.dynvars.count = {f | ∃ fn, nearest chain f = some (.func fn)}.ncard := by
  have hnames : {f | ∃ fn, nearest chain f = some (.func fn)} =
      ((r.dynvars.list.map Dynvar.name).toFinset : Set String) := by
    ext f
    simpa using (h.mem_names hallowed f).symm
  rw [hnames, Set.ncard_coe_finset, List.toFinset_card_of_nodup h.sound.nodup, List.length_map,
    h.sound.count]

/-- For every chain: the nearest definition wins in every field exactly when no field mixes
functions that begin with `false` with definitions behind them. -/
theorem nearestWins_iff (setter : String → String → Bool) (chain : List FieldTable) (r : Packet)
    (h : Combined setter chain r) (hallowed : AllowedChain chain) :
    NearestWins setter chain r ↔ ∀ f, Unmixed (definitions chain f) := by
  constructor
  · intro hwins f
    exact (h.slot_iff hallowed f).mp (hwins.field f)
  · intro hunmixed
    exact {
      field := fun f => (h.slot_iff hallowed f).mpr (hunmixed f)
      nodup := h.sound.nodup
      count := ⟨h.sound.count, h.count_eq hallowed⟩
      again := fun q order hq => h.again hq order }

end Chain

/-! ## Every chain leads to a packet -/

section Exists

variable {setter : String → String → Bool} {chain : List FieldTable} {q : Packet}

theorem Combined.exists_keys (h : Combined setter chain q) :
    ∃ keys : List String, ∀ f, q.slot f ≠ Slot.empty → f ∈ keys := by
  have hnew : ∀ {tbl : FieldTable} (pairs : Listing tbl) {p : Packet} {errors : List PacketError},
      Packet.new setter pairs = some (p, errors) → ∀ f, p.slot f ≠ Slot.empty →
        f ∈ pairs.entries.map Prod.fst := by
    intro tbl pairs p errors hp f hf
    rw [Packet.new_slot hp] at hf
    cases hd : tbl f with
    | none =>
        rw [hd] at hf
        exact absurd rfl hf
    | some d => exact List.mem_map.mpr ⟨(f, d), (pairs.mem_iff f d).mpr hd, rfl⟩
  induction h with
  | root pairs hp => exact ⟨_, hnew pairs hp⟩
  | child pairs hp hq order ih =>
      obtain ⟨keys, hkeys⟩ := ih
      refine ⟨pairs.entries.map Prod.fst ++ keys, ?_⟩
      intro f hf
      rw [Packet.inherit_slot _ hq.sound] at hf
      by_contra hmem
      simp only [List.mem_append, not_or] at hmem
      have hempty := not_imp_not.mpr (hnew pairs hp f) hmem.1
      have hparent := not_imp_not.mpr (hkeys f) hmem.2
      rw [not_ne_iff] at hempty hparent
      exact hf (by rw [hempty, hparent, Slot.empty_inherit])

theorem Combined.exists_pairs (h : Combined setter chain q) : Nonempty (Packet.Pairs q) := by
  obtain ⟨keys, hkeys⟩ := h.exists_keys
  refine ⟨⟨.ofKeys _ keys ?_, .ofKeys _ keys ?_, .ofKeys _ keys ?_⟩⟩
  · intro f dv hdv
    apply hkeys f
    intro hempty
    simp [Packet.slot, Slot.empty, hdv] at hempty
  · intro f v hv
    apply hkeys f
    intro hempty
    simp [Packet.slot, Slot.empty, hv] at hempty
  · intro f v hv
    apply hkeys f
    intro hempty
    simp [Packet.slot, Slot.empty, hv] at hempty

theorem exists_combined (hne : chain ≠ [])
    (h : ∀ tbl ∈ chain, ∃ pairs : Listing tbl, pairs.entries.all (Packet.settable setter) = true) :
    ∃ r, Combined setter chain r := by
  induction chain with
  | nil => exact absurd rfl hne
  | cons tbl chain ih =>
      obtain ⟨pairs, hset⟩ := h tbl List.mem_cons_self
      have hnew : Packet.new setter pairs =
          some (pairs.entries.foldl Packet.addField Packet.empty,
            pairs.entries.filterMap Packet.fieldError) := if_pos hset
      cases chain with
      | nil => exact ⟨_, .root pairs hnew⟩
      | cons parent rest =>
          obtain ⟨q, hq⟩ := ih (List.cons_ne_nil _ _) fun t ht => h t (List.mem_cons_of_mem tbl ht)
          obtain ⟨order⟩ := hq.exists_pairs
          exact ⟨_, .child pairs hnew hq order⟩

end Exists

/-! ## What is filled in -/

def FieldDef.filled (getValue : Dependency → DepTable → Option Value) : FieldDef → Option Value
  | .static v => some v
  | .func fn => some fn.first
  | .table t => (t.name.bind dependencies).bind fun dep => getValue dep t

/-- Where the nearest definition wins, the last `prepare` leaves the value that it stands for. -/
theorem prepare_fillTbl {setter : String → String → Bool} {chain : List FieldTable} {r r' : Packet}
    (h : NearestWins setter chain r) {proto : String} {minSize : Nat}
    {getValue : Dependency → DepTable → Option Value} {pairs : Listing r.depvars}
    {error : Option PacketError}
    (hprepare : r.prepare proto minSize getValue true pairs = some (r', error)) (f : String) :
    r'.fillTbl f = (nearest chain f).bind (FieldDef.filled getValue) := by
  have hslot := h.field f
  rw [Packet.prepare_fill hprepare]
  cases hd : nearest chain f with
  | none =>
      rw [hd] at hslot
      simp only [Packet.slot, Option.elim_none, Slot.empty, Slot.mk.injEq] at hslot
      simp [hslot]
  | some d =>
      obtain ⟨name, hname⟩ :=
        Option.isSome_iff_exists.mp (mem_definitions (List.mem_of_mem_head? hd)).1
      rw [hd, Option.elim_some] at hslot
      cases d <;>
        simp only [Packet.slot, Slot.define, hname, Slot.empty, Slot.mk.injEq] at hslot <;>
        simp [hslot, FieldDef.filled]

/-! ## Two tables for one field -/

def chainOf (fields : List (String × FieldDef)) : List FieldTable :=
  fields.map fun x f => if f = x.1 then some x.2 else none

section ChainOf

variable {fields : List (String × FieldDef)}

theorem mem_chainOf {tbl : FieldTable} (h : tbl ∈ chainOf fields) {f : String} {d : FieldDef}
    (hd : tbl f = some d) : (f, d) ∈ fields := by
  obtain ⟨x, hx, rfl⟩ := List.mem_map.mp h
  simp only [Option.ite_none_right_eq_some, Option.some.injEq] at hd
  obtain ⟨rfl, rfl⟩ := hd
  exact hx

theorem exists_chainOf (hne : fields ≠ []) :
    ∃ r, Combined (fun _ _ => true) (chainOf fields) r := by
  apply exists_combined
  · simpa [chainOf] using hne
  · intro tbl htbl
    refine ⟨.ofKeys tbl (fields.map Prod.fst) ?_, ?_⟩
    · intro f d hd
      exact List.mem_map_of_mem (mem_chainOf htbl hd)
    · rw [List.all_eq_true]
      intro entry _
      unfold Packet.settable
      split <;> rfl

end ChainOf

/-- An address to be looked up, and behind it one that is given. -/
def arpChain : List FieldTable :=
  chainOf [("ethDst", .table ⟨some "arp", [.string "10.0.0.1"]⟩),
    ("ethDst", .static (.string "12:34:56:78:90:ab"))]

theorem arpChain_nearestWins : ∃ r, Combined (fun _ _ => true) arpChain r ∧
    NearestWins (fun _ _ => true) arpChain r := by
  obtain ⟨r, hr⟩ := exists_chainOf
    (List.cons_ne_nil ("ethDst", FieldDef.table ⟨some "arp", [.string "10.0.0.1"]⟩)
      [("ethDst", .static (.string "12:34:56:78:90:ab"))])
  refine ⟨r, hr, (nearestWins_iff _ _ r hr ?_).mpr ?_⟩
  · intro tbl htbl f d hd
    have hmem := mem_chainOf htbl hd
    simp only [List.mem_cons, Prod.mk.injEq, List.not_mem_nil, or_false] at hmem
    rcases hmem with ⟨_, rfl⟩ | ⟨_, rfl⟩
    · trivial
    · rfl
  · intro f d rest hds hblank
    obtain ⟨_, tbl, htbl, hd⟩ := mem_definitions (hds ▸ List.mem_cons_self : d ∈ definitions _ f)
    have hmem := mem_chainOf htbl hd
    simp only [List.mem_cons, Prod.mk.injEq, List.not_mem_nil, or_false] at hmem
    rcases hmem with ⟨_, rfl⟩ | ⟨_, rfl⟩
    · cases hblank
    · cases hblank

/-- A function whose first value is `false`, and behind it a number. -/
def ttlChain : List FieldTable :=
  chainOf [("ip4TTL", .func ⟨0, .boolean false⟩), ("ip4TTL", .static (.number 64))]

/-- The number takes the place of the function's value. -/
theorem ttlChain_overwritten : ∃ r, Combined (fun _ _ => true) ttlChain r ∧
    r.fillTbl "ip4TTL" = some (.number 64) ∧ ¬ NearestWins (fun _ _ => true) ttlChain r := by
  obtain ⟨r, hr⟩ := exists_chainOf (List.cons_ne_nil ("ip4TTL", FieldDef.func ⟨0, .boolean false⟩)
    [("ip4TTL", .static (.number 64))])
  have hfill : (r.slot "ip4TTL").fill = some (.number 64) := by
    rw [hr.slot]
    decide +kernel
  refine ⟨r, hr, hfill, ?_⟩
  intro h
  rw [h.field] at hfill
  exact absurd hfill (by decide +kernel)

end MoonGen.Interface

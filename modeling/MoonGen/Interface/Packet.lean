import MoonGen.Lib.Traversal

/-! # The packet of a flow

The embedding of `Packet.new`, `Packet:inherit` and `Packet:prepare` in
`flow/packet.lua` and of the `dynvars` that they fill in `flow/dynvars.lua`. A field
of a packet is a value, a function that is called for each packet, or a dependency
that is looked up when the flow starts. `pairs` lists a table in any order, so each
loop takes the order that it happens to see. Getters, setters and sizes of the
protocols, which the packet takes from libmoon, are left out or parameters.
-/

namespace MoonGen.Interface

open Traversal

/-- The values that a field can have in `fillTbl`; `cdata` stands for an address object. -/
inductive Value where
  | boolean (b : Bool)
  | number (n : Rat)
  | string (s : String)
  | cdata (id : Nat)
deriving Repr, DecidableEq

/-- Everything but `nil` and `false` passes a test. -/
def truthy : Option Value → Bool
  | none => false
  | some (.boolean b) => b
  | some _ => true

/-- A function of the configuration, with what its first call returns. -/
structure Func where
  id : Nat
  first : Value
deriving Repr, DecidableEq

inductive Dependency where
  | arp
  | queueMac
deriving Repr, DecidableEq

def dependencies : String → Option Dependency
  | "arp" => some .arp
  | "queueMac" => some .queueMac
  | _ => none

/-- A table that was given for a field: its first entry, if that is a string, and the rest. -/
structure DepTable where
  name : Option String
  args : List Value
deriving Repr, DecidableEq

inductive FieldDef where
  | static (v : Value)
  | func (f : Func)
  | table (t : DepTable)
deriving Repr, DecidableEq

structure Dynvar where
  pkt : String
  var : String
  func : Func
  value : Value
deriving Repr, DecidableEq

/-- `pkt .. var`, the name of the field. -/
def Dynvar.name (dv : Dynvar) : String := dv.pkt ++ dv.var

structure Depvar where
  dep : Option Dependency
  tbl : DepTable
deriving Repr, DecidableEq

/-- `list` is the array part of the source's table. -/
structure Dynvars where
  list : List Dynvar
  index : String → Option Dynvar
  count : Nat

structure Packet where
  fillTbl : String → Option Value
  depvars : String → Option Depvar
  dynvars : Dynvars

/-! ## Construction -/

/-- `string.match(i, "^([%l%d]+)(%u.*)$")`. -/
def matchField (i : String) : Option (String × String) :=
  let layer := fun c : Char => c.isLower || c.isDigit
  let pkt := i.toList.takeWhile layer
  let var := i.toList.dropWhile layer
  if pkt ≠ [] ∧ var.head?.any Char.isUpper then some (String.ofList pkt, String.ofList var) else none

namespace Dynvars

def new : Dynvars := ⟨[], fun _ => none, 0⟩

def addDv (self : Dynvars) (index : String) (dv : Dynvar) : Dynvars :=
  ⟨self.list ++ [dv], Function.update self.index index (some dv), self.count + 1⟩

def add (self : Dynvars) (pkt var : String) (func : Func) : Dynvars :=
  self.addDv (pkt ++ var) ⟨pkt, var, func, func.first⟩

end Dynvars

structure PacketError where
  format : String
  args : List String
deriving Repr, DecidableEq

namespace PacketError

def invalidTable (field : String) : PacketError := ⟨"Invalid table passed to field '%s'.", [field]⟩

def invalidField (field : String) : PacketError :=
  ⟨"Invalid packet field %q. Format is 'layerField' (e.g. ip4Dst).", [field]⟩

def noLength : PacketError := ⟨"Packet field pktLength has to be set to a valid number.", []⟩

def tooShort (proto : String) (minSize : Nat) : PacketError :=
  ⟨"Packet length is too short. Minimum size for %s is %d", [proto, toString minSize]⟩

end PacketError

namespace Packet

def empty : Packet := ⟨fun _ => none, fun _ => none, .new⟩

/-- The body of the loop of `Packet.new` for a field whose name has the right form. -/
def setField (self : Packet) (i pkt var : String) : FieldDef → Packet
  | .func f =>
      { self with
        dynvars := self.dynvars.add pkt var f
        fillTbl := Function.update self.fillTbl i (some f.first) }
  | .table t =>
      { self with
        depvars := Function.update self.depvars i (some ⟨t.name.bind dependencies, t⟩)
        -- to overwrite on inherit
        fillTbl := Function.update self.fillTbl i (some (.boolean true)) }
  | .static v => { self with fillTbl := Function.update self.fillTbl i (some v) }

def addField (self : Packet) (entry : String × FieldDef) : Packet :=
  match matchField entry.1 with
  | some (pkt, var) => self.setField entry.1 pkt var entry.2
  | none => self

def fieldError (entry : String × FieldDef) : Option PacketError :=
  match matchField entry.1, entry.2 with
  | none, _ => some (.invalidField entry.1)
  | some _, .table t =>
      if (t.name.bind dependencies).isSome then none else some (.invalidTable entry.1)
  | some _, _ => none

/-- Whether `_new_dynvar` finds a setter; where it does not, an assertion ends `Packet.new`. -/
def settable (setter : String → String → Bool) (entry : String × FieldDef) : Bool :=
  match matchField entry.1, entry.2 with
  | some (pkt, var), .func _ => setter pkt var
  | _, _ => true

def new (setter : String → String → Bool) {tbl : String → Option FieldDef} (pairs : Listing tbl) :
    Option (Packet × List PacketError) :=
  if pairs.entries.all (settable setter) then
    some (pairs.entries.foldl addField empty, pairs.entries.filterMap fieldError)
  else none

end Packet

/-! ## Inheritance -/

/-- The body of the loop of `dynvars:inherit`. -/
def Dynvars.inheritOne (fillTbl : String → Option Value) (self : Dynvars) (entry : String × Dynvar) :
    Dynvars :=
  if (self.index entry.1).isNone && !truthy (fillTbl entry.2.name) then self.addDv entry.1 entry.2
  else self

/-- The body of the loop of `_inherit_depvars`. -/
def inheritDepvar (fillTbl : String → Option Value) (depvars : String → Option Depvar)
    (entry : String × Depvar) : String → Option Depvar :=
  if (depvars entry.1).isNone && !truthy (fillTbl entry.1) then
    Function.update depvars entry.1 (some entry.2)
  else depvars

/-- The body of the last loop of `Packet:inherit`. -/
def inheritFill (fillTbl : String → Option Value) (entry : String × Value) :
    String → Option Value :=
  if !truthy (fillTbl entry.1) then Function.update fillTbl entry.1 (some entry.2) else fillTbl

namespace Packet

/-- The orders in which the loops of `inherit` see the tables of a packet. -/
structure Pairs (other : Packet) where
  dynvars : Listing other.dynvars.index
  depvars : Listing other.depvars
  fillTbl : Listing other.fillTbl

def inherit (self : Packet) {other : Packet} (pairs : Pairs other) : Packet where
  dynvars := pairs.dynvars.entries.foldl (Dynvars.inheritOne self.fillTbl) self.dynvars
  depvars := pairs.depvars.entries.foldl (inheritDepvar self.fillTbl) self.depvars
  fillTbl := pairs.fillTbl.entries.foldl inheritFill self.fillTbl

/-! ## Preparation -/

def lengthError (self : Packet) (proto : String) (minSize : Nat) : Option PacketError :=
  match self.fillTbl "pktLength" with
  | some (.number n) => if (minSize : Rat) ≤ n then none else some (.tooShort proto minSize)
  | _ => some .noLength

/-- The body of the loop of `Packet:prepare`. -/
def lookupDepvar (getValue : Dependency → DepTable → Option Value)
    (fillTbl : String → Option Value) (entry : String × Depvar) : String → Option Value :=
  Function.update fillTbl entry.1 (entry.2.dep.bind fun dep => getValue dep entry.2.tbl)

/-- `getValue` is what a dependency gives for its table; without a dependency the call in the
loop is an error of Lua. -/
def prepare (self : Packet) (proto : String) (minSize : Nat)
    (getValue : Dependency → DepTable → Option Value) (final : Bool)
    (pairs : Listing self.depvars) : Option (Packet × Option PacketError) :=
  if final then
    if pairs.entries.all fun entry => entry.2.dep.isSome then
      some
        ({ self with fillTbl := pairs.entries.foldl (lookupDepvar getValue) self.fillTbl },
          self.lengthError proto minSize)
    else none
  else some (self, self.lengthError proto minSize)

end Packet

/-! ## One field at a time -/

/-- What the three tables of a packet hold for one field. -/
@[ext] structure Slot where
  fill : Option Value
  dyn : Option Dynvar
  dep : Option Depvar
deriving Repr, DecidableEq

namespace Slot

def empty : Slot := ⟨none, none, none⟩

def inherit (self other : Slot) : Slot where
  dyn := bif self.dyn.isNone && !truthy self.fill then other.dyn else self.dyn
  dep := bif self.dep.isNone && !truthy self.fill then other.dep else self.dep
  fill := bif truthy self.fill then self.fill else other.fill.or self.fill

def define (i : String) (d : FieldDef) (self : Slot) : Slot :=
  match matchField i, d with
  | none, _ => self
  | some _, .static v => { self with fill := some v }
  | some (pkt, var), .func f =>
      { self with fill := some f.first, dyn := some ⟨pkt, var, f, f.first⟩ }
  | some _, .table t =>
      { self with fill := some (.boolean true), dep := some ⟨t.name.bind dependencies, t⟩ }

@[simp] theorem empty_inherit (s : Slot) : empty.inherit s = s := by
  cases s
  simp [inherit, empty, truthy]

theorem inherit_of_truthy {s : Slot} (h : truthy s.fill = true) (other : Slot) :
    s.inherit other = s := by
  simp [inherit, h]

theorem inherit_inherit (s other : Slot) : (s.inherit other).inherit other = s.inherit other := by
  by_cases h : truthy (s.inherit other).fill = true
  · exact inherit_of_truthy h other
  · have hfill : truthy s.fill = false := by
      by_contra hs
      rw [inherit_of_truthy (by simpa using hs)] at h
      exact h (by simpa using hs)
    simp only [inherit, hfill] at h ⊢
    cases s.dyn <;> cases s.dep <;> cases other.fill <;> simp_all

end Slot

theorem matchField_append {i pkt var : String} (h : matchField i = some (pkt, var)) :
    pkt ++ var = i := by
  simp only [matchField] at h
  split at h
  · cases h
    rw [← String.ofList_append, List.takeWhile_append_dropWhile, String.ofList_toList]
  · cases h

/-- Count, list and index of the `dynvars` say the same. -/
structure Dynvars.Sound (d : Dynvars) : Prop where
  count : d.count = d.list.length
  nodup : (d.list.map Dynvar.name).Nodup
  index : ∀ i dv, d.index i = some dv ↔ dv ∈ d.list ∧ dv.name = i

theorem Dynvars.sound_new : Dynvars.new.Sound := ⟨rfl, List.nodup_nil, by simp [new]⟩

theorem Dynvars.Sound.mem_names {d : Dynvars} (h : d.Sound) (i : String) :
    i ∈ d.list.map Dynvar.name ↔ ∃ dv, d.index i = some dv := by
  simp only [List.mem_map, h.index]

theorem Dynvars.Sound.addDv {d : Dynvars} (h : d.Sound) {dv : Dynvar}
    (hfresh : d.index dv.name = none) : (d.addDv dv.name dv).Sound where
  count := by simp [Dynvars.addDv, h.count]
  nodup := by
    have hnew : dv.name ∉ d.list.map Dynvar.name := by simp [h.mem_names, hfresh]
    simpa [Dynvars.addDv, List.nodup_append, h.nodup] using hnew
  index := by
    intro i dv'
    simp only [Dynvars.addDv, List.mem_append, List.mem_singleton]
    by_cases hi : i = dv.name
    · subst hi
      have hnone : ¬ (dv' ∈ d.list ∧ dv'.name = dv.name) := by
        rw [← h.index, hfresh]
        exact nofun
      rw [Function.update_self, Option.some.injEq, or_and_right, or_iff_right hnone]
      constructor
      · intro heq
        exact ⟨heq.symm, heq ▸ rfl⟩
      · intro heq
        exact heq.1.symm
    · have hother : ¬ (dv' = dv ∧ dv'.name = i) := by
        intro hdv
        exact hi (hdv.1 ▸ hdv.2.symm)
      rw [Function.update_of_ne hi, h.index, or_and_right, or_iff_left hother]

namespace Packet

def slot (p : Packet) (i : String) : Slot := ⟨p.fillTbl i, p.dynvars.index i, p.depvars i⟩

theorem addField_local : Local slot addField Slot.define where
  here := by
    intro p i d
    unfold addField Slot.define
    cases hmatch : matchField i with
    | none => rfl
    | some name =>
        have hname := matchField_append hmatch
        cases d <;>
          simp only [slot, setField, Dynvars.add, Dynvars.addDv, hname, Function.update_self]
  elsewhere := by
    intro p i d i' hne
    unfold addField
    cases hmatch : matchField i with
    | none => rfl
    | some name =>
        have hname := matchField_append hmatch
        cases d <;>
          simp only [slot, setField, Dynvars.add, Dynvars.addDv, hname, ne_eq, hne,
            not_false_eq_true, Function.update_of_ne]

section New

variable {setter : String → String → Bool} {tbl : String → Option FieldDef} {pairs : Listing tbl}
  {p : Packet} {errors : List PacketError}

theorem new_eq (h : new setter pairs = some (p, errors)) :
    p = pairs.entries.foldl addField empty ∧ errors = pairs.entries.filterMap fieldError := by
  unfold new at h
  split at h
  · cases h
    exact ⟨rfl, rfl⟩
  · cases h

theorem new_slot (h : new setter pairs = some (p, errors)) (i : String) :
    p.slot i = (tbl i).elim Slot.empty fun d => Slot.define i d Slot.empty := by
  rw [(new_eq h).1]
  exact addField_local.foldl pairs empty i

theorem new_sound (h : new setter pairs = some (p, errors)) : p.dynvars.Sound := by
  rw [(new_eq h).1]
  apply addField_local.foldl_invariant pairs (fun p => p.dynvars.Sound) Dynvars.sound_new
  intro p i d _ hempty hsound
  unfold addField
  cases hmatch : matchField i with
  | none => exact hsound
  | some name =>
      have hname := matchField_append hmatch
      cases d with
      | func f =>
          have hfresh : p.dynvars.index i = none := congrArg Slot.dyn hempty
          exact hsound.addDv (by rw [← hname] at hfresh; exact hfresh)
      | static v => exact hsound
      | table t => exact hsound

/-- No error is reported exactly when all names have the right form and all tables name a
dependency. -/
theorem new_errors_eq_nil_iff (h : new setter pairs = some (p, errors)) :
    errors = [] ↔ ∀ i d, tbl i = some d → (matchField i).isSome = true ∧
      ∀ t, d = .table t → (t.name.bind dependencies).isSome = true := by
  have hentry : ∀ i d, fieldError (i, d) = none ↔ (matchField i).isSome = true ∧
      ∀ t, d = .table t → (t.name.bind dependencies).isSome = true := by
    intro i d
    cases hmatch : matchField i with
    | none => simp [fieldError, hmatch]
    | some name =>
        cases d with
        | table t =>
            have htable : fieldError (i, .table t) = none ↔
                (t.name.bind dependencies).isSome = true := by
              simp only [fieldError, hmatch]
              split <;> simp_all only [reduceCtorEq]
            simpa using htable
        | static v => simp [fieldError, hmatch]
        | func f => simp [fieldError, hmatch]
  rw [(new_eq h).2, List.filterMap_eq_nil_iff]
  constructor
  · intro hnone i d hd
    exact (hentry i d).mp (hnone (i, d) ((pairs.mem_iff i d).mpr hd))
  · intro hvalid entry hmem
    exact (hentry entry.1 entry.2).mpr (hvalid _ _ ((pairs.mem_iff entry.1 entry.2).mp hmem))

/-- Every error names a field of the table. -/
theorem new_errors_args (h : new setter pairs = some (p, errors)) {e : PacketError}
    (he : e ∈ errors) : ∃ i d, tbl i = some d ∧ e.args = [i] := by
  rw [(new_eq h).2] at he
  obtain ⟨⟨i, d⟩, hmem, hentry⟩ := List.mem_filterMap.mp he
  refine ⟨i, d, (pairs.mem_iff i d).mp hmem, ?_⟩
  unfold fieldError at hentry
  split at hentry
  · cases hentry
    rfl
  · split at hentry
    · cases hentry
    · cases hentry
      rfl
  · cases hentry

end New

theorem inheritOne_local (fillTbl : String → Option Value) :
    Local Dynvars.index (Dynvars.inheritOne fillTbl) fun _ dv self =>
      bif self.isNone && !truthy (fillTbl dv.name) then some dv else self where
  here := by
    intro d i dv
    dsimp only [Dynvars.inheritOne]
    cases (d.index i).isNone && !truthy (fillTbl dv.name) <;> simp [Dynvars.addDv]
  elsewhere := by
    intro d i dv i' hne
    unfold Dynvars.inheritOne
    split <;> simp [Dynvars.addDv, hne]

theorem inheritDepvar_local (fillTbl : String → Option Value) :
    Local (fun depvars : String → Option Depvar => depvars) (inheritDepvar fillTbl) fun i v self =>
      bif self.isNone && !truthy (fillTbl i) then some v else self where
  here := by
    intro depvars i v
    dsimp only [inheritDepvar]
    cases (depvars i).isNone && !truthy (fillTbl i) <;> simp
  elsewhere := by
    intro depvars i v i' hne
    unfold inheritDepvar
    split <;> simp [hne]

theorem inheritFill_local :
    Local (fun fillTbl : String → Option Value => fillTbl) inheritFill fun _ v self =>
      bif truthy self then self else some v where
  here := by
    intro fillTbl i v
    dsimp only [inheritFill]
    cases truthy (fillTbl i) <;> simp
  elsewhere := by
    intro fillTbl i v i' hne
    unfold inheritFill
    split <;> simp [hne]

/-- `inherit` treats each field alone. -/
theorem inherit_slot (p : Packet) {q : Packet} (hq : q.dynvars.Sound) (pairs : Pairs q)
    (i : String) : (p.inherit pairs).slot i = (p.slot i).inherit (q.slot i) := by
  have hdyn := (inheritOne_local p.fillTbl).foldl pairs.dynvars p.dynvars i
  have hdep := (inheritDepvar_local p.fillTbl).foldl pairs.depvars p.depvars i
  have hfill := inheritFill_local.foldl pairs.fillTbl p.fillTbl i
  apply Slot.ext
  · refine hfill.trans ?_
    simp only [Slot.inherit, slot]
    cases q.fillTbl i <;> cases truthy (p.fillTbl i) <;> simp
  · refine hdyn.trans ?_
    simp only [Slot.inherit, slot]
    cases hi : q.dynvars.index i with
    | none => cases p.dynvars.index i <;> simp
    | some dv =>
        have hname := ((hq.index i dv).mp hi).2
        simp [hname]
  · refine hdep.trans ?_
    simp only [Slot.inherit, slot]
    cases q.depvars i with
    | none => cases p.depvars i <;> simp
    | some v => rfl

theorem inherit_sound {p q : Packet} (hp : p.dynvars.Sound) (hq : q.dynvars.Sound)
    (pairs : Pairs q) : (p.inherit pairs).dynvars.Sound := by
  apply foldl_invariant Dynvars.Sound pairs.dynvars _ hp
  intro d i dv hi hsound
  have hname := ((hq.index i dv).mp hi).2
  subst hname
  unfold Dynvars.inheritOne
  split
  · next hfresh =>
      have hnone : d.index dv.name = none := by
        simpa using (Bool.and_eq_true_iff.mp hfresh).1
      exact hsound.addDv hnone
  · exact hsound

theorem inherit_eq_self {p q : Packet} (hq : q.dynvars.Sound) (pairs : Pairs q)
    (h : ∀ i, (p.slot i).inherit (q.slot i) = p.slot i) : p.inherit pairs = p := by
  have hslot : ∀ i, (p.inherit pairs).slot i = p.slot i := by
    intro i
    rw [inherit_slot p hq, h i]
  have hdynvars : (p.inherit pairs).dynvars = p.dynvars := by
    apply foldl_invariant (fun d => d = p.dynvars) pairs.dynvars _ rfl
    intro d i dv hi hd
    have hname := ((hq.index i dv).mp hi).2
    have hkept := congrArg Slot.dyn (h i)
    simp only [Slot.inherit, slot, hi] at hkept
    subst hd
    unfold Dynvars.inheritOne
    rw [hname]
    split
    · next hfresh =>
        rw [hfresh, cond_true] at hkept
        simp [← hkept] at hfresh
    · rfl
  have hfill : (p.inherit pairs).fillTbl = p.fillTbl := funext fun i => congrArg Slot.fill (hslot i)
  have hdep : (p.inherit pairs).depvars = p.depvars := funext fun i => congrArg Slot.dep (hslot i)
  cases p
  simp_all [inherit]

theorem prepare_fill {p p' : Packet} {proto : String} {minSize : Nat}
    {getValue : Dependency → DepTable → Option Value} {pairs : Listing p.depvars}
    {error : Option PacketError}
    (h : p.prepare proto minSize getValue true pairs = some (p', error)) (i : String) :
    p'.fillTbl i = (p.depvars i).elim (p.fillTbl i) fun v =>
      v.dep.bind fun dep => getValue dep v.tbl := by
  have hlocal : Local (fun fillTbl : String → Option Value => fillTbl) (lookupDepvar getValue)
      (fun _ v _ => v.dep.bind fun dep => getValue dep v.tbl) :=
    ⟨fun fillTbl k v => by simp [lookupDepvar],
      fun fillTbl k v k' hne => by simp [lookupDepvar, hne]⟩
  simp only [prepare, if_true] at h
  split at h
  · cases h
    exact hlocal.foldl pairs p.fillTbl i
  · cases h

end Packet

end MoonGen.Interface

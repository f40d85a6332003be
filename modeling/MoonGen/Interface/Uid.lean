import Mathlib.Data.List.Nodup
import Mathlib.Data.List.Perm.Subperm
import Mathlib.Order.Bounds.Basic
import MoonGen.Interface.FlowTag
import MoonGen.Lib.Loop

/-! # Allocation of uids

The embedding of `options/uid.lua`. A flow asks for a number of its own or takes the
least positive integer that is free. The set of used numbers is a table of Lua numbers,
while the payload has room for 32 bits of one.
-/

namespace MoonGen.Interface

open Loop

/-- The Lua numbers that can pass the test `number > 0`. -/
inductive LuaNumber where
  | finite (val : Rat)
  | infinity
deriving Repr, DecidableEq

namespace LuaNumber

def ofNat (n : Nat) : LuaNumber := .finite n

def positive : LuaNumber → Bool
  | .finite val => 0 < val
  | .infinity => true

theorem ofNat_injective : Function.Injective ofNat := by
  intro m n h
  have hval : (m : Rat) = n := LuaNumber.finite.inj h
  exact_mod_cast hval

end LuaNumber

/-- The conversion to 32 bits with which each function of `bit` starts. It takes integers of
up to 51 bits modulo `2 ^ 32`; what it makes of other numbers is not specified. -/
structure ToBit where
  apply : LuaNumber → UInt32
  integers : ∀ n : Nat, n < 2 ^ 51 → apply (.ofNat n) = UInt32.ofNat n

instance : Inhabited ToBit where
  default :=
    { apply := fun
        | .finite val => UInt32.ofNat val.floor.toNat
        | .infinity => 0
      integers := by
        intro n _
        exact congrArg (fun val : Int => UInt32.ofNat val.toNat) (Rat.floor_intCast n) }

def ToBit.tag (bit : ToBit) (uid : LuaNumber) : UInt8 × UInt8 × UInt8 × UInt8 :=
  separateUid (bit.apply uid)

theorem separateUid_injective : Function.Injective separateUid := by
  intro uid other h
  have hbytes (n : UInt32) : (separateUid n).1.toNat = n.toNat / 2 ^ 24 % 256 ∧
      (separateUid n).2.1.toNat = n.toNat / 2 ^ 16 % 256 ∧
      (separateUid n).2.2.1.toNat = n.toNat / 2 ^ 8 % 256 ∧
      (separateUid n).2.2.2.toNat = n.toNat / 2 ^ 0 % 256 :=
    ⟨byte_toNat n 24 rfl (by decide), byte_toNat n 16 rfl (by decide),
      byte_toNat n 8 rfl (by decide), byte_toNat n 0 rfl (by decide)⟩
  obtain ⟨a3, a2, a1, a0⟩ := hbytes uid
  obtain ⟨b3, b2, b1, b0⟩ := hbytes other
  obtain ⟨s1, s2, s3⟩ := shifts_eq_div uid.toNat
  obtain ⟨t1, t2, t3⟩ := shifts_eq_div other.toNat
  rw [h] at a3 a2 a1 a0
  rw [a3, s3, t3] at b3
  rw [a2, s2, t2] at b2
  rw [a1, s1, t1] at b1
  rw [a0, Nat.pow_zero, Nat.div_one, Nat.div_one] at b0
  have huid := uid.toNat_lt
  have hother := other.toNat_lt
  apply UInt32.toNat_inj.mp
  omega

/-! ## `option.parse` -/

inductive UidArg where
  | nil
  | number (n : LuaNumber)
  | string (s : String)
  | other (type : String)
deriving Repr, DecidableEq

namespace UidArg

/-- The number that an option asks for; strings go through `tonumber`. -/
def number? (tonumber : String → Option LuaNumber) : UidArg → Option LuaNumber
  | .number n => some n
  | .string s => tonumber s
  | .nil | .other _ => none

def errors (tonumber : String → Option LuaNumber) : UidArg → List String
  | .nil | .number _ => []
  | .string s =>
      if (tonumber s).isSome then [] else ["Invalid string. Needs to be convertible to a number."]
  | .other type => ["Invalid argument. String or number expected, got " ++ type ++ "."]

end UidArg

/-- The loop of `next_uid`; one round more than there are keys is never needed. -/
def nextUidFrom (uids : List LuaNumber) : Nat → Nat → Nat
  | 0, i => i
  | fuel + 1, i => if .ofNat i ∈ uids then nextUidFrom uids fuel (i + 1) else i

def nextUid (uids : List LuaNumber) : Nat := nextUidFrom uids uids.length 1

/-- What `option.parse` returns and reports, and the keys of `uids` after it. -/
structure ParsedUid where
  number : LuaNumber
  uids : List LuaNumber
  errors : List String
deriving Repr, DecidableEq

/-- The check of the number is an `assert` of Lua's own, which raises its message. -/
def parseUid (tonumber : String → Option LuaNumber) (uids : List LuaNumber)
    (property : Option LuaNumber) (arg : UidArg) : Except String ParsedUid :=
  match property with
  | some uid => .ok ⟨uid, uids, []⟩
  | none =>
      match arg.number? tonumber with
      | some number =>
          if number.positive ∧ number ∉ uids then
            .ok ⟨number, number :: uids, arg.errors tonumber⟩
          else .error "Invalid value. Needs to be a unique positive integer."
      | none =>
          let number := .ofNat (nextUid uids)
          .ok ⟨number, number :: uids, arg.errors tonumber⟩

def freeUids (uids : List LuaNumber) : Set Nat := {n | 0 < n ∧ .ofNat n ∉ uids}

theorem nextUidFrom_spec (uids : List LuaNumber) (fuel i : Nat)
    (h : ∀ j, 0 < j → j < i → .ofNat j ∈ uids) :
    i ≤ nextUidFrom uids fuel i ∧
      (∀ j, 0 < j → j < nextUidFrom uids fuel i → .ofNat j ∈ uids) ∧
      (.ofNat (nextUidFrom uids fuel i) ∉ uids ∨ nextUidFrom uids fuel i = i + fuel) := by
  induction fuel generalizing i with
  | zero => exact ⟨Nat.le_refl i, h, .inr rfl⟩
  | succ fuel ih =>
      unfold nextUidFrom
      by_cases hused : .ofNat i ∈ uids
      · rw [if_pos hused]
        have hnext : ∀ j, 0 < j → j < i + 1 → .ofNat j ∈ uids := by
          intro j hpos hlt
          rcases Nat.lt_succ_iff_lt_or_eq.mp hlt with hlt | rfl
          · exact h j hpos hlt
          · exact hused
        obtain ⟨hle, hbelow, hend⟩ := ih (i + 1) hnext
        refine ⟨Nat.le_of_succ_le hle, hbelow, hend.imp_right ?_⟩
        intro heq
        omega
      · rw [if_neg hused]
        exact ⟨Nat.le_refl i, h, .inl hused⟩

/-- The loop ends at the least free integer: `uids` cannot hold one more integer than it
has keys. -/
theorem nextUid_isLeast (uids : List LuaNumber) : IsLeast (freeUids uids) (nextUid uids) := by
  obtain ⟨hle, hbelow, hend⟩ := nextUidFrom_spec uids uids.length 1 (by omega)
  have hfree : .ofNat (nextUid uids) ∉ uids := by
    intro hused
    rcases hend with hfree | hlast
    · exact hfree hused
    · have hall : (List.range' 1 (uids.length + 1)).map LuaNumber.ofNat ⊆ uids := by
        intro n hn
        obtain ⟨j, hj, rfl⟩ := List.mem_map.mp hn
        obtain ⟨hpos, hlt⟩ := List.mem_range'_1.mp hj
        rcases Nat.lt_or_eq_of_le (show j ≤ nextUid uids by unfold nextUid; omega) with hlt | rfl
        · exact hbelow j hpos hlt
        · exact hused
      have hnodup : ((List.range' 1 (uids.length + 1)).map LuaNumber.ofNat).Nodup :=
        List.Nodup.map LuaNumber.ofNat_injective List.nodup_range'
      have hlength := (hnodup.subperm hall).length_le
      rw [List.length_map, List.length_range'] at hlength
      omega
  refine ⟨⟨hle, hfree⟩, ?_⟩
  intro j hj
  by_contra hlt
  exact hj.2 (hbelow j hj.1 (Nat.not_le.mp hlt))

/-- The number that a flow without a uid takes: the one it asks for, if that is positive and
free, or the least free one if it asks for none. -/
def Takes (tonumber : String → Option LuaNumber) (uids : List LuaNumber) (arg : UidArg)
    (number : LuaNumber) : Prop :=
  (arg.number? tonumber = some number ∧ number.positive = true ∧ number ∉ uids) ∨
    (arg.number? tonumber = none ∧ ∃ n, IsLeast (freeUids uids) n ∧ number = .ofNat n)

section Takes

variable {tonumber : String → Option LuaNumber} {uids : List LuaNumber} {arg : UidArg}

theorem takes_iff_of_some {n : LuaNumber} (h : arg.number? tonumber = some n)
    (number : LuaNumber) :
    Takes tonumber uids arg number ↔ number = n ∧ n.positive = true ∧ n ∉ uids := by
  unfold Takes
  rw [h]
  constructor
  · rintro (⟨hsome, hvalid⟩ | ⟨hnone, _⟩)
    · obtain rfl := Option.some.inj hsome
      exact ⟨rfl, hvalid⟩
    · cases hnone
  · rintro ⟨rfl, hvalid⟩
    exact .inl ⟨rfl, hvalid⟩

theorem takes_iff_of_none (h : arg.number? tonumber = none) (number : LuaNumber) :
    Takes tonumber uids arg number ↔ number = .ofNat (nextUid uids) := by
  unfold Takes
  rw [h]
  constructor
  · rintro (⟨hsome, _⟩ | ⟨_, n, hleast, rfl⟩)
    · cases hsome
    · rw [hleast.unique (nextUid_isLeast uids)]
  · rintro rfl
    exact .inr ⟨rfl, _, nextUid_isLeast uids, rfl⟩

theorem parseUid_ok {r : ParsedUid} (h : parseUid tonumber uids none arg = .ok r) :
    r.uids = r.number :: uids ∧ ∀ number, Takes tonumber uids arg number ↔ number = r.number := by
  unfold parseUid at h
  cases hnumber : arg.number? tonumber with
  | some n =>
      simp only [hnumber] at h
      split at h
      next hvalid =>
        cases h
        refine ⟨rfl, ?_⟩
        intro number
        rw [takes_iff_of_some hnumber, and_iff_left hvalid]
      next => cases h
  | none =>
      simp only [hnumber] at h
      cases h
      exact ⟨rfl, takes_iff_of_none hnumber⟩

theorem parseUid_error {msg : String} (h : parseUid tonumber uids none arg = .error msg)
    (number : LuaNumber) : ¬ Takes tonumber uids arg number := by
  unfold parseUid at h
  cases hnumber : arg.number? tonumber with
  | some n =>
      simp only [hnumber] at h
      split at h
      next => cases h
      next hinvalid =>
        rw [takes_iff_of_some hnumber]
        exact fun htakes => hinvalid htakes.2
  | none =>
      simp only [hnumber] at h
      cases h

end Takes

/-! ## Sequences of instantiations -/

structure FlowUid where
  arg : UidArg
  uid : LuaNumber
deriving Repr, DecidableEq

structure Instances where
  flows : List FlowUid
  uids : List LuaNumber
  keys : uids = flows.map FlowUid.uid

namespace Instances

def empty : Instances := ⟨[], [], rfl⟩

/-- A new flow; where the option raises, there is no flow and the table stays as it is. -/
def instantiate (tonumber : String → Option LuaNumber) (s : Instances) (arg : UidArg) : Instances :=
  match h : parseUid tonumber s.uids none arg with
  | .ok r => ⟨⟨arg, r.number⟩ :: s.flows, r.uids, by rw [(parseUid_ok h).1, s.keys, List.map_cons]⟩
  | .error _ => s

def Distinct (bit : ToBit) (s : Instances) : Prop :=
  s.flows.Pairwise fun f g => bit.tag f.uid ≠ bit.tag g.uid

def Separate (bit : ToBit) (tonumber : String → Option LuaNumber) (s : Instances) (arg : UidArg) :
    Prop :=
  ∀ number, Takes tonumber s.uids arg number → ∀ uid ∈ s.uids, bit.apply number ≠ bit.apply uid

def KeepsExplicit (tonumber : String → Option LuaNumber) (s : Instances) : Prop :=
  ∀ f ∈ s.flows, ∀ number, f.arg.number? tonumber = some number → f.uid = number

theorem distinct_instantiate_iff (bit : ToBit) (tonumber : String → Option LuaNumber)
    (s : Instances) (arg : UidArg) :
    (s.instantiate tonumber arg).Distinct bit ↔ s.Distinct bit ∧ s.Separate bit tonumber arg := by
  unfold instantiate
  split
  next r hr =>
    have htakes := (parseUid_ok hr).2
    have htags : (∀ g ∈ s.flows, bit.tag r.number ≠ bit.tag g.uid) ↔
        s.Separate bit tonumber arg := by
      unfold Separate ToBit.tag
      simp only [htakes, forall_eq, separateUid_injective.ne_iff]
      rw [s.keys, List.forall_mem_map]
    rw [Distinct, List.pairwise_cons, htags, and_comm]
    rfl
  next msg hr =>
    have hseparate : s.Separate bit tonumber arg :=
      fun number htakes => absurd htakes (parseUid_error hr number)
    exact ⟨fun h => ⟨h, hseparate⟩, fun h => h.1⟩

theorem KeepsExplicit.instantiate {tonumber : String → Option LuaNumber} {s : Instances}
    (h : s.KeepsExplicit tonumber) (arg : UidArg) :
    (s.instantiate tonumber arg).KeepsExplicit tonumber := by
  unfold Instances.instantiate
  split
  next r hr =>
    intro f hf number hnumber
    rcases List.mem_cons.mp hf with rfl | hf
    · have htakes := ((parseUid_ok hr).2 r.number).mpr rfl
      exact ((takes_iff_of_some hnumber _).mp htakes).1
    · exact h f hf number hnumber
  next => exact h

/-- A sequence of instantiations, which never ends early. -/
def step (tonumber : String → Option LuaNumber) (s : Instances) (arg : UidArg) :
    Option Instances :=
  some (s.instantiate tonumber arg)

def run (tonumber : String → Option LuaNumber) (s : Instances) (args : List UidArg) : Instances :=
  args.foldl (instantiate tonumber) s

theorem distinct_run_iff (bit : ToBit) (tonumber : String → Option LuaNumber) (s : Instances)
    (args : List UidArg) :
    (s.run tonumber args).Distinct bit ↔
      s.Distinct bit ∧ Along (step tonumber) (Separate bit tonumber) s args := by
  induction args generalizing s with
  | nil => simp [run, Along]
  | cons arg rest ih =>
      have hrest := ih (s.instantiate tonumber arg)
      rw [distinct_instantiate_iff] at hrest
      simp only [Along, step, Option.some.injEq, forall_eq']
      rw [← and_assoc]
      exact hrest

theorem KeepsExplicit.run {tonumber : String → Option LuaNumber} {s : Instances}
    (h : s.KeepsExplicit tonumber) (args : List UidArg) :
    (s.run tonumber args).KeepsExplicit tonumber := by
  induction args generalizing s with
  | nil => exact h
  | cons arg rest ih => exact ih (h.instantiate arg)

/-- Every flow keeps the number it has asked for, and the tags of all flows differ exactly when
each flow took a number whose 32 bits no number in use had. -/
theorem tags_distinct_iff (bit : ToBit) (tonumber : String → Option LuaNumber)
    (args : List UidArg) :
    (empty.run tonumber args).KeepsExplicit tonumber ∧
      ((empty.run tonumber args).Distinct bit ↔
        Along (step tonumber) (Separate bit tonumber) empty args) := by
  constructor
  · exact KeepsExplicit.run (by simp [KeepsExplicit, empty]) args
  · have hiff := distinct_run_iff bit tonumber empty args
    have hstart : empty.Distinct bit := List.Pairwise.nil
    rw [hiff]
    exact ⟨fun h => h.2, fun h => ⟨hstart, h⟩⟩

/-- The numbers 1 and `2 ^ 32 + 1` are both accepted and share a tag. -/
theorem tags_collide :
    (empty.run (fun _ => none) [.number (.ofNat 1), .number (.ofNat 4294967297)]).flows =
        [⟨.number (.ofNat 4294967297), .ofNat 4294967297⟩, ⟨.number (.ofNat 1), .ofNat 1⟩] ∧
      ∀ bit : ToBit, bit.tag (.ofNat 1) = bit.tag (.ofNat 4294967297) := by
  constructor
  · rfl
  · intro bit
    rw [ToBit.tag, ToBit.tag, bit.integers 1 (by decide), bit.integers 4294967297 (by decide)]
    rfl

end Instances

end MoonGen.Interface

import Mathlib.Algebra.Field.Rat
import MoonGen.Interface.LuaText

/-! # Units and errors of the interface

The embedding of `units.lua`, of the error handler in `errors.lua` as far as the options use
it, and of the tests by which `rate` and `dataLimit` take a unit apart. Beside the tables stand
the units that are documented: a prefix and a kind of amount, or a time.
-/

namespace MoonGen.Interface

open Pattern

inductive Raise where
  | arithmetic
  | index
  | badArgument
deriving Repr, DecidableEq

/-- The error handler: the text before each message, and the messages. -/
structure ErrorHandler where
  before : Option String
  messages : List String
deriving Repr, DecidableEq

namespace ErrorHandler

def log (e : ErrorHandler) (message : String) : ErrorHandler :=
  { e with messages := e.messages ++ [e.before.getD "" ++ message] }

/-- `errors:assert`; `string.format` does not take `nil` for a message. -/
def assert (e : ErrorHandler) (test : Bool) (message : Option String) :
    Except Raise ErrorHandler :=
  if test then .ok e
  else
    match message with
    | some message => .ok (e.log message)
    | none => .error .badArgument

end ErrorHandler

namespace Units

def time : Text → Option Rat
  | [] => some 1
  | ['m', 's'] => some (1 / 1000)
  | ['s'] => some 1
  | ['m'] => some 60
  | ['h'] => some 3600
  | _ => none

def timeError : String := "Invalid time unit. Can be one of 'ms', 's', 'm', 'h'."

def size : Text → Option Rat
  | [] => some 1
  | ['k'] => some (10 ^ 3)
  | ['k', 'i'] => some (2 ^ 10)
  | ['m'] => some (10 ^ 6)
  | ['m', 'i'] => some (2 ^ 20)
  | ['g'] => some (10 ^ 9)
  | ['g', 'i'] => some (2 ^ 30)
  | _ => none

def sizeError : String := "Invalid size unit. Can be <k|m|g>[i]<bit|b|p>"

end Units

/-- `a * b`, where `a` may be `nil`. -/
def times (a : Option Rat) (b : Rat) : Except Raise Rat :=
  match a with
  | some a => .ok (a * b)
  | none => .error .arithmetic

/-- `string.sub(s, 1, -n - 1)`. -/
def dropEnd (n : Nat) (s : Text) : Text := s.take (s.length - n)

/-- The tests on a unit, with the value that `unit` has after them; `none` if none applies. -/
def unitOf (psize : Rat) (unit : Text) : Except Raise (Option (Option Rat)) :=
  if unit = [] then .ok (some (Units.size ['m']))
  else if ['b', 'i', 't'].isSuffixOf unit then .ok (some (Units.size (dropEnd 3 unit)))
  else if ['b'].isSuffixOf unit then do
    let value ← times (Units.size (dropEnd 1 unit)) 8
    pure (some (some value))
  else if ['p'].isSuffixOf unit then do
    let value ← times (Units.size (dropEnd 1 unit)) (psize * 8)
    pure (some (some value))
  else .ok none

/-! ## The documented units -/

inductive SizeScale where
  | one
  | k
  | ki
  | m
  | mi
  | g
  | gi
deriving Repr, DecidableEq

namespace SizeScale

def text : SizeScale → Text
  | one => []
  | k => ['k']
  | ki => ['k', 'i']
  | m => ['m']
  | mi => ['m', 'i']
  | g => ['g']
  | gi => ['g', 'i']

def factor : SizeScale → Rat
  | one => 1
  | k => 10 ^ 3
  | ki => 2 ^ 10
  | m => 10 ^ 6
  | mi => 2 ^ 20
  | g => 10 ^ 9
  | gi => 2 ^ 30

end SizeScale

inductive Amount where
  | bit
  | byte
  | packet
deriving Repr, DecidableEq

namespace Amount

def text : Amount → Text
  | bit => ['b', 'i', 't']
  | byte => ['b']
  | packet => ['p']

def bits (psize : Rat) : Amount → Rat
  | bit => 1
  | byte => 8
  | packet => psize * 8

end Amount

inductive TimeUnit where
  | ms
  | s
  | m
  | h
deriving Repr, DecidableEq

namespace TimeUnit

def text : TimeUnit → Text
  | ms => ['m', 's']
  | s => ['s']
  | m => ['m']
  | h => ['h']

def seconds : TimeUnit → Rat
  | ms => 1 / 1000
  | s => 1
  | m => 60
  | h => 3600

end TimeUnit

/-- A size unit as it is written, in any letter case. -/
structure SizeUnit where
  scale : SizeScale
  amount : Amount
  text : Text
  lower_text : lower text = scale.text ++ amount.text

def SizeUnit.bits (u : SizeUnit) (psize : Rat) : Rat := u.scale.factor * u.amount.bits psize

/-! ## The tables hold the documented units -/

namespace Units

theorem size_text (p : SizeScale) : size p.text = some p.factor := by
  cases p <;> rfl

theorem eq_text_of_size {t : Text} {v : Rat} (h : size t = some v) : ∃ p : SizeScale, t = p.text := by
  unfold size at h
  split at h
  · exact ⟨.one, rfl⟩
  · exact ⟨.k, rfl⟩
  · exact ⟨.ki, rfl⟩
  · exact ⟨.m, rfl⟩
  · exact ⟨.mi, rfl⟩
  · exact ⟨.g, rfl⟩
  · exact ⟨.gi, rfl⟩
  · cases h

theorem time_text (u : TimeUnit) : time u.text = some u.seconds := by
  cases u <;> rfl

theorem eq_text_of_time {t : Text} {v : Rat} (h : time t = some v) :
    t = [] ∨ ∃ u : TimeUnit, t = u.text := by
  unfold time at h
  split at h
  · exact .inl rfl
  · exact .inr ⟨.ms, rfl⟩
  · exact .inr ⟨.s, rfl⟩
  · exact .inr ⟨.m, rfl⟩
  · exact .inr ⟨.h, rfl⟩
  · cases h

end Units

/-! ## Taking a unit apart -/

/-- The unit ends in an amount, and what precedes is no prefix of the table. -/
def UnknownScale (unit : Text) : Prop :=
  ∃ (t : Text) (k : Amount), unit = t ++ k.text ∧ Units.size t = none

def IsSize (unit : Text) : Prop := ∃ (p : SizeScale) (k : Amount), unit = p.text ++ k.text

theorem dropEnd_append (t u : Text) : dropEnd u.length (t ++ u) = t := by
  rw [dropEnd, List.length_append, Nat.add_sub_cancel, List.take_left]

theorem isSuffixOf_append (t u : Text) : u.isSuffixOf (t ++ u) = true :=
  List.isSuffixOf_iff_suffix.mpr (List.suffix_append t u)

theorem isSuffixOf_append_singleton {x y : Char} (hxy : x ≠ y) (t u : Text) :
    (u ++ [x]).isSuffixOf (t ++ [y]) = false := by
  simp [List.isSuffixOf, List.isPrefixOf, hxy]

theorem unitOf_bit (psize : Rat) (t : Text) :
    unitOf psize (t ++ ['b', 'i', 't']) = .ok (some (Units.size t)) := by
  have hdrop : dropEnd 3 (t ++ ['b', 'i', 't']) = t := dropEnd_append t ['b', 'i', 't']
  rw [unitOf, if_neg (by simp), if_pos (isSuffixOf_append t _), hdrop]

theorem unitOf_byte (psize : Rat) (t : Text) :
    unitOf psize (t ++ ['b']) = (times (Units.size t) 8).map fun v => some (some v) := by
  have hbit : ['b', 'i', 't'].isSuffixOf (t ++ ['b']) = false :=
    isSuffixOf_append_singleton (by decide) t ['b', 'i']
  have hdrop : dropEnd 1 (t ++ ['b']) = t := dropEnd_append t ['b']
  rw [unitOf, if_neg (by simp), if_neg (by rw [hbit]; decide), if_pos (isSuffixOf_append t _), hdrop]
  rfl

theorem unitOf_packet (psize : Rat) (t : Text) :
    unitOf psize (t ++ ['p']) =
      (times (Units.size t) (psize * 8)).map fun v => some (some v) := by
  have hbit : ['b', 'i', 't'].isSuffixOf (t ++ ['p']) = false :=
    isSuffixOf_append_singleton (by decide) t ['b', 'i']
  have hbyte : ['b'].isSuffixOf (t ++ ['p']) = false :=
    isSuffixOf_append_singleton (by decide) t []
  have hdrop : dropEnd 1 (t ++ ['p']) = t := dropEnd_append t ['p']
  rw [unitOf, if_neg (by simp), if_neg (by rw [hbit]; decide), if_neg (by rw [hbyte]; decide),
    if_pos (isSuffixOf_append t _), hdrop]
  rfl

theorem unitOf_size (psize : Rat) (p : SizeScale) (k : Amount) :
    unitOf psize (p.text ++ k.text) = .ok (some (some (p.factor * k.bits psize))) := by
  cases k with
  | bit => rw [Amount.text, unitOf_bit, Units.size_text, Amount.bits, mul_one]
  | byte =>
      rw [Amount.text, unitOf_byte, Units.size_text]
      rfl
  | packet =>
      rw [Amount.text, unitOf_packet, Units.size_text]
      rfl

theorem unitOf_unknown (psize : Rat) {unit : Text} (h : UnknownScale unit) :
    unitOf psize unit = .ok (some none) ∨ unitOf psize unit = .error .arithmetic := by
  rcases h with ⟨t, k, rfl, hsize⟩
  cases k with
  | bit =>
      left
      rw [Amount.text, unitOf_bit, hsize]
  | byte =>
      right
      rw [Amount.text, unitOf_byte, hsize]
      rfl
  | packet =>
      right
      rw [Amount.text, unitOf_packet, hsize]
      rfl

theorem unitOf_none (psize : Rat) {unit : Text} (hne : unit ≠ [])
    (h : ∀ (t : Text) (k : Amount), unit ≠ t ++ k.text) : unitOf psize unit = .ok none := by
  have hsuffix : ∀ k : Amount, k.text.isSuffixOf unit = false := by
    intro k
    rw [← Bool.not_eq_true, List.isSuffixOf_iff_suffix]
    rintro ⟨t, ht⟩
    exact h t k ht.symm
  have hbit : ['b', 'i', 't'].isSuffixOf unit = false := hsuffix .bit
  have hbyte : ['b'].isSuffixOf unit = false := hsuffix .byte
  have hpacket : ['p'].isSuffixOf unit = false := hsuffix .packet
  rw [unitOf, if_neg hne, hbit, hbyte, hpacket]
  rfl

/-- A unit is missing, documented, known only by its end, or unknown. -/
theorem unit_cases (unit : Text) :
    unit = [] ∨ IsSize unit ∨ UnknownScale unit ∨
      (unit ≠ [] ∧ ∀ (t : Text) (k : Amount), unit ≠ t ++ k.text) := by
  by_cases hne : unit = []
  · exact .inl hne
  · by_cases hend : ∃ (t : Text) (k : Amount), unit = t ++ k.text
    · rcases hend with ⟨t, k, hunit⟩
      cases hsize : Units.size t with
      | none => exact .inr (.inr (.inl ⟨t, k, hunit, hsize⟩))
      | some v =>
          rcases Units.eq_text_of_size hsize with ⟨p, rfl⟩
          exact .inr (.inl ⟨p, k, hunit⟩)
    · exact .inr (.inr (.inr ⟨hne, fun t k hunit => hend ⟨t, k, hunit⟩⟩))

end MoonGen.Interface

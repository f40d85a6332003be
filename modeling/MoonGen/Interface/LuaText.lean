import Mathlib.Algebra.Field.Rat
import Mathlib.Data.List.TakeWhile
import MoonGen.Lib.Pattern

/-! # Texts and numerals of the interface

The character classes of the patterns with which the interface reads its arguments, and
what `tonumber` makes of a numeral. A text is a list of characters. Numbers are exact
rationals. `tonumber` reads more than decimal numerals (white space, exponents, base 16);
only what it does with a decimal one is fixed here.
-/

namespace MoonGen.Interface

open Pattern

abbrev Text := List Char

/-- The classes `%d` and `%a`, a character, `[^c]` and `.`. -/
def isDigit (c : Char) : Bool := c.isDigit

def isLetter (c : Char) : Bool := c.isAlpha

def isChar (x c : Char) : Bool := c == x

def notChar (x c : Char) : Bool := c != x

def anyChar (_ : Char) : Bool := true

@[simp] theorem isChar_self (x : Char) : isChar x x = true := beq_self_eq_true x

@[simp] theorem notChar_self (x : Char) : notChar x x = false := bne_self_eq_false x

theorem isChar_eq_true {x c : Char} : isChar x c = true ↔ c = x := beq_iff_eq

theorem notChar_eq_true {x c : Char} : notChar x c = true ↔ c ≠ x := bne_iff_ne

theorem all_notChar {x : Char} {s : Text} (h : x ∉ s) : ∀ c ∈ s, notChar x c = true := by
  intro c hc
  rw [notChar_eq_true]
  rintro rfl
  exact h hc

theorem isLetter_iff (c : Char) :
    isLetter c = true ↔
      (65 ≤ c.toNat ∧ c.toNat ≤ 90) ∨ (97 ≤ c.toNat ∧ c.toNat ≤ 122) := by
  rw [show isLetter c = (c.isUpper || c.isLower) from rfl, Bool.or_eq_true]
  refine or_congr decide_eq_true_iff ?_
  exact (Bool.and_eq_true _ _).to_iff.trans (and_congr decide_eq_true_iff decide_eq_true_iff)

theorem isDigit_iff (c : Char) : isDigit c = true ↔ 48 ≤ c.toNat ∧ c.toNat ≤ 57 :=
  (Bool.and_eq_true _ _).to_iff.trans (and_congr decide_eq_true_iff decide_eq_true_iff)

theorem isDigit_of_isLetter {c : Char} (h : isLetter c = true) : isDigit c = false := by
  rw [isLetter_iff] at h
  rw [← Bool.not_eq_true, isDigit_iff]
  omega

theorem isChar_of_isLetter {c x : Char} (h : isLetter c = true) (hx : isLetter x = false) :
    isChar x c = false := by
  rw [← Bool.not_eq_true, isChar_eq_true]
  rintro rfl
  rw [hx] at h
  cases h

def lower (s : Text) : Text := s.map Char.toLower

theorem isLetter_of_toLower {c : Char} (h : isLetter c.toLower = true) : isLetter c = true := by
  by_cases hupper : c.isUpper = true
  · exact (Bool.or_eq_true _ _).mpr (.inl hupper)
  · have hsame : c.toLower = c := dif_neg fun hrange => hupper (decide_eq_true hrange)
    rwa [hsame] at h

theorem all_isLetter_of_lower {s : Text} (h : ∀ c ∈ lower s, isLetter c = true) :
    ∀ c ∈ s, isLetter c = true :=
  fun _ hc => isLetter_of_toLower (h _ (List.mem_map_of_mem hc))

/-- `%d+%.?%d*`. -/
def numeralItems : List (Item Char) :=
  [⟨isDigit, .plus⟩, ⟨isChar '.', .optional⟩, ⟨isDigit, .star⟩]

inductive Numeral : Text → Prop where
  | whole {a : Text} (hne : a ≠ []) (ha : ∀ c ∈ a, isDigit c = true) : Numeral a
  | point {a b : Text} (hne : a ≠ []) (ha : ∀ c ∈ a, isDigit c = true)
      (hb : ∀ c ∈ b, isDigit c = true) : Numeral (a ++ '.' :: b)

def decimal (s : Text) : Rat :=
  let whole := s.takeWhile isDigit
  let fraction := (s.dropWhile isDigit).drop 1
  (Nat.ofDigitChars 10 whole 0 : Rat) + (Nat.ofDigitChars 10 fraction 0 : Rat) / 10 ^ fraction.length

/-- What is known of `tonumber`. -/
structure ToNumber where
  read : Text → Option Rat
  read_numeral : ∀ s, Numeral s → read s = some (decimal s)

/-! ## Numerals -/

theorem takeWhile_digits {a : Text} (ha : ∀ c ∈ a, isDigit c = true) :
    a.takeWhile isDigit = a ∧ a.dropWhile isDigit = [] :=
  ⟨List.takeWhile_eq_self_iff.mpr ha, List.dropWhile_eq_nil_iff.mpr ha⟩

def isNumeral (s : Text) : Bool :=
  !(s.takeWhile isDigit).isEmpty &&
    match s.dropWhile isDigit with
    | [] => true
    | c :: fraction => isChar '.' c && fraction.all isDigit

theorem isNumeral_of_numeral {s : Text} (h : Numeral s) : isNumeral s = true := by
  cases h with
  | whole hne ha =>
      have hsplit := takeWhile_digits ha
      simp [isNumeral, hsplit.1, hsplit.2, hne]
  | @point a b hne ha hb =>
      have hpoint : isDigit '.' = false := by decide
      have htake : (a ++ '.' :: b).takeWhile isDigit = a := by
        rw [List.takeWhile_append_of_pos ha, List.takeWhile_cons_of_neg (by simp [hpoint]),
          List.append_nil]
      have hdrop : (a ++ '.' :: b).dropWhile isDigit = '.' :: b := by
        rw [List.dropWhile_append_of_pos ha, List.dropWhile_cons_of_neg (by simp [hpoint])]
      simp [isNumeral, htake, hdrop, hne, List.all_eq_true.mpr hb]

/-- `tonumber` on decimal numerals only. -/
def ToNumber.plain : ToNumber where
  read s := if isNumeral s then some (decimal s) else none
  read_numeral _ h := if_pos (isNumeral_of_numeral h)

theorem decimal_toDigits (n : Nat) : decimal (Nat.toDigits 10 n) = n := by
  have hdigits : ∀ c ∈ Nat.toDigits 10 n, isDigit c = true := fun c hc =>
    Nat.isDigit_of_mem_toDigits (by decide) (by decide) hc
  have hsplit := takeWhile_digits hdigits
  simp [decimal, hsplit.1, hsplit.2]

theorem numeral_toDigits (n : Nat) : Numeral (Nat.toDigits 10 n) :=
  .whole Nat.toDigits_ne_nil fun c hc => Nat.isDigit_of_mem_toDigits (by decide) (by decide) hc

/-- A numeral is taken as a whole unless it could go on. -/
theorem itemWays_numeral {num r : Text} (h : Numeral num)
    (hr : ∀ c ∈ r.head?, isDigit c = false ∧ isChar '.' c = false) :
    (itemWays numeralItems (num ++ r)).head? = some (num, r) := by
  have hstop : ∀ c ∈ r.head?, isDigit c = false := fun c hc => (hr c hc).1
  cases h with
  | whole hne ha =>
      have hlast := itemWays_head_singleton (Item.ways_star (a := []) ⟨List.forall_mem_nil _, hstop⟩)
      have hpoint := itemWays_head_cons
        (Item.ways_optional_absent fun c hc => (hr c hc).2) hlast
      have hall := itemWays_head_cons (Item.ways_plus ⟨ha, hstop⟩ hne) hpoint
      simpa [numeralItems] using hall
  | @point a b hne ha hb =>
      have hlast := itemWays_head_singleton (Item.ways_star ⟨hb, hstop⟩)
      have hpoint := itemWays_head_cons (Item.ways_optional (isChar_self '.') _) hlast
      have hall := itemWays_head_cons (Item.ways_plus (.cons ha (by decide)) hne) hpoint
      simpa [numeralItems] using hall

theorem numeral_of_acceptsAll {a : Text} (h : AcceptsAll numeralItems a) : Numeral a := by
  rcases h with ⟨b, c, rfl, hb, d, e, rfl, hd, f, g, rfl, hf, rfl⟩
  rcases hd.2 with rfl | ⟨x, rfl⟩
  · have hne : b ≠ [] := hb.2
    rw [List.nil_append, List.append_nil]
    exact .whole (List.append_ne_nil_of_left_ne_nil hne f) (List.forall_mem_append.mpr ⟨hb.1, hf.1⟩)
  · have hx : x = '.' := isChar_eq_true.mp (hd.1 x List.mem_cons_self)
    rw [hx, List.append_nil]
    exact .point hb.2 hb.1 hf.1

end MoonGen.Interface

import Mathlib.Data.Rat.Floor
import MoonGen.Interface.FlowRegistry
import MoonGen.Interface.Uid
import MoonGen.Interface.Units

/-! # The options `rate`, `dataLimit` and `timeLimit`

The embedding of `options/rate.lua`, `options/dataLimit.lua` and `options/timeLimit.lua`, and of
`Flow:packetSize` and `Flow:getDelay`. Each option takes a number, or a text of a number and a
unit. The texts that the options document are read as documented. Other texts should lead to
one message, but some of them raise an error of the language.
-/

namespace MoonGen.Interface

open Pattern

/-- `Flow:packetSize`; the checksum at the end of a frame has four bytes. -/
def packetSize (pktLength : Option Nat) (checksum : Bool) : Nat :=
  pktLength.getD 0 + if checksum then 4 else 0

theorem packetSize_pos (pktLength : Option Nat) : 0 < packetSize pktLength true :=
  Nat.lt_of_lt_of_le (by decide) (Nat.le_add_left 4 _)

def invalidArgument (v : OptionValue) : String :=
  "Invalid argument. String or number expected, got " ++ v.type ++ "."

/-- `^(%d+%.?%d*)(%a*)/?(%a*)$`. -/
def ratePattern : List (Piece Char) :=
  [.capture numeralItems, .capture [⟨isLetter, .star⟩], .plain ⟨isChar '/', .optional⟩,
    .capture [⟨isLetter, .star⟩]]

/-- `^(%d+%.?%d*)(%a+)$`. -/
def limitPattern : List (Piece Char) := [.capture numeralItems, .capture [⟨isLetter, .plus⟩]]

section Script

variable (tonumber : ToNumber)

/-- `_parse_rate`: a number, or `nil` and a message. -/
def parseRate (rstring : Text) (psize : Rat) : Except Raise (Except (Option String) Rat) :=
  match run true ratePattern rstring with
  | some ([num, unit, time], _) =>
      match Units.time time with
      | none => .ok (.error (some Units.timeError))
      | some time => do
          match ← unitOf psize (lower unit) with
          | none => pure (.error (some Units.sizeError))
          | some unit =>
              let unit ← times unit (1 / 10 ^ 6)
              let cbr ← times (tonumber.read num) unit
              pure (.ok (cbr / time))
  | _ => .ok (.error (some "Invalid format. Should be '<number>[unit][/<time>]'."))

/-- `option.parse` of `rate`. -/
def parseRateOption (psize : Rat) (rate : Option OptionValue) (error : ErrorHandler) :
    Except Raise (Option Rat × ErrorHandler) :=
  match rate with
  | none | some (.boolean false) => .ok (none, error)
  | some (.number n) => .ok (some n, error)
  | some (.string s) => do
      match ← parseRate tonumber s.toList psize with
      | .ok cbr =>
          let error ← error.assert true none
          pure (some cbr, error)
      | .error msg =>
          let error ← error.assert false msg
          pure (none, error)
  | some v => .ok (none, error.log (invalidArgument v))

/-- `_parse_limit` of `dataLimit`. For an unknown unit the message is a field of the unit, which
is a string and has no such field. -/
def parseDataLimit (lstring : Text) (psize : Rat) :
    Except Raise (Except (Option String) (Option Rat × Option Rat)) :=
  match run true limitPattern lstring with
  | some ([num, unit], _) => do
      match ← unitOf psize (lower unit) with
      | none => pure (.error none)
      | some unit => pure (.ok (tonumber.read num, unit))
  | _ => .ok (.error (some "Invalid format. Should be '<number><unit>'."))

/-- `math.ceil(num * unit / (psize * 8))`. -/
def wholePackets (psize num : Rat) (unit : Option Rat) : Except Raise Rat := do
  let bits ← times unit num
  pure ⌈bits / (psize * 8)⌉

/-- `option.parse` of `dataLimit`. -/
def parseDataLimitOption (psize : Rat) (limit : Option OptionValue) (error : ErrorHandler) :
    Except Raise (Option Rat × ErrorHandler) :=
  match limit with
  | none | some (.boolean false) => .ok (none, error)
  | some (.number n) => do
      let packets ← wholePackets psize n (Units.size ['m'])
      pure (some packets, error)
  | some (.string s) => do
      match ← parseDataLimit tonumber s.toList psize with
      | .ok (some num, unit) =>
          let error ← error.assert true none
          let packets ← wholePackets psize num unit
          pure (some packets, error)
      | .ok (none, _) =>
          let error ← error.assert false none
          pure (none, error)
      | .error msg =>
          let error ← error.assert false msg
          pure (none, error)
  | some v => .ok (none, error.log (invalidArgument v))

/-- `_parse_limit` of `timeLimit`. For an unknown unit the message is a field of `nil`. -/
def parseTimeLimit (lstring : Text) :
    Except Raise (Except (Option String) (Option Rat × Rat)) :=
  match run true limitPattern lstring with
  | some ([num, unit], _) =>
      match Units.time (lower unit) with
      | none => .error .index
      | some unit => .ok (.ok (tonumber.read num, unit))
  | _ => .ok (.error (some "Invalid format. Should be '<number><unit>'."))

/-- `option.parse` of `timeLimit`. -/
def parseTimeLimitOption (limit : Option OptionValue) (error : ErrorHandler) :
    Except Raise (Option Rat × ErrorHandler) :=
  match limit with
  | none | some (.boolean false) => .ok (none, error)
  | some (.number n) => .ok ((Units.time ['s']).map (n * ·), error)
  | some (.string s) => do
      match ← parseTimeLimit tonumber s.toList with
      | .ok (num, unit) =>
          let error ← error.assert num.isSome none
          pure (num.map (· * unit), error)
      | .error msg =>
          let error ← error.assert false msg
          pure (none, error)
  | some v => .ok (none, error.log (invalidArgument v))

end Script

/-- `Flow:getDelay`, in nanoseconds; a packet has some size, so that a rate of zero gives an
infinite delay. -/
def getDelay (rate : Option Rat) (psize : Rat) : Option LuaNumber :=
  rate.map fun cbr => if cbr = 0 then .infinity else .finite (8000 * psize / cbr)

/-! ## What the patterns take apart -/

def slashed : Option Text → Text
  | none => []
  | some t => '/' :: t

/-- A number, a unit, and a time behind a slash. -/
structure RateParts (s num unit : Text) (time : Option Text) : Prop where
  numeral : Numeral num
  unit_letters : ∀ c ∈ unit, isLetter c = true
  time_letters : ∀ t ∈ time, ∀ c ∈ t, isLetter c = true
  text : s = num ++ (unit ++ slashed time)

theorem not_numeral_of_letters {unit : Text} (h : ∀ c ∈ unit, isLetter c = true) {r : Text}
    (hr : ∀ c ∈ r.head?, isDigit c = false ∧ isChar '.' c = false) :
    ∀ c ∈ (unit ++ r).head?, isDigit c = false ∧ isChar '.' c = false := by
  cases unit with
  | nil => exact hr
  | cons x unit =>
      intro c hc
      have hx : isLetter c = true := by
        rw [List.cons_append, List.head?_cons, Option.mem_some_iff] at hc
        exact hc ▸ h x List.mem_cons_self
      exact ⟨isDigit_of_isLetter hx, isChar_of_isLetter hx (by decide)⟩

theorem run_ratePattern {s num unit : Text} {time : Option Text} (h : RateParts s num unit time) :
    run true ratePattern s = some ([num, unit, time.getD []], []) := by
  have hend : run true [] ([] : Text) = some ([], []) := rfl
  rw [h.text]
  cases time with
  | none =>
      have hempty : Longest isLetter ([] : Text) [] := .nil (List.forall_mem_nil _)
      have habsent : ∀ c ∈ ([] : Text).head?, isChar '/' c = false := fun c hc => by cases hc
      have htime := run_capture (itemWays_head_singleton (Item.ways_star hempty)) hend
      have hslash := run_plain (Item.ways_optional_absent habsent) htime
      have hunit := run_capture (itemWays_head_singleton
        (Item.ways_star (.nil h.unit_letters))) hslash
      apply run_capture (itemWays_numeral h.numeral ?_) hunit
      exact not_numeral_of_letters h.unit_letters fun c hc => by cases hc
  | some t =>
      have htime := run_capture (itemWays_head_singleton
        (Item.ways_star (.nil (h.time_letters t rfl)))) hend
      rw [List.append_nil] at htime
      have hslash := run_plain (Item.ways_optional (isChar_self '/') t) htime
      have hunit := run_capture (itemWays_head_singleton
        (Item.ways_star (.cons h.unit_letters (by decide)))) hslash
      apply run_capture (itemWays_numeral h.numeral ?_) hunit
      apply not_numeral_of_letters h.unit_letters
      intro c hc
      rw [List.head?_cons, Option.mem_some_iff] at hc
      subst hc
      decide

theorem letters_of_acceptsAll {rep : Repeat} {a : Text}
    (h : AcceptsAll [⟨isLetter, rep⟩] a) : ∀ c ∈ a, isLetter c = true := by
  rcases h with ⟨b, c, rfl, hb, rfl⟩
  rw [List.append_nil]
  exact hb.1

/-- Every match is of that form: letters without a slash before them belong to the unit. -/
theorem rateParts_of_run {s : Text} {m : List Text × Text} (h : run true ratePattern s = some m) :
    ∃ num unit time, RateParts s num unit time := by
  rcases run_dollar_sound h with ⟨num, _, _, rfl, hnum, -, unit, _, _, rfl, hunit, -, slash, _,
    rfl, hslash, time, _, _, rfl, htime, -, rfl, -⟩
  have hnumeral := numeral_of_acceptsAll hnum
  have hletters := letters_of_acceptsAll hunit
  have htletters := letters_of_acceptsAll htime
  rcases hslash.2 with rfl | ⟨c, rfl⟩
  · refine ⟨num, unit ++ time, none, hnumeral, List.forall_mem_append.mpr ⟨hletters, htletters⟩,
      ?_, ?_⟩
    · rintro t ⟨⟩
    · simp [slashed]
  · have hc : c = '/' := isChar_eq_true.mp (hslash.1 c List.mem_cons_self)
    refine ⟨num, unit, some time, hnumeral, hletters, ?_, ?_⟩
    · rintro t ⟨⟩
      exact htletters
    · simp [slashed, hc]

theorem RateParts.unique {s num unit num' unit' : Text} {time time' : Option Text}
    (h : RateParts s num unit time) (h' : RateParts s num' unit' time') :
    num' = num ∧ unit' = unit ∧ time' = time := by
  have hrun := (run_ratePattern h).symm.trans (run_ratePattern h')
  simp only [Option.some.injEq, Prod.mk.injEq, List.cons.injEq, and_true] at hrun
  rcases hrun with ⟨rfl, rfl, _⟩
  have htext := h.text.symm.trans h'.text
  have hslashed := List.append_cancel_left (List.append_cancel_left htext)
  refine ⟨rfl, rfl, ?_⟩
  cases time with
  | none =>
      cases time' with
      | none => rfl
      | some t' => cases hslashed
  | some t =>
      cases time' with
      | none => cases hslashed
      | some t' => rw [(List.cons.inj hslashed).2]

structure LimitParts (s num unit : Text) : Prop where
  numeral : Numeral num
  unit_letters : ∀ c ∈ unit, isLetter c = true
  unit_ne_nil : unit ≠ []
  text : s = num ++ unit

theorem run_limitPattern {s num unit : Text} (h : LimitParts s num unit) :
    run true limitPattern s = some ([num, unit], []) := by
  have hend : run true [] ([] : Text) = some ([], []) := rfl
  have hunit := run_capture (itemWays_head_singleton
    (Item.ways_plus (.nil h.unit_letters) h.unit_ne_nil)) hend
  have hnext := not_numeral_of_letters (r := []) h.unit_letters fun c hc => by cases hc
  rw [List.append_nil] at hunit hnext
  rw [h.text]
  exact run_capture (itemWays_numeral h.numeral hnext) hunit

theorem limitParts_of_run {s : Text} {m : List Text × Text}
    (h : run true limitPattern s = some m) : ∃ num unit, LimitParts s num unit := by
  rcases run_dollar_sound h with ⟨num, _, _, rfl, hnum, -, unit, _, _, rfl, hunit, -, rfl, -⟩
  refine ⟨num, unit, numeral_of_acceptsAll hnum, letters_of_acceptsAll hunit, ?_, by simp⟩
  rcases hunit with ⟨b, c, rfl, hb, rfl⟩
  rw [List.append_nil]
  exact hb.2

theorem LimitParts.unique {s num unit num' unit' : Text} (h : LimitParts s num unit)
    (h' : LimitParts s num' unit') : num' = num ∧ unit' = unit := by
  have hrun := (run_limitPattern h).symm.trans (run_limitPattern h')
  simp only [Option.some.injEq, Prod.mk.injEq, List.cons.injEq, and_true] at hrun
  exact ⟨hrun.1.symm, hrun.2.symm⟩

/-! ## Documented texts -/

/-- `<number>[<sizeUnit>][/<timeUnit>]`. -/
structure RateString where
  num : Text
  numeral : Numeral num
  unit : Option SizeUnit
  time : Option TimeUnit

namespace RateString

def unitText (r : RateString) : Text := (r.unit.map SizeUnit.text).getD []

def timeText (r : RateString) : Option Text := r.time.map TimeUnit.text

def text (r : RateString) : Text := r.num ++ (r.unitText ++ slashed r.timeText)

def unitBits (r : RateString) (psize : Rat) : Rat :=
  match r.unit with
  | none => 10 ^ 6
  | some u => u.bits psize

def seconds (r : RateString) : Rat :=
  match r.time with
  | none => 1
  | some t => t.seconds

def mbits (r : RateString) (psize : Rat) : Rat :=
  decimal r.num * r.unitBits psize / r.seconds / 10 ^ 6

end RateString

/-- `<number><sizeUnit>`. -/
def IsDataLimit (s : Text) : Prop := ∃ (num : Text) (u : SizeUnit), Numeral num ∧ s = num ++ u.text

/-- `<number><timeUnit>`. -/
def IsTimeLimit (s : Text) : Prop := ∃ (num : Text) (u : TimeUnit), Numeral num ∧ s = num ++ u.text

namespace SizeUnit

variable (u : SizeUnit)

theorem text_letters : ∀ c ∈ u.text, isLetter c = true := by
  have hscale : ∀ p : SizeScale, ∀ c ∈ p.text, isLetter c = true := by
    intro p
    apply List.all_eq_true.mp
    cases p <;> rfl
  have hamount : ∀ k : Amount, ∀ c ∈ k.text, isLetter c = true := by
    intro k
    apply List.all_eq_true.mp
    cases k <;> rfl
  apply all_isLetter_of_lower
  rw [u.lower_text]
  exact List.forall_mem_append.mpr ⟨hscale u.scale, hamount u.amount⟩

theorem text_ne_nil : u.text ≠ [] := by
  intro hnil
  have hlower := u.lower_text
  rw [hnil] at hlower
  have hamount : u.amount.text ≠ [] := by
    cases u.amount <;> decide
  exact hamount (List.append_eq_nil_iff.mp hlower.symm).2

theorem limitParts {num : Text} (h : Numeral num) : LimitParts (num ++ u.text) num u.text :=
  ⟨h, u.text_letters, u.text_ne_nil, rfl⟩

theorem bits_pos {psize : Rat} (hpsize : 0 < psize) : 0 < u.bits psize := by
  have hscale : 0 < u.scale.factor := by
    cases u.scale <;> norm_num [SizeScale.factor]
  apply mul_pos hscale
  cases u.amount with
  | bit => exact one_pos
  | byte => norm_num [Amount.bits]
  | packet => exact mul_pos hpsize (by norm_num)

end SizeUnit

theorem TimeUnit.text_letters (u : TimeUnit) : ∀ c ∈ u.text, isLetter c = true := by
  apply List.all_eq_true.mp
  cases u <;> rfl

theorem TimeUnit.text_ne_nil (u : TimeUnit) : u.text ≠ [] := by
  cases u <;> decide

namespace RateString

variable (r : RateString)

theorem parts : RateParts r.text r.num r.unitText r.timeText := by
  refine ⟨r.numeral, ?_, ?_, rfl⟩
  · unfold unitText
    cases r.unit with
    | none => exact List.forall_mem_nil _
    | some u => exact u.text_letters
  · intro t ht
    rcases Option.map_eq_some_iff.mp ht with ⟨u, _, rfl⟩
    exact u.text_letters

theorem time_timeText : Units.time (r.timeText.getD []) = some r.seconds := by
  unfold timeText seconds
  cases r.time with
  | none => rfl
  | some t => exact Units.time_text t

theorem unitOf_unitText (psize : Rat) :
    unitOf psize (lower r.unitText) = .ok (some (some (r.unitBits psize))) := by
  unfold unitText unitBits
  cases r.unit with
  | none => rfl
  | some u =>
      rw [Option.map_some, Option.getD_some, u.lower_text, unitOf_size]
      rfl

theorem mbits_pos {psize : Rat} (hnum : 0 < decimal r.num) (hpsize : 0 < psize) :
    0 < r.mbits psize := by
  have hunit : 0 < r.unitBits psize := by
    unfold unitBits
    cases r.unit with
    | none => norm_num
    | some u => exact u.bits_pos hpsize
  have hseconds : 0 < r.seconds := by
    unfold seconds
    cases r.time with
    | none => exact one_pos
    | some t => cases t <;> norm_num [TimeUnit.seconds]
  exact div_pos (div_pos (mul_pos hnum hunit) hseconds) (by norm_num)

end RateString

/-! ## Limits -/

theorem parseDataLimitOption_value (tonumber : ToNumber) {s : String} {num unit : Text}
    (h : LimitParts s.toList num unit) {psize bits : Rat}
    (hunit : unitOf psize (lower unit) = .ok (some (some bits))) (error : ErrorHandler) :
    parseDataLimitOption tonumber psize (some (.string s)) error =
      .ok (some ⌈bits * decimal num / (psize * 8)⌉, error) := by
  simp only [parseDataLimitOption, parseDataLimit, run_limitPattern h, hunit,
    tonumber.read_numeral num h.numeral]
  rfl

/-! ## Rates -/

section Rates

variable (tonumber : ToNumber) {s num unit : Text} {time : Option Text}

theorem parseRate_noFormat (psize : Rat) (h : run true ratePattern s = none) :
    parseRate tonumber s psize =
      .ok (.error (some "Invalid format. Should be '<number>[unit][/<time>]'.")) := by
  rw [parseRate, h]

theorem parseRate_noTime (h : RateParts s num unit time) (psize : Rat)
    (htime : Units.time (time.getD []) = none) :
    parseRate tonumber s psize = .ok (.error (some Units.timeError)) := by
  simp only [parseRate, run_ratePattern h, htime]

theorem parseRate_noUnit (h : RateParts s num unit time) {psize seconds : Rat}
    (htime : Units.time (time.getD []) = some seconds)
    (hunit : unitOf psize (lower unit) = .ok none) :
    parseRate tonumber s psize = .ok (.error (some Units.sizeError)) := by
  simp only [parseRate, run_ratePattern h, htime, hunit]
  rfl

theorem parseRate_unknown (h : RateParts s num unit time) (psize : Rat) {seconds : Rat}
    (htime : Units.time (time.getD []) = some seconds) (hunit : UnknownScale (lower unit)) :
    parseRate tonumber s psize = .error .arithmetic := by
  simp only [parseRate, run_ratePattern h, htime]
  rcases unitOf_unknown psize hunit with hunit | hunit
  · rw [hunit]
    rfl
  · rw [hunit]
    rfl

theorem parseRate_value (h : RateParts s num unit time) {psize seconds bits : Rat}
    (htime : Units.time (time.getD []) = some seconds)
    (hunit : unitOf psize (lower unit) = .ok (some (some bits))) :
    parseRate tonumber s psize = .ok (.ok (decimal num * bits / seconds / 10 ^ 6)) := by
  have hvalue : decimal num * bits / seconds / 10 ^ 6 =
      decimal num * (bits * (1 / 10 ^ 6)) / seconds := by
    ring
  simp only [parseRate, run_ratePattern h, htime, hunit, tonumber.read_numeral num h.numeral,
    hvalue]
  rfl

theorem parseRate_text (r : RateString) (psize : Rat) :
    parseRate tonumber r.text psize = .ok (.ok (r.mbits psize)) :=
  parseRate_value tonumber r.parts r.time_timeText (r.unitOf_unitText psize)

theorem parseRateOption_text (r : RateString) (psize : Rat) (error : ErrorHandler) :
    parseRateOption tonumber psize (some (.string (String.ofList r.text))) error =
      .ok (some (r.mbits psize), error) := by
  simp only [parseRateOption, String.toList_ofList, parseRate_text]
  rfl

/-- The delay of a flow with a rate: `option.parse`, then `Flow:getDelay`. -/
def flowDelay (pktLength : Option Nat) (rate : String) (error : ErrorHandler) :
    Except Raise (Option LuaNumber) := do
  let psize : Rat := packetSize pktLength true
  let (cbr, _) ← parseRateOption tonumber psize (some (.string rate)) error
  pure (getDelay cbr psize)

theorem flowDelay_text {r : RateString} (hpos : 0 < decimal r.num) (pktLength : Option Nat)
    (error : ErrorHandler) :
    flowDelay tonumber pktLength (String.ofList r.text) error =
      .ok (some (.finite ((packetSize pktLength true : Rat) * 8 * 1000 /
        r.mbits (packetSize pktLength true)))) := by
  have hpsize : (0 : Rat) < packetSize pktLength true := Nat.cast_pos.mpr (packetSize_pos pktLength)
  have hrate : r.mbits (packetSize pktLength true) ≠ 0 := (r.mbits_pos hpos hpsize).ne'
  have hdelay : (packetSize pktLength true : Rat) * 8 * 1000 = 8000 * packetSize pktLength true := by
    ring
  have hvalue : getDelay (some (r.mbits (packetSize pktLength true))) (packetSize pktLength true) =
      some (.finite ((packetSize pktLength true : Rat) * 8 * 1000 /
        r.mbits (packetSize pktLength true))) := by
    rw [getDelay, Option.map_some, if_neg hrate, hdelay]
  rw [flowDelay, parseRateOption_text, ← hvalue]
  rfl

theorem delay_of_packets {a : Rat} (ha : a ≠ 0) (q : Rat) :
    a * 1000 / (q * a / 10 ^ 6) = 10 ^ 9 / q := by
  rw [div_div_eq_mul_div, ← mul_div_mul_right (10 ^ 9) q ha]
  ring

/-- A documented rate is what its number, prefix, unit and time say. The delay between packets
depends on nothing else, and for a rate in packets not on their size. -/
theorem rate_meaning (tonumber : ToNumber) (r : RateString) (hpos : 0 < decimal r.num)
    (pktLength : Option Nat) (error : ErrorHandler) :
    parseRate tonumber r.text (packetSize pktLength true) =
        .ok (.ok (decimal r.num * r.unitBits (packetSize pktLength true) / r.seconds / 10 ^ 6)) ∧
      flowDelay tonumber pktLength (String.ofList r.text) error =
        .ok (some (.finite ((packetSize pktLength true : Rat) * 8 * 1000 /
          (decimal r.num * r.unitBits (packetSize pktLength true) / r.seconds / 10 ^ 6)))) ∧
      (∀ u, r.unit = some u → u.amount = .packet →
        flowDelay tonumber pktLength (String.ofList r.text) error =
          .ok (some (.finite (10 ^ 9 / (decimal r.num * u.scale.factor / r.seconds))))) ∧
      ∀ r' : RateString, 0 < decimal r'.num →
        r'.mbits (packetSize pktLength true) = r.mbits (packetSize pktLength true) →
          flowDelay tonumber pktLength (String.ofList r'.text) error =
            flowDelay tonumber pktLength (String.ofList r.text) error := by
  refine ⟨parseRate_text tonumber r _, flowDelay_text tonumber hpos pktLength error, ?_, ?_⟩
  · intro u hu hpacket
    have hpsize : (packetSize pktLength true : Rat) ≠ 0 :=
      Nat.cast_ne_zero.mpr (packetSize_pos pktLength).ne'
    have hmbits : r.mbits (packetSize pktLength true) =
        decimal r.num * u.scale.factor / r.seconds * (packetSize pktLength true * 8) / 10 ^ 6 := by
      simp only [RateString.mbits, RateString.unitBits, hu, SizeUnit.bits, hpacket, Amount.bits]
      ring
    rw [flowDelay_text tonumber hpos, hmbits,
      delay_of_packets (mul_ne_zero hpsize (by norm_num))]
  · intro r' hpos' hsame
    rw [flowDelay_text tonumber hpos', flowDelay_text tonumber hpos, hsame]

def RateString.tenKp : RateString :=
  ⟨"10".toList, .whole (by decide) (List.all_eq_true.mp rfl), some ⟨.k, .packet, "kP".toList, by decide⟩, some .s⟩

theorem rate_meaning_tenKp :
    0 < decimal RateString.tenKp.num ∧ String.ofList RateString.tenKp.text = "10kP/s" ∧
      flowDelay .plain (some 60) (String.ofList RateString.tenKp.text) ⟨none, []⟩ =
        .ok (some (.finite 100000)) := by
  have hnum : decimal RateString.tenKp.num = 10 := decimal_toDigits 10
  have hpos : 0 < decimal RateString.tenKp.num := by
    rw [hnum]
    norm_num
  have hdelay := (rate_meaning .plain RateString.tenKp hpos (some 60) ⟨none, []⟩).2.2.1 _ rfl rfl
  refine ⟨hpos, by decide, hdelay.trans ?_⟩
  rw [hnum]
  norm_num [SizeScale.factor, RateString.seconds, RateString.tenKp, TimeUnit.seconds]

end Rates

end MoonGen.Interface

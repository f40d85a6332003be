import MoonGen.Interface.LimitOptions

/-! # Option texts that raise an error

For a text that an option does not document, it should return `nil` and report one message.
The three options do so for a text of another form. They differ for a unit that is not in the
tables: `rate` computes with a missing prefix, `dataLimit` in addition looks for its message in
a string and `timeLimit` in `nil`. `rate` also takes a slash without a time, and `timeLimit`
takes its units in any letter case.
-/

namespace MoonGen.Interface

open Pattern

/-- A number for a documented text, and one message for any other. -/
def Settles (error : ErrorHandler) (documented : Prop)
    (result : Except Raise (Option Rat × ErrorHandler)) : Prop :=
  (documented ∧ ∃ n, result = .ok (some n, error)) ∨
    (¬ documented ∧ ∃ message, result = .ok (none, error.log message))

theorem Settles.number {error : ErrorHandler} {documented : Prop}
    {result : Except Raise (Option Rat × ErrorHandler)} {n : Rat}
    (h : result = .ok (some n, error)) : Settles error documented result ↔ documented := by
  rw [h]
  constructor
  · rintro (⟨hdoc, _⟩ | ⟨_, message, hmessage⟩)
    · exact hdoc
    · cases hmessage
  · exact fun hdoc => .inl ⟨hdoc, n, rfl⟩

theorem Settles.message {error : ErrorHandler} {documented : Prop}
    {result : Except Raise (Option Rat × ErrorHandler)} {message : String}
    (h : result = .ok (none, error.log message)) :
    Settles error documented result ↔ ¬ documented := by
  rw [h]
  constructor
  · rintro (⟨_, n, hn⟩ | ⟨hdoc, _⟩)
    · cases hn
    · exact hdoc
  · exact fun hdoc => .inr ⟨hdoc, message, rfl⟩

theorem Settles.raise {error : ErrorHandler} {documented : Prop}
    {result : Except Raise (Option Rat × ErrorHandler)} {e : Raise} (h : result = .error e) :
    ¬ Settles error documented result := by
  rw [h]
  rintro (⟨_, n, hn⟩ | ⟨_, message, hmessage⟩)
  · cases hn
  · cases hmessage

def IsRate (s : Text) : Prop := ∃ r : RateString, s = r.text

/-- With a known time, the unit ends in an amount behind an unknown prefix, or the text ends in
a slash. -/
def RateFails (s : Text) : Prop :=
  ∃ num unit time, RateParts s num unit time ∧ (Units.time (time.getD [])).isSome ∧
    (UnknownScale (lower unit) ∨ (time = some [] ∧ (unit = [] ∨ IsSize (lower unit))))

def DataLimitFails (s : Text) : Prop :=
  ∃ num unit, LimitParts s num unit ∧ ¬ IsSize (lower unit)

def TimeLimitFails (s : Text) : Prop :=
  ∃ num unit, LimitParts s num unit ∧ ∀ u : TimeUnit, unit ≠ u.text

theorem not_unknown_of_value {psize bits : Rat} {unit : Text}
    (h : unitOf psize unit = .ok (some (some bits))) : ¬ UnknownScale unit := by
  intro hunknown
  rcases unitOf_unknown psize hunknown with hunit | hunit
  · rw [h] at hunit
    cases hunit
  · rw [h] at hunit
    cases hunit

theorem unitOf_value (psize : Rat) {unit : Text} (h : unit = [] ∨ IsSize (lower unit)) :
    ∃ bits, unitOf psize (lower unit) = .ok (some (some bits)) := by
  rcases h with rfl | ⟨p, k, hlower⟩
  · exact ⟨_, rfl⟩
  · rw [hlower]
    exact ⟨_, unitOf_size psize p k⟩

section Settling

variable (tonumber : ToNumber) (psize : Rat) (s : String) (error : ErrorHandler)

theorem parseRateOption_number {n : Rat} (h : parseRate tonumber s.toList psize = .ok (.ok n)) :
    parseRateOption tonumber psize (some (.string s)) error = .ok (some n, error) := by
  simp only [parseRateOption, h]
  rfl

theorem parseRateOption_message {message : String}
    (h : parseRate tonumber s.toList psize = .ok (.error (some message))) :
    parseRateOption tonumber psize (some (.string s)) error = .ok (none, error.log message) := by
  simp only [parseRateOption, h]
  rfl

theorem parseRateOption_raise {e : Raise} (h : parseRate tonumber s.toList psize = .error e) :
    parseRateOption tonumber psize (some (.string s)) error = .error e := by
  simp only [parseRateOption, h]
  rfl

/-- A text with a unit and a known time is documented unless it ends in a slash. -/
theorem isRate_iff_of_parts {s num unit : Text} {time : Option Text}
    (h : RateParts s num unit time) (hunit : unit = [] ∨ IsSize (lower unit)) {seconds : Rat}
    (htime : Units.time (time.getD []) = some seconds) : IsRate s ↔ time ≠ some [] := by
  constructor
  · rintro ⟨r, rfl⟩ hslash
    have hsame := (r.parts.unique h).2.2
    rw [hslash] at hsame
    rcases Option.map_eq_some_iff.mp hsame.symm with ⟨u, _, hu⟩
    exact u.text_ne_nil hu
  · intro hslash
    have hwritten : ∃ u : Option SizeUnit, unit = (u.map SizeUnit.text).getD [] := by
      rcases hunit with rfl | ⟨p, k, hlower⟩
      · exact ⟨none, rfl⟩
      · exact ⟨some ⟨p, k, unit, hlower⟩, rfl⟩
    have htimed : ∃ t : Option TimeUnit, time = t.map TimeUnit.text := by
      cases time with
      | none => exact ⟨none, rfl⟩
      | some t =>
          rcases Units.eq_text_of_time htime with hnil | ⟨u, hu⟩
          · exact absurd (congrArg some hnil) hslash
          · exact ⟨some u, congrArg some hu⟩
    rcases hwritten with ⟨u, hu⟩
    rcases htimed with ⟨t, ht⟩
    refine ⟨⟨num, h.numeral, u, t⟩, ?_⟩
    have htext : num ++ (unit ++ slashed time) =
        num ++ ((u.map SizeUnit.text).getD [] ++ slashed (t.map TimeUnit.text)) := by
      rw [hu, ht]
    exact h.text.trans htext

theorem IsRate.parts {s : Text} (h : IsRate s) :
    ∃ r : RateString, RateParts s r.num r.unitText r.timeText := by
  rcases h with ⟨r, rfl⟩
  exact ⟨r, r.parts⟩

theorem settles_of_value {num unit : Text} {time : Option Text}
    (h : RateParts s.toList num unit time) {seconds : Rat}
    (htime : Units.time (time.getD []) = some seconds) (hunit : unit = [] ∨ IsSize (lower unit)) :
    Settles error (IsRate s.toList) (parseRateOption tonumber psize (some (.string s)) error) ↔
      ¬ ((some seconds).isSome ∧
        (UnknownScale (lower unit) ∨ (time = some [] ∧ (unit = [] ∨ IsSize (lower unit))))) := by
  rcases unitOf_value psize hunit with ⟨bits, hbits⟩
  have hknown := not_unknown_of_value hbits
  have hnumber := parseRateOption_number tonumber psize s error (parseRate_value tonumber h htime hbits)
  rw [Settles.number hnumber, isRate_iff_of_parts h hunit htime]
  simp [hknown, hunit]

theorem settles_of_noUnit {num unit : Text} {time : Option Text}
    (h : RateParts s.toList num unit time) {seconds : Rat}
    (htime : Units.time (time.getD []) = some seconds) (hne : lower unit ≠ [])
    (hother : ∀ (t : Text) (k : Amount), lower unit ≠ t ++ k.text) :
    Settles error (IsRate s.toList) (parseRateOption tonumber psize (some (.string s)) error) ↔
      ¬ ((some seconds).isSome ∧
        (UnknownScale (lower unit) ∨ (time = some [] ∧ (unit = [] ∨ IsSize (lower unit))))) := by
  have hunit := unitOf_none psize hne hother
  rw [Settles.message (parseRateOption_message _ _ _ _ (parseRate_noUnit _ h htime hunit))]
  refine iff_of_true ?_ ?_
  · intro hrate
    rcases hrate.parts with ⟨r, hr⟩
    have hvalue := r.unitOf_unitText psize
    rw [(h.unique hr).2.1, hunit] at hvalue
    cases hvalue
  · rintro ⟨_, ⟨t, k, hunknown, _⟩ | ⟨_, hsize⟩⟩
    · exact hother t k hunknown
    · rcases unitOf_value psize hsize with ⟨bits, hbits⟩
      rw [hunit] at hbits
      cases hbits

theorem rate_settles_iff :
    Settles error (IsRate s.toList) (parseRateOption tonumber psize (some (.string s)) error) ↔
      ¬ RateFails s.toList := by
  cases hrun : run true ratePattern s.toList with
  | none =>
      have hparts : ∀ {num unit time}, ¬ RateParts s.toList num unit time := by
        intro num unit time h
        rw [run_ratePattern h] at hrun
        cases hrun
      rw [Settles.message (parseRateOption_message _ _ _ _ (parseRate_noFormat _ _ hrun))]
      refine iff_of_true ?_ ?_
      · intro hrate
        rcases hrate.parts with ⟨r, hr⟩
        exact hparts hr
      · rintro ⟨num, unit, time, h, _⟩
        exact hparts h
  | some m =>
      rcases rateParts_of_run hrun with ⟨num, unit, time, h⟩
      have hfails : RateFails s.toList ↔ (Units.time (time.getD [])).isSome ∧
          (UnknownScale (lower unit) ∨ (time = some [] ∧ (unit = [] ∨ IsSize (lower unit)))) := by
        constructor
        · rintro ⟨num', unit', time', h', hfail⟩
          rcases h.unique h' with ⟨rfl, rfl, rfl⟩
          exact hfail
        · exact fun hfail => ⟨num, unit, time, h, hfail⟩
      rw [hfails]
      cases htime : Units.time (time.getD []) with
      | none =>
          rw [Settles.message (parseRateOption_message _ _ _ _ (parseRate_noTime _ h _ htime))]
          refine iff_of_true ?_ (by simp)
          intro hrate
          rcases hrate.parts with ⟨r, hr⟩
          have hknown := r.time_timeText
          rw [(h.unique hr).2.2, htime] at hknown
          cases hknown
      | some seconds =>
          rcases unit_cases (lower unit) with hempty | hsize | hunknown | ⟨hne, hother⟩
          · have hunit : unit = [] ∨ IsSize (lower unit) := .inl (List.map_eq_nil_iff.mp hempty)
            exact settles_of_value tonumber psize s error h htime hunit
          · exact settles_of_value tonumber psize s error h htime (.inr hsize)
          · have hraise := parseRateOption_raise tonumber psize s error
              (parseRate_unknown tonumber h psize htime hunknown)
            exact iff_of_false (Settles.raise hraise) fun hfail => hfail ⟨rfl, .inl hunknown⟩
          · exact settles_of_noUnit tonumber psize s error h htime hne hother

/-! ### Limits -/

theorem IsDataLimit.parts {s : Text} (h : IsDataLimit s) :
    ∃ (num : Text) (u : SizeUnit), LimitParts s num u.text := by
  rcases h with ⟨num, u, hnum, rfl⟩
  exact ⟨num, u, u.limitParts hnum⟩

theorem IsTimeLimit.parts {s : Text} (h : IsTimeLimit s) :
    ∃ (num : Text) (u : TimeUnit), LimitParts s num u.text := by
  rcases h with ⟨num, u, hnum, rfl⟩
  exact ⟨num, u, hnum, u.text_letters, u.text_ne_nil, rfl⟩

theorem not_limitParts {s : Text} (h : run true limitPattern s = none) {num unit : Text} :
    ¬ LimitParts s num unit := by
  intro hparts
  rw [run_limitPattern hparts] at h
  cases h

theorem settles_of_noFormat {documented fails : Prop}
    {result : Except Raise (Option Rat × ErrorHandler)} {message : String}
    (hrun : run true limitPattern s.toList = none) (hresult : result = .ok (none, error.log message))
    (hdocumented : documented → ∃ num unit, LimitParts s.toList num unit)
    (hfails : fails → ∃ num unit, LimitParts s.toList num unit) :
    Settles error documented result ↔ ¬ fails := by
  rw [Settles.message hresult]
  constructor
  · intro _ hfail
    rcases hfails hfail with ⟨num, unit, hparts⟩
    exact not_limitParts hrun hparts
  · intro _ hdoc
    rcases hdocumented hdoc with ⟨num, unit, hparts⟩
    exact not_limitParts hrun hparts

theorem parseDataLimitOption_noFormat (h : run true limitPattern s.toList = none) :
    parseDataLimitOption tonumber psize (some (.string s)) error =
      .ok (none, error.log "Invalid format. Should be '<number><unit>'.") := by
  simp only [parseDataLimitOption, parseDataLimit, h]
  rfl

theorem parseDataLimitOption_raise {num unit : Text} (h : LimitParts s.toList num unit)
    (hunit : ¬ IsSize (lower unit)) :
    ∃ e, parseDataLimitOption tonumber psize (some (.string s)) error = .error e := by
  have hread := tonumber.read_numeral num h.numeral
  rcases unit_cases (lower unit) with hempty | hsize | hunknown | ⟨hne, hother⟩
  · exact absurd (List.map_eq_nil_iff.mp hempty) h.unit_ne_nil
  · exact absurd hsize hunit
  · simp only [parseDataLimitOption, parseDataLimit, run_limitPattern h]
    rcases unitOf_unknown psize hunknown with hvalue | hvalue
    · rw [hvalue, hread]
      exact ⟨.arithmetic, rfl⟩
    · rw [hvalue]
      exact ⟨.arithmetic, rfl⟩
  · simp only [parseDataLimitOption, parseDataLimit, run_limitPattern h,
      unitOf_none psize hne hother]
    exact ⟨.badArgument, rfl⟩

theorem dataLimit_settles_iff :
    Settles error (IsDataLimit s.toList)
        (parseDataLimitOption tonumber psize (some (.string s)) error) ↔
      ¬ DataLimitFails s.toList := by
  cases hrun : run true limitPattern s.toList with
  | none =>
      refine settles_of_noFormat s error hrun (parseDataLimitOption_noFormat tonumber psize s error hrun) ?_ ?_
      · intro hdoc
        rcases hdoc.parts with ⟨num, u, hparts⟩
        exact ⟨num, u.text, hparts⟩
      · intro hfail
        rcases hfail with ⟨num, unit, hparts, _⟩
        exact ⟨num, unit, hparts⟩
  | some m =>
      rcases limitParts_of_run hrun with ⟨num, unit, h⟩
      by_cases hsize : IsSize (lower unit)
      · rcases unitOf_value psize (.inr hsize) with ⟨bits, hbits⟩
        rw [Settles.number (parseDataLimitOption_value tonumber h hbits error)]
        rcases hsize with ⟨p, k, hlower⟩
        refine iff_of_true ⟨num, ⟨p, k, unit, hlower⟩, h.numeral, h.text⟩ ?_
        rintro ⟨num', unit', h', hno⟩
        rw [(h.unique h').2] at hno
        exact hno ⟨p, k, hlower⟩
      · rcases parseDataLimitOption_raise tonumber psize s error h hsize with ⟨e, hraise⟩
        exact iff_of_false (Settles.raise hraise) fun hfail => hfail ⟨num, unit, h, hsize⟩

theorem parseTimeLimitOption_noFormat (h : run true limitPattern s.toList = none) :
    parseTimeLimitOption tonumber (some (.string s)) error =
      .ok (none, error.log "Invalid format. Should be '<number><unit>'.") := by
  simp only [parseTimeLimitOption, parseTimeLimit, h]
  rfl

theorem parseTimeLimitOption_value {num unit : Text} (h : LimitParts s.toList num unit)
    {seconds : Rat} (hunit : Units.time (lower unit) = some seconds) :
    parseTimeLimitOption tonumber (some (.string s)) error =
      .ok (some (decimal num * seconds), error) := by
  simp only [parseTimeLimitOption, parseTimeLimit, run_limitPattern h, hunit,
    tonumber.read_numeral num h.numeral]
  rfl

theorem parseTimeLimitOption_raise {num unit : Text} (h : LimitParts s.toList num unit)
    (hunit : Units.time (lower unit) = none) :
    parseTimeLimitOption tonumber (some (.string s)) error = .error .index := by
  simp only [parseTimeLimitOption, parseTimeLimit, run_limitPattern h, hunit]
  rfl

theorem timeLimit_settles_iff :
    Settles error (IsTimeLimit s.toList)
        (parseTimeLimitOption tonumber (some (.string s)) error) ↔
      ¬ TimeLimitFails s.toList := by
  cases hrun : run true limitPattern s.toList with
  | none =>
      refine settles_of_noFormat s error hrun (parseTimeLimitOption_noFormat tonumber s error hrun) ?_ ?_
      · intro hdoc
        rcases hdoc.parts with ⟨num, u, hparts⟩
        exact ⟨num, u.text, hparts⟩
      · intro hfail
        rcases hfail with ⟨num, unit, hparts, _⟩
        exact ⟨num, unit, hparts⟩
  | some m =>
      rcases limitParts_of_run hrun with ⟨num, unit, h⟩
      cases htime : Units.time (lower unit) with
      | none =>
          have hraise := parseTimeLimitOption_raise tonumber s error h htime
          refine iff_of_false (Settles.raise hraise) fun hfail => hfail ⟨num, unit, h, ?_⟩
          rintro u rfl
          have hlower : lower u.text = u.text := by
            cases u <;> rfl
          rw [hlower, Units.time_text] at htime
          cases htime
      | some seconds =>
          rw [Settles.number (parseTimeLimitOption_value tonumber s error h htime)]
          constructor
          · rintro hdoc ⟨num', unit', h', hno⟩
            rcases hdoc.parts with ⟨num'', u, h''⟩
            exact hno u (h''.unique h').2
          · intro hno
            by_contra hdoc
            refine hno ⟨num, unit, h, ?_⟩
            rintro u rfl
            exact hdoc ⟨num, u, h.numeral, h.text⟩

/-- Which texts the options settle as they should: all but those with an unknown unit, a rate
that ends in a slash, and a time limit in capital letters. -/
theorem options_settle_iff (tonumber : ToNumber) (s : String) (pktLength : Option Nat)
    (error : ErrorHandler) :
    (Settles error (IsRate s.toList)
        (parseRateOption tonumber (packetSize pktLength true) (some (.string s)) error) ↔
      ¬ RateFails s.toList) ∧
    (Settles error (IsDataLimit s.toList)
        (parseDataLimitOption tonumber (packetSize pktLength true) (some (.string s)) error) ↔
      ¬ DataLimitFails s.toList) ∧
    (Settles error (IsTimeLimit s.toList)
        (parseTimeLimitOption tonumber (some (.string s)) error) ↔
      ¬ TimeLimitFails s.toList) :=
  ⟨rate_settles_iff tonumber _ s error, dataLimit_settles_iff tonumber _ s error,
    timeLimit_settles_iff tonumber s error⟩

/-- An unknown prefix or unit raises an error in each of the options. -/
theorem options_raise :
    parseRateOption .plain 64 (some (.string "1xb")) ⟨none, []⟩ = .error .arithmetic ∧
      parseDataLimitOption .plain 64 (some (.string "1x")) ⟨none, []⟩ = .error .badArgument ∧
      parseTimeLimitOption .plain (some (.string "1x")) ⟨none, []⟩ = .error .index := by
  decide

end Settling

end MoonGen.Interface

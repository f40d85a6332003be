import Mathlib.Algebra.Order.Ring.Rat
import Mathlib.Data.Nat.Cast.Order.Ring
import MoonGen.Interface.LuaText

/-! # The arguments of the command line

The embedding of `flowparse.lua`, which reads a flow from an argument of the form
`[<file>/]<name>:[<tx-list>]:[<rx-list>]:[<option-list>]:[<overwrites>]`, and the rendering
that it inverts.
-/

namespace MoonGen.Interface.FlowParse

open Pattern

structure Message where
  format : String
  args : List Text
deriving Repr, DecidableEq

/-- The value of an option: a string, or `true` for a flag. -/
inductive OptionText where
  | text (v : Text)
  | flag
deriving Repr, DecidableEq

structure Parsed where
  name : Text
  file : Option Text
  tx : List Rat
  rx : List Rat
  options : Text → Option OptionText
  overwrites : Text

/-- `([^,]+)`. -/
def listPattern : List (Piece Char) := [.capture [⟨notChar ',', .plus⟩]]

/-- `^([^=]+)=([^=]+)$`. -/
def optionPattern : List (Piece Char) :=
  [.capture [⟨notChar '=', .plus⟩], .plain ⟨isChar '=', .once⟩, .capture [⟨notChar '=', .plus⟩]]

/-- `(.*)/([^/]+)`. -/
def filePattern : List (Piece Char) :=
  [.capture [⟨anyChar, .star⟩], .plain ⟨isChar '/', .once⟩, .capture [⟨notChar '/', .plus⟩]]

/-- `(":?([^:]*)"):rep(n) .. ":?(.*)$"`. -/
def fieldsPattern : Nat → List (Piece Char)
  | 0 => [.plain ⟨isChar ':', .optional⟩, .capture [⟨anyChar, .star⟩]]
  | n + 1 => .plain ⟨isChar ':', .optional⟩ :: .capture [⟨notChar ':', .star⟩] :: fieldsPattern n

def argumentPattern : List (Piece Char) := .capture [⟨notChar ':', .plus⟩] :: fieldsPattern 3

/-- Below `devnum`, which is `math.huge` when the devices do not matter. -/
def below (n : Rat) : Option Nat → Prop
  | none => True
  | some devnum => n < devnum

instance (n : Rat) : (devnum : Option Nat) → Decidable (below n devnum)
  | none => instDecidableTrue
  | some devnum => inferInstanceAs (Decidable (n < devnum))

def fmt : String := "[<file>/]<name>:[<tx-list>]:[<rx-list>]:[<option-list>]:[<overwrites>]"

/-- What `for … in string.gmatch(s, "([^,]+)")` runs over. -/
def items (s : Text) : List Text := (gmatch listPattern s).filterMap List.head?

section Script

variable (tonumber : ToNumber) (devnum : Option Nat)

/-- The loop body of `parse_devices`. -/
def parseDevice (name : Text) (r : List Rat × List Message) (num : Text) :
    List Rat × List Message :=
  if num ≠ [] then
    match tonumber.read num with
    | none => (r.1, r.2 ++ [⟨"Invalid device number %q for flow %q.", [num, name]⟩])
    | some n =>
        if n < 0 ∨ ¬ below n devnum then
          (r.1, r.2 ++ [⟨"Invalid device number %q for flow %q.", [num, name]⟩])
        else (r.1 ++ [n], r.2)
  else r

def parseDevices (s name : Text) : List Rat × List Message :=
  (items s).foldl (parseDevice tonumber devnum name) ([], [])

/-- The loop body for the options. -/
def parseOption (options : Text → Option OptionText) (opt : Text) : Text → Option OptionText :=
  if opt ≠ [] then
    match run true optionPattern opt with
    | some ([k, v], _) => Function.update options k (some (.text v))
    | _ => Function.update options opt (some .flag)
  else options

def parseOptions (optstring : Text) : Text → Option OptionText :=
  (items optstring).foldl parseOption fun _ => none

def parseName (name : Text) : Option Text × Text :=
  match search false filePattern name with
  | some ([file, name], _) => (some file, name)
  | _ => (none, name)

/-- The result with the errors that were logged, or the fatal error. -/
def flowparse (s : Text) : Except Message (Parsed × List Message) :=
  match run true argumentPattern s with
  | some ([name, tx, rx, optstring, overwrites], _) =>
      let (file, name) := parseName name
      let options := parseOptions optstring
      let tx := parseDevices tonumber devnum tx name
      let rx := parseDevices tonumber devnum rx name
      .ok (⟨name, file, tx.1, rx.1, options, overwrites⟩, tx.2 ++ rx.2)
  | _ =>
      .error ⟨"Invalid parameter: %q.\nExpected format: '%s'." ++
        "\nAll lists are ',' seperated. Trailing ':' can be omitted.", [s, fmt.toList]⟩

end Script

/-! ## Rendering -/

structure Plain (s : Text) : Prop where
  ne_nil : s ≠ []
  colon : ':' ∉ s
  comma : ',' ∉ s
  equals : '=' ∉ s

/-- The components of an argument that can be rendered. -/
structure Argument (devnum : Option Nat) where
  file : Option Text
  name : Text
  tx : List Nat
  rx : List Nat
  options : List (Text × OptionText)
  overwrites : Text
  file_colon : ∀ f ∈ file, ':' ∉ f
  name_ne_nil : name ≠ []
  name_colon : ':' ∉ name
  name_slash : '/' ∉ name
  tx_below : ∀ d ∈ tx, below d devnum
  rx_below : ∀ d ∈ rx, below d devnum
  options_nodup : (options.map Prod.fst).Nodup
  options_plain : ∀ e ∈ options, Plain e.1 ∧ ∀ v, e.2 = .text v → Plain v

def renderName : Option Text → Text → Text
  | none, name => name
  | some file, name => file ++ '/' :: name

def renderDevices (devices : List Nat) : Text := joined ',' (devices.map (Nat.toDigits 10))

def renderOption : Text × OptionText → Text
  | (k, .text v) => k ++ '=' :: v
  | (k, .flag) => k

def renderOptions (options : List (Text × OptionText)) : Text :=
  joined ',' (options.map renderOption)

namespace Argument

variable {devnum : Option Nat}

def fields (a : Argument devnum) : List Text :=
  [renderDevices a.tx, renderDevices a.rx, renderOptions a.options, a.overwrites]

def render (a : Argument devnum) (n : Nat) : Text :=
  joined ':' (renderName a.file a.name :: a.fields.take n)

def parsed (a : Argument devnum) : Parsed where
  name := a.name
  file := a.file
  tx := a.tx.map Nat.cast
  rx := a.rx.map Nat.cast
  options := fun k => a.options.lookup k
  overwrites := a.overwrites

end Argument

/-! ## The fields -/

theorem joined_cons (x : Char) (a : Text) (rest : List Text) :
    joined x (a :: rest) = a ++ rest.flatMap (x :: ·) := by
  induction rest generalizing a with
  | nil => simp [joined]
  | cons b rest ih => rw [joined, ih, List.flatMap_cons, List.cons_append]

theorem longest_field {f : Text} (hf : ':' ∉ f) (rest : List Text) :
    Longest (notChar ':') f (rest.flatMap (':' :: ·)) := by
  cases rest with
  | nil => exact .nil (all_notChar hf)
  | cons g rest => exact .cons (all_notChar hf) (notChar_self ':')

theorem run_fields (n : Nat) {fs : List Text} (hlen : fs.length ≤ n + 1)
    (hfree : ∀ f ∈ fs.take n, ':' ∉ f) :
    run true (fieldsPattern n) (fs.flatMap (':' :: ·)) =
      some (fs ++ List.replicate (n + 1 - fs.length) [], []) := by
  have hend : run true [] ([] : Text) = some ([], []) := rfl
  induction n generalizing fs with
  | zero =>
      cases fs with
      | nil => rfl
      | cons f rest =>
          have hrest : rest = [] := List.length_eq_zero_iff.mp (by simpa using hlen)
          subst hrest
          have hall : Longest anyChar f [] := .nil fun c _ => rfl
          have hlast := run_capture (itemWays_head_singleton (Item.ways_star hall)) hend
          rw [List.append_nil] at hlast
          simpa [fieldsPattern] using run_plain (Item.ways_optional (isChar_self ':') f) hlast
  | succ n ih =>
      cases fs with
      | nil =>
          have hrest := @ih [] (Nat.zero_le _) (by simp)
          have hfield := run_capture (itemWays_head_singleton
            (Item.ways_star (longest_field List.not_mem_nil []))) hrest
          exact run_plain (Item.ways_optional_absent fun c hc => by cases hc) hfield
      | cons f rest =>
          have hfs := List.forall_mem_cons.mp (List.take_succ_cons ▸ hfree)
          have hrest := ih (Nat.le_of_succ_le_succ hlen) hfs.2
          have hfield := run_capture (itemWays_head_singleton
            (Item.ways_star (longest_field hfs.1 rest))) hrest
          have hall := run_plain (Item.ways_optional (isChar_self ':') _) hfield
          rw [List.flatMap_cons, List.cons_append, List.length_cons, Nat.add_sub_add_right]
          exact hall

theorem take_append_replicate {fs : List Text} {n : Nat} (h : ∀ f ∈ fs.drop n, f = []) :
    fs.take n ++ List.replicate (fs.length - (fs.take n).length) [] = fs := by
  have hdrop : fs.drop n = List.replicate (fs.drop n).length [] := List.eq_replicate_of_mem h
  have hlen : fs.length - (fs.take n).length = (fs.drop n).length := by
    rw [List.length_take, List.length_drop]
    omega
  rw [hlen, ← hdrop, List.take_append_drop]

/-! ## Lists in a field -/

theorem not_mem_joined {x y : Char} (hxy : y ≠ x) {texts : List Text} (h : ∀ a ∈ texts, y ∉ a) :
    y ∉ joined x texts := by
  cases texts with
  | nil => exact List.not_mem_nil
  | cons a rest =>
      have hall := List.forall_mem_cons.mp h
      rw [joined_cons, List.mem_append, not_or]
      refine ⟨hall.1, ?_⟩
      intro hmem
      rcases List.mem_flatMap.mp hmem with ⟨b, hb, hy⟩
      rcases List.mem_cons.mp hy with rfl | hy
      · exact hxy rfl
      · exact hall.2 b hb hy

theorem items_joined {texts : List Text} (h : ∀ a ∈ texts, a ≠ [] ∧ ',' ∉ a) :
    items (joined ',' texts) = texts := by
  have hall : ∀ a ∈ texts, a ≠ [] ∧ ∀ c ∈ a, notChar ',' c = true :=
    fun a ha => ⟨(h a ha).1, all_notChar (h a ha).2⟩
  have hruns := gmatch_joined (notChar_self ',') hall
  rw [items, listPattern, hruns, List.filterMap_map]
  exact List.filterMap_some

section Devices

variable (tonumber : ToNumber) {devnum : Option Nat}

theorem digits_plain (n : Nat) {x : Char} (hx : x.isDigit = false) : x ∉ Nat.toDigits 10 n := by
  intro hmem
  have hdigit := Nat.isDigit_of_mem_toDigits (by decide) (by decide) hmem
  rw [hx] at hdigit
  cases hdigit

theorem parseDevice_digits (name : Text) (r : List Rat × List Message) {n : Nat}
    (h : below n devnum) :
    parseDevice tonumber devnum name r (Nat.toDigits 10 n) = (r.1 ++ [(n : Rat)], r.2) := by
  have hread : tonumber.read (Nat.toDigits 10 n) = some (n : Rat) := by
    rw [tonumber.read_numeral _ (numeral_toDigits n), decimal_toDigits]
  have hvalid : ¬ ((n : Rat) < 0 ∨ ¬ below n devnum) := by
    rw [not_or, not_not, not_lt]
    exact ⟨Nat.cast_nonneg n, h⟩
  simp only [parseDevice, ne_eq, Nat.toDigits_ne_nil, not_false_eq_true, if_true, hread,
    if_neg hvalid]

theorem foldl_parseDevice (name : Text) {devices : List Nat} (h : ∀ d ∈ devices, below d devnum)
    (r : List Rat × List Message) :
    (devices.map (Nat.toDigits 10)).foldl (parseDevice tonumber devnum name) r =
      (r.1 ++ devices.map Nat.cast, r.2) := by
  induction devices generalizing r with
  | nil => simp
  | cons d rest ih =>
      have hall := List.forall_mem_cons.mp h
      rw [List.map_cons, List.foldl_cons, parseDevice_digits tonumber name r hall.1, ih hall.2]
      simp

theorem parseDevices_render (name : Text) {devices : List Nat}
    (h : ∀ d ∈ devices, below d devnum) :
    parseDevices tonumber devnum (renderDevices devices) name = (devices.map Nat.cast, []) := by
  have hitems : items (renderDevices devices) = devices.map (Nat.toDigits 10) := by
    apply items_joined
    intro a ha
    rcases List.mem_map.mp ha with ⟨n, _, rfl⟩
    exact ⟨Nat.toDigits_ne_nil, digits_plain n (by decide)⟩
  rw [parseDevices, hitems, foldl_parseDevice tonumber name h]
  rfl

end Devices

/-! ## Options -/

theorem run_option {k v : Text} (hk : Plain k) (hv : Plain v) :
    run true optionPattern (k ++ '=' :: v) = some ([k, v], []) := by
  have hend : run true [] ([] : Text) = some ([], []) := rfl
  have hvalue := run_capture (itemWays_head_singleton
    (Item.ways_plus (.nil (all_notChar hv.equals)) hv.ne_nil)) hend
  rw [List.append_nil] at hvalue
  have hequals := run_plain (Item.ways_once (isChar_self '=') v) hvalue
  exact run_capture (itemWays_head_singleton
    (Item.ways_plus (.cons (all_notChar hk.equals) (notChar_self '=')) hk.ne_nil)) hequals

theorem run_option_flag {k : Text} (hk : '=' ∉ k) : run true optionPattern k = none := by
  rw [Option.eq_none_iff_forall_ne_some]
  intro m hm
  rcases run_dollar_sound hm with ⟨a, r, _, rfl, _, _, b, r', rfl, hb, _⟩
  rcases hb.2 with ⟨c, rfl⟩
  have hc : c = '=' := isChar_eq_true.mp (hb.1 c List.mem_cons_self)
  apply hk
  rw [hc]
  simp

theorem parseOption_render (options : Text → Option OptionText) {e : Text × OptionText}
    (hk : Plain e.1) (hv : ∀ v, e.2 = .text v → Plain v) :
    parseOption options (renderOption e) = Function.update options e.1 (some e.2) := by
  rcases e with ⟨k, v⟩
  cases v with
  | text v =>
      have hne : k ++ '=' :: v ≠ [] := List.append_ne_nil_of_left_ne_nil hk.ne_nil _
      simp only [parseOption, renderOption, if_pos hne, run_option hk (hv v rfl)]
  | flag =>
      simp only [parseOption, renderOption, if_pos hk.ne_nil, run_option_flag hk.equals]

theorem foldl_parseOption {entries : List (Text × OptionText)}
    (h : ∀ e ∈ entries, Plain e.1 ∧ ∀ v, e.2 = .text v → Plain v)
    (hnodup : (entries.map Prod.fst).Nodup) (options : Text → Option OptionText) :
    (entries.map renderOption).foldl parseOption options =
      fun k => (entries.lookup k).or (options k) := by
  induction entries generalizing options with
  | nil => rfl
  | cons e rest ih =>
      have hall := List.forall_mem_cons.mp h
      have hkeys := List.nodup_cons.mp hnodup
      rw [List.map_cons, List.foldl_cons, parseOption_render options hall.1.1 hall.1.2,
        ih hall.2 hkeys.2]
      funext k
      rcases e with ⟨key, v⟩
      by_cases hk : k = key
      · subst hk
        have hnone : rest.lookup k = none := by
          rw [List.lookup_eq_none_iff]
          intro p hp
          rw [bne_iff_ne]
          intro heq
          exact hkeys.1 (List.mem_map.mpr ⟨p, hp, heq.symm⟩)
        simp [hnone, List.lookup_cons_self]
      · simp [List.lookup_cons, hk, beq_eq_false_iff_ne.mpr hk]

theorem not_mem_renderOption {e : Text × OptionText} {x : Char} (hx : x ≠ '=') (hk : x ∉ e.1)
    (hv : ∀ v, e.2 = .text v → x ∉ v) : x ∉ renderOption e := by
  rcases e with ⟨k, v⟩
  cases v with
  | text v =>
      rw [renderOption, List.mem_append, List.mem_cons]
      rintro (h | h | h)
      · exact hk h
      · exact hx h
      · exact hv v rfl h
  | flag => exact hk

theorem renderOption_ne_nil {e : Text × OptionText} (hk : e.1 ≠ []) : renderOption e ≠ [] := by
  rcases e with ⟨k, v⟩
  cases v with
  | text v => exact List.append_ne_nil_of_left_ne_nil hk _
  | flag => exact hk

namespace Argument

variable {devnum : Option Nat} (a : Argument devnum)

theorem parseOptions_render :
    parseOptions (renderOptions a.options) = fun k => a.options.lookup k := by
  have hitems : items (renderOptions a.options) = a.options.map renderOption := by
    apply items_joined
    intro s hs
    rcases List.mem_map.mp hs with ⟨e, he, rfl⟩
    have hplain := a.options_plain e he
    exact ⟨renderOption_ne_nil hplain.1.ne_nil,
      not_mem_renderOption (by decide) hplain.1.comma fun v hv => (hplain.2 v hv).comma⟩
  rw [parseOptions, hitems, foldl_parseOption a.options_plain a.options_nodup]
  simp

/-! ## The whole argument -/

theorem parseName_render : parseName (renderName a.file a.name) = (a.file, a.name) := by
  cases hfile : a.file with
  | none =>
      have hnone : search false filePattern a.name = none := by
        apply search_none
        intro t ht
        rw [Option.eq_none_iff_forall_ne_some]
        intro m hm
        rcases run_sound hm with ⟨used, hused, ⟨b, r, _, rfl, _, _, c, r', rfl, hc, _⟩, _⟩
        rcases hc.2 with ⟨x, rfl⟩
        have hx : x = '/' := isChar_eq_true.mp (hc.1 x List.mem_cons_self)
        apply a.name_slash
        apply ht.subset
        rw [hused, hx]
        simp
      rw [parseName, renderName, hnone]
  | some file =>
      have hend : run false [] ([] : Text) = some ([], []) := rfl
      have hname := run_capture (itemWays_head_singleton
        (Item.ways_plus (.nil (all_notChar a.name_slash)) a.name_ne_nil)) hend
      rw [List.append_nil] at hname
      have hslash : ∀ c ∈ a.name, isChar '/' c = false := by
        intro c hc
        rw [← Bool.not_eq_true, isChar_eq_true]
        rintro rfl
        exact a.name_slash hc
      have hall := search_of_run (run_last (a := file) (isChar_self '/') hslash hname)
      have hfound : search false filePattern (file ++ '/' :: a.name) =
          some ([file, a.name], []) := hall
      rw [parseName, renderName, hfound]

theorem renderName_plain : renderName a.file a.name ≠ [] ∧ ':' ∉ renderName a.file a.name := by
  cases hfile : a.file with
  | none => exact ⟨a.name_ne_nil, a.name_colon⟩
  | some file =>
      have hcolon := a.file_colon file hfile
      refine ⟨by simp [renderName], ?_⟩
      simp [renderName, hcolon, a.name_colon]

theorem fields_colon : ∀ f ∈ a.fields.take 3, ':' ∉ f := by
  have hdevices : ∀ devices, ':' ∉ renderDevices devices := by
    intro devices
    apply not_mem_joined (by decide)
    intro s hs
    rcases List.mem_map.mp hs with ⟨n, _, rfl⟩
    exact digits_plain n (by decide)
  have hoptions : ':' ∉ renderOptions a.options := by
    apply not_mem_joined (by decide)
    intro s hs
    rcases List.mem_map.mp hs with ⟨e, he, rfl⟩
    have hplain := a.options_plain e he
    exact not_mem_renderOption (by decide) hplain.1.colon fun v hv => (hplain.2 v hv).colon
  simp only [fields, List.take_succ_cons, List.take_zero, List.forall_mem_cons]
  exact ⟨hdevices a.tx, hdevices a.rx, hoptions, List.forall_mem_nil _⟩

theorem run_render {n : Nat} (hn : ∀ f ∈ a.fields.drop n, f = []) :
    run true argumentPattern (a.render n) =
      some (renderName a.file a.name :: a.fields, []) := by
  have hlen : (a.fields.take n).length ≤ 3 + 1 := by
    rw [List.length_take]
    exact Nat.min_le_right _ _
  have hfree : ∀ f ∈ (a.fields.take n).take 3, ':' ∉ f := by
    intro f hf
    rw [List.take_take, Nat.min_comm, ← List.take_take] at hf
    exact a.fields_colon f (List.mem_of_mem_take hf)
  have hfields := run_fields 3 hlen hfree
  have hfull : a.fields.take n ++ List.replicate (3 + 1 - (a.fields.take n).length) [] = a.fields :=
    take_append_replicate hn
  rw [hfull] at hfields
  rw [render, joined_cons, argumentPattern]
  exact run_capture (itemWays_head_singleton
    (Item.ways_plus (longest_field a.renderName_plain.2 _) a.renderName_plain.1)) hfields

/-- Parsing inverts rendering, also when trailing empty fields are left out. -/
theorem flowparse_render (tonumber : ToNumber) (devnum : Option Nat) (a : Argument devnum)
    (n : Nat) (hn : ∀ f ∈ a.fields.drop n, f = []) :
    flowparse tonumber devnum (a.render n) = .ok (a.parsed, []) := by
  have hrun := a.run_render hn
  simp only [fields] at hrun
  simp only [flowparse, hrun, a.parseName_render, a.parseOptions_render,
    parseDevices_render tonumber a.name a.tx_below, parseDevices_render tonumber a.name a.rx_below]
  rfl

def sample : Argument (some 2) where
  file := some "flows".toList
  name := "udp-load".toList
  tx := [0, 1]
  rx := []
  options := [("rate".toList, .text "10".toList), ("timestamp".toList, .flag)]
  overwrites := []
  file_colon := by decide
  name_ne_nil := by decide
  name_colon := by decide
  name_slash := by decide
  tx_below := by decide
  rx_below := by decide
  options_nodup := by decide
  options_plain := by
    have hkeys : Plain "rate".toList ∧ Plain "10".toList ∧ Plain "timestamp".toList :=
      ⟨⟨by decide, by decide, by decide, by decide⟩, ⟨by decide, by decide, by decide, by decide⟩,
        ⟨by decide, by decide, by decide, by decide⟩⟩
    rw [List.forall_mem_cons, List.forall_mem_singleton]
    refine ⟨⟨hkeys.1, ?_⟩, hkeys.2.2, ?_⟩
    · rintro v ⟨⟩
      exact hkeys.2.1
    · rintro v ⟨⟩

theorem flowparse_sample :
    (∀ f ∈ sample.fields.drop 3, f = []) ∧
      sample.render 3 = "flows/udp-load:0,1::rate=10,timestamp".toList ∧
      flowparse .plain (some 2) (sample.render 3) = .ok (sample.parsed, []) :=
  have hempty : ∀ f ∈ sample.fields.drop 3, f = [] := List.forall_mem_singleton.mpr rfl
  ⟨hempty, by decide, flowparse_render .plain (some 2) sample 3 hempty⟩

end Argument

end MoonGen.Interface.FlowParse

import MoonGen.Interface.FlowRegistry

/-! # Options along a chain of parents

`env.Flow` fills the options of a flow from its parent, which has been filled before,
and `getInstance` prefers the options of the command line. The nearest value should win.
Both use `or` to find out whether there is one, and `or` takes `false` for none.
-/

namespace MoonGen.Interface

/-- A flow whose definition and ancestors have the given tables, the nearest first. Each
definition may have been made in any registry. -/
inductive Chain {P : Type} (inherit : P → P → P) : List (FlowTable P) → FlowProto P → Prop where
  | root {s : Registry P} {file : String} {tbl : FlowTable P} {f : FlowProto P}
      (hparent : tbl.parent.flow? s.flows = none)
      (h : (envFlow inherit s file (.table tbl)).2 = some f) : Chain inherit [tbl] f
  | child {s : Registry P} {file : String} {tbl : FlowTable P} {f : FlowProto P}
      {chain : List (FlowTable P)} {parent : FlowProto P} (ancestors : Chain inherit chain parent)
      (hparent : tbl.parent.flow? s.flows = some parent)
      (h : (envFlow inherit s file (.table tbl)).2 = some f) : Chain inherit (tbl :: chain) f

def nearestOption {P : Type} (cliOptions : Options) (chain : List (FlowTable P)) (i : OptionName) :
    Option OptionValue :=
  (cliOptions i).or (chain.findSome? fun tbl => tbl.options i)

@[simp] theorem luaOr_none (b : Option OptionValue) : luaOr none b = b := rfl

@[simp] theorem luaOr_false (b : Option OptionValue) : luaOr (some (.boolean false)) b = b := rfl

theorem luaOr_of_ne_false {v : OptionValue} (h : v ≠ .boolean false) (b : Option OptionValue) :
    luaOr (some v) b = some v := by
  cases v with
  | boolean b =>
      cases b with
      | true => rfl
      | false => exact absurd rfl h
  | _ => rfl

/-- A value under `or` is the nearest one, unless that is `false`: then it is another. -/
theorem luaOr_nearest {v nearest found : Option OptionValue}
    (h : found ≠ some (.boolean false) ∧ (nearest ≠ some (.boolean false) → found = nearest)) :
    luaOr v found ≠ some (.boolean false) ∧
      (v.or nearest ≠ some (.boolean false) → luaOr v found = v.or nearest) := by
  cases v with
  | none => exact h
  | some value =>
      by_cases hfalse : value = .boolean false
      · subst hfalse
        exact ⟨h.1, fun hne => absurd rfl hne⟩
      · rw [luaOr_of_ne_false hfalse]
        exact ⟨fun heq => hfalse (Option.some.inj heq), fun _ => rfl⟩

theorem findSome_options_cons {P : Type} (tbl : FlowTable P) (chain : List (FlowTable P))
    (i : OptionName) :
    (tbl :: chain).findSome? (fun tbl => tbl.options i) =
      (tbl.options i).or (chain.findSome? fun tbl => tbl.options i) := by
  rw [List.findSome?_cons]
  cases tbl.options i with
  | none => rfl
  | some value => rfl

/-- The options of a flow are the nearest values of its chain, except where that is `false`. -/
theorem Chain.options {P : Type} {inherit : P → P → P} {chain : List (FlowTable P)}
    {f : FlowProto P} (h : Chain inherit chain f) (i : OptionName) :
    f.options i ≠ some (.boolean false) ∧
      (chain.findSome? (fun tbl => tbl.options i) ≠ some (.boolean false) →
        f.options i = chain.findSome? fun tbl => tbl.options i) := by
  induction h with
  | root hparent h =>
      rw [envFlow_flow] at h
      cases h
      simp only [FlowTable.assemble, hparent, Option.bind_none, findSome_options_cons]
      apply luaOr_nearest
      simp
  | child _ hparent h ih =>
      rw [envFlow_flow] at h
      cases h
      simp only [FlowTable.assemble, hparent, Option.bind_some, findSome_options_cons]
      exact luaOr_nearest ih

/-- An option gets its nearest value exactly when that is not `false`. -/
theorem optionValue_nearest_iff {P : Type} (inherit : P → P → P) (chain : List (FlowTable P))
    (f : FlowProto P) (hchain : Chain inherit chain f) (cliOptions : Options) (i : OptionName) :
    optionValue cliOptions f i = nearestOption cliOptions chain i ↔
      nearestOption cliOptions chain i ≠ some (.boolean false) := by
  obtain ⟨hne, heq⟩ := luaOr_nearest (v := cliOptions i) (hchain.options i)
  constructor
  · intro h
    rw [← h]
    exact hne
  · exact heq

def timestampTable (name : String) (parent : ParentArg Unit) (timestamp : Option OptionValue) :
    FlowTable Unit where
  name := .string name
  packet := some ()
  parent := parent
  options := fun i => if i = .timestamp then timestamp else none
  unknown := []

def baseFlow : FlowProto Unit :=
  (timestampTable "base" .nil (some (.boolean true))).assemble (fun p _ => p) (fun _ => none)
    "f.lua"

theorem childOfBase (timestamp : Option OptionValue) :
    Chain (fun p _ => p)
      [timestampTable "child" (.table baseFlow) timestamp,
        timestampTable "base" .nil (some (.boolean true))]
      ((timestampTable "child" (.table baseFlow) timestamp).assemble (fun p _ => p) (fun _ => none)
        "f.lua") := by
  have hbase : Chain (fun p _ => p) [timestampTable "base" .nil (some (.boolean true))] baseFlow :=
    .root (s := .empty Unit) rfl (envFlow_flow _ _ _ _)
  exact .child (s := .empty Unit) hbase rfl (envFlow_flow _ _ _ _)

theorem optionValue_nearest_inherited :
    optionValue (fun _ => none) ((timestampTable "child" (.table baseFlow) none).assemble
        (fun p _ => p) (fun _ => none) "f.lua") .timestamp = some (.boolean true) ∧
      (optionValue (fun _ => none) ((timestampTable "child" (.table baseFlow) none).assemble
        (fun p _ => p) (fun _ => none) "f.lua") .timestamp =
          nearestOption (fun _ => none) [timestampTable "child" (.table baseFlow) none,
            timestampTable "base" .nil (some (.boolean true))] .timestamp ↔
        nearestOption (fun _ => none) [timestampTable "child" (.table baseFlow) none,
          timestampTable "base" .nil (some (.boolean true))] .timestamp ≠ some (.boolean false)) :=
  ⟨rfl, optionValue_nearest_iff _ _ _ (childOfBase none) _ _⟩

/-- A child cannot switch off an option that its parent switches on. -/
theorem explicit_false_overridden :
    Chain (fun p _ => p)
        [timestampTable "child" (.table baseFlow) (some (.boolean false)),
          timestampTable "base" .nil (some (.boolean true))]
        ((timestampTable "child" (.table baseFlow) (some (.boolean false))).assemble
          (fun p _ => p) (fun _ => none) "f.lua") ∧
      optionValue (fun _ => none)
        ((timestampTable "child" (.table baseFlow) (some (.boolean false))).assemble
          (fun p _ => p) (fun _ => none) "f.lua") .timestamp = some (.boolean true) :=
  ⟨childOfBase (some (.boolean false)), rfl⟩

end MoonGen.Interface

import Mathlib.Data.List.Basic
import Mathlib.Logic.Function.Basic

/-! # Flow definitions

The embedding of `env.Flow` and `getInstance` in `flow/init.lua`. A definition reports
each mistake it finds and goes on with what is left; an instance takes the options of
the command line and of the definition. Packets are of any type here: the registry
lets one inherit from another and asks whether there is one.
-/

namespace MoonGen.Interface

inductive OptionName where
  | rate
  | ratePattern
  | uniquePayload
  | timestamp
  | uid
  | mode
  | dataLimit
  | timeLimit
deriving Repr, DecidableEq

/-- A value of an option; tables and functions are told apart by their identity. -/
inductive OptionValue where
  | boolean (b : Bool)
  | number (n : Rat)
  | string (s : String)
  | table (id : Nat)
  | function (id : Nat)
deriving Repr, DecidableEq

def OptionValue.type : OptionValue → String
  | .boolean _ => "boolean"
  | .number _ => "number"
  | .string _ => "string"
  | .table _ => "table"
  | .function _ => "function"

abbrev Options := OptionName → Option OptionValue

/-- The expression `a or b`, which takes `false` and `nil` for the same. -/
def luaOr : Option OptionValue → Option OptionValue → Option OptionValue
  | none, b => b
  | some (.boolean false), b => b
  | some v, _ => some v

/-- A message as it is reported, before its arguments are filled in. -/
structure Report where
  format : String
  args : List String
deriving Repr, DecidableEq

/-! ## `env.Flow` -/

structure FlowProto (P : Type) where
  name : Option String
  file : String
  packet : Option P
  options : Options

/-- The first entry of the table; a value of another type is known by its type. -/
inductive NameArg where
  | string (s : String)
  | other (type : String)
deriving Repr, DecidableEq

/-- The entry `parent`; a table stands for the flow that it is. -/
inductive ParentArg (P : Type) where
  | nil
  | string (s : String)
  | table (f : FlowProto P)
  | other (type : String)

/-- The table of a definition, with the keys that are no options. -/
structure FlowTable (P : Type) where
  name : NameArg
  packet : Option P
  parent : ParentArg P
  options : Options
  unknown : List String

inductive FlowArg (P : Type) where
  | table (tbl : FlowTable P)
  | other

structure Registry (P : Type) where
  flows : String → Option (FlowProto P)
  errors : List Report

/-- `string.find(name, "[ ;/:,]")`. -/
def hasForbidden (name : String) : Bool := name.toList.any (· ∈ [' ', ';', '/', ':', ','])

def ValidName (name : String) : Prop := name ≠ "" ∧ hasForbidden name = false

instance (name : String) : Decidable (ValidName name) := inferInstanceAs (Decidable (_ ∧ _))

def NameArg.checked : NameArg → Option String
  | .string s => if ValidName s then some s else none
  | .other _ => none

def NameArg.errors : NameArg → List Report
  | .other type => [⟨"Invalid flow name. String expected, got %s.", [type]⟩]
  | .string s =>
      if s = "" then [⟨"Flow name cannot be empty.", []⟩]
      else if hasForbidden s then
        [⟨"Invalid flow name %q. Names cannot include the characters ' ;/:,'.", [s]⟩]
      else []

/-- What `%q` makes of a name that may have been cleared. -/
def quoted (name : Option String) : String := name.getD "nil"

namespace ParentArg

variable {P : Type}

def flow? (flows : String → Option (FlowProto P)) : ParentArg P → Option (FlowProto P)
  | .string s => flows s
  | .table f => some f
  | .nil | .other _ => none

/-- The message on an unknown parent shows the result of the search, not its name. -/
def errors (flows : String → Option (FlowProto P)) (name : Option String) :
    ParentArg P → List Report
  | .string s =>
      if (flows s).isSome then [] else [⟨"Unknown parent %q of flow %q.", ["nil", quoted name]⟩]
  | .other type =>
      [⟨"Invalid value for parent of flow %q. String or flow expected, got %s.",
        [quoted name, type]⟩]
  | .nil | .table _ => []

end ParentArg

section Define

variable {P : Type} (inherit : P → P → P)

/-- `packet:inherit(parent.packet)`, which leaves the packet alone where there is no other. -/
def inheritPacket (packet : Option P) (parent : Option (FlowProto P)) : Option P :=
  match packet, parent.bind FlowProto.packet with
  | some p, some q => some (inherit p q)
  | packet, _ => packet

def FlowTable.assemble (flows : String → Option (FlowProto P)) (file : String) (tbl : FlowTable P) :
    FlowProto P :=
  let parent := tbl.parent.flow? flows
  { name := tbl.name.checked
    file := file
    packet := inheritPacket inherit tbl.packet parent
    options := fun i => luaOr (tbl.options i) (parent.bind fun f => f.options i) }

/-- What is reported before the flow is registered. -/
def FlowTable.errors (flows : String → Option (FlowProto P)) (tbl : FlowTable P) : List Report :=
  tbl.name.errors ++ tbl.parent.errors flows tbl.name.checked ++
    (if tbl.packet.isSome then []
      else [⟨"Flow %q does not have a valid packet.", [quoted tbl.name.checked]⟩]) ++
    tbl.unknown.map fun i => ⟨"Unknown option %q.", [i]⟩

/-- The registry after a definition, and the flow it returns. -/
def envFlow (s : Registry P) (file : String) : FlowArg P → Registry P × Option (FlowProto P)
  | .other =>
      ({ s with errors := s.errors ++ [⟨"Invalid usage of Flow. Try Flow\x7b...)", []⟩] }, none)
  | .table tbl =>
      let flow := tbl.assemble inherit s.flows file
      let errors := s.errors ++ tbl.errors s.flows
      match flow.name with
      | none => (⟨s.flows, errors⟩, some flow)
      | some name =>
          match s.flows name with
          | some test =>
              (⟨s.flows, errors ++ [⟨"Duplicate flow %q. Also in file %s.", [name, test.file]⟩]⟩,
                some flow)
          | none => (⟨Function.update s.flows name (some flow), errors⟩, some flow)

def define (s : Registry P) (defs : List (String × FlowArg P)) : Registry P :=
  defs.foldl (fun s d => (envFlow inherit s d.1 d.2).1) s

end Define

def Registry.empty (P : Type) : Registry P := ⟨fun _ => none, []⟩

/-! ## `getInstance` -/

/-- The value that an option gets. -/
def optionValue {P : Type} (cliOptions : Options) (proto : FlowProto P) (i : OptionName) :
    Option OptionValue :=
  luaOr (cliOptions i) (proto.options i)

/-- The code that an instance calls. Each part may raise an error of Lua. -/
structure Surroundings (P : Type) where
  inherit : P → P → P
  proto : P → String
  /-- `Packet.new(proto, {})`. -/
  newPacket : String → Except String P
  /-- The result of the overwrites as a chunk, and what it has reported. -/
  runOverwrites : (proto overwrites : String) → Except String (Option P × List Report)
  /-- The loop over `opt.parse`, on the values of the options. -/
  parseOptions : P → Options → Except String (List Report)
  /-- `flow:prepare`: what it has reported, and which reports make the flow invalid. -/
  prepare : P → (final : Bool) → Except String (List Report × List Report)

structure Call (P : Type) where
  name : String
  /-- An extra file and its definitions. -/
  file : Option (String × List (FlowArg P))
  cliOptions : Options
  cliUnknown : List String
  overwrites : String
  silent : Bool
  final : Bool

structure Instance (P : Type) where
  proto : FlowProto P
  packet : P

structure Outcome (P : Type) where
  flow : Option (Instance P)
  printed : List Report
  errors : List Report
  registry : Registry P

inductive Raised where
  | indexedMissingPacket
  | raised (msg : String)
deriving Repr, DecidableEq

def printError (silent : Bool) (r : Report) : List Report := if silent then [] else [r]

def orRaise {α : Type} : Except String α → Except Raised α
  | .ok a => .ok a
  | .error msg => .error (.raised msg)

section Instantiate

variable {P : Type} (env : Surroundings P)

def makePacket (call : Call P) (packet : P) : Except Raised (Option P × List Report) :=
  if call.overwrites ≠ "" then orRaise (env.runOverwrites (env.proto packet) call.overwrites)
  else (orRaise (env.newPacket (env.proto packet))).map fun p => (some p, [])

/-- `finalizeErrHnd`, up to the single errors that it prints behind its message. -/
def finalizeErrHnd (silent : Bool) (errors : List Report) (format : String) (arg : String) :
    List Report :=
  if errors = [] then [] else printError silent ⟨format, [toString errors.length, arg]⟩

/-- The registry and what is printed after the extra file, which is read for a name that is
not registered. It has an error handler of its own. -/
def parseExtra (s : Registry P) (call : Call P) : Registry P × List Report :=
  match s.flows call.name, call.file with
  | none, some (file, args) =>
      let s := define env.inherit ⟨s.flows, []⟩ (args.map fun arg => (file, arg))
      (s, finalizeErrHnd call.silent s.errors
        "%d errors found while processing extra file %s:" file)
  | _, _ => (s, [])

def finish (call : Call P) (s : Registry P) (printed : List Report) (proto : FlowProto P)
    (packet : P) (errors : List Report) : Except Raised (Outcome P) :=
  (orRaise (env.parseOptions packet (optionValue call.cliOptions proto))).bind fun parsed =>
    (orRaise (env.prepare packet call.final)).map fun (reported, invalid) =>
      let unknown := call.cliUnknown.map fun i => Report.mk "Unknown option %q." [i]
      let errors := errors ++ unknown ++ parsed ++ reported ++ invalid
      { flow := if invalid = [] then some ⟨proto, packet⟩ else none
        printed := printed ++ finalizeErrHnd call.silent errors
          "%d errors found while processing flow %q." call.name
        errors := errors
        registry := s }

def getInstance (s : Registry P) (call : Call P) : Except Raised (Outcome P) :=
  let (s, printed) := parseExtra env s call
  match s.flows call.name with
  | none =>
      .ok ⟨none, printed ++ printError call.silent ⟨"Flow %q not found.", [call.name]⟩, [], s⟩
  | some proto =>
      match proto.packet with
      -- both branches for the packet index it
      | none => .error .indexedMissingPacket
      | some packet =>
          (makePacket env call packet).bind fun
            | (none, errors) =>
                .ok ⟨none, printed ++
                  printError call.silent ⟨"Invalid overwrite for flow %q.", [call.name]⟩, errors, s⟩
            | (some made, errors) =>
                finish env call s printed proto (env.inherit made packet) errors

end Instantiate

theorem envFlow_flow {P : Type} (inherit : P → P → P) (s : Registry P) (file : String)
    (tbl : FlowTable P) :
    (envFlow inherit s file (.table tbl)).2 = some (tbl.assemble inherit s.flows file) := by
  unfold envFlow
  dsimp only
  split
  · rfl
  · split
    · rfl
    · rfl

end MoonGen.Interface

import MoonGen.Interface.ConfigFiles
import MoonGen.Lib.Scope

/-! # Flows in other tasks

The threads of the interface run in Lua states of their own, where `mod.restore` looks for
the prototype of a flow anew. Nothing has been parsed there, so it runs the file of the flow
and no other. A parent from another file is then missing: the flow that a task restores is
the flow of the master cut off at the first ancestor that another file defines.

The files here are lists of calls of `Flow`. Each call makes its own packet, which no other call
holds, so `packet:inherit` changes no other flow, and the only variables that a call reads are
those that hold flows, for its parent.
-/

namespace MoonGen.Interface

open Loop

/-- What the definition of a flow gives as its parent. A variable that has not been assigned
is `nil`. -/
inductive ParentRef where
  | nil
  | string (s : String)
  | global (v : String)
  | other (type : String)
deriving Repr, DecidableEq

structure FlowDef (P : Type) where
  name : NameArg
  packet : Option P
  parent : ParentRef
  options : Options
  unknown : List String

/-- A call of `Flow`, with the variable that gets its result; the argument may be no table. -/
structure FlowCall (P : Type) where
  var : Option String
  arg : Option (FlowDef P)

/-- Files that consist of calls of `Flow`. -/
structure FlowFiles (P : Type) where
  index : String → Option Index
  dir : String → List String
  isFile : String → Bool
  calls : Index → Except String (List (FlowCall P))

abbrev FlowVars (P : Type) := String → Option (FlowProto P)

def ParentRef.arg {P : Type} (globals : FlowVars P) : ParentRef → ParentArg P
  | .nil => .nil
  | .string s => .string s
  | .global v =>
      match globals v with
      | some f => .table f
      | none => .nil
  | .other type => .other type

def ParentRef.ref : ParentRef → Scope.Ref String
  | .nil | .other _ => .nothing
  | .string s => .name s
  | .global v => .var v

def FlowCall.flowArg {P : Type} (globals : FlowVars P) (call : FlowCall P) : FlowArg P :=
  match call.arg with
  | none => .other
  | some d => .table ⟨d.name, d.packet, d.parent.arg globals, d.options, d.unknown⟩

def runCall {P : Type} (inherit : P → P → P) (file : String)
    (s : Shared P (FlowVars P) × List Report) (call : FlowCall P) :
    Shared P (FlowVars P) × List Report :=
  let r := envFlow inherit ⟨s.1.flows, s.2⟩ file (call.flowArg s.1.globals)
  (⟨r.1.flows, match call.var with
    | none => s.1.globals
    | some v => Function.update s.1.globals v r.2⟩, r.1.errors)

/-! ## The files as one list of definitions -/

namespace FlowFiles

variable {P : Type} (inherit : P → P → P)

def assembleFrom (d : String × FlowDef P) (parent : Option (FlowProto P)) : FlowProto P where
  name := d.2.name.checked
  file := d.1
  packet := inheritPacket inherit d.2.packet parent
  options := fun i => luaOr (d.2.options i) (parent.bind fun f => f.options i)

def scope (s : Shared P (FlowVars P)) : Scope String (FlowProto P) := ⟨s.flows, s.globals⟩

def entry (file : String) (call : FlowCall P) : Scope.Entry String (String × FlowDef P) where
  name := call.arg.bind fun d => d.name.checked
  var := call.var
  ref := (call.arg.map fun d => d.parent.ref).getD .nothing
  body := call.arg.map fun d => (file, d)

variable {inherit}

theorem flow?_arg (s : Shared P (FlowVars P)) (ref : ParentRef) :
    (ref.arg s.globals).flow? s.flows = (scope s).find ref.ref := by
  cases ref with
  | global v =>
      simp only [ParentRef.arg, ParentRef.ref, Scope.find, scope]
      cases s.globals v <;> rfl
  | _ => rfl

theorem envFlow_table_flows (s : Registry P) (file : String) (tbl : FlowTable P) (name : String) :
    (envFlow inherit s file (.table tbl)).1.flows name =
      if tbl.name.checked = some name ∧ s.flows name = none
      then some (tbl.assemble inherit s.flows file) else s.flows name := by
  unfold envFlow
  dsimp only [FlowTable.assemble]
  cases tbl.name.checked with
  | none => rfl
  | some own =>
      by_cases hown : own = name
      · subst hown
        cases hflow : s.flows own with
        | none => simp [hflow]
        | some f => simp [hflow]
      · cases hflow : s.flows own with
        | none => simp [hflow, hown, Function.update_of_ne (Ne.symm hown)]
        | some f => simp [hflow, hown]

theorem runCall_scope (file : String) (s : Shared P (FlowVars P) × List Report)
    (call : FlowCall P) :
    scope (runCall inherit file s call).1 =
      (scope s.1).add (assembleFrom inherit) (entry file call) := by
  obtain ⟨var, arg⟩ := call
  cases arg with
  | none =>
      cases var with
      | none => rfl
      | some v => rfl
  | some d =>
      have hflow : FlowTable.assemble inherit s.1.flows file
          ⟨d.name, d.packet, d.parent.arg s.1.globals, d.options, d.unknown⟩ =
            assembleFrom inherit (file, d) ((scope s.1).find d.parent.ref) := by
        simp only [FlowTable.assemble, flow?_arg, assembleFrom]
      have hresult := envFlow_flow inherit ⟨s.1.flows, s.2⟩ file
        ⟨d.name, d.packet, d.parent.arg s.1.globals, d.options, d.unknown⟩
      rw [hflow] at hresult
      apply Scope.ext_lookup
      · intro name
        simp only [Scope.add, entry, Option.map_some, Option.bind_some, Option.getD_some,
          Scope.assign_named, Scope.register_named]
        simp only [scope, runCall, FlowCall.flowArg, envFlow_table_flows, hflow]
        rfl
      · intro v
        simp only [Scope.add, entry, Option.map_some, Option.bind_some, Option.getD_some,
          Scope.assign_vars, Scope.register_vars]
        simp only [scope, runCall, FlowCall.flowArg, hresult]
        cases var with
        | none => rfl
        | some u => simp [Function.update_apply, eq_comm]

theorem runCalls_scope (inherit : P → P → P) (file : String)
    (s : Shared P (FlowVars P) × List Report) (calls : List (FlowCall P)) :
    scope (calls.foldl (runCall inherit file) s).1 =
      (scope s.1).addAll (assembleFrom inherit) (calls.map (entry file)) := by
  induction calls generalizing s with
  | nil => rfl
  | cons call rest ih =>
      rw [List.foldl_cons, ih, runCall_scope]
      rfl

def chunk (inherit : P → P → P) (calls : List (FlowCall P)) : Chunk P (FlowVars P) where
  exec := fun file s => some (calls.foldl (runCall inherit file) (s, []))
  keeps := by
    intro file s s' reports h name hname
    obtain ⟨f, hf⟩ := Option.isSome_iff_exists.mp hname
    have hscope := runCalls_scope inherit file (s, []) calls
    rw [Option.some.inj h] at hscope
    have hkept : (scope s').named name = some f := by
      rw [hscope]
      exact Scope.addAll_named hf _
    exact Option.isSome_iff_exists.mpr ⟨f, hkept⟩

def toFiles (inherit : P → P → P) (files : FlowFiles P) : Files P (FlowVars P) where
  index := files.index
  dir := files.dir
  isFile := files.isFile
  loadfile := fun idx => (files.calls idx).map (chunk inherit)

/-- The definitions of a file, none where it does not compile. -/
def entries (files : FlowFiles P) (file : String × Index) :
    List (Scope.Entry String (String × FlowDef P)) :=
  match files.calls file.2 with
  | .error _ => []
  | .ok calls => calls.map (entry file.1)

theorem runFile_scope (inherit : P → P → P) (files : FlowFiles P) (s : Shared P (FlowVars P))
    (file : String × Index) :
    ∃ s', ConfigEnv.runFile (files.toFiles inherit) s file = some s' ∧
      scope s' = (scope s).addAll (assembleFrom inherit) (files.entries file) := by
  unfold ConfigEnv.runFile toFiles entries
  dsimp only
  cases files.calls file.2 with
  | error msg => exact ⟨s, rfl, rfl⟩
  | ok calls => exact ⟨_, rfl, runCalls_scope inherit file.1 (s, []) calls⟩

theorem runs_scope {files : FlowFiles P} {order : List (String × Index)}
    {s s' : Shared P (FlowVars P)}
    (h : runs (ConfigEnv.runFile (files.toFiles inherit)) s order = some s') :
    scope s' = (scope s).addAll (assembleFrom inherit) (order.flatMap files.entries) := by
  induction order generalizing s with
  | nil =>
      cases h
      rfl
  | cons file rest ih =>
      obtain ⟨next, hnext, hrest⟩ := Option.bind_eq_some_iff.mp h
      obtain ⟨next', hnext', hscope⟩ := runFile_scope inherit files s file
      rw [hnext] at hnext'
      cases hnext'
      rw [ih hrest, hscope, List.flatMap_cons, Scope.addAll_append]

end FlowFiles

namespace ConfigEnv

open FlowFiles

variable {P : Type} {inherit : P → P → P} {files : FlowFiles P}

def Defines (files : FlowFiles P) (file name : String) : Prop :=
  ∃ idx calls call d, files.index file = some idx ∧ files.calls idx = .ok calls ∧ call ∈ calls ∧
    call.arg = some d ∧ d.name.checked = some name

/-- The names that the file defines belong to it: no other file has defined one before. -/
def Undisputed (files : FlowFiles P) (env : ConfigEnv P (FlowVars P)) (file : String) : Prop :=
  ∀ name, Defines files file name → ∀ q, env.shared.flows name = some q → q.file = file

/-- The definition of a name and those of its ancestors, when the files of the list are run. -/
def lineage (files : FlowFiles P) (order : List (String × Index)) (name : String) :
    Option (Lineage (String × FlowDef P)) :=
  (Scope.empty.addAll Lineage.make (order.flatMap files.entries)).named name

theorem value_file (l : Lineage (String × FlowDef P)) :
    (l.value (assembleFrom inherit)).file = l.head.1 := by
  cases l <;> rfl

theorem mem_entries {file : String × Index} {e : Scope.Entry String (String × FlowDef P)}
    (h : e ∈ files.entries file) :
    ∃ calls call, files.calls file.2 = .ok calls ∧ call ∈ calls ∧ e = entry file.1 call := by
  unfold entries at h
  cases hchunk : files.calls file.2 with
  | error msg =>
      rw [hchunk] at h
      cases h
  | ok calls =>
      rw [hchunk] at h
      obtain ⟨call, hcall, rfl⟩ := List.mem_map.mp h
      exact ⟨calls, call, rfl, hcall, rfl⟩

theorem body_of_mem_entries {file : String × Index}
    {e : Scope.Entry String (String × FlowDef P)} (h : e ∈ files.entries file)
    {d : String × FlowDef P} (hd : e.body = some d) : d.1 = file.1 := by
  obtain ⟨calls, call, _, _, rfl⟩ := mem_entries h
  obtain ⟨def', _, rfl⟩ := Option.map_eq_some_iff.mp hd
  rfl

theorem flows_of_scope {shared : Shared P (FlowVars P)}
    {entries : List (Scope.Entry String (String × FlowDef P))}
    (h : scope shared = Scope.empty.addAll (assembleFrom inherit) entries) (name : String) :
    shared.flows name = ((Scope.empty.addAll Lineage.make entries).named name).map
      (Lineage.value (assembleFrom inherit)) := by
  have hvalue := Scope.addAll_value (assembleFrom inherit) Scope.empty entries
  have hnamed := congrFun (congrArg Scope.named (hvalue.trans h.symm)) name
  rw [Option.map_eq_bind]
  exact hnamed.symm

theorem Replays.flows_eq {order : List (String × Index)} {env : ConfigEnv P (FlowVars P)}
    (h : Replays (files.toFiles inherit) (fun _ => none) order env) (name : String) :
    env.shared.flows name =
      (lineage files order name).map (Lineage.value (assembleFrom inherit)) := by
  exact flows_of_scope (runs_scope h.shared) name

theorem Replays.split {order : List (String × Index)} {env : ConfigEnv P (FlowVars P)}
    (h : Replays (files.toFiles inherit) (fun _ => none) order env) {name : String}
    {l : Lineage (String × FlowDef P)} (hl : lineage files order name = some l) :
    ∃ pre idx post, order = pre ++ (l.head.1, idx) :: post ∧ files.index l.head.1 = some idx ∧
      ∀ file ∈ pre ++ post, file.1 ≠ l.head.1 := by
  obtain ⟨e, he, hbody⟩ := Scope.head_mem_of_named hl
  obtain ⟨file, hfile, hentry⟩ := List.mem_flatMap.mp he
  have hpath := body_of_mem_entries hentry hbody
  obtain ⟨pre, post, hsplit⟩ := List.append_of_mem hfile
  obtain ⟨path, idx⟩ := file
  subst hpath
  refine ⟨pre, idx, post, hsplit, h.indexed _ hfile, ?_⟩
  intro other hother hsame
  have hindex := h.indexed other (by
    rw [hsplit]
    rcases List.mem_append.mp hother with hpre | hpost
    · exact List.mem_append_left _ hpre
    · exact List.mem_append_right _ (List.mem_cons_of_mem _ hpost))
  rw [hsame, h.indexed _ hfile] at hindex
  have honce := h.once
  rw [hsplit, List.map_append, List.map_cons, List.nodup_middle, List.nodup_cons,
    ← List.map_append] at honce
  exact honce.1 (List.mem_map.mpr ⟨other, hother, (Option.some.inj hindex).symm⟩)

theorem Undisputed.head {order : List (String × Index)} {env : ConfigEnv P (FlowVars P)}
    (hreplays : Replays (files.toFiles inherit) (fun _ => none) order env) {file : String}
    {idx : Index} (hidx : files.index file = some idx) (h : Undisputed files env file)
    {e : Scope.Entry String (String × FlowDef P)} (he : e ∈ files.entries (file, idx))
    {name : String} (hname : e.name = some name) {l : Lineage (String × FlowDef P)}
    (hl : lineage files order name = some l) : (l.head.1 == file) = true := by
  obtain ⟨calls, call, hchunk, hcall, rfl⟩ := mem_entries he
  obtain ⟨d, hd, hchecked⟩ := Option.bind_eq_some_iff.mp hname
  have hflow : env.shared.flows name = some (l.value (assembleFrom inherit)) := by
    rw [hreplays.flows_eq, hl]
    rfl
  have hfile := h name ⟨idx, calls, call, d, hidx, hchunk, hcall, hd, hchecked⟩ _ hflow
  rw [value_file] at hfile
  exact beq_iff_eq.mpr hfile

end ConfigEnv

end MoonGen.Interface

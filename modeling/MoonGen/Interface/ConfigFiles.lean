import MoonGen.Interface.FlowRegistry
import MoonGen.Lib.Loop
import Mathlib.Data.List.Nodup

/-! # Configuration files

The embedding of `parseFile` in `configenv/init.lua` and of the functions of `flow/init.lua`
that call it. A file is run when it is mentioned for the first time, under whatever path: the
index of the files that have been run goes by device and inode. All files share one table of
global variables and the objects that can be reached from it, so a file may read what another
has assigned, and change a packet that another also holds.
-/

namespace MoonGen.Interface

open Loop

/-- What the files share: `mod.flows`, and the global variables with all that they reach. A flow
may name its packet by an object among these. -/
structure Shared (P G : Type) where
  flows : String → Option (FlowProto P)
  globals : G

/-- A compiled file. It is run under its name and leaves the shared state and its reports, or
raises. It reaches `mod.flows` through `Flow` only, which removes no flow. -/
structure Chunk (P G : Type) where
  exec : (file : String) → Shared P G → Option (Shared P G × List Report)
  keeps : ∀ file s s' reports, exec file s = some (s', reports) →
    ∀ name, (s.flows name).isSome → (s'.flows name).isSome

/-- Device and inode, which `getIndex` writes as one string. -/
abbrev Index := Nat × Nat

/-- The files as `lfs` and `loadfile` show them. -/
structure Files (P G : Type) where
  index : String → Option Index
  /-- The entries of a directory. -/
  dir : String → List String
  isFile : String → Bool
  loadfile : Index → Except String (Chunk P G)

structure InstanceArgs where
  name : String
  cliOptions : Options
  cliUnknown : List String
  overwrites : String
  silent : Bool
  final : Bool

inductive FlowRequest where
  | crawlDirectory (baseDir : Option String) (silent : Bool)
  | crawlFile (filename : String) (silent : Bool)
  | getInstance (args : InstanceArgs) (file : Option String)

/-- The state of `configenv` with its error handler, and what has been printed as errors. -/
structure ConfigEnv (P G : Type) where
  shared : Shared P G
  errors : List Report
  fileIndex : List Index
  printed : List Report

namespace ConfigEnv

variable {P G : Type}

def start (globals : G) : ConfigEnv P G := ⟨⟨fun _ => none, globals⟩, [], [], []⟩

def setErrHnd (env : ConfigEnv P G) : ConfigEnv P G := { env with errors := [] }

def finalizeErrHnd (env : ConfigEnv P G) (silent : Bool) (format arg : String) : ConfigEnv P G :=
  { env with printed := env.printed ++ Interface.finalizeErrHnd silent env.errors format arg }

def run (env : ConfigEnv P G) (file : String) : Except String (Chunk P G) → Option (ConfigEnv P G)
  | .error msg => some { env with errors := env.errors ++ [⟨msg, []⟩] }
  | .ok f =>
      (f.exec file env.shared).map fun (shared, reports) =>
        { env with shared := shared, errors := env.errors ++ reports }

variable (surr : G → Surroundings P) (files : Files P G)

/-- There is no result where the path does not exist: `getIndex` indexes `nil` then. -/
def parseFile (env : ConfigEnv P G) (filename : String) : Option (ConfigEnv P G) :=
  (files.index filename).bind fun idx =>
    if idx ∈ env.fileIndex then some env
    else run { env with fileIndex := idx :: env.fileIndex } filename (files.loadfile idx)

def paths (baseDir : String) : List String :=
  ((files.dir baseDir).map fun f => baseDir ++ "/" ++ f).filter files.isFile

def crawlDirectory (env : ConfigEnv P G) (baseDir : Option String) (silent : Bool) :
    Option (ConfigEnv P G) :=
  let baseDir := baseDir.getD "flows"
  (runs (parseFile files) env.setErrHnd (paths files baseDir)).map fun env =>
    env.finalizeErrHnd silent "%d errors found while processing directory %s:" baseDir

def crawlFile (env : ConfigEnv P G) (filename : String) (silent : Bool) : Option (ConfigEnv P G) :=
  (parseFile files env.setErrHnd filename).map fun env =>
    env.finalizeErrHnd silent "%d errors found while processing file %s:" filename

/-- The search for the prototype in `getInstance`. -/
def findProto (env : ConfigEnv P G) (name : String) (file : Option String) (silent : Bool) :
    Option (ConfigEnv P G) :=
  match env.shared.flows name, file with
  | none, some file =>
      (parseFile files env.setErrHnd file).map fun env =>
        env.finalizeErrHnd silent "%d errors found while processing extra file %s:" file
  | _, _ => some env

/-- The rest of `getInstance`, on the flows that are there: what it prints, unless it raises. -/
def instantiate (env : ConfigEnv P G) (args : InstanceArgs) : Option (List Report) :=
  match Interface.getInstance (surr env.shared.globals) ⟨env.shared.flows, []⟩
      { name := args.name, file := none, cliOptions := args.cliOptions, cliUnknown := args.cliUnknown,
        overwrites := args.overwrites, silent := args.silent, final := args.final } with
  | .ok outcome => some outcome.printed
  | .error _ => none

def getInstance (env : ConfigEnv P G) (args : InstanceArgs) (file : Option String) :
    Option (ConfigEnv P G) :=
  (env.findProto files args.name file args.silent).bind fun env =>
    (env.instantiate surr args).map fun printed => { env with printed := env.printed ++ printed }

def step (env : ConfigEnv P G) : FlowRequest → Option (ConfigEnv P G)
  | .crawlDirectory baseDir silent => env.crawlDirectory files baseDir silent
  | .crawlFile filename silent => env.crawlFile files filename silent
  | .getInstance args file => env.getInstance surr files args file

/-! ## The files one after the other -/

def runFile (s : Shared P G) (file : String × Index) : Option (Shared P G) :=
  match files.loadfile file.2 with
  | .error _ => some s
  | .ok f => (f.exec file.1 s).map Prod.fst

variable {surr} {files}

inductive Parsed (files : Files P G) (filename : String) (idx : Index) (env env' : ConfigEnv P G) :
    Prop where
  | before (hseen : idx ∈ env.fileIndex) (h : env' = env)
  | now (hnew : idx ∉ env.fileIndex) (hindex : env'.fileIndex = idx :: env.fileIndex)
      (hprinted : env'.printed = env.printed)
      (hshared : runFile files env.shared (filename, idx) = some env'.shared)

theorem parsed_of_parseFile {env env' : ConfigEnv P G} {filename : String}
    (h : parseFile files env filename = some env') :
    ∃ idx, files.index filename = some idx ∧ Parsed files filename idx env env' := by
  obtain ⟨idx, hidx, hrun⟩ := Option.bind_eq_some_iff.mp h
  refine ⟨idx, hidx, ?_⟩
  by_cases hseen : idx ∈ env.fileIndex
  · rw [if_pos hseen] at hrun
    exact .before hseen (Option.some.inj hrun).symm
  · rw [if_neg hseen] at hrun
    cases hload : files.loadfile idx with
    | error msg =>
        rw [hload] at hrun
        cases hrun
        exact .now hseen rfl rfl (by rw [runFile, hload])
    | ok f =>
        rw [hload] at hrun
        obtain ⟨⟨shared, reports⟩, hexec, rfl⟩ := Option.map_eq_some_iff.mp hrun
        refine .now hseen rfl rfl ?_
        rw [runFile, hload]
        exact Option.map_eq_some_iff.mpr ⟨_, hexec, rfl⟩

/-- The shared state is what the files of the list leave, run one after the other. Each file is in
the list once. -/
structure Replays (files : Files P G) (globals : G) (order : List (String × Index))
    (env : ConfigEnv P G) : Prop where
  indexed : ∀ file ∈ order, files.index file.1 = some file.2
  index : env.fileIndex = (order.map Prod.snd).reverse
  once : (order.map Prod.snd).Nodup
  shared : runs (runFile files) ⟨fun _ => none, globals⟩ order = some env.shared

theorem Replays.of_shared {globals : G} {order : List (String × Index)} {env env' : ConfigEnv P G}
    (h : Replays files globals order env) (hshared : env'.shared = env.shared)
    (hindex : env'.fileIndex = env.fileIndex) : Replays files globals order env' :=
  ⟨h.indexed, hindex.trans h.index, h.once, h.shared.trans (congrArg some hshared.symm)⟩

theorem Replays.parseFile {globals : G} {order : List (String × Index)} {env env' : ConfigEnv P G}
    {filename : String} (hreplays : Replays files globals order env)
    (h : parseFile files env filename = some env') :
    ∃ more, Replays files globals (order ++ more) env' := by
  obtain ⟨idx, hidx, hparsed⟩ := parsed_of_parseFile h
  cases hparsed with
  | before _ hsame =>
      subst hsame
      exact ⟨[], by rw [List.append_nil]; exact hreplays⟩
  | now hnew hindex _ hshared =>
      refine ⟨[(filename, idx)], ?_, ?_, ?_, ?_⟩
      · intro file hfile
        rcases List.mem_append.mp hfile with hfile | hfile
        · exact hreplays.indexed file hfile
        · rw [List.mem_singleton.mp hfile]
          exact hidx
      · rw [hindex, hreplays.index]
        simp
      · rw [hreplays.index, List.mem_reverse] at hnew
        rw [List.map_append, List.map_singleton, List.nodup_append]
        refine ⟨hreplays.once, List.nodup_singleton _, ?_⟩
        intro a ha b hb hab
        rw [hab, List.mem_singleton.mp hb] at ha
        exact hnew ha
      · rw [runs_append, hreplays.shared, Option.bind_some, runs, hshared]
        rfl

/-! ## Requests, one after the other -/

def mentions (files : Files P G) (env : ConfigEnv P G) : FlowRequest → List String
  | .crawlDirectory baseDir _ => paths files (baseDir.getD "flows")
  | .crawlFile filename _ => [filename]
  | .getInstance args file => if (env.shared.flows args.name).isSome then [] else file.toList

/-- What a request prints beside the errors of the files it parses, unless it raises. -/
def own (surr : G → Surroundings P) (env : ConfigEnv P G) : FlowRequest → Option (List Report)
  | .crawlDirectory _ _ | .crawlFile _ _ => some []
  | .getInstance args _ => env.instantiate surr args

/-- A call goes through the paths, from a state that differs in the error handler at most, and
prints then. -/
structure Parses (files : Files P G) (filenames : List String) (env env' : ConfigEnv P G) : Prop where
  through : ∃ first mid : ConfigEnv P G, first.shared = env.shared ∧
    first.fileIndex = env.fileIndex ∧ runs (ConfigEnv.parseFile files) first filenames = some mid ∧
    env'.shared = mid.shared ∧ env'.fileIndex = mid.fileIndex

theorem Parses.nil (env : ConfigEnv P G) : Parses files [] env env :=
  ⟨env, env, rfl, rfl, rfl, rfl, rfl⟩

theorem findProto_parses {env env' : ConfigEnv P G} {name : String} {file : Option String}
    {silent : Bool} (h : env.findProto files name file silent = some env') :
    Parses files (if (env.shared.flows name).isSome then [] else file.toList) env env' := by
  unfold findProto at h
  cases hflow : env.shared.flows name with
  | some f =>
      rw [hflow] at h
      cases h
      exact .nil env
  | none =>
      rw [hflow] at h
      cases file with
      | none =>
          cases h
          exact .nil env
      | some file =>
          obtain ⟨mid, hmid, rfl⟩ := Option.map_eq_some_iff.mp h
          refine ⟨env.setErrHnd, mid, rfl, rfl, ?_, rfl, rfl⟩
          show runs (ConfigEnv.parseFile files) env.setErrHnd [file] = some mid
          rw [runs, hmid]
          rfl

theorem step_parses {env env' : ConfigEnv P G} {r : FlowRequest}
    (h : step surr files env r = some env') : Parses files (mentions files env r) env env' := by
  cases r with
  | crawlDirectory baseDir silent =>
      obtain ⟨mid, hmid, rfl⟩ := Option.map_eq_some_iff.mp h
      exact ⟨env.setErrHnd, mid, rfl, rfl, hmid, rfl, rfl⟩
  | crawlFile filename silent =>
      obtain ⟨mid, hmid, rfl⟩ := Option.map_eq_some_iff.mp h
      refine ⟨env.setErrHnd, mid, rfl, rfl, ?_, rfl, rfl⟩
      show runs (ConfigEnv.parseFile files) env.setErrHnd [filename] = some mid
      rw [runs, hmid]
      rfl
  | getInstance args file =>
      obtain ⟨found, hfound, hrest⟩ := Option.bind_eq_some_iff.mp h
      obtain ⟨printed, -, rfl⟩ := Option.map_eq_some_iff.mp hrest
      obtain ⟨first, mid, hparse⟩ := (findProto_parses hfound).through
      exact ⟨first, mid, hparse⟩

theorem Replays.step {globals : G} {env env' : ConfigEnv P G} {r : FlowRequest}
    (hreplays : ∃ order, Replays files globals order env)
    (h : step surr files env r = some env') : ∃ order, Replays files globals order env' := by
  obtain ⟨first, mid, hshared, hindex, hruns, hshared', hindex'⟩ := (step_parses h).through
  obtain ⟨order, hstart⟩ := hreplays
  have hmid : ∃ order, Replays files globals order mid := by
    refine runs_keeps (fun env => ∃ order, Replays files globals order env) ?_
      ⟨order, hstart.of_shared hshared hindex⟩ hruns
    intro s filename s' hs hparse
    obtain ⟨order, hs⟩ := hs
    obtain ⟨more, hs'⟩ := hs.parseFile hparse
    exact ⟨order ++ more, hs'⟩
  obtain ⟨order, hmid⟩ := hmid
  exact ⟨order, hmid.of_shared hshared' hindex'⟩

structure Grows (env env' : ConfigEnv P G) : Prop where
  index : ∀ idx ∈ env.fileIndex, idx ∈ env'.fileIndex
  flows : ∀ name, (env.shared.flows name).isSome → (env'.shared.flows name).isSome

theorem Grows.refl (env : ConfigEnv P G) : Grows env env := ⟨fun _ h => h, fun _ h => h⟩

theorem Grows.trans {a b c : ConfigEnv P G} (hab : Grows a b) (hbc : Grows b c) : Grows a c :=
  ⟨fun idx h => hbc.index idx (hab.index idx h), fun name h => hbc.flows name (hab.flows name h)⟩

theorem runFile_keeps {s s' : Shared P G} {file : String × Index}
    (h : runFile files s file = some s') (name : String) (hname : (s.flows name).isSome) :
    (s'.flows name).isSome := by
  unfold runFile at h
  cases hload : files.loadfile file.2 with
  | error msg =>
      rw [hload] at h
      cases h
      exact hname
  | ok f =>
      rw [hload] at h
      obtain ⟨⟨shared, reports⟩, hexec, rfl⟩ := Option.map_eq_some_iff.mp h
      exact f.keeps _ _ _ _ hexec name hname

theorem Parsed.grows {env env' : ConfigEnv P G} {filename : String} {idx : Index}
    (h : Parsed files filename idx env env') : Grows env env' ∧ idx ∈ env'.fileIndex := by
  cases h with
  | before hseen hsame =>
      subst hsame
      exact ⟨.refl _, hseen⟩
  | now _ hindex _ hshared =>
      refine ⟨⟨?_, runFile_keeps hshared⟩, ?_⟩
      · intro idx hidx
        rw [hindex]
        exact List.mem_cons_of_mem _ hidx
      · rw [hindex]
        exact List.mem_cons_self

def Seen (files : Files P G) (env : ConfigEnv P G) (filename : String) : Prop :=
  ∃ idx ∈ env.fileIndex, files.index filename = some idx

theorem Seen.mono {env env' : ConfigEnv P G} {filename : String} (hgrows : Grows env env')
    (h : Seen files env filename) : Seen files env' filename := by
  obtain ⟨idx, hidx, hfile⟩ := h
  exact ⟨idx, hgrows.index idx hidx, hfile⟩

theorem mentions_mono {env env' : ConfigEnv P G} (hgrows : Grows env env') (r : FlowRequest) :
    ∀ filename ∈ mentions files env' r, filename ∈ mentions files env r := by
  cases r with
  | crawlDirectory baseDir silent => exact fun _ h => h
  | crawlFile filename silent => exact fun _ h => h
  | getInstance args file =>
      intro filename h
      simp only [mentions] at h ⊢
      split at h
      · cases h
      · rename_i hnone
        rw [if_neg fun hsome => hnone (hgrows.flows _ hsome)]
        exact h

def Settled (files : Files P G) (env : ConfigEnv P G) (r : FlowRequest) : Prop :=
  ∀ filename ∈ mentions files env r, Seen files env filename

theorem Settled.mono {env env' : ConfigEnv P G} {r : FlowRequest} (hgrows : Grows env env')
    (h : Settled files env r) : Settled files env' r := by
  intro filename hmem
  exact Seen.mono hgrows (h filename (mentions_mono hgrows r filename hmem))

end ConfigEnv

/-! ## Two files that share a counter -/

def Chunk.counting : Chunk Unit Nat where
  exec := fun file s =>
    some (⟨s.flows, s.globals + 1⟩, [⟨"File %s is number %d.", [file, toString s.globals]⟩])
  keeps := by
    intro file s s' reports h name hname
    cases h
    exact hname

def Files.counting : Files Unit Nat where
  index := fun f => if f = "a.lua" then some (1, 1) else if f = "b.lua" then some (1, 2) else none
  dir := fun _ => []
  isFile := fun _ => true
  loadfile := fun _ => .ok .counting

def Surroundings.trivial : Surroundings Unit where
  inherit := fun _ _ => ()
  proto := fun _ => "Udp"
  newPacket := fun _ => .ok ()
  runOverwrites := fun _ _ => .ok (some (), [])
  parseOptions := fun _ _ => .ok []
  prepare := fun _ _ => .ok ([], [])

end MoonGen.Interface

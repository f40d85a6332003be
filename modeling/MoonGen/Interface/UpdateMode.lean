import Mathlib.Data.List.FinRange
import MoonGen.Interface.FlowRegistry
import MoonGen.Interface.Packet
import MoonGen.Interface.Units
import MoonGen.Lib.Closure

/-! # Update modes of dynamic flows

The embedding of `options/mode.lua`, of the updates of `flow/dynvars.lua` and of `Flow:updateBuf`
in `flow/instance.lua`. The functions of a configuration can share state, such as that of the
random numbers, so a call takes and returns a world. Each dynamic field keeps the values that
its function has returned, beside the last one, which is all that the script keeps.
-/

namespace MoonGen.Interface

open Closure

/-! ## Setters -/

structure Setter where
  proto : String
  name : String
deriving Repr, DecidableEq

/-- The table `_aliases`. -/
def aliases : String → Option Setter
  | "udpSrc" => some ⟨"udp", "setSrcPort"⟩
  | "udpDst" => some ⟨"udp", "setDstPort"⟩
  | "tcpSrc" => some ⟨"tcp", "setSrcPort"⟩
  | "tcpDst" => some ⟨"tcp", "setDstPort"⟩
  | "ethSrc" => some ⟨"eth.default", "setSrc"⟩
  | "ethDst" => some ⟨"eth.default", "setDst"⟩
  | "ethVlan" => some ⟨"eth.vlan", "setVlanTag"⟩
  | "ethinnerVlanTag" => some ⟨"eth.qinq", "setInnerVlanTag"⟩
  | "ethouterVlanId" => some ⟨"eth.qinq", "setOuterVlanTag"⟩
  | "ethouterVlanTag" => some ⟨"eth.qinq", "setOuterVlanTag"⟩
  | _ => none

def findSetter (pkt var : String) : Setter := (aliases (pkt ++ var)).getD ⟨pkt, "set" ++ var⟩

/-- What `applyfn(pkt[self.pkt], value)` writes: a setter and the header it is called on. -/
structure Field where
  applyfn : Setter
  header : String
deriving Repr, DecidableEq

def Dynvar.field (dv : Dynvar) : Field := ⟨findSetter dv.pkt dv.var, dv.pkt⟩

/-! ## Updates -/

/-- What the modes use from the configuration and from the packets: the functions, the setters
and `math.random(count)`. -/
structure DynEnv (W P : Type) where
  call : Func → W → Value × W
  set : Field → Value → P → P
  random : (c : Nat) → 0 < c → W → Fin c × W

/-- A dynamic field with the values that its function has returned, the first one included. -/
structure LiveDynvar where
  dv : Dynvar
  produced : List Value
deriving Repr, DecidableEq

inductive UpdateFn (c : Nat) where
  | single (index : Fin c)
  | alternating (index : Fin c)
  | random (hc : 0 < c)
  | randomAlt (hc : 0 < c)
  | all
deriving Repr, DecidableEq

/-- The field `updatePacket`: `get_update_delay_one` before the first call, which puts the
function of the mode in its place. -/
inductive Updater (c : Nat) where
  | delayOne (next : UpdateFn c)
  | running (fn : UpdateFn c)
deriving Repr, DecidableEq

structure DynFlow (W : Type) (c : Nat) where
  world : W
  dynvars : Fin c → LiveDynvar
  updatePacket : Updater c

def incAndWrap {c : Nat} (index : Fin c) : Fin c := ⟨(index + 1) % c, Nat.mod_lt _ index.pos⟩

section Script

variable {W P : Type} (env : DynEnv W P) {c : Nat}

namespace LiveDynvar

def new (dv : Dynvar) : LiveDynvar := ⟨dv, [dv.value]⟩

def update (l : LiveDynvar) (w : W) : LiveDynvar × W :=
  let (v, w) := env.call l.dv.func w
  (⟨{ l.dv with value := v }, l.produced ++ [v]⟩, w)

def apply (l : LiveDynvar) (pkt : P) : P := env.set l.dv.field l.dv.value pkt

end LiveDynvar

namespace DynFlow

/-- `dv[index]:update()`. -/
def updateAt (f : DynFlow W c) (index : Fin c) : DynFlow W c :=
  let (l, w) := (f.dynvars index).update env f.world
  { f with world := w, dynvars := Function.update f.dynvars index l }

def applyAll (f : DynFlow W c) (pkt : P) : P :=
  (List.finRange c).foldl (fun pkt i => (f.dynvars i).apply env pkt) pkt

/-- `dv[index]:updateApply(pkt)`. -/
def updateApplyAt (f : DynFlow W c) (pkt : P) (index : Fin c) : P × DynFlow W c :=
  let f := f.updateAt env index
  ((f.dynvars index).apply env pkt, f)

def updateApplyAll (f : DynFlow W c) (pkt : P) : P × DynFlow W c :=
  (List.finRange c).foldl (fun s i => s.2.updateApplyAt env s.1 i) (pkt, f)

def runMode (f : DynFlow W c) (pkt : P) : UpdateFn c → P × DynFlow W c
  | .single index =>
      let f := f.updateAt env index
      (f.applyAll env pkt, { f with updatePacket := .running (.single (incAndWrap index)) })
  | .alternating index =>
      let (pkt, f) := f.updateApplyAt env pkt index
      (pkt, { f with updatePacket := .running (.alternating (incAndWrap index)) })
  | .random hc =>
      let (index, w) := env.random c hc f.world
      let f := { f with world := w }.updateAt env index
      (f.applyAll env pkt, f)
  | .randomAlt hc =>
      let (index, w) := env.random c hc f.world
      { f with world := w }.updateApplyAt env pkt index
  | .all => f.updateApplyAll env pkt

def updateBuf (f : DynFlow W c) (pkt : P) : P × DynFlow W c :=
  match f.updatePacket with
  | .delayOne next => (pkt, { f with updatePacket := .running next })
  | .running fn => f.runMode env pkt fn

/-- The successive calls of `updateBuf`, on whatever buffer comes up; the state has the number
of calls so far. -/
def call (bufs : Nat → P) (s : DynFlow W c × Nat) : P × (DynFlow W c × Nat) :=
  let (pkt, f) := s.1.updateBuf env (bufs (s.2 + 1))
  (pkt, f, s.2 + 1)

end DynFlow

end Script

/-! ## The option -/

/-- What the option leaves in the flow: nothing, a mode, or the value that was given. -/
inductive ModeResult (c : Nat) where
  | none
  | mode (fn : UpdateFn c)
  | given (v : OptionValue)
deriving Repr, DecidableEq

/-- The table `_valid_modes`. -/
def validModes {c : Nat} (hc : 0 < c) (mode : String) : Option (UpdateFn c) :=
  if mode = "single" then some (.single ⟨0, hc⟩)
  else if mode = "alternating" then some (.alternating ⟨0, hc⟩)
  else if mode = "random" then some (.random hc)
  else if mode = "random_alt" then some (.randomAlt hc)
  else if mode = "all" then some .all
  else none

/-- `option.parse` of `mode`; `quote` is the format `%q`, `modelist` the valid modes in the order
of `pairs`. -/
def parseMode (quote : String → String) (modelist : List String) (c : Nat)
    (mode : Option OptionValue) (error : ErrorHandler) : ModeResult c × ErrorHandler :=
  if hc : 0 < c then
    match mode with
    | none => (.mode (.single ⟨0, hc⟩), error)
    | some (.string s) =>
        if s = "none" then (.none, error)
        else
          match validModes hc (String.ofList (lower s.toList)) with
          | some fn => (.mode fn, error)
          | none =>
              (.mode (.single ⟨0, hc⟩), error.log ("Invalid value " ++ quote s ++
                ". Can be one of " ++ ", ".intercalate modelist ++ "."))
    | some (.function id) => (.given (.function id), error)
    | some (.boolean false) =>
        (.mode (.single ⟨0, hc⟩),
          error.log "Invalid argument. String or function expected, got boolean.")
    | some v =>
        (.given v, error.log ("Invalid argument. String or function expected, got " ++ v.type ++ "."))
  else if mode = none ∨ mode = some (.boolean false) ∨ mode = some (.string "none") then
    (.none, error)
  else (.none, error.log "Value set, but no dynvars in associated packet.")

/-! ## Applying all fields -/

section Fields

variable {W P : Type} (env : DynEnv W P) {c : Nat}

/-- The packets as libmoon's accessors see them. A setter keeps of a value what the field can hold,
`stored`, and the field reads back as that. -/
structure Accessors where
  read : Field → P → Value
  stored : Field → Value → Value
  read_set : ∀ f v pkt, read f (env.set f v pkt) = stored f v

variable {env}

def Accessors.Apart (acc : Accessors env) (f g : Field) : Prop :=
  ∀ v pkt, acc.read f (env.set g v pkt) = acc.read f pkt

/-- No two dynamic fields share bits of the packet; two names of one field do. -/
def Accessors.Separate (acc : Accessors env) (d : Fin c → Dynvar) : Prop :=
  ∀ i j, i ≠ j → acc.Apart (d i).field (d j).field

def Accessors.shown (acc : Accessors env) (f : DynFlow W c) (j : Fin c) : Value :=
  acc.stored (f.dynvars j).dv.field (f.dynvars j).dv.value

def DynFlow.Named (f : DynFlow W c) (d : Fin c → Dynvar) : Prop :=
  ∀ j, (f.dynvars j).dv.field = (d j).field ∧ (f.dynvars j).dv.func = (d j).func

variable {acc : Accessors env} {d : Fin c → Dynvar}

theorem read_apply {f : DynFlow W c} (hnamed : f.Named d) (j : Fin c) (pkt : P) :
    acc.read (d j).field ((f.dynvars j).apply env pkt) = acc.shown f j := by
  rw [LiveDynvar.apply, Accessors.shown, (hnamed j).1, acc.read_set]

theorem Accessors.Separate.read_apply_other (h : acc.Separate d) {f : DynFlow W c}
    (hnamed : f.Named d) {i j : Fin c} (hij : i ≠ j) (pkt : P) :
    acc.read (d i).field ((f.dynvars j).apply env pkt) = acc.read (d i).field pkt := by
  rw [LiveDynvar.apply, (hnamed j).1]
  exact h i j hij _ _

theorem Accessors.Separate.read_applyAll (h : acc.Separate d) {f : DynFlow W c}
    (hnamed : f.Named d) (j : Fin c) (pkt : P) :
    acc.read (d j).field (f.applyAll env pkt) = acc.shown f j := by
  have hlist : ∀ (l : List (Fin c)) (pkt : P),
      j ∈ l ∨ acc.read (d j).field pkt = acc.shown f j →
      acc.read (d j).field (l.foldl (fun pkt i => (f.dynvars i).apply env pkt) pkt) =
        acc.shown f j := by
    intro l
    induction l with
    | nil =>
        rintro pkt (hmem | hread)
        · cases hmem
        · exact hread
    | cons i rest ih =>
        intro pkt hdone
        rw [List.foldl_cons]
        apply ih
        by_cases hij : j = i
        · subst hij
          exact .inr (read_apply hnamed j pkt)
        · rcases hdone with hmem | hread
          · exact .inl ((List.mem_cons.mp hmem).resolve_left hij)
          · rw [h.read_apply_other hnamed hij, hread]
            exact .inr rfl
  exact hlist _ pkt (.inl (List.mem_finRange j))

end Fields

/-! ## Mode `single` -/

/-- The number of calls `2, …, n` that update the field with index `j`. -/
def updates (c j n : Nat) : Nat :=
  ((List.range' 2 (n - 1)).filter fun m => decide ((m - 2) % c = j)).length

theorem updates_succ (c j n : Nat) :
    updates c j (n + 2) = updates c j (n + 1) + if n % c = j then 1 else 0 := by
  have hrange : List.range' 2 (n + 2 - 1) = List.range' 2 (n + 1 - 1) ++ [2 + n] := by
    rw [show n + 2 - 1 = n + 1 by omega, Nat.add_sub_cancel, List.range'_concat, Nat.one_mul]
  rw [updates, updates, hrange, List.filter_append, List.length_append, Nat.add_right_inj]
  by_cases hj : n % c = j
  · simp [hj]
  · simp [hj]

section Single

variable {W P : Type} {env : DynEnv W P} {c : Nat} {d : Fin c → Dynvar} {bufs : Nat → P}

theorem updateBuf_single {f : DynFlow W c} {index : Fin c}
    (h : f.updatePacket = .running (.single index)) (pkt : P) :
    f.updateBuf env pkt =
      ((f.updateAt env index).applyAll env pkt,
        { f.updateAt env index with updatePacket := .running (.single (incAndWrap index)) }) := by
  rw [DynFlow.updateBuf, h]
  rfl

/-- The flow after `k + 1` calls: `k` of them have updated a field, each in turn. -/
structure Turn (d : Fin c → Dynvar) (k : Nat) (f : DynFlow W c) : Prop where
  index : ∃ hk : k % c < c, f.updatePacket = .running (.single ⟨k % c, hk⟩)
  named : f.Named d
  produced : ∀ j, (f.dynvars j).produced.length = 1 + updates c j (k + 1)
  value : ∀ j, (f.dynvars j).produced.getLast? = some (f.dynvars j).dv.value

theorem updateAt_same (f : DynFlow W c) (index : Fin c) :
    (f.updateAt env index).dynvars index = ((f.dynvars index).update env f.world).1 :=
  Function.update_self ..

theorem updateAt_other (f : DynFlow W c) {index j : Fin c} (h : j ≠ index) :
    (f.updateAt env index).dynvars j = f.dynvars j :=
  Function.update_of_ne h ..

theorem named_updateAt {f : DynFlow W c} (h : f.Named d) (index : Fin c) :
    (f.updateAt env index).Named d := by
  intro j
  by_cases hj : j = index
  · subst hj
    rw [updateAt_same]
    exact h j
  · rw [updateAt_other f hj]
    exact h j

theorem Turn.updateBuf {k : Nat} {f : DynFlow W c} (h : Turn d k f) (pkt : P) :
    Turn d (k + 1) (f.updateBuf env pkt).2 := by
  rcases h.index with ⟨hk, hindex⟩
  rw [updateBuf_single hindex]
  refine ⟨⟨Nat.mod_lt _ (Nat.zero_lt_of_lt hk), ?_⟩, named_updateAt h.named _, ?_, ?_⟩
  · simp only [incAndWrap, Nat.mod_add_mod]
  · intro j
    have hupdates := updates_succ c j k
    by_cases hj : j = ⟨k % c, hk⟩
    · rw [hupdates, if_pos (congrArg Fin.val hj.symm)]
      subst hj
      simp only [updateAt_same, LiveDynvar.update, List.length_append, List.length_singleton,
        h.produced]
      omega
    · have hne : ¬ k % c = j := fun heq => hj (Fin.ext heq.symm)
      rw [hupdates, if_neg hne]
      simp only [updateAt_other f hj, h.produced]
      omega
  · intro j
    by_cases hj : j = ⟨k % c, hk⟩
    · subst hj
      simp only [updateAt_same, LiveDynvar.update, List.getLast?_append, List.getLast?_singleton,
        Option.some_or]
    · simp only [updateAt_other f hj, h.value]

/-- A flow as it starts: every function was called once, and the first packet is left alone. -/
def DynFlow.start (world : W) (d : Fin c → Dynvar) (fn : UpdateFn c) : DynFlow W c :=
  ⟨world, fun j => .new (d j), .delayOne fn⟩

def flowAfter (env : DynEnv W P) (bufs : Nat → P) (flow : DynFlow W c) (n : Nat) : DynFlow W c :=
  (after (DynFlow.call env bufs) (flow, 0) n).1

def packetAt (env : DynEnv W P) (bufs : Nat → P) (flow : DynFlow W c) (n : Nat) : P :=
  nth (DynFlow.call env bufs) (flow, 0) n

theorem after_snd (env : DynEnv W P) (bufs : Nat → P) (flow : DynFlow W c) (n : Nat) :
    (after (DynFlow.call env bufs) (flow, 0) n).2 = n := by
  induction n with
  | zero => rfl
  | succ n ih =>
      rw [after_succ]
      exact congrArg (· + 1) ih

theorem flowAfter_succ (flow : DynFlow W c) (n : Nat) :
    flowAfter env bufs flow (n + 1) =
      ((flowAfter env bufs flow n).updateBuf env (bufs (n + 1))).2 := by
  have hnumber := after_snd env bufs flow n
  rw [flowAfter, after_succ, DynFlow.call, hnumber]
  rfl

theorem packetAt_succ (flow : DynFlow W c) (n : Nat) :
    packetAt env bufs flow (n + 1) =
      ((flowAfter env bufs flow n).updateBuf env (bufs (n + 1))).1 := by
  have hnumber := after_snd env bufs flow n
  rw [packetAt, nth, Nat.add_sub_cancel, DynFlow.call, hnumber]
  rfl

theorem turn_flowAfter (env : DynEnv W P) (d : Fin c → Dynvar) (bufs : Nat → P) (hc : 0 < c)
    (world : W) (k : Nat) :
    Turn d k (flowAfter env bufs (.start world d (.single ⟨0, hc⟩)) (k + 1)) := by
  induction k with
  | zero =>
      refine ⟨⟨Nat.mod_lt _ hc, ?_⟩, fun j => ⟨rfl, rfl⟩, fun j => rfl, fun j => rfl⟩
      simp only [Nat.zero_mod]
      rfl
  | succ k ih =>
      rw [flowAfter_succ]
      exact ih.updateBuf _

/-- The index of the field that call `n` updates, counted from 0. -/
def turnOf (hc : 0 < c) (n : Nat) : Fin c := ⟨(n - 2) % c, Nat.mod_lt _ hc⟩

theorem parseMode_single (quote : String → String) (modelist : List String) (hc : 0 < c)
    {mode : Option OptionValue}
    (hmode : mode = none ∨ ∃ s, mode = some (.string s) ∧ lower s.toList = "single".toList)
    (error : ErrorHandler) :
    parseMode quote modelist c mode error = (.mode (.single ⟨0, hc⟩), error) := by
  rcases hmode with rfl | ⟨s, rfl, hlower⟩
  · simp [parseMode, hc]
  · have hnone : s ≠ "none" := by
      rintro rfl
      exact absurd hlower (by decide)
    simp [parseMode, hc, hnone, hlower, validModes]

/-- In mode `single` the first call leaves packet and fields alone. Call `n` then calls the function
of one field, in turn, and its packet has the last value of every field, as far as the field can
hold it, whatever the buffer held before. -/
theorem single_round_robin {W P : Type} (env : DynEnv W P) (acc : Accessors env) {c : Nat}
    (hc : 0 < c) (d : Fin c → Dynvar) (hsep : acc.Separate d)
    (quote : String → String) (modelist : List String) (mode : Option OptionValue)
    (hmode : mode = none ∨ ∃ s, mode = some (.string s) ∧ lower s.toList = "single".toList)
    (error : ErrorHandler) (world : W) (bufs : Nat → P) :
    ∃ fn, parseMode quote modelist c mode error = (.mode fn, error) ∧
      (packetAt env bufs (.start world d fn) 1 = bufs 1 ∧
        (∀ j, ((flowAfter env bufs (.start world d fn) 1).dynvars j).produced = [(d j).value]) ∧
        (flowAfter env bufs (.start world d fn) 1).world = world) ∧
      ∀ n, 2 ≤ n →
        let before := flowAfter env bufs (.start world d fn) (n - 1)
        let now := flowAfter env bufs (.start world d fn) n
        (∀ j, j ≠ turnOf hc n → now.dynvars j = before.dynvars j) ∧
        (∃ v w, env.call (d (turnOf hc n)).func before.world = (v, w) ∧ now.world = w ∧
          (now.dynvars (turnOf hc n)).produced = (before.dynvars (turnOf hc n)).produced ++ [v]) ∧
        ∀ j, (now.dynvars j).produced.length = 1 + updates c j n ∧
          ∃ v, (now.dynvars j).produced[updates c j n]? = some v ∧
            acc.read (d j).field (packetAt env bufs (.start world d fn) n) =
              acc.stored (d j).field v := by
  refine ⟨_, parseMode_single quote modelist hc hmode error, ⟨rfl, fun j => rfl, rfl⟩, ?_⟩
  intro n hn
  rcases Nat.exists_eq_add_of_le' hn with ⟨k, rfl⟩
  have hbefore := turn_flowAfter env d bufs hc world k
  have hafter := turn_flowAfter env d bufs hc world (k + 1)
  rcases hbefore.index with ⟨hk, hindex⟩
  have hturn : turnOf hc (k + 2) = ⟨k % c, hk⟩ := rfl
  rw [hturn, show k + 2 - 1 = k + 1 by omega]
  intro before now
  have hnow : now = { before.updateAt env ⟨k % c, hk⟩ with
      updatePacket := .running (.single (incAndWrap ⟨k % c, hk⟩)) } := by
    show flowAfter env bufs _ (k + 1 + 1) = _
    rw [flowAfter_succ, updateBuf_single hindex]
  refine ⟨?_, ?_, ?_⟩
  · intro j hj
    rw [hnow]
    exact updateAt_other before hj
  · refine ⟨_, _, rfl, ?_, ?_⟩
    · rw [hnow, ← (hbefore.named _).2]
      rfl
    · rw [hnow, ← (hbefore.named _).2]
      exact congrArg LiveDynvar.produced (updateAt_same before _)
  · intro j
    have hlength := hafter.produced j
    refine ⟨hlength, (now.dynvars j).dv.value, ?_, ?_⟩
    · rw [← hafter.value j, List.getLast?_eq_getElem?, hlength, Nat.add_sub_cancel_left]
    · have hnamed : (before.updateAt env ⟨k % c, hk⟩).Named d := named_updateAt hbefore.named _
      rw [packetAt_succ, updateBuf_single hindex, hnow]
      exact (hsep.read_applyAll hnamed j _).trans (by rw [Accessors.shown, (hnamed j).1])

end Single

/-- Functions that all count with one counter, on packets of 16-bit numbers. -/
def DynEnv.counting : DynEnv Nat (Field → Value) where
  call := fun _ w => (.number w, w + 1)
  set := fun f v pkt => Function.update pkt f (cut v)
  random := fun _ hc w => (⟨0, hc⟩, w)
where
  cut : Value → Value
    | .number n => .number (n.floor % 65536 : Int)
    | v => v

def Accessors.counting : Accessors DynEnv.counting where
  read := fun f pkt => pkt f
  stored := fun _ => DynEnv.counting.cut
  read_set := fun _ _ _ => Function.update_self ..

theorem separate_counting {c : Nat} {d : Fin c → Dynvar}
    (h : ∀ i j, i ≠ j → (d i).field ≠ (d j).field) : Accessors.counting.Separate d :=
  fun i j hij _ _ => Function.update_of_ne (h i j hij) ..

def sampleDynvars : Fin 2 → Dynvar
  | 0 => ⟨"udp", "Src", ⟨0, .number 0⟩, .number 0⟩
  | 1 => ⟨"ip4", "Dst", ⟨1, .number 1⟩, .number 1⟩

/-- The functions of the two fields return 65535 and 65536 before the third packet, which has the
second value cut to 0. -/
theorem single_round_robin_counting :
    Accessors.counting.Separate sampleDynvars ∧
      ∃ fn, parseMode id [] 2 (some (.string "Single")) ⟨none, []⟩ = (.mode fn, ⟨none, []⟩) ∧
        ∃ v, ((flowAfter DynEnv.counting (fun _ _ => .boolean true)
              (.start 65535 sampleDynvars fn) 3).dynvars 1).produced[updates 2 1 3]? = some v ∧
          packetAt DynEnv.counting (fun _ _ => .boolean true) (.start 65535 sampleDynvars fn) 3
            (sampleDynvars 1).field = DynEnv.counting.cut v := by
  have hsep : Accessors.counting.Separate sampleDynvars := separate_counting (by decide)
  rcases single_round_robin DynEnv.counting .counting (by decide : 0 < 2) sampleDynvars hsep id []
    (some (.string "Single")) (.inr ⟨"Single", rfl, by decide⟩) ⟨none, []⟩ 65535
    (fun _ _ => .boolean true) with ⟨fn, hparse, _, hall⟩
  exact ⟨hsep, fn, hparse, ((hall 3 (by decide)).2.2 1).2⟩

/-- Two names of the source port, of which the first is an alias. -/
def aliasedDynvars : Fin 2 → Dynvar
  | 0 => ⟨"udp", "Src", ⟨0, .number 0⟩, .number 0⟩
  | 1 => ⟨"udp", "SrcPort", ⟨1, .number 1⟩, .number 1⟩

/-- The second packet updates the first name, but the second one is written after it. -/
theorem single_aliased :
    ((flowAfter DynEnv.counting (fun _ _ => .number 0) (.start 2 aliasedDynvars (.single 0))
        2).dynvars 0).produced[updates 2 0 2]? = some (.number 2) ∧
      Accessors.counting.stored (aliasedDynvars 0).field (.number 2) = .number 2 ∧
      Accessors.counting.read (aliasedDynvars 0).field (packetAt DynEnv.counting
        (fun _ _ => .number 0) (.start 2 aliasedDynvars (.single 0)) 2) = .number 1 := by
  decide +kernel

end MoonGen.Interface

import MoonGen.Interface.FlowRegistry

/-! # What the registry holds

Every entry of `mod.flows` has a valid name, which is its key, and belongs to the first
definition of that name. A definition without a packet is reported and registered all the
same, and an instance of it indexes the packet.
-/

namespace MoonGen.Interface

variable {P : Type} (inherit : P → P → P)

def FlowArg.Names (name : String) : FlowArg P → Prop
  | .table tbl => tbl.name = .string name
  | .other => False

theorem checked_eq_some_iff {arg : NameArg} {name : String} :
    arg.checked = some name ↔ arg = .string name ∧ ValidName name := by
  cases arg with
  | other type => simp [NameArg.checked]
  | string s =>
      simp only [NameArg.checked, NameArg.string.injEq]
      by_cases hvalid : ValidName s
      · rw [if_pos hvalid, Option.some.injEq]
        constructor
        · rintro rfl
          exact ⟨rfl, hvalid⟩
        · exact fun h => h.1
      · rw [if_neg hvalid]
        constructor
        · intro h
          cases h
        · rintro ⟨rfl, h⟩
          exact absurd h hvalid

/-- A definition registers its flow under a valid name that is not taken, and otherwise
leaves the registry as it is. -/
theorem envFlow_flows (s : Registry P) (file : String) (arg : FlowArg P) (name : String) :
    (envFlow inherit s file arg).1.flows name = s.flows name ∨
      ∃ tbl, arg = .table tbl ∧ tbl.name = .string name ∧ ValidName name ∧ s.flows name = none ∧
        (envFlow inherit s file arg).1.flows name = some (tbl.assemble inherit s.flows file) := by
  cases arg with
  | other => exact .inl rfl
  | table tbl =>
      unfold envFlow
      dsimp only
      split
      · exact .inl rfl
      next own hown =>
        split
        · exact .inl rfl
        next hfree =>
          by_cases hname : name = own
          · subst hname
            obtain ⟨hstring, hvalid⟩ := checked_eq_some_iff.mp hown
            exact .inr ⟨tbl, rfl, hstring, hvalid, hfree, Function.update_self ..⟩
          · exact .inl (Function.update_of_ne hname ..)

theorem envFlow_registers (s : Registry P) (file : String) {arg : FlowArg P} {name : String}
    (hnames : arg.Names name) (hvalid : ValidName name) :
    ((envFlow inherit s file arg).1.flows name).isSome := by
  cases arg with
  | other => cases hnames
  | table tbl =>
      have hchecked : tbl.name.checked = some name := checked_eq_some_iff.mpr ⟨hnames, hvalid⟩
      unfold envFlow
      simp only [FlowTable.assemble, hchecked]
      split
      next test htest => rw [htest]; rfl
      next => simp

theorem define_keeps {s : Registry P} {name : String} {f : FlowProto P}
    (h : s.flows name = some f) (defs : List (String × FlowArg P)) :
    (define inherit s defs).flows name = some f := by
  induction defs generalizing s with
  | nil => exact h
  | cons d rest ih =>
      apply ih
      rcases envFlow_flows inherit s d.1 d.2 name with hsame | ⟨_, _, _, _, hfree, _⟩
      · rw [hsame, h]
      · rw [h] at hfree
        cases hfree

variable {inherit}

structure FirstDefinition (inherit : P → P → P) (s : Registry P)
    (defs : List (String × FlowArg P)) (name : String) (tbl : FlowTable P) (f : FlowProto P) :
    Prop where
  named : tbl.name = .string name
  valid : ValidName name
  first : ∃ before file after, defs = before ++ (file, .table tbl) :: after ∧
    (∀ d ∈ before, ¬ d.2.Names name) ∧ f = tbl.assemble inherit (define inherit s before).flows file

theorem firstDefinition_of_define {s : Registry P} {defs : List (String × FlowArg P)}
    {name : String} {f : FlowProto P} (hfree : s.flows name = none)
    (h : (define inherit s defs).flows name = some f) :
    ∃ tbl, FirstDefinition inherit s defs name tbl f := by
  induction defs generalizing s with
  | nil =>
      rw [define, List.foldl_nil, hfree] at h
      cases h
  | cons d rest ih =>
      rcases envFlow_flows inherit s d.1 d.2 name with
        hsame | ⟨tbl, harg, hnamed, hvalid, _, hentry⟩
      · obtain ⟨tbl, hfirst⟩ := ih (hsame.trans hfree) h
        refine ⟨tbl, hfirst.named, hfirst.valid, ?_⟩
        obtain ⟨before, file, after, hsplit, hothers, hf⟩ := hfirst.first
        refine ⟨d :: before, file, after, by rw [hsplit]; rfl, ?_, hf⟩
        intro e he
        rcases List.mem_cons.mp he with rfl | he
        · -- a definition with this name would have been registered
          intro hnames
          have hsome := envFlow_registers inherit s e.1 hnames hfirst.valid
          rw [hsame, hfree] at hsome
          cases hsome
        · exact hothers e he
      · have hkept := define_keeps inherit hentry rest
        have hf : f = tbl.assemble inherit s.flows d.1 := Option.some.inj (h.symm.trans hkept)
        exact ⟨tbl, hnamed, hvalid, [], d.1, rest, by rw [← harg]; rfl, by simp, hf⟩

theorem FirstDefinition.name {s : Registry P} {defs : List (String × FlowArg P)} {name : String}
    {tbl : FlowTable P} {f : FlowProto P} (h : FirstDefinition inherit s defs name tbl f) :
    f.name = some name := by
  obtain ⟨before, file, after, _, _, rfl⟩ := h.first
  exact checked_eq_some_iff.mpr ⟨h.named, h.valid⟩

/-- Inheritance neither adds nor removes a packet. -/
theorem FirstDefinition.packet_isSome {s : Registry P} {defs : List (String × FlowArg P)}
    {name : String} {tbl : FlowTable P} {f : FlowProto P}
    (h : FirstDefinition inherit s defs name tbl f) : f.packet.isSome = tbl.packet.isSome := by
  obtain ⟨before, file, after, _, _, rfl⟩ := h.first
  simp only [FlowTable.assemble, inheritPacket]
  split
  next hp _ => rw [hp]; rfl
  next => rfl

/-! ## Instances of registered flows -/

/-- A call returns a flow, or it prints an error or leaves one in its error handler. -/
def FlowOrError (r : Except Raised (Outcome P)) : Prop :=
  ∃ out, r = .ok out ∧ (out.flow.isSome ∨ out.printed ≠ [] ∨ out.errors ≠ [])

def Surroundings.Finishes (env : Surroundings P) (call : Call P) (proto : FlowProto P)
    (packet : P) : Prop :=
  (∃ parsed, env.parseOptions packet (optionValue call.cliOptions proto) = .ok parsed) ∧
    ∃ prepared, env.prepare packet call.final = .ok prepared

/-- What the call runs for the packet of a flow raises nothing, and overwrites that yield no
packet do not go unreported. -/
def Surroundings.Quiet (env : Surroundings P) (call : Call P) (proto : FlowProto P) (packet : P) :
    Prop :=
  match makePacket env call packet with
  | .error _ => False
  | .ok (none, errors) => call.silent = false ∨ errors ≠ []
  | .ok (some made, _) => env.Finishes call proto (env.inherit made packet)

theorem not_flowOrError_error (e : Raised) :
    ¬ FlowOrError (.error e : Except Raised (Outcome P)) := by
  simp [FlowOrError]

theorem makePacket_error {env : Surroundings P} {call : Call P} {packet : P} {e : Raised}
    (h : makePacket env call packet = .error e) : ∃ msg, e = .raised msg := by
  unfold makePacket at h
  split at h
  · cases hrun : env.runOverwrites (env.proto packet) call.overwrites with
    | ok made => simp [hrun, orRaise] at h
    | error msg => exact ⟨msg, by simpa [hrun, orRaise] using h.symm⟩
  · cases hnew : env.newPacket (env.proto packet) with
    | ok made => simp [hnew, orRaise, Except.map] at h
    | error msg => exact ⟨msg, by simpa [hnew, orRaise, Except.map] using h.symm⟩

theorem finish_cases (env : Surroundings P) (call : Call P) (s : Registry P)
    (printed : List Report) (proto : FlowProto P) (packet : P) (errors : List Report) :
    (env.Finishes call proto packet ∧
        FlowOrError (finish env call s printed proto packet errors)) ∨
      (¬ env.Finishes call proto packet ∧
        ∃ msg, finish env call s printed proto packet errors = .error (.raised msg)) := by
  unfold finish Surroundings.Finishes
  cases env.parseOptions packet (optionValue call.cliOptions proto) with
  | error msg =>
      right
      simp [orRaise, Except.bind]
  | ok parsed =>
      cases env.prepare packet call.final with
      | error msg =>
          right
          simp [orRaise, Except.bind, Except.map]
      | ok prepared =>
          left
          obtain ⟨reported, invalid⟩ := prepared
          refine ⟨⟨⟨parsed, rfl⟩, ⟨_, rfl⟩⟩, _, rfl, ?_⟩
          by_cases hvalid : invalid = []
          · left
            simp [hvalid]
          · right
            right
            simp [hvalid]

theorem getInstance_registered (env : Surroundings P) {s : Registry P} {call : Call P}
    {proto : FlowProto P} (h : s.flows call.name = some proto) :
    (getInstance env s call = .error .indexedMissingPacket ∧ proto.packet = none) ∨
      ∃ packet, proto.packet = some packet ∧
        getInstance env s call ≠ .error .indexedMissingPacket ∧
        (FlowOrError (getInstance env s call) ↔ env.Quiet call proto packet) := by
  have hextra : parseExtra env s call = (s, []) := by simp only [parseExtra, h]
  simp only [getInstance, hextra, h]
  cases proto.packet with
  | none => exact .inl ⟨rfl, rfl⟩
  | some packet =>
      right
      refine ⟨packet, rfl, ?_⟩
      unfold Surroundings.Quiet
      cases hmade : makePacket env call packet with
      | error e =>
          obtain ⟨msg, rfl⟩ := makePacket_error hmade
          simp only [hmade, Except.bind]
          exact ⟨by simp, iff_of_false (not_flowOrError_error _) id⟩
      | ok made =>
          obtain ⟨made, errors⟩ := made
          cases made with
          | none =>
              simp only [hmade, Except.bind]
              cases call.silent with
              | true => simp [FlowOrError, printError]
              | false => simp [FlowOrError, printError]
          | some made =>
              simp only [hmade, Except.bind]
              rcases finish_cases env call s [] proto (env.inherit made packet) errors with
                ⟨hfinishes, hflow⟩ | ⟨hstops, msg, hraised⟩
              · have ⟨out, hout, _⟩ := hflow
                exact ⟨by simp [hout], iff_of_true hflow hfinishes⟩
              · rw [hraised]
                exact ⟨by simp, iff_of_false (not_flowOrError_error _) hstops⟩

/-- The entry of a registered name has that name, a valid one, and is the flow of its first
definition. It carries a packet, and each of its instances returns a flow or reports an error,
exactly when that definition has a packet and the rest of the call raises nothing. -/
theorem registered_flow_iff (env : Surroundings P) (defs : List (String × FlowArg P))
    (call : Call P) (proto : FlowProto P)
    (h : (define env.inherit (.empty P) defs).flows call.name = some proto) :
    ∃ tbl, FirstDefinition env.inherit (.empty P) defs call.name tbl proto ∧
      proto.name = some call.name ∧
      (proto.packet.isSome ∧
          getInstance env (define env.inherit (.empty P) defs) call ≠
            .error .indexedMissingPacket ∧
          FlowOrError (getInstance env (define env.inherit (.empty P) defs) call) ↔
        tbl.packet.isSome ∧
          ∀ packet, proto.packet = some packet → env.Quiet call proto packet) := by
  obtain ⟨tbl, hfirst⟩ := firstDefinition_of_define rfl h
  refine ⟨tbl, hfirst, hfirst.name, ?_⟩
  rw [← hfirst.packet_isSome]
  rcases getInstance_registered env h with ⟨_, hnone⟩ | ⟨packet, hsome, hne, hiff⟩
  · simp [hnone]
  · simp [hsome, hne, hiff]

def quietEnv : Surroundings Unit where
  inherit := fun p _ => p
  proto := fun _ => "Udp"
  newPacket := fun _ => .ok ()
  runOverwrites := fun _ _ => .ok (some (), [])
  parseOptions := fun _ _ => .ok []
  prepare := fun _ _ => .ok ([], [])

def plainTable (name : String) (packet : Option Unit) : FlowTable Unit :=
  ⟨.string name, packet, .nil, fun _ => none, []⟩

def plainCall (name : String) : Call Unit := ⟨name, none, fun _ => none, [], "", false, false⟩

theorem registered_flow_redefined :
    FlowOrError (getInstance quietEnv
      (define quietEnv.inherit (.empty Unit)
        [("a.lua", .table (plainTable "f1" (some ()))), ("b.lua", .table (plainTable "f1" none))])
      (plainCall "f1")) := by
  obtain ⟨tbl, hfirst, _, hiff⟩ := registered_flow_iff quietEnv
    [("a.lua", .table (plainTable "f1" (some ()))), ("b.lua", .table (plainTable "f1" none))]
    (plainCall "f1") _ rfl
  refine (hiff.mpr ⟨?_, ?_⟩).2.2
  · rw [← hfirst.packet_isSome]
    rfl
  · intro packet _
    exact ⟨⟨[], rfl⟩, ⟨([], []), rfl⟩⟩

/-- The definition `Flow{"f1"}` is reported for its missing packet and registered all the same;
an instance of it indexes `nil`. -/
theorem missing_packet_indexed :
    let s := define quietEnv.inherit (.empty Unit) [("a.lua", .table (plainTable "f1" none))]
    s.errors = [⟨"Flow %q does not have a valid packet.", ["f1"]⟩] ∧
      (s.flows "f1").isSome ∧
      (∀ proto, s.flows "f1" = some proto → proto.packet = none) ∧
      getInstance quietEnv s (plainCall "f1") = .error .indexedMissingPacket := by
  intro s
  refine ⟨rfl, rfl, ?_, rfl⟩
  intro proto h
  have hproto := Option.some.inj h
  rw [← hproto]
  rfl

end MoonGen.Interface

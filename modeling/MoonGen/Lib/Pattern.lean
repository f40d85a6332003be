/-! # Greedy patterns with captures

A pattern is a list of pieces, each of which takes a part of the text. An item takes a
run of letters of its class, the longest first, and gives letters back when the rest of the
pattern fails. `run` is that search. A match that takes the first way everywhere is found
piece by piece; every match, whichever way it took, cuts the text into parts for the pieces.
-/

namespace MoonGen.Pattern

variable {α : Type u}

inductive Repeat where
  | once
  | optional
  | star
  | plus
deriving Repr, DecidableEq

structure Item (α : Type u) where
  test : α → Bool
  rep : Repeat

inductive Piece (α : Type u) where
  | plain (item : Item α)
  | capture (items : List (Item α))

def onceWays (test : α → Bool) : List α → List (List α × List α)
  | [] => []
  | c :: s => if test c then [([c], s)] else []

def starWays (test : α → Bool) : List α → List (List α × List α)
  | [] => [([], [])]
  | c :: s =>
      (if test c then (starWays test s).map fun w => (c :: w.1, w.2) else []) ++ [([], c :: s)]

def plusWays (test : α → Bool) : List α → List (List α × List α)
  | [] => []
  | c :: s => if test c then (starWays test s).map fun w => (c :: w.1, w.2) else []

/-- The parts that an item can take and what they leave, in order of preference. -/
def Item.ways (i : Item α) (s : List α) : List (List α × List α) :=
  match i.rep with
  | .once => onceWays i.test s
  | .optional => onceWays i.test s ++ [([], s)]
  | .star => starWays i.test s
  | .plus => plusWays i.test s

def itemWays : List (Item α) → List α → List (List α × List α)
  | [], s => [([], s)]
  | i :: is, s => (i.ways s).flatMap fun w => (itemWays is w.2).map fun v => (w.1 ++ v.1, v.2)

/-- The captures of the first match at the beginning of the text, and what it leaves; with
`dollar` it has to leave nothing. -/
def run (dollar : Bool) : List (Piece α) → List α → Option (List (List α) × List α)
  | [], s => if dollar && !s.isEmpty then none else some ([], s)
  | .plain i :: ps, s => (i.ways s).findSome? fun w => run dollar ps w.2
  | .capture is :: ps, s =>
      (itemWays is s).findSome? fun w => (run dollar ps w.2).map fun m => (w.1 :: m.1, m.2)

def search (dollar : Bool) (ps : List (Piece α)) : List α → Option (List (List α) × List α)
  | [] => run dollar ps []
  | c :: s =>
      match run dollar ps (c :: s) with
      | some m => some m
      | none => search dollar ps s

/-- The successive matches of a pattern that takes at least one letter. -/
def gmatchFuel (ps : List (Piece α)) : Nat → List α → List (List (List α))
  | 0, _ => []
  | fuel + 1, s =>
      match search false ps s with
      | none => []
      | some m => m.1 :: gmatchFuel ps fuel m.2

def gmatch (ps : List (Piece α)) (s : List α) : List (List (List α)) := gmatchFuel ps s.length s

/-! ## First ways -/

structure Longest (test : α → Bool) (a r : List α) : Prop where
  all : ∀ c ∈ a, test c = true
  stops : ∀ c ∈ r.head?, test c = false

theorem Longest.nil {test : α → Bool} {a : List α} (h : ∀ c ∈ a, test c = true) :
    Longest test a [] :=
  ⟨h, fun c hc => by cases hc⟩

theorem Longest.cons {test : α → Bool} {a r : List α} {x : α} (h : ∀ c ∈ a, test c = true)
    (hx : test x = false) : Longest test a (x :: r) :=
  ⟨h, fun c hc => by rw [List.head?_cons, Option.mem_some_iff] at hc; rw [← hc]; exact hx⟩

theorem starWays_head {test : α → Bool} {a r : List α} (h : Longest test a r) :
    (starWays test (a ++ r)).head? = some (a, r) := by
  induction a with
  | nil =>
      cases r with
      | nil => rfl
      | cons x r =>
          have hx : test x = false := h.stops x rfl
          simp [starWays, hx]
  | cons c a ih =>
      have hc : test c = true := h.all c List.mem_cons_self
      have hrest := ih ⟨fun d hd => h.all d (List.mem_cons_of_mem _ hd), h.stops⟩
      simp [starWays, hc, hrest]

theorem plusWays_head {test : α → Bool} {a r : List α} (h : Longest test a r) (hne : a ≠ []) :
    (plusWays test (a ++ r)).head? = some (a, r) := by
  cases a with
  | nil => exact absurd rfl hne
  | cons c a =>
      have hc : test c = true := h.all c List.mem_cons_self
      have htail : Longest test a r := ⟨fun d hd => h.all d (List.mem_cons_of_mem _ hd), h.stops⟩
      have hrest := starWays_head htail
      simp [plusWays, hc, hrest]

namespace Item

theorem ways_star {test : α → Bool} {a r : List α} (h : Longest test a r) :
    (ways ⟨test, .star⟩ (a ++ r)).head? = some (a, r) :=
  starWays_head h

theorem ways_plus {test : α → Bool} {a r : List α} (h : Longest test a r) (hne : a ≠ []) :
    (ways ⟨test, .plus⟩ (a ++ r)).head? = some (a, r) :=
  plusWays_head h hne

theorem ways_once {test : α → Bool} {c : α} (h : test c = true) (r : List α) :
    (ways ⟨test, .once⟩ (c :: r)).head? = some ([c], r) := by
  simp [ways, onceWays, h]

theorem ways_optional {test : α → Bool} {c : α} (h : test c = true) (r : List α) :
    (ways ⟨test, .optional⟩ (c :: r)).head? = some ([c], r) := by
  simp [ways, onceWays, h]

theorem ways_optional_absent {test : α → Bool} {r : List α}
    (h : ∀ c ∈ r.head?, test c = false) :
    (ways ⟨test, .optional⟩ r).head? = some ([], r) := by
  cases r with
  | nil => rfl
  | cons c r =>
      have hc : test c = false := h c rfl
      simp [ways, onceWays, hc]

end Item

theorem itemWays_head_cons {i : Item α} {is : List (Item α)} {s a r b r' : List α}
    (h : (i.ways s).head? = some (a, r)) (hrest : (itemWays is r).head? = some (b, r')) :
    (itemWays (i :: is) s).head? = some (a ++ b, r') := by
  rcases List.head?_eq_some_iff.mp h with ⟨ws, hws⟩
  simp [itemWays, hws, hrest]

theorem itemWays_head_singleton {i : Item α} {s a r : List α}
    (h : (i.ways s).head? = some (a, r)) : (itemWays [i] s).head? = some (a, r) := by
  have hcons : (itemWays [i] s).head? = some (a ++ [], r) := itemWays_head_cons h rfl
  rwa [List.append_nil] at hcons

theorem run_plain {dollar : Bool} {i : Item α} {ps : List (Piece α)} {s a r : List α}
    {m : List (List α) × List α} (h : (i.ways s).head? = some (a, r))
    (hrest : run dollar ps r = some m) : run dollar (.plain i :: ps) s = some m := by
  rcases List.head?_eq_some_iff.mp h with ⟨ws, hws⟩
  rw [run, hws, List.findSome?_cons, hrest]

theorem run_capture {dollar : Bool} {is : List (Item α)} {ps : List (Piece α)} {s a r : List α}
    {m : List (List α) × List α} (h : (itemWays is s).head? = some (a, r))
    (hrest : run dollar ps r = some m) :
    run dollar (.capture is :: ps) s = some (a :: m.1, m.2) := by
  rcases List.head?_eq_some_iff.mp h with ⟨ws, hws⟩
  rw [run, hws, List.findSome?_cons, hrest]
  rfl

/-! ## Every match cuts the text into parts -/

def Item.Accepts (i : Item α) (a : List α) : Prop :=
  (∀ c ∈ a, i.test c = true) ∧
    match i.rep with
    | .once => ∃ c, a = [c]
    | .optional => a = [] ∨ ∃ c, a = [c]
    | .star => True
    | .plus => a ≠ []

def AcceptsAll : List (Item α) → List α → Prop
  | [], a => a = []
  | i :: is, a => ∃ b c, a = b ++ c ∧ i.Accepts b ∧ AcceptsAll is c

/-- The pieces cut the text `s` into parts, of which `cs` are captured. -/
def Derives : List (Piece α) → List α → List (List α) → Prop
  | [], s, cs => s = [] ∧ cs = []
  | .plain i :: ps, s, cs => ∃ a r, s = a ++ r ∧ i.Accepts a ∧ Derives ps r cs
  | .capture is :: ps, s, cs =>
      ∃ a r cs', s = a ++ r ∧ AcceptsAll is a ∧ cs = a :: cs' ∧ Derives ps r cs'

theorem mem_onceWays {test : α → Bool} {s : List α} {w : List α × List α}
    (h : w ∈ onceWays test s) : s = w.1 ++ w.2 ∧ ∃ c, w.1 = [c] ∧ test c = true := by
  cases s with
  | nil => cases h
  | cons c s =>
      cases hc : test c with
      | false => simp [onceWays, hc] at h
      | true =>
          simp only [onceWays, hc, if_true, List.mem_singleton] at h
          rw [h]
          exact ⟨rfl, c, rfl, hc⟩

theorem mem_starWays {test : α → Bool} {s : List α} {w : List α × List α}
    (h : w ∈ starWays test s) : s = w.1 ++ w.2 ∧ ∀ c ∈ w.1, test c = true := by
  induction s generalizing w with
  | nil =>
      rw [starWays, List.mem_singleton] at h
      rw [h]
      exact ⟨rfl, List.forall_mem_nil _⟩
  | cons c s ih =>
      rw [starWays, List.mem_append, List.mem_singleton] at h
      rcases h with h | h
      · cases hc : test c with
        | false => simp [hc] at h
        | true =>
            simp only [hc, if_true, List.mem_map] at h
            rcases h with ⟨v, hv, rfl⟩
            have hrest := ih hv
            exact ⟨congrArg (c :: ·) hrest.1, List.forall_mem_cons.mpr ⟨hc, hrest.2⟩⟩
      · rw [h]
        exact ⟨rfl, List.forall_mem_nil _⟩

theorem mem_plusWays {test : α → Bool} {s : List α} {w : List α × List α}
    (h : w ∈ plusWays test s) : w ∈ starWays test s ∧ w.1 ≠ [] := by
  cases s with
  | nil => cases h
  | cons c s =>
      refine ⟨List.mem_append_left _ h, ?_⟩
      cases hc : test c with
      | false => simp [plusWays, hc] at h
      | true =>
          simp only [plusWays, hc, if_true, List.mem_map] at h
          rcases h with ⟨v, _, rfl⟩
          exact List.cons_ne_nil _ _

theorem Item.mem_ways {i : Item α} {s : List α} {w : List α × List α} (h : w ∈ i.ways s) :
    s = w.1 ++ w.2 ∧ i.Accepts w.1 := by
  rcases i with ⟨test, rep⟩
  have honce : w ∈ onceWays test s → s = w.1 ++ w.2 ∧ (∀ c ∈ w.1, test c = true) ∧
      ∃ c, w.1 = [c] := by
    intro h
    rcases mem_onceWays h with ⟨hs, c, hw, hc⟩
    refine ⟨hs, ?_, c, hw⟩
    rw [hw]
    exact List.forall_mem_singleton.mpr hc
  cases rep with
  | once => exact honce h
  | optional =>
      simp only [ways, List.mem_append, List.mem_singleton] at h
      rcases h with h | h
      · have hw := honce h
        exact ⟨hw.1, hw.2.1, .inr hw.2.2⟩
      · rw [h]
        exact ⟨rfl, List.forall_mem_nil _, .inl rfl⟩
  | star =>
      have hw := mem_starWays h
      exact ⟨hw.1, hw.2, trivial⟩
  | plus =>
      have hplus := mem_plusWays h
      have hw := mem_starWays hplus.1
      exact ⟨hw.1, hw.2, hplus.2⟩

theorem mem_itemWays {is : List (Item α)} {s : List α} {w : List α × List α}
    (h : w ∈ itemWays is s) : s = w.1 ++ w.2 ∧ AcceptsAll is w.1 := by
  induction is generalizing s w with
  | nil =>
      rw [itemWays, List.mem_singleton] at h
      rw [h]
      exact ⟨rfl, rfl⟩
  | cons i is ih =>
      simp only [itemWays, List.mem_flatMap, List.mem_map] at h
      rcases h with ⟨v, hv, u, hu, rfl⟩
      have hfirst := i.mem_ways hv
      have hrest := ih hu
      refine ⟨?_, v.1, u.1, rfl, hfirst.2, hrest.2⟩
      rw [hfirst.1, List.append_assoc, ← hrest.1]

/-- A match has cut the text into parts for its pieces and what it left. -/
theorem run_sound {dollar : Bool} {ps : List (Piece α)} {s : List α}
    {m : List (List α) × List α} (h : run dollar ps s = some m) :
    ∃ used, s = used ++ m.2 ∧ Derives ps used m.1 ∧ (dollar = true → m.2 = []) := by
  induction ps generalizing s m with
  | nil =>
      rw [run] at h
      split at h
      · cases h
      · rename_i hend
        cases h
        refine ⟨[], rfl, ⟨rfl, rfl⟩, ?_⟩
        intro hdollar
        rw [hdollar, Bool.true_and, Bool.not_eq_true, Bool.not_eq_false'] at hend
        exact List.isEmpty_iff.mp hend
  | cons p ps ih =>
      cases p with
      | plain i =>
          rcases List.exists_of_findSome?_eq_some h with ⟨w, hw, hrun⟩
          have hway := i.mem_ways hw
          rcases ih hrun with ⟨used, hused, hder, hend⟩
          refine ⟨w.1 ++ used, ?_, ⟨w.1, used, rfl, hway.2, hder⟩, hend⟩
          rw [List.append_assoc, ← hused]
          exact hway.1
      | capture is =>
          rcases List.exists_of_findSome?_eq_some h with ⟨w, hw, hrun⟩
          have hway := mem_itemWays hw
          rcases Option.map_eq_some_iff.mp hrun with ⟨m', hm', rfl⟩
          rcases ih hm' with ⟨used, hused, hder, hend⟩
          refine ⟨w.1 ++ used, ?_, ⟨w.1, used, m'.1, rfl, hway.2, rfl, hder⟩, hend⟩
          rw [List.append_assoc, ← hused]
          exact hway.1

theorem run_dollar_sound {ps : List (Piece α)} {s : List α} {m : List (List α) × List α}
    (h : run true ps s = some m) : Derives ps s m.1 := by
  rcases run_sound h with ⟨used, hused, hder, hend⟩
  rw [hend rfl, List.append_nil] at hused
  rw [hused]
  exact hder

theorem search_of_run {dollar : Bool} {ps : List (Piece α)} {s : List α}
    {m : List (List α) × List α} (h : run dollar ps s = some m) : search dollar ps s = some m := by
  cases s with
  | nil => exact h
  | cons c s => rw [search, h]

theorem search_none {dollar : Bool} {ps : List (Piece α)} {s : List α}
    (h : ∀ t, t <:+ s → run dollar ps t = none) : search dollar ps s = none := by
  induction s with
  | nil => exact h [] (List.suffix_refl _)
  | cons c s ih =>
      rw [search, h _ (List.suffix_refl _)]
      exact ih fun t ht => h t (ht.trans (List.suffix_cons c s))

/-! ## Separators -/

section Separators

variable {test sep : α → Bool}

theorem run_plain_none {dollar : Bool} {ps : List (Piece α)} {s : List α}
    (h : ∀ c ∈ s.head?, sep c = false) : run dollar (.plain ⟨sep, .once⟩ :: ps) s = none := by
  cases s with
  | nil => rfl
  | cons c s =>
      have hc : sep c = false := h c rfl
      simp [run, Item.ways, onceWays, hc]

theorem findSome?_starWays_none {β : Type v} {f : List α × List α → Option β} {s : List α}
    (h : ∀ a r, s = a ++ r → f (a, r) = none) : (starWays test s).findSome? f = none := by
  rw [List.findSome?_eq_none_iff]
  intro w hw
  exact h w.1 w.2 (mem_starWays hw).1

/-- A greedy capture of any letters goes up to the last separator. -/
theorem run_last {dollar : Bool} {ps : List (Piece α)} {a b : List α} {x : α}
    {m : List (List α) × List α} (hx : sep x = true) (hb : ∀ c ∈ b, sep c = false)
    (hrest : run dollar ps b = some m) :
    run dollar (.capture [⟨fun _ => true, .star⟩] :: .plain ⟨sep, .once⟩ :: ps) (a ++ x :: b) =
      some (a :: m.1, m.2) := by
  have hsep : run dollar (.plain ⟨sep, .once⟩ :: ps) (x :: b) = some m :=
    run_plain (Item.ways_once hx b) hrest
  have hlate : ∀ r, r <:+ b → run dollar (.plain ⟨sep, .once⟩ :: ps) r = none := by
    intro r hr
    apply run_plain_none
    intro c hc
    exact hb c (hr.subset (List.mem_of_mem_head? hc))
  have hstar : ∀ f : List α → List α,
      (starWays (fun _ => true) (a ++ x :: b)).findSome? (fun w =>
        (run dollar (.plain ⟨sep, .once⟩ :: ps) w.2).map fun m => (f w.1 :: m.1, m.2)) =
          some (f a :: m.1, m.2) := by
    induction a with
    | nil =>
        intro f
        have hnone : (starWays (fun _ => true) b).findSome? (fun w =>
            (run dollar (.plain ⟨sep, .once⟩ :: ps) w.2).map
              fun m => (f (x :: w.1) :: m.1, m.2)) = none := by
          apply findSome?_starWays_none
          intro a r hs
          rw [hlate r ⟨a, hs.symm⟩]
          rfl
        simp only [List.nil_append, starWays, if_true, List.findSome?_append, List.findSome?_map,
          Function.comp_def, hnone, Option.none_or, List.findSome?_cons, hsep, Option.map_some]
    | cons c a ih =>
        intro f
        have htail := ih (fun w => f (c :: w))
        simp only [List.cons_append, starWays, if_true, List.findSome?_append, List.findSome?_map,
          Function.comp_def, htail, Option.some_or]
  have hways : itemWays [⟨fun _ => true, .star⟩] (a ++ x :: b) =
      starWays (fun _ => true) (a ++ x :: b) := by
    simp [itemWays, Item.ways]
  rw [run, hways]
  exact hstar id

def joined (x : α) : List (List α) → List α
  | [] => []
  | [a] => a
  | a :: b :: rest => a ++ x :: joined x (b :: rest)

theorem search_plus {a r : List α} (h : Longest test a r) (hne : a ≠ []) :
    search false [.capture [⟨test, .plus⟩]] (a ++ r) = some ([a], r) := by
  have hend : run false [] r = some ([], r) := rfl
  have hrun : run false [.capture [⟨test, .plus⟩]] (a ++ r) = some ([a], r) :=
    run_capture (itemWays_head_singleton (Item.ways_plus h hne)) hend
  exact search_of_run hrun

theorem search_plus_skip {x : α} (hx : test x = false) (s : List α) :
    search false [.capture [⟨test, .plus⟩]] (x :: s) =
      search false [.capture [⟨test, .plus⟩]] s := by
  have hrun : run false [.capture [⟨test, .plus⟩]] (x :: s) = none := by
    simp [run, itemWays, Item.ways, plusWays, hx]
  rw [search, hrun]

theorem gmatchFuel_skip {x : α} (hx : test x = false) (fuel : Nat) (s : List α) :
    gmatchFuel [.capture [⟨test, .plus⟩]] fuel (x :: s) =
      gmatchFuel [.capture [⟨test, .plus⟩]] fuel s := by
  cases fuel with
  | zero => rfl
  | succ fuel => rw [gmatchFuel, gmatchFuel, search_plus_skip hx]

theorem gmatchFuel_nil (fuel : Nat) :
    gmatchFuel [.capture [⟨test, .plus⟩]] fuel [] = [] := by
  cases fuel with
  | zero => rfl
  | succ fuel => rfl

theorem gmatchFuel_joined {x : α} (hx : test x = false) {texts : List (List α)}
    (h : ∀ a ∈ texts, a ≠ [] ∧ ∀ c ∈ a, test c = true) {fuel : Nat}
    (hfuel : (joined x texts).length ≤ fuel) :
    gmatchFuel [.capture [⟨test, .plus⟩]] fuel (joined x texts) = texts.map fun a => [a] := by
  induction texts generalizing fuel with
  | nil => exact gmatchFuel_nil fuel
  | cons a rest ih =>
      have hrest := (List.forall_mem_cons.mp h).2
      rcases (List.forall_mem_cons.mp h).1 with ⟨hne, hall⟩
      have hpos := List.length_pos_iff.mpr hne
      cases rest with
      | nil =>
          rcases Nat.exists_eq_add_of_le' (Nat.le_trans hpos hfuel) with ⟨n, rfl⟩
          have hfound := search_plus (Longest.nil hall) hne
          rw [List.append_nil] at hfound
          simp only [joined, gmatchFuel, hfound, gmatchFuel_nil, List.map_cons, List.map_nil]
      | cons b rest =>
          have hlength : (joined x (b :: rest)).length + 1 + a.length ≤ fuel := by
            simp only [joined, List.length_append, List.length_cons] at hfuel
            omega
          rcases Nat.exists_eq_add_of_le' (Nat.le_trans hpos (by omega : a.length ≤ fuel)) with
            ⟨n, rfl⟩
          have hfound := search_plus (Longest.cons (r := joined x (b :: rest)) hall hx) hne
          simp only [joined, gmatchFuel, hfound, gmatchFuel_skip hx]
          rw [ih hrest (by omega)]
          rfl

theorem gmatch_joined {x : α} (hx : test x = false) {texts : List (List α)}
    (h : ∀ a ∈ texts, a ≠ [] ∧ ∀ c ∈ a, test c = true) :
    gmatch [.capture [⟨test, .plus⟩]] (joined x texts) = texts.map fun a => [a] :=
  gmatchFuel_joined hx h (Nat.le_refl _)

end Separators

end MoonGen.Pattern

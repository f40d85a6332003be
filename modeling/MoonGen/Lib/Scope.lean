import Mathlib.Logic.Function.Basic
import Mathlib.Data.List.Basic

/-! # Definitions that build on earlier ones

A list of definitions is run in order. Each may refer to an earlier one, by a name, where
the first definition of the name counts, or through a variable, where the last value counts,
and makes its own value from its body and from the value it refers to. The lineage of a
value lists the bodies that went into it; every way to make values factors through it.
-/

namespace MoonGen

universe u v w x

inductive Scope.Ref (κ : Type u) where
  | nothing
  | name (k : κ)
  | var (k : κ)

/-- A definition: the name to register it under, the variable that gets its value, what it
refers to, and its body. Without a body it has no value. -/
structure Scope.Entry (κ : Type u) (δ : Type v) where
  name : Option κ
  var : Option κ
  ref : Scope.Ref κ
  body : Option δ

structure Scope (κ : Type u) (α : Type w) where
  named : κ → Option α
  vars : κ → Option α

namespace Scope

variable {κ : Type u} {δ : Type v} {α : Type w} {β : Type x}

def empty : Scope κ α := ⟨fun _ => none, fun _ => none⟩

def find (s : Scope κ α) : Ref κ → Option α
  | .nothing => none
  | .name k => s.named k
  | .var k => s.vars k

def filterMap (g : α → Option β) (s : Scope κ α) : Scope κ β :=
  ⟨fun k => (s.named k).bind g, fun k => (s.vars k).bind g⟩

theorem find_filterMap (g : α → Option β) (s : Scope κ α) (r : Ref κ) :
    (s.filterMap g).find r = (s.find r).bind g := by
  cases r <;> rfl

theorem ext_lookup {s t : Scope κ α} (hnamed : ∀ k, s.named k = t.named k)
    (hvars : ∀ k, s.vars k = t.vars k) : s = t := by
  cases s
  cases t
  congr
  · exact funext hnamed
  · exact funext hvars

variable [DecidableEq κ]

def register (s : Scope κ α) (name : Option κ) (a : α) : Scope κ α :=
  match name with
  | none => s
  | some k => if (s.named k).isSome then s else { s with named := Function.update s.named k (some a) }

def assign (s : Scope κ α) (var : Option κ) (a : Option α) : Scope κ α :=
  match var with
  | none => s
  | some k => { s with vars := Function.update s.vars k a }

variable (build : δ → Option α → α)

def add (s : Scope κ α) (e : Entry κ δ) : Scope κ α :=
  match e.body with
  | none => s.assign e.var none
  | some d => (s.register e.name (build d (s.find e.ref))).assign e.var (some (build d (s.find e.ref)))

def addAll (s : Scope κ α) (entries : List (Entry κ δ)) : Scope κ α := entries.foldl (add build) s

theorem addAll_append (s : Scope κ α) (first second : List (Entry κ δ)) :
    s.addAll build (first ++ second) = (s.addAll build first).addAll build second :=
  List.foldl_append

variable {build}

@[simp] theorem assign_named (s : Scope κ α) (var : Option κ) (a : Option α) :
    (s.assign var a).named = s.named := by
  cases var <;> rfl

@[simp] theorem register_vars (s : Scope κ α) (name : Option κ) (a : α) :
    (s.register name a).vars = s.vars := by
  cases name with
  | none => rfl
  | some k =>
      simp only [register]
      split <;> rfl

theorem register_named (s : Scope κ α) (name : Option κ) (a : α) (k : κ) :
    (s.register name a).named k =
      if name = some k ∧ s.named k = none then some a else s.named k := by
  cases name with
  | none => rfl
  | some j =>
      simp only [register, Option.some.injEq]
      by_cases hj : j = k
      · subst hj
        cases hnamed : s.named j with
        | none => simp
        | some b => simp [hnamed]
      · have hother : ¬ (j = k ∧ s.named k = none) := fun h => hj h.1
        rw [if_neg hother]
        split
        · rfl
        · exact Function.update_of_ne (Ne.symm hj) ..

theorem assign_vars (s : Scope κ α) (var : Option κ) (a : Option α) (k : κ) :
    (s.assign var a).vars k = if var = some k then a else s.vars k := by
  cases var with
  | none => rfl
  | some j =>
      simp only [assign, Option.some.injEq]
      by_cases hj : j = k
      · subst hj
        simp
      · rw [if_neg hj, Function.update_of_ne (Ne.symm hj)]

theorem addAll_named {s : Scope κ α} {k : κ} {a : α} (h : s.named k = some a)
    (entries : List (Entry κ δ)) : (s.addAll build entries).named k = some a := by
  induction entries generalizing s with
  | nil => exact h
  | cons e rest ih =>
      apply ih
      unfold add
      cases e.body with
      | none => rw [assign_named, h]
      | some d => rw [assign_named, register_named, if_neg (by simp [h]), h]

/-- A definition runs on the images as on the values, when its own image is what it makes
from the image it refers to and an image of its name is missing only where the name is. -/
theorem add_filterMap {build : δ → Option α → α} {build' : δ → Option β → β} {g : α → Option β}
    {s : Scope κ α} {e : Entry κ δ}
    (hbuild : ∀ d ∈ e.body, ∀ p, g (build d p) = some (build' d (p.bind g)))
    (hname : e.body.isSome → ∀ k ∈ e.name, ∀ a ∈ s.named k, (g a).isSome) :
    (s.add build e).filterMap g = (s.filterMap g).add build' e := by
  unfold add
  cases hbody : e.body with
  | none =>
      apply ext_lookup
      · intro k
        simp [filterMap]
      · intro k
        simp only [filterMap, assign_vars]
        split <;> rfl
  | some d =>
      have himage := hbuild d (by rw [hbody]; rfl) (s.find e.ref)
      simp only [find_filterMap]
      apply ext_lookup
      · intro k
        simp only [filterMap, assign_named, register_named]
        by_cases hk : e.name = some k
        · cases hnamed : s.named k with
          | none => simp [hk, himage]
          | some a =>
              obtain ⟨b, hb⟩ := Option.isSome_iff_exists.mp
                (hname (by rw [hbody]; rfl) k hk a hnamed)
              simp [hb]
        · simp [hk]
      · intro k
        simp only [filterMap, assign_vars, register_vars]
        split
        · rw [Option.bind_some, himage]
        · rfl

end Scope

inductive Lineage (δ : Type v) where
  | root (d : δ)
  | child (d : δ) (parent : Lineage δ)

namespace Lineage

variable {κ : Type u} {δ : Type v} {α : Type w}

def make (d : δ) : Option (Lineage δ) → Lineage δ
  | none => .root d
  | some parent => .child d parent

def head : Lineage δ → δ
  | .root d => d
  | .child d _ => d

def value (build : δ → Option α → α) : Lineage δ → α
  | .root d => build d none
  | .child d parent => build d (some (parent.value build))

/-- The lineage up to the first body that is not the own. -/
def cut (own : δ → Bool) : Lineage δ → Option (Lineage δ)
  | .root d => if own d then some (.root d) else none
  | .child d parent => if own d then some (make d (parent.cut own)) else none

@[simp] theorem head_make (d : δ) (parent : Option (Lineage δ)) : (make d parent).head = d := by
  cases parent <;> rfl

theorem value_make (build : δ → Option α → α) (d : δ) (parent : Option (Lineage δ)) :
    (make d parent).value build = build d (parent.map (value build)) := by
  cases parent <;> rfl

end Lineage

namespace Scope

variable {κ : Type u} {δ : Type v} {α : Type w} [DecidableEq κ]

/-- Every way to make values factors through the lineages. -/
theorem addAll_value (build : δ → Option α → α) (s : Scope κ (Lineage δ))
    (entries : List (Entry κ δ)) :
    (s.addAll Lineage.make entries).filterMap (fun l => some (l.value build)) =
      (s.filterMap fun l => some (l.value build)).addAll build entries := by
  induction entries generalizing s with
  | nil => rfl
  | cons e rest ih =>
      simp only [addAll, List.foldl_cons] at ih ⊢
      rw [ih, add_filterMap]
      · intro d _ parent
        rw [Lineage.value_make]
        cases parent <;> rfl
      · intro _ _ _ _ _
        rfl

theorem add_named {build : δ → Option α → α} {s : Scope κ α} {e : Entry κ δ} {k : κ} {a : α}
    (h : (s.add build e).named k = some a) :
    s.named k = some a ∨ ∃ d ∈ e.body, a = build d (s.find e.ref) := by
  unfold add at h
  cases hbody : e.body with
  | none =>
      rw [hbody] at h
      exact .inl (by simpa using h)
  | some d =>
      simp only [hbody, assign_named, register_named] at h
      split at h
      · cases h
        exact .inr ⟨d, rfl, rfl⟩
      · exact .inl h

theorem head_mem_of_named {entries : List (Entry κ δ)} {k : κ} {l : Lineage δ}
    (h : (empty.addAll Lineage.make entries).named k = some l) :
    ∃ e ∈ entries, e.body = some l.head := by
  have hstep : ∀ (s : Scope κ (Lineage δ)) (entries : List (Entry κ δ)),
      (s.addAll Lineage.make entries).named k = some l →
        s.named k = some l ∨ ∃ e ∈ entries, e.body = some l.head := by
    intro s entries
    induction entries generalizing s with
    | nil => exact .inl
    | cons e rest ih =>
        intro h
        rcases ih _ h with hnamed | ⟨e', he', hbody⟩
        · rcases add_named hnamed with hs | ⟨d, hd, rfl⟩
          · exact .inl hs
          · rw [Lineage.head_make]
            exact .inr ⟨e, List.mem_cons_self, hd⟩
        · exact .inr ⟨e', List.mem_cons_of_mem _ he', hbody⟩
  rcases hstep empty entries h with hempty | hmade
  · cases hempty
  · exact hmade

end Scope

end MoonGen

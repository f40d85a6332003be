import Mathlib.Algebra.BigOperators.Group.List.Basic
import Mathlib.Algebra.Order.Ring.Nat
import Mathlib.Data.Rat.Floor

/-! # The bins of the latency benchmark

The embedding of `benchmark:toTikz` in `rfc2544/benchmarks/latency.lua`. The doubles are exact
rationals, and a quotient by zero is what doubles make of it. The width of a bin comes from
the quartiles of the samples. Samples that are so concentrated that the quartiles agree give
bins of width zero: the script then writes bins without end, or fails when all samples agree.
-/

namespace MoonGen.Rfc2544

/-- A result of double arithmetic, with an exact value where it is finite. -/
inductive Number (α : Type) where
  | finite (a : α)
  | inf (negative : Bool)
  | nan
deriving Repr, DecidableEq

namespace Number

def div (a b : Rat) : Number Rat :=
  if b ≠ 0 then .finite (a / b) else if a = 0 then .nan else .inf (decide (a < 0))

/-- `math.ceil` and `math.floor` leave what is not finite as it is. -/
def map {α β : Type} (f : α → β) : Number α → Number β
  | .finite a => .finite (f a)
  | .inf negative => .inf negative
  | .nan => .nan

theorem div_of_ne_zero (a : Rat) {b : Rat} (h : b ≠ 0) : div a b = .finite (a / b) := if_pos h

theorem div_zero_pos {a : Rat} (h : 0 < a) : div a 0 = .inf false := by
  simp [div, h.ne', h.le]

theorem zero_div_zero : div 0 0 = .nan := by
  simp [div]

end Number

inductive Failure where
  | raised
  | endless
deriving Repr, DecidableEq

/-- A latency histogram after `calc`: its table in the order of `pairs`, the same entries by
key, and the quartiles. -/
structure Latencies where
  histo : List (Rat × Nat)
  sortedHisto : List (Rat × Nat)
  numSamples : Nat
  q1 : Rat
  q3 : Rat
  perm : sortedHisto.Perm histo
  sorted : sortedHisto.Pairwise fun a b => a.1 < b.1
  numSamples_eq : numSamples = (histo.map Prod.snd).sum
  numSamples_pos : 0 < numSamples
  quartiles_le : q1 ≤ q3

structure Plot where
  bins : List Nat
  histo : List (Rat × Rat)
  cdf : List (Rat × Rat)
deriving Repr, DecidableEq

namespace Latencies

theorem sortedHisto_ne_nil (r : Latencies) : r.sortedHisto ≠ [] := by
  intro hnil
  have hpos := r.numSamples_pos
  have hempty : r.histo = [] := List.nil_perm.mp (hnil ▸ r.perm)
  rw [r.numSamples_eq, hempty] at hpos
  exact Nat.lt_irrefl 0 hpos

def min (r : Latencies) : Rat := (r.sortedHisto.head r.sortedHisto_ne_nil).1

def max (r : Latencies) : Rat := (r.sortedHisto.getLast r.sortedHisto_ne_nil).1

theorem min_le (r : Latencies) {e : Rat × Nat} (h : e ∈ r.histo) : r.min ≤ e.1 := by
  have hmem := r.perm.mem_iff.mpr h
  have hsorted := r.sorted
  unfold min
  generalize_proofs hne
  rw [← List.cons_head_tail hne] at hmem hsorted
  rcases List.mem_cons.mp hmem with hmem | hmem
  · rw [hmem]
  · exact (List.rel_of_pairwise_cons hsorted hmem).le

theorem le_max (r : Latencies) {e : Rat × Nat} (h : e ∈ r.histo) : e.1 ≤ r.max := by
  have hmem := r.perm.mem_iff.mpr h
  have hsorted := r.sorted
  unfold max
  generalize_proofs hne
  rw [← List.dropLast_append_getLast hne] at hmem hsorted
  rcases List.mem_append.mp hmem with hmem | hmem
  · exact ((List.pairwise_append.mp hsorted).2.2 e hmem _ (List.mem_singleton_self _)).le
  · rw [List.mem_singleton.mp hmem]

section Script

-- `sqrt n` is what the script gets for `n ^ (1/2)`.
variable (sqrt : Nat → Rat)

def binWidth (r : Latencies) : Rat := (r.q3 - r.q1) / sqrt r.numSamples

def numBins (r : Latencies) : Number Int :=
  (Number.div (r.max - r.min) (r.binWidth sqrt)).map fun q => ⌈q⌉ + 1

def binOf (r : Latencies) (k : Rat) : Number Int :=
  (Number.div (k - r.min) (r.binWidth sqrt)).map fun q => ⌊q⌋ + 1

end Script

end Latencies

/-- `for j=1, numBins do bins[j] = 0 end`; the comparison with a `nan` fails at once. -/
def emptyBins : Number Int → Except Failure (List Nat)
  | .finite n => .ok (List.replicate n.toNat 0)
  | .inf true => .ok []
  | .inf false => .error .endless
  | .nan => .ok []

/-- `bins[j] = bins[j] + v`; there is no arithmetic on a bin that does not exist. -/
def addTo (bins : List Nat) (j : Number Int) (v : Nat) : Except Failure (List Nat) :=
  match j with
  | .finite j =>
      if 1 ≤ j ∧ j ≤ bins.length then .ok (bins.modify (j.toNat - 1) (· + v)) else .error .raised
  | _ => .error .raised

/-- The points of the bins from number `k` on, `sum` samples being in those before. -/
def points (binWidth min : Rat) (numSamples : Nat) :
    Nat → Nat → List Nat → List (Rat × Rat) × List (Rat × Rat)
  | _, _, [] => ([], [])
  | k, sum, v :: rest =>
      let x := ((k : Rat) - 1) * binWidth + min
      let sum := sum + v
      let (histo, cdf) := points binWidth min numSamples (k + 1) sum rest
      ((x / 1000, (v : Rat) / numSamples * 100) :: histo, (x / 1000, (sum : Rat) / numSamples) :: cdf)

namespace Latencies

section Script

variable (sqrt : Nat → Rat)

def fillBins (r : Latencies) (bins : List Nat) : Except Failure (List Nat) :=
  r.histo.foldlM (fun bins e => addTo bins (r.binOf sqrt e.1) e.2) bins

/-- The loop body of `toTikz`. -/
def plot (r : Latencies) : Except Failure Plot := do
  let bins ← emptyBins (r.numBins sqrt)
  let bins ← r.fillBins sqrt bins
  let (histo, cdf) := points (r.binWidth sqrt) r.min r.numSamples 1 0 bins
  pure ⟨bins, histo, cdf⟩

def toTikz (results : List Latencies) : Except Failure (List Plot) := results.mapM (plot sqrt)

/-- The number of bins is finite, every key has its bin, every sample is in one, and the
distribution function ends at 1. -/
structure LosesNoSample (r : Latencies) (p : Plot) : Prop where
  numBins : r.numBins sqrt = .finite p.bins.length
  binOf : ∀ e ∈ r.histo, ∃ j, r.binOf sqrt e.1 = .finite j ∧ 1 ≤ j ∧ j ≤ p.bins.length
  sum : p.bins.sum = r.numSamples
  cdf : p.cdf.getLast?.map Prod.snd = some 1

end Script

end Latencies

/-! ## Filling the bins -/

theorem sum_modify (v : Nat) {bins : List Nat} {i : Nat} (h : i < bins.length) :
    (bins.modify i (· + v)).sum = bins.sum + v := by
  induction bins generalizing i with
  | nil => exact absurd h (Nat.not_lt_zero i)
  | cons b rest ih =>
      cases i with
      | zero =>
          rw [List.modify_zero_cons, List.sum_cons, List.sum_cons]
          omega
      | succ i =>
          rw [List.modify_succ_cons, List.sum_cons, List.sum_cons, ih (Nat.lt_of_succ_lt_succ h)]
          omega

theorem addTo_spec (v : Nat) {bins : List Nat} {j : Int} (h1 : 1 ≤ j) (hle : j ≤ bins.length) :
    ∃ bins', addTo bins (.finite j) v = .ok bins' ∧ bins'.length = bins.length ∧
      bins'.sum = bins.sum + v := by
  refine ⟨_, if_pos ⟨h1, hle⟩, List.length_modify .., ?_⟩
  apply sum_modify
  omega

theorem foldlM_addTo (index : Rat → Number Int) {n : Nat} (entries : List (Rat × Nat))
    (hindex : ∀ e ∈ entries, ∃ j, index e.1 = .finite j ∧ 1 ≤ j ∧ j ≤ n) {bins : List Nat}
    (hn : bins.length = n) :
    ∃ bins', entries.foldlM (fun bins e => addTo bins (index e.1) e.2) bins = .ok bins' ∧
      bins'.length = n ∧ bins'.sum = bins.sum + (entries.map Prod.snd).sum := by
  induction entries generalizing bins with
  | nil => exact ⟨bins, rfl, hn, rfl⟩
  | cons e rest ih =>
      rcases hindex e List.mem_cons_self with ⟨j, hj, h1, hle⟩
      rcases addTo_spec e.2 h1 (hn ▸ hle) with ⟨next, hnext, hlength, hsum⟩
      rcases ih (fun e he => hindex e (List.mem_cons_of_mem _ he)) (hlength.trans hn) with
        ⟨last, hlast, hlength', hsum'⟩
      refine ⟨last, ?_, hlength', ?_⟩
      · rw [List.foldlM_cons, hj, hnext]
        exact hlast
      · rw [hsum', hsum, List.map_cons, List.sum_cons]
        omega

/-- The distribution function ends at the share of all samples that are in the bins. -/
theorem points_getLast (binWidth min : Rat) (numSamples k sum : Nat) {bins : List Nat}
    (hne : bins ≠ []) :
    (points binWidth min numSamples k sum bins).2.getLast?.map Prod.snd =
      some (((sum + bins.sum : Nat) : Rat) / numSamples) := by
  induction bins generalizing k sum with
  | nil => exact absurd rfl hne
  | cons v rest ih =>
      cases rest with
      | nil => simp [points]
      | cons w rest =>
          have hrest := ih (k + 1) (sum + v) (List.cons_ne_nil w rest)
          rw [List.sum_cons, ← Nat.add_assoc, ← hrest]
          simp only [points, List.getLast?_cons_cons]

namespace Latencies

section Script

variable {sqrt : Nat → Rat} (r : Latencies)

theorem exists_entry : ∃ e, e ∈ r.histo :=
  ⟨_, r.perm.mem_iff.mp (List.head_mem r.sortedHisto_ne_nil)⟩

theorem min_le_max : r.min ≤ r.max := by
  rcases r.exists_entry with ⟨e, he⟩
  exact (r.min_le he).trans (r.le_max he)

theorem binWidth_pos (hsqrt : ∀ n, 0 < n → 0 < sqrt n) (hlt : r.q1 < r.q3) :
    0 < r.binWidth sqrt :=
  div_pos (sub_pos.mpr hlt) (hsqrt _ r.numSamples_pos)

theorem binOf_spec (hwidth : 0 < r.binWidth sqrt) {e : Rat × Nat} (he : e ∈ r.histo) :
    ∃ j, r.binOf sqrt e.1 = .finite j ∧ 1 ≤ j ∧
      j ≤ ⌈(r.max - r.min) / r.binWidth sqrt⌉ + 1 := by
  refine ⟨⌊(e.1 - r.min) / r.binWidth sqrt⌋ + 1, ?_, ?_, ?_⟩
  · rw [binOf, Number.div_of_ne_zero _ hwidth.ne']
    rfl
  · have hnonneg : 0 ≤ (e.1 - r.min) / r.binWidth sqrt :=
      div_nonneg (sub_nonneg.mpr (r.min_le he)) hwidth.le
    have := Int.floor_nonneg.mpr hnonneg
    omega
  · have hle : (e.1 - r.min) / r.binWidth sqrt ≤ (r.max - r.min) / r.binWidth sqrt :=
      div_le_div_of_nonneg_right (sub_le_sub_right (r.le_max he) _) hwidth.le
    have := (Int.floor_le_floor hle).trans (Int.floor_le_ceil _)
    omega

theorem plot_of_emptyBins {empty : List Nat} (h : emptyBins (r.numBins sqrt) = .ok empty) :
    r.plot sqrt = (do
      let bins ← r.fillBins sqrt empty
      let (histo, cdf) := points (r.binWidth sqrt) r.min r.numSamples 1 0 bins
      pure ⟨bins, histo, cdf⟩) := by
  rw [plot, h]
  rfl

theorem plot_of_lt (hsqrt : ∀ n, 0 < n → 0 < sqrt n) (hlt : r.q1 < r.q3) :
    ∃ p, r.plot sqrt = .ok p ∧ r.LosesNoSample sqrt p := by
  have hwidth := r.binWidth_pos hsqrt hlt
  have hspread : 0 ≤ ⌈(r.max - r.min) / r.binWidth sqrt⌉ :=
    Int.ceil_nonneg (div_nonneg (sub_nonneg.mpr r.min_le_max) hwidth.le)
  have hnum : r.numBins sqrt = .finite (⌈(r.max - r.min) / r.binWidth sqrt⌉ + 1) := by
    rw [numBins, Number.div_of_ne_zero _ hwidth.ne']
    rfl
  generalize hn : ⌈(r.max - r.min) / r.binWidth sqrt⌉ + 1 = n at hnum
  have hkeys : ∀ e ∈ r.histo, ∃ j, r.binOf sqrt e.1 = .finite j ∧ 1 ≤ j ∧ j ≤ n.toNat := by
    intro e he
    rcases r.binOf_spec hwidth he with ⟨j, hj, h1, hle⟩
    exact ⟨j, hj, h1, by omega⟩
  rcases foldlM_addTo (r.binOf sqrt) r.histo hkeys (List.length_replicate (a := 0)) with
    ⟨bins, hbins, hlength, hsum⟩
  rw [List.sum_replicate, nsmul_zero, Nat.zero_add, ← r.numSamples_eq] at hsum
  have hne : bins ≠ [] := List.ne_nil_of_length_pos (by omega)
  have hfill : r.fillBins sqrt (List.replicate n.toNat 0) = .ok bins := hbins
  have hplot : r.plot sqrt = .ok ⟨bins, (points (r.binWidth sqrt) r.min r.numSamples 1 0 bins).1,
      (points (r.binWidth sqrt) r.min r.numSamples 1 0 bins).2⟩ := by
    rw [r.plot_of_emptyBins (congrArg emptyBins hnum), hfill]
    rfl
  refine ⟨_, hplot, ?_, ?_, hsum, ?_⟩
  · rw [hnum, hlength, Int.toNat_of_nonneg (by omega)]
  · rw [hlength]
    exact hkeys
  · have hpos : ((r.numSamples : Nat) : Rat) ≠ 0 := Nat.cast_ne_zero.mpr r.numSamples_pos.ne'
    rw [points_getLast _ _ _ _ _ hne, Nat.zero_add, hsum, div_self hpos]

/-- Quartiles that agree leave bins of width zero. -/
theorem plot_of_eq (heq : r.q1 = r.q3) :
    r.plot sqrt = .error (if r.min < r.max then .endless else .raised) := by
  have hwidth : r.binWidth sqrt = 0 := by
    rw [binWidth, heq, sub_self, zero_div]
  by_cases hspread : r.min < r.max
  · have hnum : r.numBins sqrt = .inf false := by
      rw [numBins, hwidth, Number.div_zero_pos (sub_pos.mpr hspread)]
      rfl
    rw [if_pos hspread, plot, hnum]
    rfl
  · have hsame : r.max = r.min := le_antisymm (not_lt.mp hspread) r.min_le_max
    have hnum : r.numBins sqrt = .nan := by
      rw [numBins, hwidth, hsame, sub_self, Number.zero_div_zero]
      rfl
    have hfill : r.fillBins sqrt [] = .error .raised := by
      unfold fillBins
      rcases r.exists_entry with ⟨e, he⟩
      cases hhisto : r.histo with
      | nil =>
          rw [hhisto] at he
          cases he
      | cons first rest =>
          have hfirst : first ∈ r.histo := hhisto ▸ List.mem_cons_self
          have hkey : first.1 = r.min :=
            le_antisymm (hsame ▸ r.le_max hfirst) (r.min_le hfirst)
          rw [List.foldlM_cons, binOf, hwidth, hkey, sub_self, Number.zero_div_zero]
          rfl
    rw [if_neg hspread, r.plot_of_emptyBins (congrArg emptyBins hnum), hfill]
    rfl

end Script

theorem toTikz_cons_error {sqrt : Nat → Rat} {r : Latencies} {e : Failure}
    (rest : List Latencies) (h : r.plot sqrt = .error e) :
    toTikz sqrt (r :: rest) = .error e := by
  rw [toTikz, List.mapM_cons, h]
  rfl

theorem toTikz_cons_ok {sqrt : Nat → Rat} {r : Latencies} {rest : List Latencies}
    {plots : List Plot} :
    toTikz sqrt (r :: rest) = .ok plots ↔
      ∃ p ps, plots = p :: ps ∧ r.plot sqrt = .ok p ∧ toTikz sqrt rest = .ok ps := by
  simp only [toTikz, List.mapM_cons]
  cases hp : r.plot sqrt with
  | error e => simp [bind, Except.bind]
  | ok p =>
      cases hps : rest.mapM (plot sqrt) with
      | error e => simp [bind, Except.bind]
      | ok ps => simp [bind, Except.bind, pure, Except.pure, eq_comm]

/-- The plots lose no sample exactly when the quartiles of every result differ. -/
theorem toTikz_losesNoSample_iff (sqrt : Nat → Rat) (hsqrt : ∀ n, 0 < n → 0 < sqrt n)
    (results : List Latencies) :
    (∃ plots, toTikz sqrt results = .ok plots ∧
        List.Forall₂ (LosesNoSample sqrt) results plots) ↔
      ∀ r ∈ results, r.q1 < r.q3 := by
  induction results with
  | nil => simp [toTikz, pure, Except.pure]
  | cons r rest ih =>
      rw [List.forall_mem_cons, ← ih]
      constructor
      · rintro ⟨plots, hplots, hall⟩
        rcases toTikz_cons_ok.mp hplots with ⟨p, ps, rfl, hp, hps⟩
        have htail := (List.forall₂_cons.mp hall).2
        refine ⟨lt_of_le_of_ne r.quartiles_le ?_, ps, hps, htail⟩
        intro heq
        rw [r.plot_of_eq heq] at hp
        cases hp
      · rintro ⟨hlt, ps, hps, hall⟩
        rcases r.plot_of_lt hsqrt hlt with ⟨p, hp, hr⟩
        exact ⟨p :: ps, toTikz_cons_ok.mpr ⟨p, ps, rfl, hp, hps⟩, .cons hr hall⟩

end Latencies

/-- Nine samples at `10` and one at `20`, with both quartiles at `10`. -/
def Latencies.concentrated : Latencies where
  histo := [(20, 1), (10, 9)]
  sortedHisto := [(10, 9), (20, 1)]
  numSamples := 10
  q1 := 10
  q3 := 10
  perm := List.Perm.swap _ _ _
  sorted := by norm_num
  numSamples_eq := rfl
  numSamples_pos := by decide
  quartiles_le := le_refl _

def Latencies.constant : Latencies where
  histo := [(10, 4)]
  sortedHisto := [(10, 4)]
  numSamples := 4
  q1 := 10
  q3 := 10
  perm := List.Perm.refl _
  sorted := by simp
  numSamples_eq := rfl
  numSamples_pos := by decide
  quartiles_le := le_refl _

def Latencies.spread : Latencies where
  histo := [(12, 2), (10, 1), (11, 1)]
  sortedHisto := [(10, 1), (11, 1), (12, 2)]
  numSamples := 4
  q1 := 11
  q3 := 12
  perm := by decide
  sorted := by norm_num
  numSamples_eq := rfl
  numSamples_pos := by decide
  quartiles_le := by norm_num

theorem toTikz_spread :
    (∀ n : Nat, 0 < n → (0 : Rat) < Nat.sqrt n) ∧
      ∃ plots, Latencies.toTikz (fun n => Nat.sqrt n) [Latencies.spread] = .ok plots ∧
        List.Forall₂ (Latencies.LosesNoSample fun n => Nat.sqrt n) [Latencies.spread] plots := by
  have hsqrt : ∀ n : Nat, 0 < n → (0 : Rat) < Nat.sqrt n := by
    intro n hn
    exact_mod_cast Nat.sqrt_pos.mpr hn
  refine ⟨hsqrt, (Latencies.toTikz_losesNoSample_iff _ hsqrt [Latencies.spread]).mpr ?_⟩
  rw [List.forall_mem_singleton]
  norm_num [Latencies.spread]

/-- Bins without end for concentrated samples, an error for constant ones. -/
theorem toTikz_concentrated :
    Latencies.toTikz (fun n => Nat.sqrt n) [Latencies.concentrated] = .error .endless ∧
      Latencies.toTikz (fun n => Nat.sqrt n) [Latencies.constant] = .error .raised := by
  have hspread : Latencies.concentrated.min < Latencies.concentrated.max := by
    norm_num [Latencies.min, Latencies.max, Latencies.concentrated]
  have hsame : ¬ Latencies.constant.min < Latencies.constant.max := by
    norm_num [Latencies.min, Latencies.max, Latencies.constant]
  constructor
  · apply Latencies.toTikz_cons_error
    rw [Latencies.concentrated.plot_of_eq rfl, if_pos hspread]
  · apply Latencies.toTikz_cons_error
    rw [Latencies.constant.plot_of_eq rfl, if_neg hsame]

end MoonGen.Rfc2544

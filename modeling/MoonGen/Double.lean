/-! # The arithmetic of the rate limiters

The limiters mix 64-bit integers and doubles. `Double` lists the operations they
use and nothing about them, so a statement over any `Double` holds for IEEE
arithmetic and its rounding. The instance on the rationals is exact.
-/

namespace MoonGen

class Double (D : Type) where
  ofUInt64 : UInt64 → D
  /-- `pkt_len + 24`, a sum of 32 bits, converted to a double. -/
  frameBytes : UInt32 → D
  /-- `(pkt_len + 24) * 8`, a product of 32 bits, converted to a double. -/
  frameBits : UInt32 → D
  add : D → D → D
  sub : D → D → D
  mul : D → D → D
  div : D → D → D
  lt : D → D → Bool
  toUInt64 : D → UInt64

namespace Double

variable {D : Type} [Double D]

/-- The macro `MIN(a, b)`. -/
def min (a b : D) : D := if lt a b then a else b

/-- The macro `MAX(a, b)`. -/
def max (a b : D) : D := if lt b a then a else b

/-- Exact arithmetic. The conversion to an integer truncates. -/
instance exact : Double Rat where
  ofUInt64 n := n.toNat
  frameBytes len := (len + 24).toNat
  frameBits len := ((len + 24) * 8).toNat
  add := (· + ·)
  sub := (· - ·)
  mul := (· * ·)
  div := (· / ·)
  lt a b := a < b
  toUInt64 q := UInt64.ofNat q.floor.toNat

@[simp] theorem ofUInt64_rat (n : UInt64) : (ofUInt64 n : Rat) = n.toNat := rfl
@[simp] theorem add_rat (a b : Rat) : add a b = a + b := rfl
@[simp] theorem sub_rat (a b : Rat) : sub a b = a - b := rfl
@[simp] theorem mul_rat (a b : Rat) : mul a b = a * b := rfl
@[simp] theorem div_rat (a b : Rat) : div a b = a / b := rfl

@[simp] theorem lt_rat (a b : Rat) : lt a b = true ↔ a < b := by
  exact decide_eq_true_iff

end Double

end MoonGen

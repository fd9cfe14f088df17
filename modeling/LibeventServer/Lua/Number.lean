import LibeventServer.Lib.Rounding
import Mathlib.Data.Rat.Floor

/-!
# Lua numbers

The integers and floats of Lua 5.3, both by their value.  A float is a double: 53 bits, and no exponent below -1074.
-/

namespace LibeventServer.Lua

/-- A Lua number by its value.  An integer and a float of one value are one number, and so are the two zeros. -/
inductive Number where
  | finite (q : ℚ)
  | inf (neg : Bool)
  | nan
  deriving DecidableEq

/-- The double nearest to a number. -/
def toDouble {K : Type} [Field K] [LinearOrder K] [FloorRing K] (x : K) : ℚ := Rounding.toNearest 53 (-1074) x

/-- The values of finite floats. -/
structure IsDouble (q : ℚ) : Prop where
  representable : Rounding.Representable 53 (-1074) q
  lt : |q| < 2 ^ 1024

/-- The values of finite numbers: doubles, and the integers of 64 bits. -/
def Number.Valid : Number → Prop
  | finite q => IsDouble q ∨ ∃ n : ℤ, q = n ∧ -2 ^ 63 ≤ n ∧ n < 2 ^ 63
  | inf _ => True
  | nan => True

/-- `a > b` -/
def Number.gt : Number → Number → Bool
  | finite a, finite b => a > b
  | inf false, finite _ => true
  | inf false, inf true => true
  | finite _, inf true => true
  | _, _ => false

/-- The number as which the result of a computation is stored. -/
def Number.store {K : Type} [Field K] [LinearOrder K] [FloorRing K] (x : K) : Number :=
  if |toDouble x| < 2 ^ 1024 then .finite (toDouble x) else .inf (x < 0)

/-- `math.frexp(n)`, for a finite `n`. -/
def frexp (n : ℚ) : ℚ × ℤ := if n = 0 then (0, 0) else (n / 2 ^ (Int.log 2 |n| + 1), Int.log 2 |n| + 1)

/-- `math.ldexp(m, e)`: exact, and then stored as a double. -/
def ldexp (m : ℚ) (e : ℤ) : ℚ := toDouble (m * 2 ^ e)

/-- `floor(n / k)`, for integers: `/` converts them to floats. -/
def floorDiv (n k : ℤ) : ℤ := ⌊toDouble (toDouble (n : ℚ) / k)⌋

end LibeventServer.Lua

import Mathlib.Algebra.Order.Field.Power
import Mathlib.Algebra.Order.Round
import Mathlib.Data.Int.Log
import Mathlib.Data.Rat.Floor
import Mathlib.Tactic.FieldSimp
import Mathlib.Tactic.Linarith
import Mathlib.Tactic.Positivity
import Mathlib.Tactic.Ring

/-!
# Rounding to a binary format

A binary format has a precision `p` and a least exponent `emin`: its numbers are `m * 2 ^ e` with `|m| < 2 ^ p` and
`emin ≤ e` (`Representable`).  `toNearest p emin x` is the number of the format that is nearest to `x`, the even one
of two that are equally near.

`toNearest_of_representable`: a number of the format is left as it is; `representable_toNearest`: others become one.
-/

namespace Rounding

section

variable {K : Type*} [Field K] [LinearOrder K] [FloorRing K]

/-- The nearest integer, and the even one of two. -/
def roundEven (x : K) : ℤ :=
  if x - ⌊x⌋ < 1 / 2 then ⌊x⌋
  else if 1 / 2 < x - ⌊x⌋ then ⌊x⌋ + 1
  else if ⌊x⌋ % 2 = 0 then ⌊x⌋
  else ⌊x⌋ + 1

/-- The exponent of the last place of `x`. -/
def lastPlace (p : ℕ) (emin : ℤ) (x : K) : ℤ := max (Int.log 2 |x| + 1 - p) emin

/-- The nearest number of the format. -/
def toNearest (p : ℕ) (emin : ℤ) (x : K) : ℚ :=
  roundEven (x / 2 ^ lastPlace p emin x) * 2 ^ lastPlace p emin x

end

/-- The numbers of a format. -/
def Representable (p : ℕ) (emin : ℤ) (q : ℚ) : Prop := ∃ m e : ℤ, |m| < 2 ^ p ∧ emin ≤ e ∧ q = m * 2 ^ e

section

variable {K : Type*} [Field K] [LinearOrder K] [IsStrictOrderedRing K] [FloorRing K] {p : ℕ} {emin : ℤ}

@[simp] theorem roundEven_intCast (n : ℤ) : roundEven (n : K) = n := by
  simp [roundEven]

omit [IsStrictOrderedRing K] in
theorem floor_le_roundEven (x : K) : ⌊x⌋ ≤ roundEven x ∧ roundEven x ≤ ⌊x⌋ + 1 := by
  unfold roundEven
  split
  · omega
  · split
    · omega
    · split <;> omega

/-- The number at the last place is below the next power of two. -/
theorem abs_div_lastPlace_lt (p : ℕ) (emin : ℤ) (x : K) : |x| / 2 ^ lastPlace p emin x < 2 ^ p := by
  have hpos : (0 : K) < 2 ^ lastPlace p emin x := by positivity
  rw [div_lt_iff₀ hpos]
  have hlog : |x| < ((2 : ℕ) : K) ^ (Int.log 2 |x| + 1) := Int.lt_zpow_succ_log_self one_lt_two |x|
  have hexp : Int.log 2 |x| + 1 ≤ p + lastPlace p emin x := by
    have := le_max_left (Int.log 2 |x| + 1 - p) emin
    unfold lastPlace
    omega
  rw [Nat.cast_ofNat] at hlog
  calc |x| < 2 ^ (Int.log 2 |x| + 1) := hlog
    _ ≤ 2 ^ ((p : ℤ) + lastPlace p emin x) := zpow_le_zpow_right₀ one_le_two hexp
    _ = 2 ^ p * 2 ^ lastPlace p emin x := by rw [zpow_add₀ two_ne_zero, zpow_natCast]

/-- The last place of a number of the format is at most its exponent. -/
theorem lastPlace_le {m e : ℤ} (hm : |m| < 2 ^ p) (he : emin ≤ e) (hm0 : m ≠ 0) :
    lastPlace p emin ((m : K) * 2 ^ e) ≤ e := by
  refine max_le ?_ he
  have hpos : (0 : K) < |(m : K) * 2 ^ e| := abs_pos.2 (mul_ne_zero (Int.cast_ne_zero.2 hm0) (by positivity))
  have habs : |(m : K) * 2 ^ e| = (|m| : ℤ) * 2 ^ e := by
    rw [abs_mul, Int.cast_abs, abs_of_pos (show (0 : K) < 2 ^ e by positivity)]
  have hlt : |(m : K) * 2 ^ e| < ((2 : ℕ) : K) ^ ((p : ℤ) + e) := by
    rw [habs, Nat.cast_ofNat, zpow_add₀ two_ne_zero, zpow_natCast]
    have hcast : ((|m| : ℤ) : K) < 2 ^ p := by exact_mod_cast hm
    exact mul_lt_mul_of_pos_right hcast (by positivity)
  have hlog := (Int.lt_zpow_iff_log_lt one_lt_two hpos).1 hlt
  omega

/-- A number of the format is left as it is. -/
theorem toNearest_of_representable {q : ℚ} (h : Representable p emin q) : toNearest p emin (q : K) = q := by
  obtain ⟨m, e, hm, he, rfl⟩ := h
  by_cases hm0 : m = 0
  · simp [hm0, toNearest, roundEven]
  · have hcast : (((m : ℚ) * 2 ^ e : ℚ) : K) = (m : K) * 2 ^ e := by push_cast; rfl
    rw [toNearest, hcast]
    have hle := lastPlace_le (K := K) hm he hm0
    generalize lastPlace p emin ((m : K) * 2 ^ e) = u at hle ⊢
    obtain ⟨k, hk⟩ : ∃ k : ℕ, e = u + k := ⟨(e - u).toNat, by omega⟩
    subst hk
    have hquot : (m : K) * 2 ^ (u + (k : ℤ)) / 2 ^ u = ((m * 2 ^ k : ℤ) : K) := by
      rw [zpow_add₀ two_ne_zero, zpow_natCast]
      push_cast
      field_simp
    rw [hquot, roundEven_intCast, zpow_add₀ two_ne_zero, zpow_natCast]
    push_cast
    ring

/-- The nearest number is one of the format. -/
theorem representable_toNearest (hp : 0 < p) (x : K) : Representable p emin (toNearest p emin x) := by
  have hlt := abs_div_lastPlace_lt p emin x
  have hmin : emin ≤ lastPlace p emin x := le_max_right _ _
  rw [toNearest]
  generalize lastPlace p emin x = u at hlt hmin ⊢
  have hpos : (0 : K) < 2 ^ u := by positivity
  have habs : |x / 2 ^ u| = |x| / 2 ^ u := by rw [abs_div, abs_of_pos hpos]
  have hpow : ((2 ^ p : ℤ) : K) = 2 ^ p := by push_cast; rfl
  rw [← habs, abs_lt, ← hpow, ← Int.cast_neg] at hlt
  have hfloor : -2 ^ p ≤ ⌊x / 2 ^ u⌋ ∧ ⌊x / 2 ^ u⌋ < 2 ^ p :=
    ⟨Int.le_floor.2 hlt.1.le, Int.floor_lt.2 hlt.2⟩
  obtain ⟨hge, hle⟩ := floor_le_roundEven (x / 2 ^ u)
  by_cases hcarry : |roundEven (x / 2 ^ u)| < 2 ^ p
  · exact ⟨_, u, hcarry, hmin, rfl⟩
  · -- the carry: the number is a power of two, one place up
    obtain ⟨q, rfl⟩ : ∃ q, p = q + 1 := ⟨p - 1, by omega⟩
    have hq : (0 : ℤ) < 2 ^ q := by positivity
    have hcases : roundEven (x / 2 ^ u) = 2 ^ (q + 1) ∨ roundEven (x / 2 ^ u) = -2 ^ (q + 1) := by
      rw [abs_lt] at hcarry
      omega
    rcases hcases with h | h
    · refine ⟨2 ^ q, u + 1, ?_, by omega, ?_⟩
      · rw [abs_of_pos hq, pow_succ]
        omega
      · rw [h, zpow_add_one₀ two_ne_zero]
        push_cast
        ring
    · refine ⟨-2 ^ q, u + 1, ?_, by omega, ?_⟩
      · rw [abs_neg, abs_of_pos hq, pow_succ]
        omega
      · rw [h, zpow_add_one₀ two_ne_zero]
        push_cast
        ring

end

section

variable {p : ℕ} {emin : ℤ} {q : ℚ}

/-- The nearest number is less than one last place away. -/
theorem abs_toNearest_sub_le (p : ℕ) (emin : ℤ) (q : ℚ) : |toNearest p emin q - q| ≤ 2 ^ lastPlace p emin q := by
  rw [toNearest]
  generalize lastPlace p emin q = u
  have hpos : (0 : ℚ) < 2 ^ u := by positivity
  obtain ⟨hge, hle⟩ := floor_le_roundEven (q / 2 ^ u)
  have hge' : (⌊q / 2 ^ u⌋ : ℚ) ≤ roundEven (q / 2 ^ u) := by exact_mod_cast hge
  have hle' : (roundEven (q / 2 ^ u) : ℚ) ≤ ⌊q / 2 ^ u⌋ + 1 := by exact_mod_cast hle
  have hfloor := Int.floor_le (q / 2 ^ u)
  have hlt := Int.lt_floor_add_one (q / 2 ^ u)
  have hdiff : (roundEven (q / 2 ^ u) : ℚ) * 2 ^ u - q = (roundEven (q / 2 ^ u) - q / 2 ^ u) * 2 ^ u := by
    rw [sub_mul, div_mul_cancel₀ q hpos.ne']
  rw [hdiff, abs_mul, abs_of_pos hpos]
  refine mul_le_of_le_one_left hpos.le (abs_le.2 ⟨by linarith, by linarith⟩)

theorem Representable.abs (h : Representable p emin q) : Representable p emin |q| := by
  obtain ⟨m, e, hm, he, rfl⟩ := h
  refine ⟨|m|, e, by rwa [abs_abs], he, ?_⟩
  rw [abs_mul, Int.cast_abs, abs_of_pos (show (0 : ℚ) < 2 ^ e by positivity)]

/-- Integers of at most `p` bits. -/
theorem representable_intCast {n : ℤ} (hemin : emin ≤ 0) (hp : 0 < p) (hn : |n| ≤ 2 ^ p) :
    Representable p emin n := by
  rcases hn.lt_or_eq with hlt | heq
  · exact ⟨n, 0, hlt, hemin, by simp⟩
  · obtain ⟨k, rfl⟩ : ∃ k, p = k + 1 := ⟨p - 1, by omega⟩
    have hk : (0 : ℤ) < 2 ^ k := by positivity
    rcases (abs_eq (by positivity)).1 heq with rfl | rfl
    · refine ⟨2 ^ k, 1, ?_, by omega, ?_⟩
      · rw [abs_of_pos hk, pow_succ]
        omega
      · push_cast
        rw [pow_succ]
    · refine ⟨-2 ^ k, 1, ?_, by omega, ?_⟩
      · rw [abs_neg, abs_of_pos hk, pow_succ]
        omega
      · push_cast
        rw [pow_succ]
        ring

/-- The relative error, away from the least exponent. -/
theorem abs_toNearest_sub_le_mul (h : emin ≤ Int.log 2 |q| + 1 - p) (hq : q ≠ 0) :
    |toNearest p emin q - q| ≤ |q| * (2 / 2 ^ p) := by
  refine (abs_toNearest_sub_le p emin q).trans ?_
  have hpow : ((2 : ℕ) : ℚ) ^ Int.log 2 |q| ≤ |q| := Int.zpow_log_le_self one_lt_two (abs_pos.2 hq)
  rw [lastPlace, max_eq_left h, zpow_sub₀ two_ne_zero, zpow_add_one₀ two_ne_zero, zpow_natCast, mul_div_assoc]
  exact mul_le_mul_of_nonneg_right (by exact_mod_cast hpow) (by positivity)

/-- A number of the format is a multiple of its last place. -/
theorem exists_eq_mul_zpow (h : Representable p emin q) {u : ℤ} (hu : u ≤ lastPlace p emin q) :
    ∃ n : ℤ, q = n * 2 ^ u := by
  obtain ⟨m, e, hm, he, rfl⟩ := h
  by_cases hm0 : m = 0
  · exact ⟨0, by simp [hm0]⟩
  · obtain ⟨k, rfl⟩ : ∃ k : ℕ, e = u + k := ⟨(e - u).toNat, by have := lastPlace_le (K := ℚ) hm he hm0; omega⟩
    refine ⟨m * 2 ^ k, ?_⟩
    rw [zpow_add₀ two_ne_zero, zpow_natCast]
    push_cast
    ring

/-- The number nearest to an integer is an integer. -/
theorem exists_toNearest_intCast (p : ℕ) (emin : ℤ) (hemin : emin ≤ 0) (hp : 0 < p) (n : ℤ) :
    ∃ d : ℤ, toNearest p emin (n : ℚ) = d := by
  rcases le_or_gt |n| (2 ^ p) with hle | hgt
  · have hself := toNearest_of_representable (K := ℚ) (representable_intCast hemin hp hle)
    rw [Rat.cast_id] at hself
    exact ⟨n, hself⟩
  · -- the last place is a power of two that is an integer
    have hlog : (p : ℤ) ≤ Int.log 2 |(n : ℚ)| := by
      refine (Int.zpow_le_iff_le_log one_lt_two (abs_pos.2 ?_)).1 ?_
      · rintro h0
        rw [Int.cast_eq_zero] at h0
        subst h0
        rw [abs_zero] at hgt
        exact absurd hgt (not_lt.2 (by positivity))
      · rw [Nat.cast_ofNat, zpow_natCast]
        exact_mod_cast hgt.le
    obtain ⟨k, hk⟩ : ∃ k : ℕ, lastPlace p emin (n : ℚ) = k := by
      have hle := le_max_left (Int.log 2 |(n : ℚ)| + 1 - p) emin
      exact ⟨(lastPlace p emin (n : ℚ)).toNat, by rw [Int.toNat_of_nonneg]; unfold lastPlace; omega⟩
    refine ⟨roundEven ((n : ℚ) / 2 ^ (k : ℤ)) * 2 ^ k, ?_⟩
    rw [toNearest, hk]
    push_cast
    rw [zpow_natCast]

/-- An integer of the format divided by a power of two that is not too large. -/
theorem representable_div {n : ℤ} (h : Representable p emin n) {k : ℕ} (hk : emin ≤ -k) :
    Representable p emin (n / 2 ^ k) := by
  obtain ⟨m, e, hm, he, hn⟩ := h
  rcases le_or_gt 0 e with he0 | he0
  · refine ⟨m, e - k, hm, by omega, ?_⟩
    rw [hn, zpow_sub₀ two_ne_zero, zpow_natCast, mul_div_assoc]
  · -- the integer has at most `p` bits itself
    refine ⟨n, -k, ?_, hk, ?_⟩
    · have hle : |(n : ℚ)| ≤ |(m : ℚ)| := by
        rw [hn, abs_mul, abs_of_pos (show (0 : ℚ) < 2 ^ e by positivity)]
        exact mul_le_of_le_one_right (abs_nonneg _) (zpow_le_one_of_nonpos₀ one_le_two he0.le)
      have hle' : |n| ≤ |m| := by exact_mod_cast hle
      exact hle'.trans_lt hm
    · rw [zpow_neg, zpow_natCast, div_eq_mul_inv]

end

end Rounding

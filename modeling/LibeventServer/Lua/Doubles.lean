import LibeventServer.Lua.Integers

/-!
# Doubles on the wire

`packers['double']` takes a float apart into sign, exponent and mantissa.  The exponent has no room for that of a
number of at most `2 ^ -1023`, which arrives as zero; every other float arrives as it was (`sends_double`).

With the integers this says what arrives for a number (`sends_number`) and which numbers arrive as they were
(`transit_eq_iff`).
-/

namespace LibeventServer.Lua.MessagePack

open Reading Rounding

variable {q : ℚ}

/-- The exponent of a finite float. -/
private theorem log_lt_of_isDouble (hq : IsDouble q) (hq0 : q ≠ 0) : Int.log 2 |q| < 1024 := by
  have hlt : |q| < ((2 : ℕ) : ℚ) ^ (1024 : ℤ) := by exact_mod_cast hq.lt
  exact (Int.lt_zpow_iff_log_lt one_lt_two (abs_pos.2 hq0)).1 hlt

/-- The mantissa of a finite float, with a leading one. -/
private theorem exists_mantissa (hq : IsDouble q) (hq0 : q ≠ 0) :
    ∃ m : ℤ, |q| = (1 + m / 2 ^ 52) * 2 ^ Int.log 2 |q| ∧ 0 ≤ m ∧ m < 2 ^ 52 := by
  have hpos : 0 < |q| := abs_pos.2 hq0
  obtain ⟨n, hn⟩ :=
    exists_eq_mul_zpow hq.representable (u := Int.log 2 |q| - 52) (le_max_of_le_left (by norm_num; omega))
  have hge : ((2 : ℕ) : ℚ) ^ Int.log 2 |q| ≤ |q| := Int.zpow_log_le_self one_lt_two hpos
  have hlt : |q| < ((2 : ℕ) : ℚ) ^ (Int.log 2 |q| + 1) := Int.lt_zpow_succ_log_self one_lt_two |q|
  generalize Int.log 2 |q| = u at hn hge hlt ⊢
  have hu : (0 : ℚ) < 2 ^ u := by positivity
  have habs : |q| = (|n| : ℤ) / 2 ^ 52 * 2 ^ u := by
    rw [hn, abs_mul, abs_of_pos (show (0 : ℚ) < 2 ^ (u - 52) by positivity), zpow_sub₀ two_ne_zero]
    push_cast
    norm_num
    ring
  rw [Nat.cast_ofNat, habs, le_mul_iff_one_le_left hu, one_le_div (by norm_num)] at hge
  rw [Nat.cast_ofNat, habs, zpow_add_one₀ two_ne_zero, mul_comm, mul_lt_mul_iff_right₀ hu,
    div_lt_iff₀ (by norm_num)] at hlt
  refine ⟨|n| - 2 ^ 52, ?_, ?_, ?_⟩
  · rw [habs]
    push_cast
    ring
  · have : (2 : ℤ) ^ 52 ≤ |n| := by exact_mod_cast hge
    omega
  · have : |n| < (2 : ℤ) * 2 ^ 52 := by exact_mod_cast hlt
    omega

/-! ### Fields -/

/-- The byte of a sign. -/
def signByte (s : Bool) : ℤ := if s then 0x80 else 0

/-- The eight bytes of a double with these fields. -/
def doubleBytes (s : Bool) (expo mant : ℤ) : List UInt8 :=
  byteAt (signByte s + expo / 0x10) :: byteAt (expo % 0x10 * 0x10 + mant / 2 ^ 48) :: digits 6 mant

private theorem encodes_doubleBytes (s : Bool) (expo mant : ℤ) (he : 0 ≤ expo ∧ expo < 0x800)
    (hm : 0 ≤ mant ∧ mant < 2 ^ 52) :
    Encodes (0xCB :: doubleBytes s expo mant) (.num (unpackers.ofFields 0x7FF 0x3FF 52 s expo mant)) := by
  refine encodes_cons fun d => ?_
  have hb : unpackers.unpacker d (0xCB : UInt8).toNat (types_map (0xCB : UInt8).toNat) = unpackers.double := rfl
  have hlen : (doubleBytes s expo mant).length = 8 := by simp [doubleBytes]
  have hs : 0 ≤ signByte s ∧ signByte s ≤ 0x80 ∧ signByte s % 0x80 = 0 := by cases s <;> decide
  have hb1 : bigEndian ((doubleBytes s expo mant).take 1) = signByte s + expo / 0x10 := by
    rw [doubleBytes, List.take_succ_cons, List.take_zero, bigEndian_singleton, toNat_byteAt]
    omega
  have hb2 : bigEndian (((doubleBytes s expo mant).drop 1).take 1) = expo % 0x10 * 0x10 + mant / 2 ^ 48 := by
    rw [doubleBytes, List.drop_succ_cons, List.drop_zero, List.take_succ_cons, List.take_zero, bigEndian_singleton,
      toNat_byteAt]
    omega
  have hrest : bigEndian ((doubleBytes s expo mant).drop 2) = mant % 2 ^ 48 := by
    rw [doubleBytes, List.drop_succ_cons, List.drop_succ_cons, List.drop_zero, bigEndian_eq_ofDigits (by simp),
      ofDigits_digits]
    norm_num
  have hsign : unpackers.negative (doubleBytes s expo mant) = s := by
    have hbyte := toNat_byteAt (signByte s + expo / 0x10)
    rw [doubleBytes, unpackers.negative, List.head?_cons, Option.any_some]
    cases s
    · have hzero : signByte false = 0 := rfl
      rw [decide_eq_false_iff_not]
      omega
    · have htop : signByte true = 0x80 := rfl
      rw [decide_eq_true_iff]
      omega
  rw [hb, unpackers.double, parse_next_map hlen]
  simp only [hb1, hb2, hrest, hsign]
  have hexpo : (signByte s + expo / 0x10) % 0x80 * 0x10 + (expo % 0x10 * 0x10 + mant / 2 ^ 48) / 0x10 = expo := by
    omega
  have hmant : (expo % 0x10 * 0x10 + mant / 2 ^ 48) % 0x10 * 0x1000000000000 + mant % 2 ^ 48 = mant := by omega
  rw [hexpo, hmant]

/-! ### `packers['double']` -/

/-- The fields of a number with this exponent and mantissa. -/
private theorem char_fields (s : Bool) (expo mant : ℤ) (he : 0 ≤ expo ∧ expo < 0x800)
    (hm : 0 ≤ mant ∧ mant < 2 ^ 52) :
    char [0xCB, signByte s + expo / 0x10, expo % 0x10 * 0x10 + mant / 0x1000000000000,
        mant / 0x10000000000 % 0x100, mant / 0x100000000 % 0x100, mant / 0x1000000 % 0x100,
        mant / 0x10000 % 0x100, mant / 0x100 % 0x100, mant % 0x100] = .ok (0xCB :: doubleBytes s expo mant) := by
  have hs : 0 ≤ signByte s ∧ signByte s ≤ 0x80 := by cases s <;> decide
  rw [char_ok (by simp; omega)]
  norm_num [doubleBytes, digits, Int.ediv_ediv_of_nonneg]
  rfl

/-- The value that comes back from the fields of a float. -/
private theorem ofFields_eq {s : Bool} {expo mant : ℤ} (hq : IsDouble q) (hs : s = decide (q < 0)) 
    (hmant : |q| = (1 + mant / 2 ^ 52) * 2 ^ (expo - 0x3FF)) (hexpo : expo ≠ 0x7FF) (hne : ¬ (mant = 0 ∧ expo = 0)) :
    unpackers.ofFields 0x7FF 0x3FF 52 s expo mant = .finite q := by
  have hself := toNearest_of_representable (K := ℚ) hq.representable.abs
  rw [Rat.cast_id] at hself
  rw [unpackers.ofFields, if_neg hne, if_neg hexpo, ldexp, ← hmant, toDouble, hself, hs]
  congr 1
  rcases lt_or_ge q 0 with hneg | hnonneg
  · rw [if_pos (decide_eq_true hneg), abs_of_neg hneg, neg_one_mul, neg_neg]
  · rw [if_neg (by simpa using hnonneg), abs_of_nonneg hnonneg, one_mul]

/-- The number that arrives for a float. -/
def sentDouble (q : ℚ) : ℚ := if |q| ≤ 2 ^ (-1023 : ℤ) then 0 else q

private theorem signByte_decide (q : ℚ) : signByte (decide (q < 0)) = if q < 0 then 0x80 else 0 := by
  simp [signByte]

private theorem frexp_abs (hq0 : q ≠ 0) :
    frexp |q| = (|q| / 2 ^ (Int.log 2 |q| + 1), Int.log 2 |q| + 1) := by
  rw [frexp, if_neg (abs_pos.2 hq0).ne', abs_abs]

/-- Zeros. -/
private theorem sends_zero (s : Bool) :
    Sends (char [0xCB, signByte s, 0x00, 0x00, 0x00, 0x00, 0x00, 0x00, 0x00]) (.num (.finite 0)) := by
  have hchar := char_fields s 0 0 (by norm_num) (by norm_num)
  have hencodes := encodes_doubleBytes s 0 0 (by norm_num) (by norm_num)
  rw [unpackers.ofFields, if_pos ⟨rfl, rfl⟩] at hencodes
  norm_num at hchar
  exact ⟨_, hchar, hencodes⟩

/-- `(mant * 2.0 - 1.0) * ldexp(0.5, 53)`, for the mantissa without its leading one. -/
private theorem scaled_eq {m : ℤ} {u : ℤ} (hm : |q| = (1 + m / 2 ^ 52) * 2 ^ u) :
    (|q| / 2 ^ (u + 1) * 2 - 1) * ldexp (1 / 2) 53 = m := by
  have hhalf : ldexp (1 / 2) 53 = 2 ^ 52 := by
    have hrep : Representable 53 (-1074) (2 ^ 52) := ⟨1, 52, by norm_num, by norm_num, by norm_num⟩
    have hself := toNearest_of_representable (K := ℚ) hrep
    rw [ldexp, toDouble]
    rw [Rat.cast_id] at hself
    norm_num at hself ⊢
    exact hself
  have hu : (2 : ℚ) ^ u ≠ 0 := by positivity
  rw [hhalf, hm, zpow_add_one₀ two_ne_zero]
  field_simp
  ring

private theorem floor_div (m : ℤ) (j : ℕ) : ⌊(m : ℚ) / 2 ^ j⌋ = m / 2 ^ j := by
  have hfloor := Rat.floor_intCast_div_natCast m (2 ^ j)
  push_cast at hfloor
  exact hfloor

private theorem last_eq (m : ℤ) : checkinteger 9 ((m : ℚ) - 0x100 * (m / 0x100 : ℤ)) = .ok (m % 0x100) := by
  have hcast : (m : ℚ) - 0x100 * (m / 0x100 : ℤ) = ((m % 0x100 : ℤ) : ℚ) := by
    rw [Int.emod_def]
    push_cast
    ring
  rw [hcast, checkinteger, Int.floor_intCast, if_pos rfl]

/-- The branch for a float whose exponent has room. -/
private theorem double_eq (hq : IsDouble q) (hq0 : q ≠ 0) {m : ℤ}
    (hm : |q| = (1 + m / 2 ^ 52) * 2 ^ Int.log 2 |q|) (hmant : 0 ≤ m ∧ m < 2 ^ 52) (hlog : -1023 ≤ Int.log 2 |q|) :
    packers.double (.finite q) =
      .ok (0xCB :: doubleBytes (decide (q < 0)) (Int.log 2 |q| + 0x3FF) m) := by
  have hlt := log_lt_of_isDouble hq hq0
  have hmant0 : |q| / 2 ^ (Int.log 2 |q| + 1) ≠ 0 := div_ne_zero (abs_pos.2 hq0).ne' (by positivity)
  have hscaled := scaled_eq hm
  have h48 := floor_div m 48
  have h40 := floor_div m 40
  have h32 := floor_div m 32
  have h24 := floor_div m 24
  have h16 := floor_div m 16
  have h8 := floor_div m 8
  norm_num at h48 h40 h32 h24 h16 h8
  simp only [packers.double, frexp_abs hq0, hscaled, last_eq, h48, h40, h32, h24, h16, h8]
  rw [if_neg (by omega), if_neg (by simp only [hmant0, false_and, false_or]; omega), ← signByte_decide]
  have hexpo : Int.log 2 |q| + 1 + 0x3FE = Int.log 2 |q| + 0x3FF := by omega
  rw [hexpo, ← char_fields _ _ _ (by omega) hmant]
  rfl

/-- What is packed of a float is an encoding of what arrives for it. -/
theorem sends_double (hq : IsDouble q) : Sends (packers.double (.finite q)) (.num (.finite (sentDouble q))) := by
  have hpos : (0 : ℚ) < 2 ^ (-1023 : ℤ) := by positivity
  by_cases hq0 : q = 0
  · subst hq0
    have hzero : packers.double (.finite 0) = char [0xCB, signByte false, 0, 0, 0, 0, 0, 0, 0] := by
      simp [packers.double, frexp, signByte]
    rw [hzero, sentDouble, if_pos (by simp)]
    exact sends_zero false
  · obtain ⟨m, hm, hmant⟩ := exists_mantissa hq hq0
    have hlt := log_lt_of_isDouble hq hq0
    rcases lt_or_ge (Int.log 2 |q|) (-1023) with hlog | hlog
    · -- the exponent is too small
      have hsmall : |q| < ((2 : ℕ) : ℚ) ^ (-1023 : ℤ) := (Int.lt_zpow_iff_log_lt one_lt_two (abs_pos.2 hq0)).2 hlog
      have hzero : packers.double (.finite q) = char [0xCB, signByte (decide (q < 0)), 0, 0, 0, 0, 0, 0, 0] := by
        simp only [packers.double, frexp_abs hq0]
        rw [if_neg (by omega), if_pos (Or.inr (by omega)), signByte_decide]
      rw [hzero, sentDouble, if_pos (by exact_mod_cast hsmall.le)]
      exact sends_zero _
    · have hencodes := encodes_doubleBytes (decide (q < 0)) (Int.log 2 |q| + 0x3FF) m (by omega) hmant
      refine ⟨_, double_eq hq hq0 hm hmant hlog, ?_⟩
      by_cases hzero : m = 0 ∧ Int.log 2 |q| + 0x3FF = 0
      · -- the fields are those of zero
        have habs : |q| = 2 ^ (-1023 : ℤ) := by
          rw [hm, hzero.1, show Int.log 2 |q| = -1023 by omega]
          simp
        rw [unpackers.ofFields, if_pos hzero] at hencodes
        rw [sentDouble, if_pos habs.le]
        exact hencodes
      · have hexpo : Int.log 2 |q| + 0x3FF - 0x3FF = Int.log 2 |q| := by omega
        rw [ofFields_eq hq rfl (hexpo.symm ▸ hm) (by omega) hzero] at hencodes
        rw [sentDouble, if_neg]
        · exact hencodes
        · intro hle
          have hm0 : (0 : ℚ) ≤ m := by exact_mod_cast hmant.1
          have hpow : (2 : ℚ) ^ Int.log 2 |q| ≤ |q| := by
            conv_rhs => rw [hm]
            exact le_mul_of_one_le_left (by positivity)
              (by linarith [div_nonneg hm0 (by positivity : (0 : ℚ) ≤ 2 ^ 52)])
          have hlog' : Int.log 2 |q| = -1023 :=
            le_antisymm ((zpow_le_zpow_iff_right₀ one_lt_two).1 (hpow.trans hle)) hlog
          rw [hm, hlog', mul_le_iff_le_one_left hpos, add_le_iff_nonpos_right] at hle
          have hm' : (m : ℚ) ≤ 0 := by linarith [(div_le_iff₀ (by positivity : (0 : ℚ) < 2 ^ 52)).1 hle]
          have hm'' : m ≤ 0 := by exact_mod_cast hm'
          exact hzero ⟨by omega, by omega⟩

/-! ### `packers['number']` -/

/-- The number that arrives for a number. -/
def transit : Number → Number
  | .finite q =>
    if ⌊q⌋ ≠ q ∨ q > packers.limit ∨ q < -packers.limit then .finite (sentDouble q) else .finite (sent ⌊q⌋)
  | n => n

private theorem sends_nan : Sends (packers.double .nan) (.num .nan) := by
  have hchar := char_fields true 0x7FF 0x8000000000000 (by norm_num) (by norm_num)
  have hencodes := encodes_doubleBytes true 0x7FF 0x8000000000000 (by norm_num) (by norm_num)
  norm_num [signByte] at hchar
  exact ⟨_, hchar, hencodes⟩

private theorem sends_inf (s : Bool) : Sends (packers.double (.inf s)) (.num (.inf s)) := by
  have hchar := char_fields s 0x7FF 0 (by norm_num) (by norm_num)
  have hencodes := encodes_doubleBytes s 0x7FF 0 (by norm_num) (by norm_num)
  cases s
  all_goals
    norm_num [signByte] at hchar
    exact ⟨_, hchar, hencodes⟩

/-- The limit is far above the integers of 64 bits. -/
theorem le_limit : 2 ^ 63 ≤ packers.limit := by
  have hx : (2 : ℚ) ^ 64 ≤ 17976931348623 * 10 ^ 295 := by
    calc (2 : ℚ) ^ 64 ≤ 17976931348623 * 10 ^ 20 := by norm_num
      _ ≤ 17976931348623 * 10 ^ 295 := by gcongr <;> norm_num
  rw [packers.limit, toDouble]
  generalize (17976931348623 * 10 ^ 295 : ℚ) = x at hx ⊢
  have hpos : 0 < x := lt_of_lt_of_le (by positivity) hx
  have hlog : (-1074 : ℤ) ≤ Int.log 2 |x| + 1 - (53 : ℕ) := by
    have hpow : ((2 : ℕ) : ℚ) ^ (64 : ℤ) ≤ |x| := by
      rw [abs_of_pos hpos]
      exact_mod_cast hx
    have := (Int.zpow_le_iff_le_log one_lt_two (abs_pos.2 hpos.ne')).1 hpow
    omega
  have hdist := (abs_le.1 (abs_toNearest_sub_le_mul hlog hpos.ne')).1
  rw [abs_of_pos hpos] at hdist
  norm_num at hdist hx ⊢
  linarith

private theorem isDouble_of_valid (hq : (Number.finite q).Valid)
    (h : (⌊q⌋ : ℚ) ≠ q ∨ q > packers.limit ∨ q < -packers.limit) : IsDouble q := by
  rcases hq with hq | ⟨n, rfl, hn⟩
  · exact hq
  · have hle := le_limit
    have hge : (-2 ^ 63 : ℚ) ≤ n := by exact_mod_cast hn.1
    have hlt : (n : ℚ) < 2 ^ 63 := by exact_mod_cast hn.2
    rw [Int.floor_intCast] at h
    rcases h with h | h | h
    · exact absurd rfl h
    · linarith
    · linarith

/-- What is packed of a number is an encoding of what arrives for it. -/
theorem sends_number {n : Number} (hn : n.Valid) : Sends (packers.number n) (.num (transit n)) := by
  cases n with
  | nan => exact sends_nan
  | inf s => exact sends_inf s
  | finite q =>
    rw [packers.number, transit]
    split_ifs with h
    · exact sends_double (isDouble_of_valid hn h)
    · exact sends_unsigned _

/-! ### Numbers that arrive as they were -/

/-- The numbers that survive: an integer that is not out of all range when it has at most 32 bits, or at most 56 bits
and a nearest float with the same quotient by 0x100; other finite numbers when they are larger than `2 ^ -1023`. -/
def Kept : Number → Prop
  | .finite q =>
    if ⌊q⌋ = q ∧ |q| ≤ packers.limit then
      -2 ^ 31 ≤ ⌊q⌋ ∧ ⌊q⌋ < 2 ^ 32 ∨ (-2 ^ 56 ≤ ⌊q⌋ ∧ ⌊q⌋ < 2 ^ 56) ∧ floorDiv ⌊q⌋ 0x100 = ⌊q⌋ / 0x100
    else 2 ^ (-1023 : ℤ) < |q|
  | _ => True

private theorem sentDouble_eq_iff (hq0 : q ≠ 0) : sentDouble q = q ↔ 2 ^ (-1023 : ℤ) < |q| := by
  rw [sentDouble]
  split_ifs with h
  · exact iff_of_false hq0.symm (not_lt.2 h)
  · exact iff_of_true rfl (not_le.1 h)

theorem transit_eq_iff (n : Number) : transit n = n ↔ Kept n := by
  cases n with
  | nan => exact iff_of_true rfl trivial
  | inf s => exact iff_of_true rfl trivial
  | finite q =>
    rw [transit, Kept]
    by_cases h : ⌊q⌋ = q ∧ |q| ≤ packers.limit
    · have hle := abs_le.1 h.2
      rw [if_neg (by rintro (h' | h' | h') <;> first | exact h' h.1 | linarith), if_pos h, ← sent_eq_iff,
        Number.finite.injEq]
      conv_lhs => rw [← h.1, Int.floor_intCast]
      exact Int.cast_inj
    · have hor : ⌊q⌋ ≠ q ∨ q > packers.limit ∨ q < -packers.limit := by
        rw [not_and_or, not_le, lt_abs] at h
        rcases h with h | h | h
        · exact Or.inl h
        · exact Or.inr (Or.inl h)
        · exact Or.inr (Or.inr (lt_neg_of_lt_neg h))
      have hq0 : q ≠ 0 := by
        rintro rfl
        have hlimit : (0 : ℚ) ≤ packers.limit := le_trans (by positivity) le_limit
        rw [Int.floor_zero, Int.cast_zero] at hor
        rcases hor with hor | hor | hor
        · exact hor rfl
        · linarith
        · linarith
      rw [if_pos hor, if_neg h, Number.finite.injEq, sentDouble_eq_iff hq0]

end LibeventServer.Lua.MessagePack

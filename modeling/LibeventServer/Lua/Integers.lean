import LibeventServer.Lua.Packers
import LibeventServer.Lua.Unpacking
import Mathlib.Tactic.NormNum

/-!
# Integers on the wire

`packers['unsigned']` writes an integer in its last seven bytes at most, and gets all of these but the last from
quotients that are computed with floats.  So an integer of more than 32 bits arrives as it was just when it has at
most 56 bits and the float that is nearest to it has the same quotient by 0x100 (`sent_eq_iff`).
-/

namespace LibeventServer.Lua.MessagePack

open Reading Rounding

/-! ### Bytes -/

/-- The last byte of an integer. -/
def byteAt (n : ℤ) : UInt8 := UInt8.ofNat (n % 0x100).toNat

/-- The last `k` bytes of an integer. -/
def digits : ℕ → ℤ → List UInt8
  | 0, _ => []
  | k + 1, n => digits k (n / 0x100) ++ [byteAt n]

/-- The number with these digits. -/
def ofDigits (l : List UInt8) : ℤ := l.foldl (fun n b => n * 0x100 + b.toNat) 0

@[simp] theorem toNat_byteAt (n : ℤ) : ((byteAt n).toNat : ℤ) = n % 0x100 := by
  have hlt : (n % 0x100).toNat < 256 := by omega
  rw [byteAt, UInt8.toNat_ofNat', Nat.mod_eq_of_lt hlt]
  omega

@[simp] theorem byteAt_emod (n : ℤ) : byteAt (n % 0x100) = byteAt n := by
  rw [byteAt, byteAt, Int.emod_emod_of_dvd n (dvd_refl _)]

private theorem charByte_ok (arg : ℕ) {n : ℤ} (h : 0 ≤ n ∧ n ≤ 255) : charByte arg n = .ok (byteAt n) := by
  rw [charByte, if_pos h, byteAt, Int.emod_eq_of_lt h.1 (by omega)]

private theorem charFrom_ok {args : List ℤ} (h : ∀ n ∈ args, 0 ≤ n ∧ n ≤ 255) (arg : ℕ) :
    charFrom arg args = .ok (args.map byteAt) := by
  induction args generalizing arg with
  | nil => rfl
  | cons n args ih =>
    rw [List.forall_mem_cons] at h
    rw [charFrom, charByte_ok arg h.1, ih h.2]
    rfl

/-- Arguments that are bytes. -/
theorem char_ok {args : List ℤ} (h : ∀ n ∈ args, 0 ≤ n ∧ n ≤ 255) : char args = .ok (args.map byteAt) :=
  charFrom_ok h 1

@[simp] theorem length_digits (k : ℕ) (n : ℤ) : (digits k n).length = k := by
  induction k generalizing n with
  | zero => rfl
  | succ k ih => rw [digits, List.length_append, ih, List.length_singleton]

/-- The first digit. -/
private theorem digits_succ (k : ℕ) (n : ℤ) : digits (k + 1) n = byteAt (n / 0x100 ^ k) :: digits k n := by
  induction k generalizing n with
  | zero => simp [digits]
  | succ k ih =>
    rw [digits, ih, digits, pow_succ', ← Int.ediv_ediv_of_nonneg (by norm_num)]
    rfl

private theorem ofDigits_append_singleton (l : List UInt8) (b : UInt8) :
    ofDigits (l ++ [b]) = ofDigits l * 0x100 + b.toNat := by
  simp [ofDigits]

theorem ofDigits_digits (k : ℕ) (n : ℤ) : ofDigits (digits k n) = n % 0x100 ^ k := by
  induction k generalizing n with
  | zero => simp [digits, ofDigits]
  | succ k ih =>
    rw [digits, ofDigits_append_singleton, ih, toNat_byteAt, pow_succ]
    have hpos : (0 : ℤ) < 0x100 ^ k := by positivity
    have hnonneg := Int.emod_nonneg (n / 0x100) hpos.ne'
    have hlt := Int.emod_lt_of_pos (n / 0x100) hpos
    have hdiv := Int.mul_ediv_add_emod (n / 0x100) (0x100 ^ k)
    have hn : n / 0x100 % 0x100 ^ k * 0x100 + n % 0x100 + 0x100 ^ k * 0x100 * (n / 0x100 / 0x100 ^ k) = n := by
      calc _ = 0x100 * (0x100 ^ k * (n / 0x100 / 0x100 ^ k) + n / 0x100 % 0x100 ^ k) + n % 0x100 := by ring
        _ = 0x100 * (n / 0x100) + n % 0x100 := by rw [hdiv]
        _ = n := Int.mul_ediv_add_emod n 0x100
    exact ((Int.ediv_emod_unique (by positivity)).2 ⟨hn, by omega, by omega⟩).2.symm

theorem ofDigits_lt (l : List UInt8) : 0 ≤ ofDigits l ∧ ofDigits l < 0x100 ^ l.length := by
  induction l using List.reverseRecOn with
  | nil => simp [ofDigits]
  | append_singleton l b ih =>
    have hb := b.toNat_lt
    rw [ofDigits_append_singleton, List.length_append, List.length_singleton, pow_succ]
    omega

/-- Up to seven bytes there is no overflow. -/
theorem bigEndian_eq_ofDigits {l : List UInt8} (h : l.length ≤ 7) : bigEndian l = ofDigits l := by
  induction l using List.reverseRecOn with
  | nil => rfl
  | append_singleton l b ih =>
    rw [List.length_append, List.length_singleton] at h
    have hlt := ofDigits_lt l
    have hpow : (0x100 : ℤ) ^ l.length ≤ 0x100 ^ 6 := pow_le_pow_right₀ (by norm_num) (by omega)
    have hb := b.toNat_lt
    have hfold : bigEndian (l ++ [b]) = wrap (bigEndian l * 0x100 + b.toNat) := by simp [bigEndian]
    rw [hfold, ih (by omega), ofDigits_append_singleton, wrap_of_lt] <;> omega

/-- The branch for negative numbers. -/
private theorem bigEndianNeg_eq_ofDigits {l : List UInt8} (h : l.length ≤ 7) :
    bigEndianNeg l = ofDigits l - 0x100 ^ l.length := by
  have hfold : l.foldl (fun n b => wrap (n * 0x100 + (b.toNat - 0xFF))) 0 = ofDigits l - 0x100 ^ l.length + 1 := by
    induction l using List.reverseRecOn with
    | nil => simp [ofDigits]
    | append_singleton l b ih =>
      rw [List.length_append, List.length_singleton] at h
      have hlt := ofDigits_lt l
      have hpow : (0x100 : ℤ) ^ l.length ≤ 0x100 ^ 6 := pow_le_pow_right₀ (by norm_num) (by omega)
      have hb := b.toNat_lt
      rw [List.foldl_append, List.foldl_cons, List.foldl_nil, ih (by omega), ofDigits_append_singleton,
        List.length_append, List.length_singleton, pow_succ, wrap_of_lt] <;> omega
  have hlt := ofDigits_lt l
  have hpow : (0x100 : ℤ) ^ l.length ≤ 0x100 ^ 7 := pow_le_pow_right₀ (by norm_num) h
  rw [bigEndianNeg, hfold, wrap_of_lt] <;> omega

private theorem wrap_zero : wrap 0 = 0 := wrap_of_lt (by norm_num) (by norm_num)

private theorem bigEndian_cons_zero (l : List UInt8) : bigEndian (0 :: l) = bigEndian l := by
  simp [bigEndian, wrap_zero]

private theorem bigEndianNeg_cons_255 (l : List UInt8) : bigEndianNeg (0xFF :: l) = bigEndianNeg l := by
  simp [bigEndianNeg, wrap_zero]

/-! ### Programs that read one field -/

theorem encodes_cons {b : UInt8} {u : List UInt8} {v : Value Number}
    (h : ∀ d, (unpackers.unpacker d b.toNat (types_map b.toNat)).parse missing u = .ok (v, [])) :
    Encodes (b :: u) v := by
  rw [Encodes, decode_cons]
  exact h _

theorem parse_next_map_append {α : Type} {u : List UInt8} {k : ℕ} (hu : u.length = k) (f : List UInt8 → α)
    (t : List UInt8) : (next k >>= fun bytes => pure (f bytes) : Unpacking α).parse missing (u ++ t) = .ok (f u, t) :=
  parse_read_append (k := fun l => (done (f l) : Unpacking α)) hu t

theorem parse_next_map {α : Type} {u : List UInt8} {k : ℕ} (hu : u.length = k) (f : List UInt8 → α) :
    (next k >>= fun bytes => pure (f bytes) : Unpacking α).parse missing u = .ok (f u, []) := by
  have hread := parse_next_map_append hu f []
  rwa [List.append_nil] at hread

private theorem parse_uint {u : List UInt8} {k : ℕ} (hu : u.length = k) :
    (unpackers.uint k).parse missing u = .ok (integer (bigEndian u), []) := parse_next_map hu _

private theorem parse_int8 {u : List UInt8} (hu : u.length = 1) : unpackers.int8.parse missing u =
    .ok (integer (if bigEndian u < 0x80 then bigEndian u else bigEndian u - 0x100), []) := parse_next_map hu _

private theorem parse_int {u : List UInt8} {k : ℕ} (hu : u.length = k) : (unpackers.int k).parse missing u =
    .ok (integer (if unpackers.negative u then bigEndianNeg u else bigEndian u), []) := parse_next_map hu _

private theorem types_map_fixnum_pos {n : ℕ} (h : n < 0x80) : types_map n = .fixnum_pos := by
  unfold types_map
  split
  any_goals omega
  rw [if_pos (by omega), if_pos h]

private theorem types_map_fixnum_neg {n : ℕ} (h : 0xE0 ≤ n) : types_map n = .fixnum_neg := by
  unfold types_map
  split
  any_goals omega
  rw [if_neg (by omega), if_pos (by omega)]

/-! ### Quotients -/

/-- The float nearest to an integer, which is an integer. -/
private theorem exists_toDouble_eq (n : ℤ) : ∃ d : ℤ, toDouble (n : ℚ) = d ∧ Representable 53 (-1074) d := by
  obtain ⟨d, hd⟩ := exists_toNearest_intCast 53 (-1074) (by norm_num) (by norm_num) n
  refine ⟨d, hd, ?_⟩
  rw [← hd]
  exact representable_toNearest (by norm_num) _

/-- A quotient by a power of two is that of the nearest float. -/
private theorem floorDiv_eq {n d : ℤ} (hd : toDouble (n : ℚ) = d) {j : ℕ} (hj : j ≤ 1000) :
    floorDiv n (2 ^ j) = d / 2 ^ j := by
  obtain ⟨d', hd', hrep⟩ := exists_toDouble_eq n
  obtain rfl : d' = d := by exact_mod_cast hd'.symm.trans hd
  have hquot := toNearest_of_representable (K := ℚ) (representable_div hrep (k := j) (by omega))
  rw [Rat.cast_id] at hquot
  have hfloor := Rat.floor_intCast_div_natCast d' (2 ^ j)
  push_cast at hfloor
  unfold floorDiv
  rw [hd]
  push_cast
  rw [toDouble, hquot, hfloor]

/-- How far the nearest float is from an integer of 64 bits. -/
private theorem abs_toDouble_sub_le {n d : ℤ} (hd : toDouble (n : ℚ) = d) (hn : |n| < 2 ^ 64) : |d - n| ≤ 2 ^ 12 := by
  have hdist := abs_toNearest_sub_le 53 (-1074) (n : ℚ)
  have hplace : lastPlace 53 (-1074) (n : ℚ) ≤ (12 : ℕ) := by
    refine max_le ?_ (by norm_num)
    rcases eq_or_ne n 0 with rfl | hn0
    · simp
    · have hpos : (0 : ℚ) < |(n : ℚ)| := abs_pos.2 (Int.cast_ne_zero.2 hn0)
      have hlt : |(n : ℚ)| < ((2 : ℕ) : ℚ) ^ (64 : ℤ) := by
        rw [← Int.cast_abs]
        exact_mod_cast hn
      have hlog := (Int.lt_zpow_iff_log_lt one_lt_two hpos).1 hlt
      omega
  have hpow : (2 : ℚ) ^ lastPlace 53 (-1074) (n : ℚ) ≤ 2 ^ ((12 : ℕ) : ℤ) := zpow_le_zpow_right₀ one_le_two hplace
  rw [toDouble] at hd
  rw [hd] at hdist
  have hle := hdist.trans hpow
  rw [zpow_natCast, ← Int.cast_sub, ← Int.cast_abs] at hle
  exact_mod_cast hle

/-- Dividing step by step. -/
private theorem ediv_two_pow_add (d : ℤ) (i j : ℕ) : d / 2 ^ (i + j) = d / 2 ^ i / 2 ^ j := by
  rw [pow_add, Int.ediv_ediv_of_nonneg (by positivity)]

/-! ### `packers['unsigned']` -/

/-- What is packed is an encoding of `v`. -/
def Sends (p : Packed) (v : Value Number) : Prop := ∃ bytes, p = .ok bytes ∧ Encodes bytes v

/-- What arrives for an integer. -/
def sent (n : ℤ) : ℤ :=
  if -2 ^ 31 ≤ n ∧ n < 2 ^ 32 then n
  else (floorDiv n 0x100 * 0x100 + n % 0x100) % 2 ^ 56 - if n < 0 then 2 ^ 56 else 0

theorem sends_char {args : List ℤ} {v : Value Number} (h : ∀ n ∈ args, 0 ≤ n ∧ n ≤ 255)
    (hv : Encodes (args.map byteAt) v) : Sends (char args) v := ⟨_, char_ok h, hv⟩

/-- Integers in one byte. -/
private theorem sends_fixnum_pos {n : ℤ} (h : 0 ≤ n) (h' : n ≤ 0x7F) : Sends (char [n]) (integer n) := by
  refine sends_char (by simp; omega) (encodes_cons fun d => ?_)
  have hbyte : ((byteAt n).toNat : ℤ) = n := by
    rw [toNat_byteAt]
    omega
  rw [types_map_fixnum_pos (by omega), unpackers.unpacker, hbyte]
  rfl

private theorem sends_fixnum_neg {n : ℤ} (h : -0x20 ≤ n) (h' : n < 0) : Sends (char [0x100 + n]) (integer n) := by
  refine sends_char (by simp; omega) (encodes_cons fun d => ?_)
  have hbyte : ((byteAt (0x100 + n)).toNat : ℤ) = 0x100 + n := by
    rw [toNat_byteAt]
    omega
  rw [types_map_fixnum_neg (by omega), unpackers.unpacker, hbyte, add_sub_cancel_left]
  rfl

/-- A byte and `k` digits, for the unpackers of nonnegative integers. -/
private theorem encodes_uint {b : UInt8} {k : ℕ} {n : ℤ} (hk : k ≤ 7) (hn : 0 ≤ n ∧ n < 0x100 ^ k)
    (hb : ∀ d, unpackers.unpacker d b.toNat (types_map b.toNat) = unpackers.uint k) :
    Encodes (b :: digits k n) (integer n) := by
  refine encodes_cons fun d => ?_
  rw [hb, parse_uint (length_digits k n), bigEndian_eq_ofDigits (by simpa using hk), ofDigits_digits,
    Int.emod_eq_of_lt hn.1 hn.2]

/-- A byte and `k + 1` digits, for the unpackers of negative integers. -/
private theorem encodes_int {b : UInt8} {k : ℕ} {n : ℤ} (hk : k < 7) (hn : -(0x80 * 0x100 ^ k) ≤ n ∧ n < 0)
    (hb : ∀ d, unpackers.unpacker d b.toNat (types_map b.toNat) = unpackers.int (k + 1)) :
    Encodes (b :: digits (k + 1) (0x100 ^ (k + 1) + n)) (integer n) := by
  refine encodes_cons fun d => ?_
  have hpos : (0 : ℤ) < 0x100 ^ k := by positivity
  have hnegative : unpackers.negative (digits (k + 1) (0x100 ^ (k + 1) + n)) = true := by
    have hge : 0x80 ≤ (0x100 ^ (k + 1) + n) / 0x100 ^ k := by
      rw [Int.le_ediv_iff_mul_le hpos, pow_succ]
      omega
    have hlt : (0x100 ^ (k + 1) + n) / 0x100 ^ k < 0x100 := by
      rw [Int.ediv_lt_iff_lt_mul hpos, pow_succ]
      omega
    have hbyte := toNat_byteAt ((0x100 ^ (k + 1) + n) / 0x100 ^ k)
    rw [Int.emod_eq_of_lt (by omega) hlt] at hbyte
    rw [digits_succ, unpackers.negative, List.head?_cons, Option.any_some, decide_eq_true_iff]
    omega
  rw [hb, parse_int (length_digits _ _), if_pos hnegative, bigEndianNeg_eq_ofDigits (by rw [length_digits]; omega),
    ofDigits_digits, length_digits, Int.emod_eq_of_lt, add_sub_cancel_left]
  · rw [pow_succ]
    omega
  · omega

/-- An integer of at most 53 bits is a float. -/
private theorem toDouble_intCast {n : ℤ} (h : |n| ≤ 2 ^ 53) : toDouble (n : ℚ) = n := by
  have hrep : Representable 53 (-1074) n := representable_intCast (by norm_num) (by norm_num) h
  have hself := toNearest_of_representable (K := ℚ) hrep
  rwa [Rat.cast_id] at hself

theorem digits_two (n : ℤ) : digits 2 n = [byteAt (n / 0x100), byteAt n] := by
  simp [digits]

theorem digits_four (n : ℤ) :
    digits 4 n = [byteAt (n / 0x1000000), byteAt (n / 0x10000), byteAt (n / 0x100), byteAt n] := by
  norm_num [digits, Int.ediv_ediv_of_nonneg]

private theorem digits_seven (n : ℤ) :
    digits 7 n = [byteAt (n / 0x1000000000000), byteAt (n / 0x10000000000), byteAt (n / 0x100000000),
      byteAt (n / 0x1000000), byteAt (n / 0x10000), byteAt (n / 0x100), byteAt n] := by
  norm_num [digits, Int.ediv_ediv_of_nonneg]

/-- The bytes of the integers of 16 bits. -/
private theorem char_two {b n : ℤ} (hb : 0 ≤ b ∧ b ≤ 255) (hn : 0 ≤ n ∧ n < 0x100 ^ 2) :
    char [b, floorDiv n 0x100, n % 0x100] = .ok (byteAt b :: digits 2 n) := by
  have hself : toDouble (n : ℚ) = n := toDouble_intCast (abs_le.2 (by omega))
  have h8 := floorDiv_eq hself (j := 8) (by norm_num)
  norm_num at h8
  rw [h8, char_ok (by simp; omega), digits_two]
  simp

/-- The bytes of the integers of 32 bits. -/
private theorem char_four {b n : ℤ} (hb : 0 ≤ b ∧ b ≤ 255) (hn : 0 ≤ n ∧ n < 0x100 ^ 4) :
    char [b, floorDiv n 0x1000000, floorDiv n 0x10000 % 0x100, floorDiv n 0x100 % 0x100, n % 0x100] =
      .ok (byteAt b :: digits 4 n) := by
  have hself : toDouble (n : ℚ) = n := toDouble_intCast (abs_le.2 (by omega))
  have h8 := floorDiv_eq hself (j := 8) (by norm_num)
  have h16 := floorDiv_eq hself (j := 16) (by norm_num)
  have h24 := floorDiv_eq hself (j := 24) (by norm_num)
  norm_num at h8 h16 h24
  rw [h8, h16, h24, char_ok (by simp; omega), digits_four]
  simp

/-- The bytes of larger integers. -/
private theorem char_eight {b b' : ℤ} (hb : 0 ≤ b ∧ b ≤ 255) (hb' : 0 ≤ b' ∧ b' ≤ 255) (n : ℤ) :
    char [b, b', floorDiv n 0x1000000000000 % 0x100, floorDiv n 0x10000000000 % 0x100,
        floorDiv n 0x100000000 % 0x100, floorDiv n 0x1000000 % 0x100, floorDiv n 0x10000 % 0x100,
        floorDiv n 0x100 % 0x100, n % 0x100] =
      .ok (byteAt b :: byteAt b' :: digits 7 (floorDiv n 0x100 * 0x100 + n % 0x100)) := by
  obtain ⟨d, hd, -⟩ := exists_toDouble_eq n
  have h8 := floorDiv_eq hd (j := 8) (by norm_num)
  have h16 := floorDiv_eq hd (j := 16) (by norm_num)
  have h24 := floorDiv_eq hd (j := 24) (by norm_num)
  have h32 := floorDiv_eq hd (j := 32) (by norm_num)
  have h40 := floorDiv_eq hd (j := 40) (by norm_num)
  have h48 := floorDiv_eq hd (j := 48) (by norm_num)
  norm_num at h8 h16 h24 h32 h40 h48
  -- all digits but the last are those of `d`
  have hlast : byteAt (d / 0x100 * 0x100 + n % 0x100) = byteAt n := by
    rw [← byteAt_emod, ← byteAt_emod n]
    congr 1
    omega
  have hdigit : ∀ i, (d / 0x100 * 0x100 + n % 0x100) / 2 ^ (8 + i) = d / 2 ^ (8 + i) := by
    intro i
    rw [ediv_two_pow_add, ediv_two_pow_add]
    congr 1
    omega
  have hq8 := hdigit 0
  have hq16 := hdigit 8
  have hq24 := hdigit 16
  have hq32 := hdigit 24
  have hq40 := hdigit 32
  have hq48 := hdigit 40
  norm_num at hq8 hq16 hq24 hq32 hq40 hq48
  rw [h8, h16, h24, h32, h40, h48, char_ok (by simp; omega), digits_seven, hq8, hq16, hq24, hq32, hq40, hq48, hlast]
  simp

/-- The integers of at most 32 bits. -/
private theorem sent_of_small {n : ℤ} (h : -2 ^ 31 ≤ n ∧ n < 2 ^ 32) : sent n = n := if_pos h

/-- The nonnegative ones of 64 bits. -/
private theorem encodes_uint64 (m : ℤ) : Encodes (0xCF :: 0 :: digits 7 m) (integer (m % 2 ^ 56)) := by
  refine encodes_cons fun d => ?_
  have hb : unpackers.unpacker d (0xCF : UInt8).toNat (types_map (0xCF : UInt8).toNat) = unpackers.uint 8 := rfl
  rw [hb, parse_uint (by simp), bigEndian_cons_zero, bigEndian_eq_ofDigits (by simp), ofDigits_digits]
  norm_num

private theorem encodes_int64 (m : ℤ) : Encodes (0xD3 :: 0xFF :: digits 7 m) (integer (m % 2 ^ 56 - 2 ^ 56)) := by
  refine encodes_cons fun d => ?_
  have hb : unpackers.unpacker d (0xD3 : UInt8).toNat (types_map (0xD3 : UInt8).toNat) = unpackers.int 8 := rfl
  have hnegative : unpackers.negative (0xFF :: digits 7 m) = true := rfl
  rw [hb, parse_int (by simp), if_pos hnegative, bigEndianNeg_cons_255, bigEndianNeg_eq_ofDigits (by simp),
    ofDigits_digits, length_digits]
  norm_num

/-- What is packed of an integer is an encoding of what arrives for it. -/
theorem sends_unsigned (n : ℤ) : Sends (packers.unsigned n) (integer (sent n)) := by
  unfold packers.unsigned
  split_ifs with h0 h1 h2 h3 h4 h5 h6 h7 h8
  · rw [sent_of_small (by omega)]
    exact sends_fixnum_pos h0 h1
  · rw [sent_of_small (by omega)]
    refine ⟨_, char_ok (by simp; omega), ?_⟩
    exact encodes_uint (k := 1) (by norm_num) (by omega) fun d => rfl
  · rw [sent_of_small (by omega)]
    exact ⟨_, char_two (by norm_num) (by omega), encodes_uint (by norm_num) (by omega) fun d => rfl⟩
  · rw [sent_of_small (by omega)]
    exact ⟨_, char_four (by norm_num) (by omega), encodes_uint (by norm_num) (by omega) fun d => rfl⟩
  · rw [sent, if_neg (by omega), if_neg (by omega), sub_zero]
    exact ⟨_, char_eight (by norm_num) (by norm_num) n, encodes_uint64 _⟩
  · rw [sent_of_small (by omega)]
    exact sends_fixnum_neg h5 (by omega)
  · rw [sent_of_small (by omega)]
    refine ⟨_, char_ok (by simp; omega), encodes_cons fun d => ?_⟩
    have hb : unpackers.unpacker d (byteAt 0xD0).toNat (types_map (byteAt 0xD0).toNat) = unpackers.int8 := rfl
    have hbyte : bigEndian [byteAt (0x100 + n)] = 0x100 + n := by
      rw [bigEndian_singleton, toNat_byteAt]
      omega
    rw [hb, List.map_singleton, parse_int8 rfl, hbyte, if_neg (by omega), add_sub_cancel_left]
  · rw [sent_of_small (by omega)]
    exact ⟨_, char_two (by norm_num) (by omega), encodes_int (k := 1) (by norm_num) (by omega) fun d => rfl⟩
  · rw [sent_of_small (by omega)]
    exact ⟨_, char_four (by norm_num) (by omega), encodes_int (k := 3) (by norm_num) (by omega) fun d => rfl⟩
  · rw [sent, if_neg (by omega), if_pos (by omega)]
    exact ⟨_, char_eight (by norm_num) (by norm_num) n, encodes_int64 _⟩

/-- The integers that arrive as they were. -/
theorem sent_eq_iff (n : ℤ) : sent n = n ↔
    -2 ^ 31 ≤ n ∧ n < 2 ^ 32 ∨ (-2 ^ 56 ≤ n ∧ n < 2 ^ 56) ∧ floorDiv n 0x100 = n / 0x100 := by
  obtain ⟨d, hd, -⟩ := exists_toDouble_eq n
  have hfloor := floorDiv_eq hd (j := 8) (by norm_num)
  norm_num at hfloor
  unfold sent
  rw [hfloor]
  split_ifs with hsmall hneg
  · exact iff_of_true rfl (Or.inl hsmall)
  · constructor
    · intro h
      have hdist := abs_le.1 (abs_toDouble_sub_le hd (abs_lt.2 (by omega)))
      exact Or.inr (by omega)
    · rintro (h | ⟨hrange, hquot⟩)
      · exact absurd h hsmall
      · omega
  · constructor
    · intro h
      have hdist := abs_le.1 (abs_toDouble_sub_le hd (abs_lt.2 (by omega)))
      exact Or.inr (by omega)
    · rintro (h | ⟨hrange, hquot⟩)
      · exact absurd h hsmall
      · omega

end LibeventServer.Lua.MessagePack

import LibeventServer.Lua.Tables

/-!
# What `unpack` returns

Whatever the bytes, what `unpack` returns is a value that Lua can have: its numbers are integers of 64 bits or
doubles, and no table has `nil` or not-a-number for a key, `nil` for a value or a key twice (`built_of_unpack`).
-/

namespace LibeventServer.Lua.MessagePack

open Reading Rounding

/-- A value as Lua has it. -/
inductive Built : Value Number → Prop where
  | nil : Built .nil
  | bool (b : Bool) : Built (.bool b)
  | num {n : Number} (valid : n.Valid) : Built (.num n)
  | str (s : List UInt8) : Built (.str s)
  | table {entries : List (Value Number × Value Number)}
      (distinct : entries.Pairwise fun e e' => e.1.rawequal e'.1 = false)
      (entry : ∀ e ∈ entries, skipped e.1 = false ∧ e.2 ≠ .nil)
      (keys : ∀ e ∈ entries, Built e.1) (vals : ∀ e ∈ entries, Built e.2) : Built (.table entries)

/-! ### Numbers -/

private theorem wrap_range (n : ℤ) : -2 ^ 63 ≤ wrap n ∧ wrap n < 2 ^ 63 := by
  unfold wrap
  rw [Int.bmod_def]
  omega

private theorem bigEndian_range (l : List UInt8) : -2 ^ 63 ≤ bigEndian l ∧ bigEndian l < 2 ^ 63 := by
  rcases List.eq_nil_or_concat l with rfl | ⟨l, b, rfl⟩
  · norm_num [bigEndian]
  · rw [bigEndian, List.concat_eq_append, List.foldl_append, List.foldl_cons, List.foldl_nil]
    exact wrap_range _

private theorem built_integer {n : ℤ} (h : -2 ^ 63 ≤ n ∧ n < 2 ^ 63) : Built (integer n) :=
  .num (Or.inr ⟨n, rfl, h.1, h.2⟩)

/-- What is well below the largest float is rounded to a float. -/
private theorem isDouble_toDouble {x : ℚ} (h : |x| < 2 ^ 1023) : IsDouble (toDouble x) := by
  refine ⟨representable_toNearest (by norm_num) x, ?_⟩
  have hplace : lastPlace 53 (-1074) x ≤ (1023 : ℕ) := by
    refine max_le ?_ (by norm_num)
    rcases eq_or_ne x 0 with rfl | hx0
    · simp
    · have hlt : |x| < ((2 : ℕ) : ℚ) ^ (1023 : ℤ) := by exact_mod_cast h
      have hlog := (Int.lt_zpow_iff_log_lt one_lt_two (abs_pos.2 hx0)).1 hlt
      push_cast
      omega
  have hdist := (abs_sub_abs_le_abs_sub (toDouble x) x).trans (abs_toNearest_sub_le 53 (-1074) x)
  calc |toDouble x| ≤ |x| + 2 ^ lastPlace 53 (-1074) x := sub_le_iff_le_add'.1 hdist
    _ ≤ |x| + 2 ^ ((1023 : ℕ) : ℤ) := add_le_add_right (zpow_le_zpow_right₀ one_le_two hplace) _
    _ = |x| + 2 ^ 1023 := by rw [zpow_natCast]
    _ < 2 ^ 1023 + 2 ^ 1023 := add_lt_add_left h _
    _ = 2 ^ 1024 := by rw [← two_mul, ← pow_succ']

/-- A number with a leading one. -/
private theorem isDouble_ldexp {m e : ℤ} {width : ℕ} (hw : width ≤ 52) (hm : 0 ≤ m ∧ m < 2 ^ width) (he : e ≤ 1023) :
    IsDouble (ldexp (1 + m / 2 ^ width) e) := by
  have hpos : (0 : ℚ) < 2 ^ e := by positivity
  have hm0 : (0 : ℚ) ≤ m := by exact_mod_cast hm.1
  have hlt : (m : ℚ) < 2 ^ width := by exact_mod_cast hm.2
  have hfrac : (m : ℚ) / 2 ^ width < 1 := (div_lt_one (by positivity)).2 hlt
  have hfrac0 : (0 : ℚ) ≤ m / 2 ^ width := by positivity
  have habs : |(1 + (m : ℚ) / 2 ^ width) * 2 ^ e| < (2 : ℚ) ^ (e + 1) := by
    rw [abs_of_pos (by positivity), zpow_add_one₀ two_ne_zero, mul_comm]
    exact mul_lt_mul_of_pos_left (by linarith) hpos
  rcases he.lt_or_eq with hlt' | heq
  · have hle : (2 : ℚ) ^ (e + 1) ≤ 2 ^ ((1023 : ℕ) : ℤ) := zpow_le_zpow_right₀ one_le_two (by push_cast; omega)
    rw [zpow_natCast] at hle
    exact isDouble_toDouble (habs.trans_le hle)
  · -- the largest exponent: the number is a float
    have hrep : Representable 53 (-1074) ((1 + m / 2 ^ width) * 2 ^ e) := by
      refine ⟨2 ^ width + m, e - width, ?_, by omega, ?_⟩
      · have hpow : (2 : ℤ) ^ width ≤ 2 ^ 52 := pow_le_pow_right₀ (by norm_num) hw
        rw [abs_of_nonneg (by omega)]
        omega
      · rw [zpow_sub₀ two_ne_zero, zpow_natCast]
        push_cast
        field_simp
    have hself := toNearest_of_representable (K := ℚ) hrep
    rw [Rat.cast_id] at hself
    rw [ldexp, toDouble, hself]
    have htop : e + 1 = ((1024 : ℕ) : ℤ) := by omega
    rw [htop, zpow_natCast] at habs
    exact ⟨hrep, habs⟩

private theorem isDouble_neg {q : ℚ} (h : IsDouble q) : IsDouble (-q) := by
  obtain ⟨⟨m, e, hm, he, rfl⟩, hlt⟩ := h
  refine ⟨⟨-m, e, by rwa [abs_neg], he, by push_cast; ring⟩, by rwa [abs_neg]⟩

/-- A number from the fields of a float. -/
private theorem valid_ofFields {emax bias : ℤ} {width : ℕ} {sign : Bool} {expo mant : ℤ} (hw : width ≤ 52)
    (hm : 0 ≤ mant ∧ mant < 2 ^ width) (he : expo ≤ emax) (hemax : emax - bias ≤ 1024) :
    (unpackers.ofFields emax bias width sign expo mant).Valid := by
  unfold unpackers.ofFields
  by_cases hzero : mant = 0 ∧ expo = 0
  · rw [if_pos hzero]
    exact Or.inr ⟨0, by simp, by norm_num, by norm_num⟩
  · rw [if_neg hzero]
    by_cases hinf : expo = emax
    · rw [if_pos hinf]
      split <;> trivial
    · rw [if_neg hinf]
      have hdouble := isDouble_ldexp hw hm (show expo - bias ≤ 1023 by omega)
      cases sign
      · rw [if_neg Bool.false_ne_true, one_mul]
        exact Or.inl hdouble
      · rw [if_pos rfl, neg_one_mul]
        exact Or.inl (isDouble_neg hdouble)

/-! ### Programs -/

/-- What the program returns is a value as Lua has it. -/
abbrev ReturnsBuilt (p : Unpacking (Value Number)) : Prop := Returns missing Built p

section

variable {d : Unpacking (Value Number)}

private theorem returns_of_next {k : ℕ} {f : List UInt8 → Value Number} (h : ∀ u, u.length = k → Built (f u)) :
    ReturnsBuilt (next k >>= fun bytes => pure (f bytes)) :=
  (returns_next k).bind fun u hu => returns_done (h u hu)

private theorem built_float {u : List UInt8} (hu : u.length = 4) : Built (.num (unpackers.ofFields 0xFF 0x7F 23
    (unpackers.negative u) (bigEndian (u.take 1) % 0x80 * 0x2 + bigEndian ((u.drop 1).take 1) / 0x80)
    (bigEndian ((u.drop 1).take 1) % 0x80 * 0x10000 + bigEndian (u.drop 2)))) := by
  have hlen : ((u.drop 1).take 1).length = 1 := by simp [hu]
  have hlen' : (u.drop 2).length = 2 := by simp [hu]
  have hb2 := ofDigits_lt ((u.drop 1).take 1)
  have hrest := ofDigits_lt (u.drop 2)
  rw [← bigEndian_eq_ofDigits (by omega), hlen] at hb2
  rw [← bigEndian_eq_ofDigits (by omega), hlen'] at hrest
  exact .num (valid_ofFields (by norm_num) (by omega) (by omega) (by norm_num))

private theorem built_double {u : List UInt8} (hu : u.length = 8) : Built (.num (unpackers.ofFields 0x7FF 0x3FF 52
    (unpackers.negative u) (bigEndian (u.take 1) % 0x80 * 0x10 + bigEndian ((u.drop 1).take 1) / 0x10)
    (bigEndian ((u.drop 1).take 1) % 0x10 * 0x1000000000000 + bigEndian (u.drop 2)))) := by
  have hlen : ((u.drop 1).take 1).length = 1 := by simp [hu]
  have hlen' : (u.drop 2).length = 6 := by simp [hu]
  have hb2 := ofDigits_lt ((u.drop 1).take 1)
  have hrest := ofDigits_lt (u.drop 2)
  rw [← bigEndian_eq_ofDigits (by omega), hlen] at hb2
  rw [← bigEndian_eq_ofDigits (by omega), hlen'] at hrest
  exact .num (valid_ofFields (by norm_num) (by omega) (by omega) (by norm_num))

/-- A table as Lua has it, by its entries. -/
structure BuiltEntries (t : List (Value Number × Value Number)) : Prop where
  distinct : t.Pairwise fun e e' => e.1.rawequal e'.1 = false
  entry : ∀ e ∈ t, skipped e.1 = false ∧ e.2 ≠ .nil
  keys : ∀ e ∈ t, Built e.1
  vals : ∀ e ∈ t, Built e.2

private theorem builtEntries_setEntry {t : List (Value Number × Value Number)} {k v : Value Number}
    (ht : BuiltEntries t)
    (hskipped : skipped k = false) (hk : Built k) (hv : Built v) : BuiltEntries (setEntry t k v) where
  distinct := by
    have hfilter := ht.distinct.filter fun e => !e.1.rawequal k
    unfold setEntry
    split
    · exact hfilter
    · refine List.pairwise_append.2 ⟨hfilter, List.pairwise_singleton _ _, fun e he e' he' => ?_⟩
      rw [List.mem_singleton.1 he']
      rw [List.mem_filter, Bool.not_eq_true'] at he
      exact he.2
  entry := by
    intro e he
    rcases mem_setEntry he with ⟨he, -⟩ | ⟨rfl, hnil⟩
    · exact ht.entry e he
    · exact ⟨hskipped, hnil⟩
  keys := by
    intro e he
    rcases mem_setEntry he with ⟨he, -⟩ | ⟨rfl, -⟩
    · exact ht.keys e he
    · exact hk
  vals := by
    intro e he
    rcases mem_setEntry he with ⟨he, -⟩ | ⟨rfl, -⟩
    · exact ht.vals e he
    · exact hv

private theorem builtEntries_nil : BuiltEntries [] := ⟨.nil, by simp, by simp, by simp⟩

private theorem returns_unpackArrayFrom (hd : ReturnsBuilt d) {i n : ℕ} (h : i + n ≤ 2 ^ 63)
    {t : List (Value Number × Value Number)} (ht : BuiltEntries t) : ReturnsBuilt (unpackArrayFrom d i n t) := by
  induction n generalizing i t with
  | zero => exact returns_done (.table ht.distinct ht.entry ht.keys ht.vals)
  | succ n ih =>
    refine hd.bind fun v hv => ih (by omega) (builtEntries_setEntry ht rfl ?_ hv)
    exact .num (Or.inr ⟨i, by simp, by omega, by omega⟩)

private theorem returns_unpackMapFrom (hd : ReturnsBuilt d) (n : ℕ) {t : List (Value Number × Value Number)}
    (ht : BuiltEntries t) : ReturnsBuilt (unpackMapFrom d n t) := by
  induction n generalizing t with
  | zero => exact returns_done (.table ht.distinct ht.entry ht.keys ht.vals)
  | succ n ih =>
    refine hd.bind fun k hk => hd.bind fun v hv => ih ?_
    split
    · exact ht
    · exact builtEntries_setEntry ht (Bool.eq_false_of_not_eq_true ‹_›) hk hv

private theorem returns_unpacker (hd : ReturnsBuilt d) {val : ℕ} (hval : val < 2 ^ 63) (t : WireType) :
    ReturnsBuilt (unpackers.unpacker d val t) := by
  have hstr : ∀ n, ReturnsBuilt (unpackers.str n) := fun n => returns_of_next fun u _ => .str u
  have huint : ∀ k, ReturnsBuilt (unpackers.uint k) :=
    fun k => returns_of_next fun u _ => built_integer (bigEndian_range u)
  have hint : ∀ k, ReturnsBuilt (unpackers.int k) := by
    refine fun k => returns_of_next fun u _ => built_integer ?_
    split
    · exact wrap_range _
    · exact bigEndian_range u
  have hext : ∀ n, ReturnsBuilt (unpackers.ext n) :=
    fun n => (returns_true _).bind fun tag _ => returns_of_next fun data _ => .nil
  have hsize : ∀ k, Returns missing (fun n => n < 2 ^ 63) (unpackers.size k) := by
    refine fun k => (returns_next k).bind fun u _ => returns_done ?_
    have := bigEndian_range u
    omega
  have harray : ∀ n < 2 ^ 63, ReturnsBuilt (unpack_array d n) :=
    fun n hn => returns_unpackArrayFrom hd (by omega) builtEntries_nil
  have hmap : ∀ n, ReturnsBuilt (unpack_map d n) := fun n => returns_unpackMapFrom hd n builtEntries_nil
  cases t with
  | nil => exact returns_done .nil
  | false => exact returns_done (.bool _)
  | true => exact returns_done (.bool _)
  | fixnum_pos | fixnum_neg => exact returns_done (built_integer (by omega))
  | float => exact returns_of_next fun u hu => built_float hu
  | double => exact returns_of_next fun u hu => built_double hu
  | int8 =>
    refine returns_of_next fun u _ => built_integer ?_
    have := bigEndian_range u
    split <;> omega
  | uint8 | uint16 | uint32 | uint64 => exact huint _
  | int16 | int32 | int64 => exact hint _
  | fixstr => exact hstr _
  | str8 | str16 | str32 | bin8 | bin16 | bin32 => exact (hsize _).bind fun n _ => hstr n
  | fixarray => exact harray _ (by omega)
  | array16 | array32 => exact (hsize _).bind harray
  | fixmap => exact hmap _
  | map16 | map32 => exact (hsize _).bind fun n _ => hmap n
  | fixext n => exact hext n
  | ext8 | ext16 | ext32 => exact (hsize _).bind fun n _ => hext n
  | reserved k => exact returns_raise _

end

private theorem returns_any (fuel : ℕ) : ReturnsBuilt (unpackers.any fuel) := by
  induction fuel with
  | zero => exact returns_raise _
  | succ fuel ih =>
    refine (returns_true _).bind fun val _ => returns_unpacker ih ?_ _
    have := bigEndian_range val
    omega

/-- What `unpack` returns is a value as Lua has it. -/
theorem built_of_unpack {s : List UInt8} {v : Value Number} (h : unpack s = .ok v) : Built v := by
  obtain ⟨r, hdecode, -⟩ := unpack_eq_ok_iff.1 h
  exact returns_any _ _ _ _ hdecode

/-! ### A map of an array and a float -/

/-- `{[1] = {true, -1}, a = 1.5}` -/
def nestedTable : Value Number :=
  .table [(integer 1, .table [(integer 1, .bool true), (integer 2, integer (-1))]),
    (.str [0x61], .num (.finite (3 / 2)))]

private theorem ofFields_three_halves : unpackers.ofFields 0xFF 0x7F 23 false 0x7F 0x400000 = .finite (3 / 2) := by
  have hrep : Representable 53 (-1074) (3 / 2) := ⟨3, -1, by norm_num, by norm_num, by norm_num⟩
  have hself := toNearest_of_representable (K := ℚ) hrep
  rw [Rat.cast_id] at hself
  norm_num [unpackers.ofFields, ldexp, toDouble, hself]

private theorem any_cons {fuel : ℕ} {b : UInt8} {l r : List UInt8} {v : Value Number}
    (h : (unpackers.unpacker (unpackers.any fuel) b.toNat (types_map b.toNat)).parse missing l = .ok (v, r)) :
    (unpackers.any (fuel + 1)).parse missing (b :: l) = .ok (v, r) := (any_parse_cons fuel b l).trans h

private theorem encodes_nestedTable :
    Encodes [0x82, 0x01, 0x92, 0xC3, 0xFF, 0xA1, 0x61, 0xCA, 0x3F, 0xC0, 0x00, 0x00] nestedTable := by
  have harray : (unpackers.any 12).parse missing [0x92, 0xC3, 0xFF, 0xA1, 0x61, 0xCA, 0x3F, 0xC0, 0x00, 0x00] =
      .ok (.table [(integer 1, .bool true), (integer 2, integer (-1))],
      [0xA1, 0x61, 0xCA, 0x3F, 0xC0, 0x00, 0x00]) := by
    refine any_cons ((parse_bind_ok (a := .bool true) (any_cons rfl)).trans ?_)
    exact (parse_bind_ok (a := integer (-1)) (any_cons rfl)).trans rfl
  have hfloat : (unpackers.any 12).parse missing [0xCA, 0x3F, 0xC0, 0x00, 0x00] =
    .ok (.num (.finite (3 / 2)), []) := by
    have hfields : (unpackers.any 12).parse missing [0xCA, 0x3F, 0xC0, 0x00, 0x00] =
        .ok (.num (unpackers.ofFields 0xFF 0x7F 23 (unpackers.negative [0x3F, 0xC0, 0x00, 0x00])
          (bigEndian [0x3F] % 0x80 * 0x2 + bigEndian [0xC0] / 0x80)
          (bigEndian [0xC0] % 0x80 * 0x10000 + bigEndian [0x00, 0x00])), []) := any_cons rfl
    have hsign : unpackers.negative [0x3F, 0xC0, 0x00, 0x00] = false := by decide
    have hexpo : bigEndian [0x3F] % 0x80 * 0x2 + bigEndian [0xC0] / 0x80 = 0x7F := by decide
    have hmant : bigEndian [0xC0] % 0x80 * 0x10000 + bigEndian [0x00, 0x00] = 0x400000 := by decide
    rw [hfields, hsign, hexpo, hmant, ofFields_three_halves]
  refine (any_parse (12 + 1) (by decide)).symm.trans (any_cons ?_)
  refine (parse_bind_ok (a := integer 1) (any_cons rfl)).trans ((parse_bind_ok harray).trans ?_)
  exact (parse_bind_ok (a := .str [0x61]) (any_cons rfl)).trans ((parse_bind_ok hfloat).trans rfl)

/-- A map that holds an array and a float. -/
theorem built_nestedTable :
    unpack [0x82, 0x01, 0x92, 0xC3, 0xFF, 0xA1, 0x61, 0xCA, 0x3F, 0xC0, 0x00, 0x00] = .ok nestedTable ∧
      Built nestedTable := by
  have hunpack := unpack_of_encodes encodes_nestedTable []
  exact ⟨hunpack, built_of_unpack hunpack⟩

end LibeventServer.Lua.MessagePack

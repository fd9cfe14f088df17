import LibeventServer.Lua.Doubles

/-!
# Strings and tables on the wire

Strings, arrays and maps begin with a header that has their size (`parse_sizeHeader`).  Behind it come the bytes of a
string (`sends_string`), the elements of an array (`parse_elements`) or the keys and values of a map
(`parse_entries`).
-/

namespace LibeventServer.Lua.MessagePack

open Reading

/-! ### Sizes -/

/-- What follows the header of a string or table is read with the size in the header. -/
theorem parse_sizeHeader (fixmax fix b16 b32 : ℤ) (kind : String) {n : ℕ}
    {f : Unpacking (Value Number) → ℕ → Unpacking (Value Number)}
    (hfix : 0 ≤ fix ∧ fix + fixmax ≤ 255) (h16 : 0 ≤ b16 ∧ b16 ≤ 255) (h32 : 0 ≤ b32 ∧ b32 ≤ 255)
    (hf : ∀ d (b : ℕ), b = fix + n → n ≤ fixmax → unpackers.unpacker d b (types_map b) = f d n)
    (hf16 : ∀ d, unpackers.unpacker d b16.toNat (types_map b16.toNat) = unpackers.size 2 >>= f d)
    (hf32 : ∀ d, unpackers.unpacker d b32.toNat (types_map b32.toNat) = unpackers.size 4 >>= f d)
    (hn : n ≤ 4294967295) :
    ∃ b u, packers.sizeHeader fixmax fix b16 b32 kind n = .ok (b :: u) ∧
      ∀ d t, (unpackers.unpacker d b.toNat (types_map b.toNat)).parse missing (u ++ t) = (f d n).parse missing t := by
  have hbyte : ∀ {b : ℤ}, 0 ≤ b ∧ b ≤ 255 → (byteAt b).toNat = b.toNat := by
    intro b hb
    have := toNat_byteAt b
    omega
  have hsize : ∀ {k : ℕ} d t, k ≤ 7 → (n : ℤ) < 0x100 ^ k →
      (unpackers.size k >>= f d).parse missing (digits k n ++ t) = (f d n).parse missing t := by
    intro k d t hk hlt
    have hvalue : (bigEndian (digits k n)).toNat = n := by
      rw [bigEndian_eq_ofDigits (by simpa using hk), ofDigits_digits, Int.emod_eq_of_lt (by omega) hlt]
      rfl
    have hread : (unpackers.size k).parse missing (digits k n ++ t) = .ok (n, t) := by
      rw [unpackers.size, parse_next_map_append (length_digits k n), hvalue]
    exact parse_bind_ok hread
  unfold packers.sizeHeader
  split_ifs with hsmall hmedium hlarge
  · refine ⟨byteAt (fix + n), [], char_ok (by simp; omega), fun d t => ?_⟩
    rw [List.nil_append, hf d _ (by rw [hbyte (by omega)]; omega) hsmall]
  · refine ⟨byteAt b16, digits 2 n, ?_, fun d t => ?_⟩
    · rw [char_ok (by simp; omega), digits_two]
      simp
    · rw [hbyte h16, hf16, hsize d t (by norm_num) (by norm_num; omega)]
  · refine ⟨byteAt b32, digits 4 n, ?_, fun d t => ?_⟩
    · rw [char_ok (by simp; omega), digits_four]
      simp
    · rw [hbyte h32, hf32, hsize d t (by norm_num) (by norm_num; omega)]
  · omega

private theorem types_map_fixstr {k : ℕ} (h : 0xA0 ≤ k) (h' : k < 0xC0) : types_map k = .fixstr := by
  unfold types_map
  split
  any_goals omega
  rw [if_pos h', if_neg (by omega), if_neg (by omega), if_neg (by omega)]

theorem types_map_fixarray {k : ℕ} (h : 0x90 ≤ k) (h' : k < 0xA0) : types_map k = .fixarray := by
  unfold types_map
  split
  any_goals omega
  rw [if_pos (by omega), if_neg (by omega), if_neg (by omega), if_pos h']

theorem types_map_fixmap {k : ℕ} (h : 0x80 ≤ k) (h' : k < 0x90) : types_map k = .fixmap := by
  unfold types_map
  split
  any_goals omega
  rw [if_pos (by omega), if_neg (by omega), if_pos h']

/-! ### Strings -/

theorem sends_string {s : List UInt8} (hs : s.length ≤ 4294967295) : Sends (packers.string_compat s) (.str s) := by
  have hf : ∀ d (b : ℕ), (b : ℤ) = 0xA0 + s.length → (s.length : ℤ) ≤ 0x1F →
      unpackers.unpacker d b (types_map b) = unpackers.str s.length := by
    intro d b hb hn
    rw [types_map_fixstr (by omega) (by omega), unpackers.unpacker]
    congr 1
    omega
  obtain ⟨b, u, hheader, hparse⟩ := parse_sizeHeader 0x1F 0xA0 0xDA 0xDB "string_compat"
    (f := fun _ n => unpackers.str n) (by norm_num) (by norm_num) (by norm_num) hf (fun d => rfl) (fun d => rfl) hs
  refine ⟨b :: u ++ s, ?_, encodes_cons fun d => ?_⟩
  · rw [packers.string_compat, hheader]
    rfl
  · rw [List.append_eq, hparse, unpackers.str, parse_next_map rfl]

/-! ### Tables -/

theorem mem_setEntry {t : List (Value Number × Value Number)} {k v : Value Number} {e : Value Number × Value Number}
    (h : e ∈ setEntry t k v) : e ∈ t ∧ e.1.rawequal k = false ∨ e = (k, v) ∧ v ≠ .nil := by
  unfold setEntry at h
  have hfilter : ∀ {e}, e ∈ t.filter (fun e => !e.1.rawequal k) → e ∈ t ∧ e.1.rawequal k = false := by
    intro e he
    rwa [List.mem_filter, Bool.not_eq_true'] at he
  split at h
  · exact Or.inl (hfilter h)
  · rename_i hv
    rcases List.mem_append.1 h with h | h
    · exact Or.inl (hfilter h)
    · exact Or.inr ⟨List.mem_singleton.1 h, fun hnil => hv (Value.isNil_iff.2 hnil)⟩

/-- What `unpack_map` makes of the entries it reads. -/
def assignEntries (t : List (Value Number × Value Number)) (entries : List (Value Number × Value Number)) :
    List (Value Number × Value Number) :=
  entries.foldl (fun t e => if skipped e.1 then t else setEntry t e.1 e.2) t

/-- What `unpack_array` makes of the elements it reads, for the index of the first. -/
def assignElements (t : List (Value Number × Value Number)) (i : ℕ) : List (Value Number) →
    List (Value Number × Value Number)
  | [] => t
  | v :: l => assignElements (setEntry t (.num (.finite i)) v) (i + 1) l

/-- The entries of a table are packed as these. -/
def SendsEntries (tbl : List packers.Entry) (entries : List (Value Number × Value Number)) : Prop :=
  List.Forall₂ (fun e x => Sends e.key x.1 ∧ Sends e.val x.2) tbl entries

/-- On lists of this length at most `d` does what `decode` does. -/
def Decodes (d : Unpacking (Value Number)) (L : ℕ) : Prop := ∀ l, l.length ≤ L → d.parse missing l = decode l

theorem decodes_any (L : ℕ) : Decodes (unpackers.any (anyFuel L)) L := fun _ hl => any_parse _ (Nat.lt_succ_of_le hl)

private theorem parse_of_encodes {d : Unpacking (Value Number)} {u t : List UInt8} {v : Value Number} {L : ℕ}
    (hd : Decodes d L) (hu : Encodes u v) (hL : (u ++ t).length ≤ L) : d.parse missing (u ++ t) = .ok (v, t) := by
  rw [hd _ hL, decode_append hu, List.nil_append]

/-- The entries of a map are read in turn. -/
theorem parse_entries {tbl : List packers.Entry} {entries : List (Value Number × Value Number)}
    (h : SendsEntries tbl entries) : ∃ u, inTurn (tbl.flatMap fun e => [e.key, e.val]) = .ok u ∧
      ∀ {d L} t acc, Decodes d L → (u ++ t).length ≤ L →
        (unpackMapFrom d entries.length acc).parse missing (u ++ t) =
        .ok (.table (assignEntries acc entries), t) := by
  induction h with
  | nil => exact ⟨[], rfl, fun t acc hd hL => rfl⟩
  | cons hx _ ih =>
    obtain ⟨⟨bk, hbk, hk⟩, bv, hbv, hv⟩ := hx
    obtain ⟨u, hu, hparse⟩ := ih
    refine ⟨bk ++ (bv ++ u), ?_, fun t acc hd hL => ?_⟩
    · simp only [List.flatMap_cons, List.cons_append, List.nil_append, inTurn, hbk, hbv, hu]
      rfl
    · rw [List.append_assoc] at hL ⊢
      have hkey := parse_of_encodes hd hk hL
      rw [List.length_append, List.append_assoc] at hL
      have hval := parse_of_encodes (t := u ++ t) hd hv (by omega)
      rw [List.length_append] at hL
      refine (parse_bind_ok hkey).trans ?_
      rw [List.append_assoc]
      refine (parse_bind_ok hval).trans ?_
      exact hparse t _ hd (by omega)

/-- The elements of an array are read in turn. -/
theorem parse_elements {ps : List Packed} {l : List (Value Number)} (h : List.Forall₂ Sends ps l) :
    ∃ u, inTurn ps = .ok u ∧ ∀ {d L} t acc i, Decodes d L → (u ++ t).length ≤ L →
      (unpackArrayFrom d i l.length acc).parse missing (u ++ t) = .ok (.table (assignElements acc i l), t) := by
  induction h with
  | nil => exact ⟨[], rfl, fun t acc i hd hL => rfl⟩
  | cons hx _ ih =>
    obtain ⟨b, hb, hv⟩ := hx
    obtain ⟨u, hu, hparse⟩ := ih
    refine ⟨b ++ u, ?_, fun t acc i hd hL => ?_⟩
    · simp only [inTurn, hb, hu]
      rfl
    · rw [List.append_assoc] at hL ⊢
      have hval := parse_of_encodes hd hv hL
      rw [List.length_append] at hL
      refine (parse_bind_ok hval).trans ?_
      exact hparse t _ _ hd (by omega)

end LibeventServer.Lua.MessagePack

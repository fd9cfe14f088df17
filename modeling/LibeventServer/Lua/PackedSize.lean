import LibeventServer.Lua.Portable

/-!
# How long a packed value is

A number takes one to nine bytes, a short string one byte more than it has, and a table a header of one, three or five
bytes and what its entries take: of an array only the values are packed.
-/

namespace LibeventServer.Lua.MessagePack

/-- The packed value has at least `lo` and at most `hi` bytes. -/
def Between (lo hi : ℕ) (p : Packed) : Prop := ∃ bytes, p = .ok bytes ∧ lo ≤ bytes.length ∧ bytes.length ≤ hi

theorem Between.mono {lo hi lo' hi' : ℕ} {p : Packed} (h : Between lo hi p) (hlo : lo' ≤ lo) (hhi : hi ≤ hi') :
    Between lo' hi' p := by
  obtain ⟨bytes, hp, hle, hge⟩ := h
  exact ⟨bytes, hp, by omega, by omega⟩

theorem between_char (args : List ℤ) (h : ∀ n ∈ args, 0 ≤ n ∧ n ≤ 255) :
    Between args.length args.length (char args) :=
  ⟨_, char_ok h, by simp, by simp⟩

private theorem length_charFrom {args : List ℤ} {bytes : List UInt8} {arg : ℕ} (h : charFrom arg args = .ok bytes) :
    bytes.length = args.length := by
  induction args generalizing arg bytes with
  | nil =>
    cases h
    rfl
  | cons n args ih =>
    rw [charFrom] at h
    cases hn : charByte arg n with
    | error e =>
      rw [hn] at h
      cases h
    | ok b =>
      cases hrest : charFrom (arg + 1) args with
      | error e =>
        rw [hn, hrest] at h
        cases h
      | ok rest =>
        rw [hn, hrest] at h
        cases h
        rw [List.length_cons, List.length_cons, ih hrest]

private theorem length_char {args : List ℤ} {bytes : List UInt8} (h : char args = .ok bytes) :
    bytes.length = args.length :=
  length_charFrom h

/-! ### Numbers and strings -/

private theorem length_unsigned {n : ℤ} {bytes : List UInt8} (h : packers.unsigned n = .ok bytes) :
    1 ≤ bytes.length ∧ bytes.length ≤ 9 := by
  unfold packers.unsigned at h
  split_ifs at h <;> simp [length_char h]

/-- Integers of 32 bits without a sign. -/
theorem length_unsigned_of_lt {n : ℤ} {bytes : List UInt8} (hn : 0 ≤ n ∧ n ≤ 4294967295)
    (h : packers.unsigned n = .ok bytes) : bytes.length ≤ 5 := by
  unfold packers.unsigned at h
  rw [if_pos hn.1] at h
  split_ifs at h
  all_goals first | omega | simp [length_char h]

private theorem length_checked {q : ℚ} {f : ℤ → List ℤ} {bytes : List UInt8} {k : ℕ} (hf : ∀ n, (f n).length = k)
    (h : (checkinteger 9 q >>= fun last => char (f last)) = .ok bytes) : bytes.length = k := by
  cases hlast : checkinteger 9 q with
  | error e =>
    rw [hlast] at h
    cases h
  | ok n =>
    rw [hlast] at h
    exact (length_char h).trans (hf n)

private theorem length_double {n : Number} {bytes : List UInt8} (h : packers.double n = .ok bytes) :
    bytes.length = 9 := by
  cases n with
  | nan => exact length_char h
  | inf neg => cases neg <;> exact length_char h
  | finite q =>
    simp only [packers.double] at h
    split_ifs at h
    all_goals first | exact length_char h | exact length_checked (fun _ => rfl) h

theorem between_number {n : Number} (hn : n.Valid) : Between 1 9 (packers.number n) := by
  obtain ⟨bytes, hbytes, -⟩ := sends_number hn
  refine ⟨bytes, hbytes, ?_⟩
  unfold packers.number at hbytes
  split at hbytes
  · split_ifs at hbytes
    · simp [length_double hbytes]
    · exact length_unsigned hbytes
  · simp [length_double hbytes]

/-- A finite number that is packed as the integer it is. -/
theorem number_intCast {n : ℤ} (h : |n| ≤ 2 ^ 63) : packers.number (.finite n) = packers.unsigned n := by
  have hcast : |(n : ℚ)| ≤ 2 ^ 63 := by exact_mod_cast h
  have hle := abs_le.1 (hcast.trans le_limit)
  rw [packers.number, Int.floor_intCast, if_neg]
  rintro (hne | hgt | hlt)
  · exact hne rfl
  · linarith
  · linarith

theorem between_string {s : List UInt8} (hs : s.length ≤ 31) :
    Between (s.length + 1) (s.length + 1) (packers.string_compat s) := by
  obtain ⟨header, hheader, hlen, hlen'⟩ := between_char [0xA0 + (s.length : ℤ)] (by simp; omega)
  rw [List.length_singleton] at hlen hlen'
  refine ⟨header ++ s, ?_, by simp; omega, by simp; omega⟩
  rw [packers.string_compat, packers.sizeHeader, if_pos (by omega), hheader]
  rfl

/-! ### Tables -/

section

variable {lo hi lo' hi' : ℕ} {p : Packed} {l : List Packed}

theorem between_inTurn_nil : Between 0 0 (inTurn []) := ⟨[], rfl, le_rfl, le_rfl⟩

theorem between_inTurn_cons (hp : Between lo hi p) (hl : Between lo' hi' (inTurn l)) :
    Between (lo + lo') (hi + hi') (inTurn (p :: l)) := by
  obtain ⟨bytes, rfl, hle, hge⟩ := hp
  obtain ⟨rest, hrest, hle', hge'⟩ := hl
  refine ⟨bytes ++ rest, ?_, by simp; omega, by simp; omega⟩
  rw [inTurn, hrest]
  rfl

private theorem between_inTurn (h : ∀ p ∈ l, Between lo hi p) :
    Between (l.length * lo) (l.length * hi) (inTurn l) := by
  induction l with
  | nil => simpa using between_inTurn_nil
  | cons p l ih =>
    have hl := between_inTurn_cons (h p (by simp)) (ih fun p' hp' => h p' (by simp [hp']))
    exact hl.mono (by simp [Nat.succ_mul, Nat.add_comm]) (by simp [Nat.succ_mul, Nat.add_comm])

private theorem between_entries {tbl : List packers.Entry}
    (h : ∀ e ∈ tbl, Between lo hi e.key ∧ Between lo' hi' e.val) :
    Between (tbl.length * (lo + lo')) (tbl.length * (hi + hi')) (inTurn (tbl.flatMap fun e => [e.key, e.val])) := by
  induction tbl with
  | nil => simpa using between_inTurn_nil
  | cons e tbl ih =>
    have htbl := ih fun e' he' => h e' (by simp [he'])
    have he := h e (by simp)
    have hall := between_inTurn_cons he.1 (between_inTurn_cons he.2 htbl)
    refine hall.mono ?_ ?_
    · rw [List.length_cons, Nat.succ_mul]
      omega
    · rw [List.length_cons, Nat.succ_mul]
      omega

end

/-- The bytes before the entries of a table. -/
def headerSize (n : ℕ) : ℕ := if n ≤ 15 then 1 else if n ≤ 65535 then 3 else 5

private theorem between_sizeHeader (fix b16 b32 : ℤ) (kind : String) {n : ℕ} (hfix : 0 ≤ fix ∧ fix ≤ 240)
    (hb16 : 0 ≤ b16 ∧ b16 ≤ 255) (hb32 : 0 ≤ b32 ∧ b32 ≤ 255) (hn : n ≤ 4294967295) :
    Between (headerSize n) (headerSize n) (packers.sizeHeader 0x0F fix b16 b32 kind n) := by
  unfold headerSize packers.sizeHeader
  split_ifs
  · exact between_char _ (by simp; omega)
  all_goals first | omega | exact between_char _ (by simp; omega)

section

variable {tbl : List packers.Entry} {lo hi lo' hi' : ℕ}

theorem between_map {n : ℕ} (hn : n ≤ 4294967295) (h : Between lo hi (inTurn (tbl.flatMap fun e => [e.key, e.val]))) :
    Between (headerSize n + lo) (headerSize n + hi) (packers.map tbl n) := by
  obtain ⟨header, hheader, hle, hge⟩ := between_sizeHeader 0x80 0xDE 0xDF "map" (by norm_num)
    (by norm_num) (by norm_num) hn
  obtain ⟨rest, hrest, hle', hge'⟩ := h
  refine ⟨header ++ rest, ?_, by simp; omega, by simp; omega⟩
  rw [packers.map, hheader, hrest]
  rfl

theorem between_array {n : ℕ} (hn : n ≤ 4294967295)
    (h : Between lo hi (inTurn ((List.range n).map fun i => packers.element tbl (i + 1)))) :
    Between (headerSize n + lo) (headerSize n + hi) (packers.array tbl n) := by
  obtain ⟨header, hheader, hle, hge⟩ := between_sizeHeader 0x90 0xDC 0xDD "array" (by norm_num)
    (by norm_num) (by norm_num) hn
  obtain ⟨rest, hrest, hle', hge'⟩ := h
  refine ⟨header ++ rest, ?_, by simp; omega, by simp; omega⟩
  rw [packers.array, hheader, hrest]
  rfl

/-- A table whose keys and values have between so many bytes each.  When it is packed as an array, the keys are not in
it. -/
theorem between_table {entries : List (Value Number × Value Number)} (length : entries.length ≤ 4294967295)
    (nodup : (entries.map Prod.fst).Nodup) (isKey : ∀ e ∈ entries, IsKey e.1)
    (array : (packers.shape (entries.map Prod.fst)).1 = false →
      ∀ k ∈ entries.map Prod.fst, ∃ n : ℤ, k = .num (.finite n))
    (keys : ∀ e ∈ entries, Between lo hi (packValue e.1)) (vals : ∀ e ∈ entries, Between lo' hi' (packValue e.2)) :
    Between (headerSize entries.length + entries.length * lo')
    (headerSize entries.length + entries.length * (hi + hi')) (packValue (.table entries)) := by
  have hmap : (packEntries entries).map packers.Entry.k = entries.map Prod.fst := by
    rw [packEntries_eq, List.map_map]
    rfl
  have hlength : (packers.shape (entries.map Prod.fst)).2 = entries.length := by
    rw [shape_eq, List.length_map]
  rw [packValue, packers._table, hmap, hlength]
  cases hshape : (packers.shape (entries.map Prod.fst)).1 with
  | true =>
    -- packed as a map: keys and values in turn
    have hentries : ∀ e ∈ packEntries entries, Between lo hi e.key ∧ Between lo' hi' e.val := by
      intro e he
      rw [packEntries_eq] at he
      obtain ⟨e', he', rfl⟩ := List.mem_map.1 he
      exact ⟨keys e' he', vals e' he'⟩
    have hall := between_map length (between_entries hentries)
    have hcount : (packEntries entries).length = entries.length := by rw [packEntries_eq, List.length_map]
    rw [hcount] at hall
    refine hall.mono ?_ le_rfl
    have : entries.length * lo' ≤ entries.length * (lo + lo') := Nat.mul_le_mul_left _ (by omega)
    omega
  | false =>
    -- packed as an array: the keys are `1` to the length, and only the values are written
    have hmem := mem_keys_iff hshape nodup (array hshape)
    rw [List.length_map] at hmem
    have helements : ∀ p ∈ (List.range entries.length).map fun i => packers.element (packEntries entries) (i + 1),
        Between lo' hi' p := by
      intro p hp
      obtain ⟨i, hi, rfl⟩ := List.mem_map.1 hp
      obtain ⟨e, he, hk⟩ := List.mem_map.1 ((hmem _).2 ⟨i, List.mem_range.1 hi, rfl⟩)
      rw [element_eq nodup isKey he hk]
      exact vals e he
    have hall := between_array length (between_inTurn helements)
    rw [List.length_map, List.length_range] at hall
    refine hall.mono le_rfl ?_
    have : entries.length * hi' ≤ entries.length * (hi + hi') := Nat.mul_le_mul_left _ (by omega)
    omega

end

end LibeventServer.Lua.MessagePack

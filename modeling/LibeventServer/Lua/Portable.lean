import LibeventServer.Lua.Shapes
import LibeventServer.Lua.Tables

/-!
# Values that arrive as they were

`pack` and then `unpack` gives a value back, up to the order in which tables list their entries (`portable_sends`),
when its numbers are among those that survive, its strings and tables are not too long, its tables have scalars for
keys, and no table is mistaken for an array.  `packers['_table']` takes for an array a table whose keys are positive
numbers, as many as the largest of them says; what is stored under a key that is not an integer is then lost
(`table_survives_iff`).  The stack of the interpreter is taken to suffice for the nesting of the tables.
-/

namespace LibeventServer.Lua.MessagePack

open Reading

/-! ### Tables by their entries -/

section

variable {entries entries' : List (Value Number × Value Number)} {k v : Value Number}

private theorem rawget_eq_nil (h : k ∉ entries.map Prod.fst) (hkeys : ∀ e ∈ entries, IsKey e.1) :
    Value.rawget entries k = .nil := by
  have hnone : entries.find? (fun e => e.1.rawequal k) = none := by
    rw [List.find?_eq_none]
    intro e he heq
    exact h (List.mem_map.2 ⟨e, he, (rawequal_iff (hkeys e he)).1 heq⟩)
  rw [Value.rawget, hnone]

/-- The entry of a key, in a list without repetitions of keys. -/
private theorem find?_key {α : Type} {f : α → Value Number} {l : List α} {a : α} (hkeys : ∀ b ∈ l, IsKey (f b))
    (hnodup : (l.map f).Nodup) (ha : a ∈ l) : l.find? (fun b => (f b).rawequal (f a)) = some a := by
  induction l with
  | nil => cases ha
  | cons b l ih =>
    rw [List.map_cons, List.nodup_cons] at hnodup
    have hb : (f b).rawequal (f a) = true ↔ f b = f a := rawequal_iff (hkeys b List.mem_cons_self)
    rcases List.mem_cons.1 ha with rfl | ha
    · exact List.find?_cons_of_pos (hb.2 rfl)
    · have hne : ¬ (f b).rawequal (f a) = true := by
        rw [hb]
        intro heq
        exact hnodup.1 (List.mem_map.2 ⟨a, ha, heq.symm⟩)
      exact (List.find?_cons_of_neg (p := fun b => (f b).rawequal (f a)) hne).trans
        (ih (fun c hc => hkeys c (List.mem_cons_of_mem b hc)) hnodup.2 ha)

private theorem rawget_eq_of_mem (hkeys : ∀ e ∈ entries, IsKey e.1) (hnodup : (entries.map Prod.fst).Nodup)
    (h : (k, v) ∈ entries) : Value.rawget entries k = v := by
  rw [Value.rawget, find?_key hkeys hnodup h]

/-- A new key comes last. -/
private theorem setEntry_of_not_mem (hkeys : ∀ e ∈ entries, IsKey e.1) (h : k ∉ entries.map Prod.fst)
    (hv : v ≠ .nil) :
    setEntry entries k v = entries ++ [(k, v)] := by
  have hfilter : entries.filter (fun e => !e.1.rawequal k) = entries := by
    rw [List.filter_eq_self]
    intro e he
    rw [Bool.not_eq_true', ← Bool.not_eq_true, rawequal_iff (hkeys e he)]
    rintro rfl
    exact h (List.mem_map.2 ⟨e, he, rfl⟩)
  rw [setEntry, hfilter, if_neg (by rwa [Value.isNil_iff])]

private theorem skipped_eq_false (hk : IsKey k) : skipped k = false := by
  cases k with
  | nil => cases hk
  | num n =>
    cases n with
    | nan => exact absurd rfl hk
    | _ => rfl
  | _ => rfl

/-- Assigning entries whose keys are all different gives these entries. -/
private theorem assignEntries_eq (hkeys : ∀ e ∈ entries ++ entries', IsKey e.1)
    (hnodup : ((entries ++ entries').map Prod.fst).Nodup) (hvals : ∀ e ∈ entries', e.2 ≠ .nil) :
    assignEntries entries entries' = entries ++ entries' := by
  induction entries' generalizing entries with
  | nil => rw [assignEntries, List.foldl_nil, List.append_nil]
  | cons e entries' ih =>
    have hk : IsKey e.1 := hkeys e (by simp)
    have hskipped := skipped_eq_false hk
    have hnew : e.1 ∉ entries.map Prod.fst := by
      rw [List.map_append, List.map_cons, List.nodup_append] at hnodup
      exact fun hmem => hnodup.2.2 _ hmem _ List.mem_cons_self rfl
    have hset := setEntry_of_not_mem (fun e he => hkeys e (List.mem_append_left _ he)) hnew
      (hvals e List.mem_cons_self)
    have hassoc : entries ++ [e] ++ entries' = entries ++ e :: entries' := by simp
    rw [assignEntries, List.foldl_cons, hskipped, if_neg Bool.false_ne_true, hset, ← hassoc]
    exact ih (hassoc.symm ▸ hkeys) (hassoc.symm ▸ hnodup) fun e' he' => hvals e' (List.mem_cons_of_mem e he')

end

/-! ### Values that are the same up to the order of entries -/

/-- Scalars are the same when they are equal, tables when they have the same keys and the same values under them. -/
inductive Same : Value Number → Value Number → Prop where
  | nil : Same .nil .nil
  | bool (b : Bool) : Same (.bool b) (.bool b)
  | num (n : Number) : Same (.num n) (.num n)
  | str (s : List UInt8) : Same (.str s) (.str s)
  | table {entries entries' : List (Value Number × Value Number)}
      (keys : ∀ k, k ∈ entries.map Prod.fst ↔ k ∈ entries'.map Prod.fst)
      (vals : ∀ k, IsKey k → Same (.rawget entries k) (.rawget entries' k)) : Same (.table entries) (.table entries')

/-- The values that `pack` and `unpack` carry over. -/
inductive Portable : Value Number → Prop where
  | nil : Portable .nil
  | bool (b : Bool) : Portable (.bool b)
  | num {n : Number} (valid : n.Valid) (kept : Kept n) : Portable (.num n)
  | str {s : List UInt8} (length : s.length ≤ 4294967295) : Portable (.str s)
  | table {entries : List (Value Number × Value Number)} (length : entries.length ≤ 4294967295)
      (nodup : (entries.map Prod.fst).Nodup) (isKey : ∀ e ∈ entries, IsKey e.1) (notNil : ∀ e ∈ entries, e.2 ≠ .nil)
      (array : (packers.shape (entries.map Prod.fst)).1 = false →
        ∀ k ∈ entries.map Prod.fst, ∃ n : ℤ, k = .num (.finite n))
      (keys : ∀ e ∈ entries, Portable e.1) (vals : ∀ e ∈ entries, Portable e.2) : Portable (.table entries)

/-- Integers that are not too large. -/
private theorem portable_integer {n : ℤ} (h : -2 ^ 31 ≤ n) (h' : n < 2 ^ 32) : Portable (.num (.finite n)) := by
  refine .num (Or.inr ⟨n, rfl, by omega, by omega⟩) ?_
  have hcast : |(n : ℚ)| ≤ 2 ^ 63 := by
    have habs : |n| ≤ 2 ^ 63 := abs_le.2 ⟨by omega, by omega⟩
    exact_mod_cast habs
  rw [Kept, Int.floor_intCast, if_pos ⟨rfl, hcast.trans le_limit⟩]
  exact Or.inl ⟨h, h'⟩

private theorem Same.eq_of_isKey {k w : Value Number} (h : Same k w) (hk : IsKey k) : w = k := by
  cases h with
  | table => cases hk
  | _ => rfl

private theorem Same.ne_nil {v w : Value Number} (h : Same v w) (hv : v ≠ .nil) : w ≠ .nil := by
  cases h with
  | nil => exact absurd rfl hv
  | _ => simp

/-- Tables are the same when each entry of the one has its match in the other. -/
private theorem same_table {entries entries' : List (Value Number × Value Number)} (hkeys : ∀ e ∈ entries, IsKey e.1)
    (hnodup : (entries.map Prod.fst).Nodup) (hkeys' : ∀ e ∈ entries', IsKey e.1)
    (hnodup' : (entries'.map Prod.fst).Nodup) (hiff : ∀ k, k ∈ entries.map Prod.fst ↔ k ∈ entries'.map Prod.fst)
    (h : ∀ e ∈ entries, ∃ w, (e.1, w) ∈ entries' ∧ Same e.2 w) : Same (.table entries) (.table entries') := by
  refine .table hiff fun k hk => ?_
  by_cases hmem : k ∈ entries.map Prod.fst
  · obtain ⟨e, he, rfl⟩ := List.mem_map.1 hmem
    obtain ⟨w, hw, hsame⟩ := h e he
    rwa [rawget_eq_of_mem hkeys hnodup he, rawget_eq_of_mem hkeys' hnodup' hw]
  · rw [rawget_eq_nil hmem hkeys, rawget_eq_nil (fun hmem' => hmem ((hiff k).2 hmem')) hkeys']
    exact .nil

/-! ### The way there and back -/

theorem packEntries_eq (entries : List (Value Number × Value Number)) :
    packEntries entries = entries.map fun e => ⟨e.1, packValue e.1, packValue e.2⟩ := by
  induction entries with
  | nil => rfl
  | cons e entries ih => rw [packEntries, ih, List.map_cons]

private theorem exists_forall₂ {α β : Type} {R : α → β → Prop} {l : List α} (h : ∀ a ∈ l, ∃ b, R a b) :
    ∃ l', List.Forall₂ R l l' := by
  induction l with
  | nil => exact ⟨[], .nil⟩
  | cons a l ih =>
    obtain ⟨b, hb⟩ := h a List.mem_cons_self
    obtain ⟨l', hl'⟩ := ih fun a' ha' => h a' (List.mem_cons_of_mem a ha')
    exact ⟨b :: l', .cons hb hl'⟩

private theorem exists_of_forall₂ {α β : Type} {R : α → β → Prop} {l : List α} {l' : List β}
    (h : List.Forall₂ R l l') :
    ∀ b ∈ l', ∃ a ∈ l, R a b := by
  induction h with
  | nil => simp
  | cons hx _ ih =>
    intro b hb
    rcases List.mem_cons.1 hb with rfl | hb
    · exact ⟨_, List.mem_cons_self, hx⟩
    · obtain ⟨a, ha, hab⟩ := ih b hb
      exact ⟨a, List.mem_cons_of_mem _ ha, hab⟩

/-- A map. -/
private theorem sends_map {tbl : List packers.Entry} {entries : List (Value Number × Value Number)}
    (h : SendsEntries tbl entries) (hlen : entries.length ≤ 4294967295) :
    Sends (packers.map tbl entries.length) (.table (assignEntries [] entries)) := by
  have hf : ∀ d (b : ℕ), (b : ℤ) = 0x80 + entries.length → (entries.length : ℤ) ≤ 0x0F →
      unpackers.unpacker d b (types_map b) = unpack_map d entries.length := by
    intro d b hb hn
    rw [types_map_fixmap (by omega) (by omega), unpackers.unpacker]
    congr 1
    omega
  obtain ⟨b, u, hheader, hparse⟩ := parse_sizeHeader 0x0F 0x80 0xDE 0xDF "map" (f := unpack_map)
    (by norm_num) (by norm_num) (by norm_num) hf (fun d => rfl) (fun d => rfl) hlen
  obtain ⟨bytes, hbytes, hentries⟩ := parse_entries h
  refine ⟨b :: u ++ bytes, ?_, ?_⟩
  · rw [packers.map, hheader, hbytes]
    rfl
  · have hread := hentries (L := (u ++ bytes).length) [] [] (decodes_any _) (by simp)
    rw [List.append_nil] at hread
    rw [Encodes, List.cons_append, decode_cons, hparse]
    exact hread

/-- The header of an array. -/
private theorem array_header {n : ℕ} (hn : n ≤ 4294967295) :
    ∃ b u, packers.sizeHeader 0x0F 0x90 0xDC 0xDD "array" n = .ok (b :: u) ∧
      ∀ d t, (unpackers.unpacker d b.toNat (types_map b.toNat)).parse missing (u ++ t) =
        (unpack_array d n).parse missing t := by
  refine parse_sizeHeader 0x0F 0x90 0xDC 0xDD "array" (by norm_num) (by norm_num) (by norm_num) ?_ (fun d => rfl)
    (fun d => rfl) hn
  intro d b hb hle
  rw [types_map_fixarray (by omega) (by omega), unpackers.unpacker]
  congr 1
  omega

/-- An array. -/
private theorem sends_array {tbl : List packers.Entry} {l : List (Value Number)}
    (h : List.Forall₂ Sends ((List.range l.length).map fun i => packers.element tbl (i + 1)) l)
    (hlen : l.length ≤ 4294967295) :
    Sends (packers.array tbl l.length) (.table (assignElements [] 1 l)) := by
  obtain ⟨b, u, hheader, hparse⟩ := array_header hlen
  obtain ⟨bytes, hbytes, helements⟩ := parse_elements h
  refine ⟨b :: u ++ bytes, ?_, ?_⟩
  · rw [packers.array, hheader, hbytes]
    rfl
  · have hread := helements (L := (u ++ bytes).length) [] [] 1 (decodes_any _) (by simp)
    rw [List.append_nil] at hread
    rw [Encodes, List.cons_append, decode_cons, hparse]
    exact hread

/-- The entries `unpack_array` makes. -/
def elementsFrom (i : ℕ) : List (Value Number) → List (Value Number × Value Number)
  | [] => []
  | v :: l => (.num (.finite i), v) :: elementsFrom (i + 1) l

private theorem mem_elementsFrom {i : ℕ} {l : List (Value Number)} {e : Value Number × Value Number} :
    e ∈ elementsFrom i l ↔ ∃ j v, l[j]? = some v ∧ e = (.num (.finite ((i + j : ℕ) : ℚ)), v) := by
  induction l generalizing i with
  | nil => simp [elementsFrom]
  | cons v l ih =>
    rw [elementsFrom, List.mem_cons, ih]
    constructor
    · rintro (rfl | ⟨j, w, hw, rfl⟩)
      · exact ⟨0, v, rfl, rfl⟩
      · exact ⟨j + 1, w, hw, by rw [Nat.add_right_comm i 1 j, Nat.add_assoc]⟩
    · rintro ⟨j, w, hw, rfl⟩
      cases j with
      | zero =>
        cases hw
        exact Or.inl rfl
      | succ j => exact Or.inr ⟨j, w, hw, by rw [Nat.add_right_comm i 1 j, Nat.add_assoc]⟩

private theorem map_fst_elementsFrom (i : ℕ) (l : List (Value Number)) :
    (elementsFrom i l).map Prod.fst = (List.range l.length).map fun j => .num (.finite ((i + j : ℕ) : ℚ)) := by
  induction l generalizing i with
  | nil => rfl
  | cons v l ih =>
    rw [elementsFrom, List.map_cons, ih, List.length_cons, List.range_succ_eq_map, List.map_cons, List.map_map]
    congr 1
    refine List.map_congr_left fun j _ => ?_
    rw [Function.comp_apply, Nat.add_right_comm i 1 j, Nat.succ_eq_add_one, Nat.add_assoc]

private theorem nodup_elementsFrom (i : ℕ) (l : List (Value Number)) : ((elementsFrom i l).map Prod.fst).Nodup := by
  rw [map_fst_elementsFrom]
  refine List.nodup_range.map fun j j' heq => ?_
  simpa using heq

private theorem assignElements_eq {t : List (Value Number × Value Number)} {i : ℕ} {l : List (Value Number)}
    (hkeys : ∀ e ∈ t, IsKey e.1) (hnodup : ((t ++ elementsFrom i l).map Prod.fst).Nodup) (hvals : ∀ v ∈ l, v ≠ .nil) :
    assignElements t i l = t ++ elementsFrom i l := by
  induction l generalizing t i with
  | nil => rw [assignElements, elementsFrom, List.append_nil]
  | cons v l ih =>
    have hnew : (.num (.finite i)) ∉ t.map Prod.fst := by
      rw [List.map_append, elementsFrom, List.map_cons, List.nodup_append] at hnodup
      exact fun hmem => hnodup.2.2 _ hmem _ List.mem_cons_self rfl
    have hset := setEntry_of_not_mem hkeys hnew (hvals v List.mem_cons_self)
    have hassoc : t ++ [(.num (.finite i), v)] ++ elementsFrom (i + 1) l = t ++ elementsFrom i (v :: l) := by
      rw [elementsFrom, List.append_assoc, List.singleton_append]
    rw [assignElements, hset, ← hassoc]
    refine ih ?_ (hassoc.symm ▸ hnodup) fun w hw => hvals w (List.mem_cons_of_mem v hw)
    intro e he
    rcases List.mem_append.1 he with he | he
    · exact hkeys e he
    · rw [List.mem_singleton.1 he]
      exact Number.noConfusion

/-- `e` is packed so that `x` arrives. -/
structure Arrives (e x : Value Number × Value Number) : Prop where
  eq : x.1 = e.1
  key : Sends (packValue e.1) x.1
  val : Sends (packValue e.2) x.2
  same : Same e.2 x.2

section

variable {entries : List (Value Number × Value Number)}

/-- A table that is packed as a map. -/
private theorem map_arrives {entries' : List (Value Number × Value Number)}
    (h : List.Forall₂ Arrives entries entries')
    (length : entries.length ≤ 4294967295) (nodup : (entries.map Prod.fst).Nodup) (isKey : ∀ e ∈ entries, IsKey e.1)
    (notNil : ∀ e ∈ entries, e.2 ≠ .nil) :
    Sends (packers.map (packEntries entries) entries.length) (.table entries') ∧
      Same (.table entries) (.table entries') := by
  have hfst : entries'.map Prod.fst = entries.map Prod.fst := by
    clear length nodup isKey notNil
    induction h with
    | nil => rfl
    | cons hx _ ih => rw [List.map_cons, List.map_cons, ih, hx.eq]
  have hback := exists_of_forall₂ h
  have hforth : ∀ e ∈ entries, ∃ x ∈ entries', Arrives e x := exists_of_forall₂ h.flip
  have hkeys : ∀ x ∈ entries', IsKey x.1 := by
    intro x hx
    obtain ⟨e, he, harr⟩ := hback x hx
    exact harr.eq ▸ isKey e he
  have hvals : ∀ x ∈ entries', x.2 ≠ .nil := by
    intro x hx
    obtain ⟨e, he, harr⟩ := hback x hx
    exact harr.same.ne_nil (notNil e he)
  constructor
  · have hsends : SendsEntries (packEntries entries) entries' := by
      rw [packEntries_eq]
      exact List.forall₂_map_left_iff.2 (h.imp fun e x hx => ⟨hx.key, hx.val⟩)
    have hassign : assignEntries [] entries' = [] ++ entries' :=
      assignEntries_eq (by simpa using hkeys) (by simpa [hfst] using nodup) hvals
    have hmap := sends_map hsends (h.length_eq ▸ length)
    rwa [hassign, List.nil_append, ← h.length_eq] at hmap
  · refine same_table isKey nodup hkeys (hfst ▸ nodup) (fun k => by rw [hfst]) fun e he => ?_
    obtain ⟨x, hx, harr⟩ := hforth e he
    exact ⟨x.2, by rw [← harr.eq]; exact hx, harr.same⟩

/-- The element of an index is what is packed of the value under it. -/
theorem element_eq {e : Value Number × Value Number} {i : ℕ} (nodup : (entries.map Prod.fst).Nodup)
    (isKey : ∀ e ∈ entries, IsKey e.1) (he : e ∈ entries) (hk : e.1 = .num (.finite i)) :
    packers.element (packEntries entries) i = packValue e.2 := by
  have hkeys : ∀ x ∈ packEntries entries, IsKey x.k := by
    intro x hx
    rw [packEntries_eq] at hx
    obtain ⟨e', he', rfl⟩ := List.mem_map.1 hx
    exact isKey e' he'
  have hnodup : ((packEntries entries).map packers.Entry.k).Nodup := by rwa [packEntries_eq, List.map_map]
  have hmem : ⟨e.1, packValue e.1, packValue e.2⟩ ∈ packEntries entries := by
    rw [packEntries_eq]
    exact List.mem_map.2 ⟨e, he, rfl⟩
  rw [packers.element, ← hk, find?_key hkeys hnodup hmem]

/-- A table that is packed as an array, with integers for keys. -/
private theorem array_arrives (length : entries.length ≤ 4294967295) (nodup : (entries.map Prod.fst).Nodup)
    (isKey : ∀ e ∈ entries, IsKey e.1) (notNil : ∀ e ∈ entries, e.2 ≠ .nil)
    (hkeys : ∀ k, k ∈ entries.map Prod.fst ↔ ∃ i < entries.length, k = .num (.finite ((i + 1 : ℕ) : ℚ)))
    (hvals : ∀ e ∈ entries, ∃ w, Sends (packValue e.2) w ∧ Same e.2 w) :
    ∃ w, Sends (packers.array (packEntries entries) entries.length) w ∧ Same (.table entries) w := by
  -- the value under each index
  have hindex : ∀ i ∈ List.range entries.length, ∃ w, Sends (packers.element (packEntries entries) (i + 1)) w ∧
      ∃ v, (.num (.finite ((i + 1 : ℕ) : ℚ)), v) ∈ entries ∧ Same v w := by
    intro i hi
    obtain ⟨e, he, hk⟩ := List.mem_map.1 ((hkeys _).2 ⟨i, List.mem_range.1 hi, rfl⟩)
    obtain ⟨w, hw, hsame⟩ := hvals e he
    refine ⟨w, ?_, e.2, hk ▸ he, hsame⟩
    rwa [element_eq nodup isKey he hk]
  obtain ⟨l, hl⟩ := exists_forall₂ hindex
  have hlen : entries.length = l.length := by rw [← hl.length_eq, List.length_range]
  have hmem : ∀ x ∈ l, x ≠ .nil := by
    intro w hw
    obtain ⟨i, -, -, v, hv, hsame⟩ := exists_of_forall₂ hl w hw
    exact hsame.ne_nil (notNil _ hv)
  have hassign : assignElements [] 1 l = [] ++ elementsFrom 1 l :=
    assignElements_eq (by simp) (nodup_elementsFrom 1 l) hmem
  have hisKey : ∀ e ∈ elementsFrom 1 l, IsKey e.1 := by
    intro e he
    obtain ⟨j, v, -, rfl⟩ := mem_elementsFrom.1 he
    exact Number.noConfusion
  refine ⟨.table (elementsFrom 1 l), ?_, ?_⟩
  · have hsends :
      List.Forall₂ Sends ((List.range l.length).map fun i => packers.element (packEntries entries) (i + 1)) l := by
      rw [← hlen]
      exact List.forall₂_map_left_iff.2 (hl.imp fun i w hw => hw.1)
    have harray := sends_array hsends (hlen ▸ length)
    rwa [hassign, List.nil_append, ← hlen] at harray
  · refine same_table isKey nodup hisKey (nodup_elementsFrom 1 l) (fun k => ?_) fun e he => ?_
    · rw [hkeys, map_fst_elementsFrom, ← hlen, List.mem_map]
      simp only [List.mem_range, eq_comm, Nat.add_comm 1]
    · obtain ⟨i, hi, hk⟩ := (hkeys e.1).1 (List.mem_map.2 ⟨e, he, rfl⟩)
      have hil : i < l.length := hlen ▸ hi
      obtain ⟨-, v, hv, hsame⟩ := hl.get (by rwa [List.length_range]) hil
      rw [List.get_eq_getElem, List.getElem_range, ← hk] at hv
      have hval : v = e.2 := (rawget_eq_of_mem isKey nodup hv).symm.trans (rawget_eq_of_mem isKey nodup he)
      rw [hval] at hsame
      refine ⟨_, mem_elementsFrom.2 ⟨i, _, List.getElem?_eq_getElem hil, ?_⟩, hsame⟩
      rw [hk, Nat.add_comm 1 i]
      rfl

end

/-- A value arrives as one that is the same up to the order of entries. -/
theorem portable_sends {v : Value Number} (h : Portable v) : ∃ w, Sends (packValue v) w ∧ Same v w := by
  induction h with
  | nil => exact ⟨.nil, sends_char (by simp) (encodes_cons fun d => rfl), .nil⟩
  | bool b =>
    refine ⟨.bool b, ?_, .bool b⟩
    cases b
    · exact sends_char (by simp) (encodes_cons fun d => rfl)
    · exact sends_char (by simp) (encodes_cons fun d => rfl)
  | @num n valid kept =>
    refine ⟨.num n, ?_, .num n⟩
    have hsends := sends_number valid
    rwa [(transit_eq_iff n).2 kept] at hsends
  | @str s length => exact ⟨.str s, sends_string length, .str s⟩
  | @table entries length nodup isKey notNil array keys vals ihkeys ihvals =>
    have hmap : (packEntries entries).map packers.Entry.k = entries.map Prod.fst := by
      rw [packEntries_eq, List.map_map]
      rfl
    have hlength : (packers.shape (entries.map Prod.fst)).2 = entries.length := by
      rw [shape_eq, List.length_map]
    rw [packValue, packers._table, hmap, hlength]
    cases hshape : (packers.shape (entries.map Prod.fst)).1 with
    | true =>
      obtain ⟨entries', hrel⟩ : ∃ entries', List.Forall₂ Arrives entries entries' := by
        refine exists_forall₂ fun e he => ?_
        obtain ⟨k, hk, hsamek⟩ := ihkeys e he
        obtain ⟨w, hw, hsamew⟩ := ihvals e he
        exact ⟨(k, w), hsamek.eq_of_isKey (isKey e he), hk, hw, hsamew⟩
      exact ⟨_, map_arrives hrel length nodup isKey notNil⟩
    | false =>
      have hmem := mem_keys_iff hshape nodup (array hshape)
      rw [List.length_map] at hmem
      exact array_arrives length nodup isKey notNil hmem ihvals

/-- What is sent is unpacked. -/
private theorem Sends.unpack {p : Packed} {w : Value Number} (h : Sends p w) :
    ∃ bytes, p = .ok bytes ∧ unpack bytes = .ok w := by
  obtain ⟨bytes, hpack, hbytes⟩ := h
  have hunpack := unpack_of_encodes hbytes []
  rw [List.append_nil] at hunpack
  exact ⟨bytes, hpack, hunpack⟩

/-- The round trip. -/
theorem unpack_pack {v : Value Number} (h : Portable v) :
    ∃ bytes w, pack v = .ok bytes ∧ unpack bytes = .ok w ∧ Same v w := by
  obtain ⟨w, hsends, hsame⟩ := portable_sends h
  obtain ⟨bytes, hpack, hunpack⟩ := hsends.unpack
  exact ⟨bytes, w, hpack, hunpack, hsame⟩

/-- `{[2] = {[true] = -1}, "a"}` -/
theorem unpack_pack_nested : ∃ bytes w,
    pack (.table [(.num (.finite (2 : ℤ)), .table [(.bool true, .num (.finite (-1 : ℤ)))]),
      (.num (.finite (1 : ℤ)), .str [0x61])]) = .ok bytes ∧ unpack bytes = .ok w ∧
    Same (.table [(.num (.finite (2 : ℤ)), .table [(.bool true, .num (.finite (-1 : ℤ)))]),
      (.num (.finite (1 : ℤ)), .str [0x61])]) w := by
  have hone : Portable (.num (.finite (1 : ℤ))) := portable_integer (by norm_num) (by norm_num)
  have htwo : Portable (.num (.finite (2 : ℤ))) := portable_integer (by norm_num) (by norm_num)
  have hinner : Portable (.table [(.bool true, .num (.finite (-1 : ℤ)))]) := by
    refine .table (by simp) (by simp) (by simp [IsKey]) (by simp) ?_ (fun e he => ?_) fun e he => ?_
    · simp [packers.shape, packers.shapeStep]
    · rw [List.mem_singleton.1 he]
      exact .bool true
    · rw [List.mem_singleton.1 he]
      exact portable_integer (by norm_num) (by norm_num)
  refine unpack_pack (.table (by simp) (by simp) (by simp [IsKey]) (by simp) (fun _ k hk => ?_) ?_ ?_)
  · simp only [List.map_cons, List.map_nil, List.mem_cons, List.not_mem_nil, or_false] at hk
    rcases hk with rfl | rfl
    · exact ⟨2, rfl⟩
    · exact ⟨1, rfl⟩
  · rintro e (_ | ⟨_, _ | ⟨_, ⟨⟩⟩⟩)
    · exact htwo
    · exact hone
  · rintro e (_ | ⟨_, _ | ⟨_, ⟨⟩⟩⟩)
    · exact hinner
    · exact .str (by norm_num)

/-- A number survives just when it is one of these. -/
theorem unpack_pack_number_iff {n : Number} (hn : n.Valid) :
    (∃ bytes, pack (.num n) = .ok bytes ∧ unpack bytes = .ok (.num n)) ↔ Kept n := by
  obtain ⟨bytes, hpack, hunpack⟩ := (sends_number hn).unpack
  rw [← transit_eq_iff]
  constructor
  · rintro ⟨bytes', hpack', hunpack'⟩
    cases hpack.symm.trans hpack'
    exact Value.num.inj (Except.ok.inj (hunpack.symm.trans hunpack'))
  · intro heq
    rw [heq] at hunpack
    exact ⟨bytes, hpack, hunpack⟩

/-- The first power of two that does not survive. -/
theorem unpack_pack_pow_56 : ¬ ∃ bytes, pack (.num (.finite ((2 ^ 56 : ℤ) : ℚ))) = .ok bytes ∧
    unpack bytes = .ok (.num (.finite ((2 ^ 56 : ℤ) : ℚ))) := by
  have hvalid : (Number.finite ((2 ^ 56 : ℤ) : ℚ)).Valid := Or.inr ⟨2 ^ 56, rfl, by norm_num, by norm_num⟩
  rw [unpack_pack_number_iff hvalid, Kept, Int.floor_intCast, if_pos]
  · norm_num
  · refine ⟨rfl, le_trans ?_ le_limit⟩
    norm_num

/-! ### Tables that are mistaken for arrays -/

/-- An array has integers for keys. -/
private theorem returns_unpack_array (d : Unpacking (Value Number)) (n : ℕ) : Returns missing
    (fun w => ∃ entries, w = .table entries ∧ ∀ e ∈ entries, ∃ i : ℕ, e.1 = .num (.finite i)) (unpack_array d n) := by
  have hloop : ∀ i t, (∀ e ∈ t, ∃ i : ℕ, e.1 = .num (.finite i)) → Returns missing
      (fun w => ∃ entries, w = .table entries ∧ ∀ e ∈ entries, ∃ i : ℕ, e.1 = .num (.finite i))
      (unpackArrayFrom d i n t) := by
    induction n with
    | zero => exact fun i t ht => returns_done ⟨t, rfl, ht⟩
    | succ n ih =>
      intro i t ht
      refine (returns_true d).bind fun v _ => ih (i + 1) _ fun e he => ?_
      rcases mem_setEntry he with ⟨he, -⟩ | ⟨rfl, -⟩
      · exact ht e he
      · exact ⟨i, rfl⟩
  exact hloop 1 [] (by simp)

/-- A table that is packed as an array arrives as one. -/
private theorem unpack_packed_array {entries : List (Value Number × Value Number)} {bytes : List UInt8}
    {w : Value Number}
    (hlen : entries.length ≤ 4294967295) (hshape : (packers.shape (entries.map Prod.fst)).1 = false)
    (hpack : pack (.table entries) = .ok bytes) (hunpack : unpack bytes = .ok w) :
    ∃ entries', w = .table entries' ∧ ∀ e ∈ entries', ∃ i : ℕ, e.1 = .num (.finite i) := by
  have hmap : (packEntries entries).map packers.Entry.k = entries.map Prod.fst := by
    rw [packEntries_eq, List.map_map]
    rfl
  obtain ⟨b, u, hheader, hparse⟩ := array_header hlen
  rw [pack, packValue, packers._table, hmap, hshape, shape_eq, List.length_map, packers.array, hheader] at hpack
  cases hrest : inTurn ((List.range entries.length).map fun i => packers.element (packEntries entries) (i + 1)) with
  | error e =>
    rw [hrest] at hpack
    cases hpack
  | ok rest =>
    rw [hrest] at hpack
    cases hpack
    obtain ⟨r, hdecode, -⟩ := unpack_eq_ok_iff.1 hunpack
    rw [List.cons_append, decode_cons, hparse] at hdecode
    exact returns_unpack_array _ _ _ _ _ hdecode

/-- A table of values that survive does so itself unless it is mistaken for an array. -/
theorem table_survives_iff {entries : List (Value Number × Value Number)} (length : entries.length ≤ 4294967295)
    (nodup : (entries.map Prod.fst).Nodup) (isKey : ∀ e ∈ entries, IsKey e.1) (notNil : ∀ e ∈ entries, e.2 ≠ .nil)
    (keys : ∀ e ∈ entries, Portable e.1) (vals : ∀ e ∈ entries, Portable e.2) :
    (∃ bytes w, pack (.table entries) = .ok bytes ∧ unpack bytes = .ok w ∧ Same (.table entries) w) ↔
      ((packers.shape (entries.map Prod.fst)).1 = false →
        ∀ k ∈ entries.map Prod.fst, ∃ n : ℤ, k = .num (.finite n)) := by
  constructor
  · rintro ⟨bytes, w, hpack, hunpack, hsame⟩ hshape k hk
    obtain ⟨entries', rfl, hkeys⟩ := unpack_packed_array length hshape hpack hunpack
    cases hsame with
    | table hiff _ =>
      obtain ⟨e, he, rfl⟩ := List.mem_map.1 ((hiff k).1 hk)
      obtain ⟨i, hi⟩ := hkeys e he
      exact ⟨i, by rw [hi, Int.cast_natCast]⟩
  · intro array
    obtain ⟨w, hsends, hsame⟩ := portable_sends (.table length nodup isKey notNil array keys vals)
    obtain ⟨bytes, hpack, hunpack⟩ := hsends.unpack
    exact ⟨bytes, w, hpack, hunpack, hsame⟩

/-- `{[1 / 2] = true, [2] = true}` does not survive. -/
theorem table_half_lost : ¬ ∃ bytes w,
    pack (.table [(.num (.finite (1 / 2)), .bool true), (.num (.finite (2 : ℤ)), .bool true)]) = .ok bytes ∧
      unpack bytes = .ok w ∧
      Same (.table [(.num (.finite (1 / 2)), .bool true), (.num (.finite (2 : ℤ)), .bool true)]) w := by
  have hdouble : IsDouble (1 / 2) := by
    refine ⟨⟨1, -1, by norm_num, by norm_num, by norm_num⟩, ?_⟩
    rw [abs_of_pos (by norm_num)]
    exact lt_of_lt_of_le (by norm_num) (one_le_pow₀ one_le_two)
  have hfloor : ⌊(1 / 2 : ℚ)⌋ = 0 := by norm_num
  have hhalf : Portable (.num (.finite (1 / 2))) := by
    refine .num (Or.inl hdouble) ?_
    rw [Kept, hfloor, if_neg (by norm_num)]
    calc (2 : ℚ) ^ (-1023 : ℤ) < 2 ^ (-1 : ℤ) := zpow_lt_zpow_right₀ one_lt_two (by norm_num)
      _ = |1 / 2| := by norm_num [abs_of_pos]
  have htwo : Portable (.num (.finite (2 : ℤ))) := portable_integer (by norm_num) (by norm_num)
  rw [table_survives_iff (by simp) (by norm_num) (by simp [IsKey]) (by simp) _ (by simp [Portable.bool])]
  · intro h
    obtain ⟨n, hn⟩ := h (by norm_num [packers.shape, packers.shapeStep, Number.gt]) (.num (.finite (1 / 2))) (by simp)
    have hn' : (1 / 2 : ℚ) = n := Number.finite.inj (Value.num.inj hn)
    rw [hn', Int.floor_intCast] at hfloor
    rw [hfloor] at hn'
    norm_num at hn'
  · rintro e (_ | ⟨_, _ | ⟨_, ⟨⟩⟩⟩)
    · exact hhalf
    · exact htwo

end LibeventServer.Lua.MessagePack

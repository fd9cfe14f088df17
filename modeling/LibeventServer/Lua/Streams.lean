import LibeventServer.Lua.Portable

/-!
# Streams of values

Packed values one behind the other, cut into chunks anywhere, come out of `unpacker` as they went in
(`drain_packed`).  Where the stream ends inside a value, the loop has had all values before it and ends with the error
for missing bytes.
-/

namespace LibeventServer.Lua.MessagePack

open Reading

/-- The beginning of an encoding is not decoded: bytes are missing. -/
private theorem decode_front {u t : List UInt8} {v : Value Number} (h : Encodes (u ++ t) v) (ht : t ≠ []) :
    decode u = .error missing := by
  cases hu : decode u with
  | ok x =>
    have happ := h.symm.trans (decode_append hu t)
    have hnil := congrArg Prod.snd (Except.ok.inj happ)
    exact absurd (List.append_eq_nil_iff.1 hnil.symm).2 ht
  | error e =>
    by_contra hne
    have hraised : (unpackers.any (anyFuel (u ++ t).length)).parse missing u = .error e := by
      rw [any_parse _ (by rw [anyFuel, List.length_append]; omega)]
      exact hu
    have happ := parse_error_append hraised (fun heq => hne (heq ▸ rfl)) t
    cases h.symm.trans happ

/-- `packs` are the packed values `vs`, one for one. -/
abbrev Packs (vs : List (Value Number)) (packs : List (List UInt8)) : Prop :=
  List.Forall₂ (fun v bytes => Portable v ∧ pack v = .ok bytes) vs packs

/-- Packed values are codes of values that are the same. -/
private theorem exists_codes {vs : List (Value Number)} {packs : List (List UInt8)} (h : Packs vs packs) :
    ∃ codes : List (List UInt8 × Value Number), codes.map Prod.fst = packs ∧
      List.Forall₂ Same vs (codes.map Prod.snd) ∧ ∀ c ∈ codes, c.1 ≠ [] ∧ ∀ t, decode (c.1 ++ t) = .ok (c.2, t) := by
  induction h with
  | nil => exact ⟨[], rfl, .nil, by simp⟩
  | @cons v bytes vs packs hx _ ih =>
    obtain ⟨codes, rfl, hsame, hcodes⟩ := ih
    obtain ⟨w, ⟨bytes', hpack, hbytes⟩, hw⟩ := portable_sends hx.1
    obtain rfl : bytes' = bytes := Except.ok.inj (hpack.symm.trans hx.2)
    refine ⟨(bytes', w) :: codes, rfl, .cons hw hsame, fun c hc => ?_⟩
    rcases List.mem_cons.1 hc with rfl | hc
    · exact ⟨hbytes.ne_nil, fun t => decode_append hbytes t⟩
    · exact hcodes c hc

private theorem length_le_length_flatten {codes : List (List UInt8 × Value Number)}
    (h : ∀ c ∈ codes, c.1 ≠ [] ∧ ∀ t, decode (c.1 ++ t) = .ok (c.2, t)) :
    codes.length ≤ (codes.map Prod.fst).flatten.length := by
  induction codes with
  | nil => exact le_rfl
  | cons c codes ih =>
    have hpos := List.length_pos_of_ne_nil (h c List.mem_cons_self).1
    have hrest := ih fun d hd => h d (List.mem_cons_of_mem c hd)
    rw [List.map_cons, List.flatten_cons, List.length_append, List.length_cons]
    omega

/-- Values that are packed one behind the other, and then cut into chunks anywhere, come out of `unpacker` the same.
A value of which only a part comes at the end is not among them: it ends the loop with an error. -/
theorem drain_packed {vs : List (Value Number)} {packs : List (List UInt8)} (h : Packs vs packs)
    {v : Value Number} {u t : List UInt8} (hv : Portable v) (hpack : pack v = .ok (u ++ t)) (ht : t ≠ [])
    {ld : List (List UInt8)} (hld : ld.flatten = packs.flatten ++ u) {fuel : ℕ} (hfuel : ld.flatten.length < fuel) :
    ∃ ws, drain (values unpacker_function) fuel (cursor_loader ld) =
        some (ws, if u = [] then none else some "missing bytes") ∧ List.Forall₂ Same vs ws := by
  obtain ⟨codes, rfl, hsame, hcodes⟩ := exists_codes h
  have hcount := length_le_length_flatten hcodes
  have hlen := congrArg List.length hld
  rw [List.length_append] at hlen
  obtain ⟨n, rfl⟩ : ∃ n, fuel = codes.length + (n + 1) := ⟨fuel - codes.length - 1, by omega⟩
  refine ⟨codes.map Prod.snd, ?_, hsame⟩
  rw [drain_eq_parseAll iterates_unpacker_function _ (Cursor.over_cursor_loader ld), Cursor.rest_cursor_loader, hld,
    parseAll_append hcodes]
  by_cases hu : u = []
  · rw [hu, parseAll, if_pos rfl, Option.map_some, List.append_nil]
  · obtain ⟨w, ⟨bytes, hpack', hbytes⟩, -⟩ := portable_sends hv
    obtain rfl : bytes = u ++ t := Except.ok.inj (hpack'.symm.trans hpack)
    rw [parseAll_error hu (decode_front hbytes ht), if_neg hu, Option.map_some, List.append_nil]

/-- `nil`, `true` and the beginning of `"ab"`, in three chunks. -/
theorem drain_packed_chunks : ∃ ws,
    drain (values unpacker_function) 5 (cursor_loader [[0xC0], [0xC3, 0xA2], [0x61]]) =
      some (ws, some "missing bytes") ∧ List.Forall₂ Same [.nil, .bool true] ws := by
  have hpacks : Packs [.nil, .bool true] [[0xC0], [0xC3]] := .cons ⟨.nil, rfl⟩ (.cons ⟨.bool true, rfl⟩ .nil)
  have hpack : pack (.str [0x61, 0x62]) = .ok ([0xA2, 0x61] ++ [0x62]) := rfl
  exact drain_packed hpacks (.str (by norm_num)) hpack (by simp) rfl (by simp)

end LibeventServer.Lua.MessagePack

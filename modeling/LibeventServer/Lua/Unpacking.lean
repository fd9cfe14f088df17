import LibeventServer.Lib.Stream
import LibeventServer.Lua.Cursor
import LibeventServer.Lua.Decoding

/-!
# `unpack` and `unpacker`

`unpack` accepts a string when `unpackers['any']` reads all of it, or all but its last byte: the test
`cursor.i < cursor.j` lets one byte behind the value pass (`unpack_eq`).

`unpacker` makes an iterator of a string or of a function that returns chunks.  What a loop over it goes through
depends only on the bytes, not on the chunks (`drain_unpacker_function`).

Error messages stand without their positions, and the stack of the interpreter is taken to suffice for the nesting.
-/

namespace LibeventServer.Lua.MessagePack

open Reading

variable {s l : List UInt8} {v : Value Number} {e : String}

/-! ### Encodings -/

/-- `l` is an encoding of `v`: `unpackers['any']` reads all of it. -/
def Encodes (l : List UInt8) (v : Value Number) : Prop := decode l = .ok (v, [])

/-- What is decoded is an encoding, with the rest behind it. -/
private theorem decode_eq_ok_iff {r : List UInt8} : decode l = .ok (v, r) ↔ ∃ u, l = u ++ r ∧ Encodes u v := by
  constructor
  · intro h
    obtain ⟨u, -, rfl, hframe⟩ := exists_decoded h
    refine ⟨u, rfl, ?_⟩
    have hnil := hframe []
    rwa [List.append_nil] at hnil
  · rintro ⟨u, rfl, hu⟩
    exact decode_append hu r

theorem Encodes.ne_nil (h : Encodes l v) : l ≠ [] := by
  rintro rfl
  cases decode_nil.symm.trans h

/-- No encoding is the beginning of another. -/
private theorem Encodes.unique {u u' t t' : List UInt8} {v' : Value Number} (h : Encodes u v) (h' : Encodes u' v')
    (heq : u ++ t = u' ++ t') : u = u' ∧ v = v' := by
  have happ := decode_append h t
  rw [heq, decode_append h' t'] at happ
  cases happ
  exact ⟨List.append_cancel_right heq, rfl⟩

/-! ### Cursors -/

/-- `unpackers['any'](c)`, with fuel for all the bytes to come. -/
def Cursor.any : EStateM String Cursor (Value Number) := fun c =>
  (unpackers.any (anyFuel c.rest.length)).runOn fetch c

section

variable {loads : Bool} {c : Cursor}

private theorem Cursor.any_ok {r : List UInt8} (hc : c.Over loads) (h : decode c.rest = .ok (v, r)) :
    ∃ c', Cursor.any c = .ok v c' ∧ c'.Over loads ∧ c'.rest = r :=
  runOn_of_parse_ok (Cursor.serves loads) hc h

private theorem Cursor.any_error (hc : c.Over loads) (h : decode c.rest = .error e) :
    ∃ c', Cursor.any c = .error e c' :=
  runOn_of_parse_error (Cursor.serves loads) hc h

private theorem Cursor.Over.rest_ne_nil (hc : c.Over loads) (h : c.i ≤ c.j) : c.rest ≠ [] := by
  intro hnil
  have hdrop := List.append_eq_nil_iff.1 hnil
  have hlen := hc.sound.length_drop
  rw [hdrop.1, List.length_nil] at hlen
  omega

/-- How many bytes are left in the string of a cursor. -/
private theorem Cursor.Over.length_rest (hc : c.Over false) : c.rest.length = c.j + 1 - c.i := by
  have hld : c.ld = none := by simpa using hc.ld
  rw [rest, List.length_append, hc.sound.length_drop, hld]
  rfl

end

/-! ### `unpack` -/

theorem unpack_eq (s : List UInt8) : unpack s =
    match decode s with
    | .ok (v, r) => if 2 ≤ r.length then .error "extra bytes" else .ok v
    | .error e => .error e := by
  have hover := Cursor.over_cursor_string s
  have hrest := Cursor.rest_cursor_string s
  have hany : (unpackers.any (anyFuel s.length)).runOn Cursor.fetch (cursor_string s) =
    Cursor.any (cursor_string s) := by
    rw [Cursor.any, hrest]
  unfold unpack
  rw [hany]
  cases h : decode s with
  | error e =>
    obtain ⟨c, hrun⟩ := Cursor.any_error hover (hrest.symm ▸ h)
    rw [hrun]
  | ok x =>
    obtain ⟨c, hrun, hover', hrest'⟩ := Cursor.any_ok hover (hrest.symm ▸ h)
    have hlen := hover'.length_rest
    have hpos := hover'.sound.pos
    rw [hrest'] at hlen
    rw [hrun]
    exact if_congr (by omega) rfl rfl

theorem unpack_eq_ok_iff : unpack s = .ok v ↔ ∃ r, decode s = .ok (v, r) ∧ r.length ≤ 1 := by
  rw [unpack_eq]
  cases h : decode s with
  | error e => simp
  | ok x =>
    obtain ⟨w, r⟩ := x
    by_cases hlen : 2 ≤ r.length
    · simp only [if_pos hlen, Except.ok.injEq, Prod.mk.injEq]
      refine iff_of_false (by simp) ?_
      rintro ⟨r', ⟨-, rfl⟩, hle⟩
      omega
    · simp only [if_neg hlen, Except.ok.injEq, Prod.mk.injEq]
      exact ⟨fun heq => ⟨r, ⟨heq, rfl⟩, by omega⟩, fun ⟨_, ⟨heq, _⟩, _⟩ => heq⟩

/-- An encoding is unpacked when at most one byte comes behind it. -/
theorem unpack_of_encodes {u : List UInt8} (h : Encodes u v) (t : List UInt8) :
    unpack (u ++ t) = if 2 ≤ t.length then .error "extra bytes" else .ok v := by
  rw [unpack_eq, decode_append h, List.nil_append]

/-- What `unpack` does with a string is settled by whether the string begins with an encoding: there is at most one
such beginning, and all that counts is how many bytes come behind it. -/
theorem unpack_settled (s : List UInt8) :
    (∃! x : List UInt8 × Value Number, Encodes x.1 x.2 ∧ ∃ t, s = x.1 ++ t ∧
        unpack s = if 2 ≤ t.length then .error "extra bytes" else .ok x.2) ∨
      (¬ ∃ u v t, Encodes u v ∧ s = u ++ t) ∧
        (unpack s = .error "missing bytes" ∨ unpack s = .error "unpack 'reserved193' is unimplemented") := by
  cases h : decode s with
  | error e =>
    refine Or.inr ⟨?_, ?_⟩
    · rintro ⟨u, v, t, hu, rfl⟩
      cases h.symm.trans (decode_append hu t)
    · rw [unpack_eq, h]
      rcases decode_error h with rfl | rfl
      · exact Or.inl rfl
      · exact Or.inr rfl
  | ok x =>
    obtain ⟨u, rfl, hu⟩ := decode_eq_ok_iff.1 h
    refine Or.inl ⟨(u, x.1), ⟨hu, x.2, rfl, unpack_of_encodes hu _⟩, ?_⟩
    rintro ⟨u', v'⟩ ⟨hu', t, heq, -⟩
    obtain ⟨rfl, rfl⟩ := hu'.unique hu heq.symm
    rfl

/-! ### `unpacker` -/

/-- The function `m.unpacker(src)` returns for a string. -/
def unpacker_string : EStateM String Cursor (Option (ℕ × Value Number)) := do
  let cursor ← get
  if cursor.i ≤ cursor.j then
    let data ← Cursor.any
    return some (cursor.i, data)
  return none

/-- `pcall(f, ...)`, for its effects. -/
def pcall (f : EStateM String Cursor Unit) : EStateM String Cursor Unit := fun c =>
  match f c with
  | .ok _ c => .ok () c
  | .error _ c => .ok () c

/-- The function `m.unpacker(src)` returns for a function. -/
def unpacker_function : EStateM String Cursor (Option (Bool × Value Number)) := do
  let cursor ← get
  if cursor.i > cursor.j then pcall (Cursor.underflow cursor.i)
  let cursor ← get
  if cursor.i ≤ cursor.j then
    let data ← Cursor.any
    return some (true, data)
  return none

/-- The second of the values an iterator returns. -/
def values {α : Type} (next : EStateM String Cursor (Option (α × Value Number))) :
    EStateM String Cursor (Option (Value Number)) := do
  let x ← next
  return x.map Prod.snd

/-- An iterator that has ensured that there are bytes in the string returns what comes first. -/
private theorem values_any {α : Type} {loads : Bool} {c c' : Cursor} {a : α}
    {next : EStateM String Cursor (Option (α × Value Number))}
    (hnext : next c = (Cursor.any >>= fun data => pure (some (a, data)) : EStateM _ _ _) c') (hc' : c'.Over loads) :
    (∀ v r, decode c'.rest = .ok (v, r) → ∃ c'', values next c = .ok (some v) c'' ∧ c''.Over loads ∧ c''.rest = r) ∧
      ∀ e, decode c'.rest = .error e → ∃ c'', values next c = .error e c'' := by
  constructor
  · intro v r h
    obtain ⟨c'', hany, hc'', hr⟩ := Cursor.any_ok hc' h
    refine ⟨c'', ?_, hc'', hr⟩
    exact EStateM.bind_ok (hnext.trans (EStateM.bind_ok hany))
  · intro e h
    obtain ⟨c'', hany⟩ := Cursor.any_error hc' h
    exact ⟨c'', EStateM.bind_error (hnext.trans (EStateM.bind_error hany))⟩

private theorem unpacker_string_any {c : Cursor} (hc : c.Over false) (hrest : c.rest ≠ []) :
    unpacker_string c = (Cursor.any >>= fun data => pure (some (c.i, data)) : EStateM _ _ _) c := by
  have hlen := hc.length_rest
  have hpos := List.length_pos_of_ne_nil hrest
  unfold unpacker_string
  rw [EStateM.get_bind, if_pos (by omega)]

private theorem iterates_unpacker_string :
    Iterates (values unpacker_string) decode (Cursor.Over false) Cursor.rest where
  stop := by
    intro c hc hrest
    have hlen := hc.length_rest
    rw [hrest, List.length_nil] at hlen
    have hle : ¬ c.i ≤ c.j := by omega
    have hnext : unpacker_string c = .ok none c := by
      unfold unpacker_string
      rw [EStateM.get_bind, if_neg hle]
      rfl
    exact ⟨c, EStateM.bind_ok hnext⟩
  item := by
    intro c v r hc hrest h
    exact (values_any (unpacker_string_any hc hrest) hc).1 v r h
  raise := by
    intro c e hc hrest h
    exact (values_any (unpacker_string_any hc hrest) hc).2 e h

/-- When its string is used up, the iterator over chunks loads some more, or there are none with anything in them. -/
private theorem pcall_underflow {c : Cursor} (hc : c.Over true) (hgt : c.i > c.j) :
    ∃ c', pcall (Cursor.underflow c.i) c = .ok () c' ∧
      (c'.Over true ∧ c'.rest = c.rest ∧ c'.i ≤ c'.j ∨ c.rest = [] ∧ ¬ c'.i ≤ c'.j) := by
  obtain ⟨ld, hld⟩ := Option.isSome_iff_exists.1 hc.ld
  have hle := hc.sound.le
  have hpos := hc.sound.pos
  have hs : c.s.drop (c.i - 1) = [] := by
    rw [List.drop_eq_nil_iff, ← hc.sound.j]
    omega
  have he : c.i + 1 - c.i = 1 := by omega
  have hrest : c.rest = ld.flatten := by
    rw [Cursor.rest, hs, hld]
    rfl
  have hunder : Cursor.underflow c.i c = Cursor.load 1 [] 0 ld := by
    simp only [Cursor.underflow, hld, he, hs]
  unfold pcall
  rw [hunder]
  rcases Cursor.load_cases (e := 1) (s := []) (j := 0) ld (Or.inl rfl) with
    ⟨s', ld', hload, hs', hflat⟩ | ⟨⟨c', hload, hi, hj⟩, hshort⟩
  · rw [hload]
    refine ⟨_, rfl, Or.inl ⟨⟨⟨rfl, le_rfl, Nat.le_add_left 1 _⟩, rfl⟩, ?_, hs'⟩⟩
    rw [hrest]
    exact hflat
  · rw [hload]
    refine ⟨_, rfl, Or.inr ⟨?_, by omega⟩⟩
    rw [hrest]
    exact List.length_eq_zero_iff.1 (Nat.lt_one_iff.1 hshort)

private theorem unpacker_function_cases {c : Cursor} (hc : c.Over true) :
    c.rest ≠ [] ∧ (∃ c', c'.Over true ∧ c'.rest = c.rest ∧
        unpacker_function c = (Cursor.any >>= fun data => pure (some (true, data)) : EStateM _ _ _) c') ∨
      c.rest = [] ∧ ∃ c', unpacker_function c = .ok none c' := by
  unfold unpacker_function
  rw [EStateM.get_bind]
  by_cases hgt : c.i > c.j
  · obtain ⟨c', hpcall, h⟩ := pcall_underflow hc hgt
    rw [if_pos hgt, EStateM.bind_ok hpcall]
    beta_reduce
    rw [EStateM.get_bind]
    rcases h with ⟨hc', hrest, hle⟩ | ⟨hrest, hle⟩
    · rw [if_pos hle]
      exact Or.inl ⟨hrest ▸ hc'.rest_ne_nil hle, c', hc', hrest, rfl⟩
    · rw [if_neg hle]
      exact Or.inr ⟨hrest, c', rfl⟩
  · rw [if_neg hgt]
    refine Or.inl ⟨hc.rest_ne_nil (Nat.le_of_not_gt hgt), c, hc, rfl, ?_⟩
    beta_reduce
    rw [EStateM.get_bind, if_pos (Nat.le_of_not_gt hgt)]

theorem iterates_unpacker_function : Iterates (values unpacker_function) decode (Cursor.Over true) Cursor.rest where
  stop := by
    intro c hc hrest
    rcases unpacker_function_cases hc with ⟨hne, -⟩ | ⟨-, c', hnext⟩
    · exact absurd hrest hne
    · exact ⟨c', EStateM.bind_ok hnext⟩
  item := by
    intro c v r hc hrest h
    rcases unpacker_function_cases hc with ⟨-, c', hc', hrest', hnext⟩ | ⟨hnil, -⟩
    · rw [← hrest'] at h
      exact (values_any hnext hc').1 v r h
    · exact absurd hnil hrest
  raise := by
    intro c e hc hrest h
    rcases unpacker_function_cases hc with ⟨-, c', hc', hrest', hnext⟩ | ⟨hnil, -⟩
    · rw [← hrest'] at h
      exact (values_any hnext hc').2 e h
    · exact absurd hnil hrest

/-! ### Loops over `unpacker` -/

private theorem decode_length_lt {r : List UInt8} (h : decode l = .ok (v, r)) : r.length < l.length := by
  obtain ⟨u, rfl, hu⟩ := decode_eq_ok_iff.1 h
  have hpos := List.length_pos_of_ne_nil hu.ne_nil
  rw [List.length_append]
  omega

/-- However a string is cut into chunks, a loop over the chunks goes through the same values as a loop over the
string, ends at the same error, and both end. -/
theorem drain_unpacker_function (ld : List (List UInt8)) {fuel : ℕ} (hfuel : ld.flatten.length < fuel) :
    ∃ x, drain (values unpacker_function) fuel (cursor_loader ld) = some x ∧
      drain (values unpacker_string) fuel (cursor_string ld.flatten) = some x := by
  obtain ⟨x, hx⟩ := exists_parseAll (fun _ _ _ => decode_length_lt) hfuel
  refine ⟨x, ?_, ?_⟩
  · rw [drain_eq_parseAll iterates_unpacker_function fuel (Cursor.over_cursor_loader ld),
      Cursor.rest_cursor_loader, hx]
  · rw [drain_eq_parseAll iterates_unpacker_string fuel (Cursor.over_cursor_string _), Cursor.rest_cursor_string, hx]

/-- An array of two values, the first of which is cut in two. -/
theorem drain_two_chunks : ∃ x,
    drain (values unpacker_function) 6 (cursor_loader [[0x92, 0xCC], [0xFF, 0xC3]]) = some x ∧
      drain (values unpacker_string) 6 (cursor_string [0x92, 0xCC, 0xFF, 0xC3]) = some x :=
  drain_unpacker_function [[0x92, 0xCC], [0xFF, 0xC3]] (by simp)

end LibeventServer.Lua.MessagePack

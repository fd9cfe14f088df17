import LibeventServer.Lua.Unpackers

/-!
# Cursors

A cursor has a rest: the bytes of its string from its index on, and then the chunks that are still to come.  It serves
the unpackers as a list of these bytes would (`Cursor.serves`), whether it goes over a string or loads chunks.
-/

namespace LibeventServer.Lua.MessagePack

open Reading

namespace Cursor

variable {c : Cursor}

/-- The index is that of a byte of the string, or of the one behind it. -/
structure Sound (c : Cursor) : Prop where
  j : c.j = c.s.length
  pos : 1 ≤ c.i
  le : c.i ≤ c.j + 1

/-- A sound cursor over a string, or one that loads chunks. -/
structure Over (loads : Bool) (c : Cursor) : Prop where
  sound : c.Sound
  ld : c.ld.isSome = loads

/-- The bytes to come. -/
def rest (c : Cursor) : List UInt8 := c.s.drop (c.i - 1) ++ (c.ld.getD []).flatten

theorem over_cursor_string (str : List UInt8) : (cursor_string str).Over false :=
  ⟨⟨rfl, le_rfl, Nat.le_add_left 1 _⟩, rfl⟩

theorem over_cursor_loader (ld : List (List UInt8)) : (cursor_loader ld).Over true := ⟨⟨rfl, le_rfl, le_rfl⟩, rfl⟩

@[simp] theorem rest_cursor_string (str : List UInt8) : (cursor_string str).rest = str := by
  simp [rest, cursor_string]

@[simp] theorem rest_cursor_loader (ld : List (List UInt8)) : (cursor_loader ld).rest = ld.flatten := by
  simp [rest, cursor_loader]

/-- How many bytes of the string are left. -/
theorem Sound.length_drop (h : c.Sound) : (c.s.drop (c.i - 1)).length = c.j + 1 - c.i := by
  rw [List.length_drop, ← h.j]
  have := h.pos
  omega

/-- The loop of a loader ends with a string that has `e` bytes, or the chunks do not make up that many. -/
theorem load_cases {e : ℕ} (ld : List (List UInt8)) {s : List UInt8} {j : ℕ}
    (hj : j = s.length ∨ s.length < e ∧ j < e) :
    (∃ s' ld', load e s j ld = .ok () { s := s', i := 1, j := s'.length, ld := some ld' } ∧ e ≤ s'.length ∧
        s' ++ ld'.flatten = s ++ ld.flatten) ∨
      (∃ c, load e s j ld = .error "missing bytes" c ∧ c.i = 1 ∧ c.j < e) ∧ (s ++ ld.flatten).length < e := by
  induction ld generalizing s j with
  | nil =>
    unfold load
    by_cases he : e > j
    · refine Or.inr ⟨⟨_, if_pos he, rfl, he⟩, ?_⟩
      rw [List.flatten_nil, List.append_nil]
      omega
    · rw [if_neg he]
      obtain rfl : j = s.length := by omega
      exact Or.inl ⟨s, [], rfl, by omega, rfl⟩
  | cons chunk ld ih =>
    unfold load
    by_cases he : e > j
    · rw [if_pos he]
      have hflat : s ++ (chunk :: ld).flatten = s ++ chunk ++ ld.flatten := by
        rw [List.flatten_cons, List.append_assoc]
      rw [hflat]
      exact ih (Or.inl rfl)
    · rw [if_neg he]
      obtain rfl : j = s.length := by omega
      exact Or.inl ⟨s, chunk :: ld, rfl, by omega, rfl⟩

/-- The next `k` bytes are in the string: they are taken from it. -/
private theorem fetch_of_le {k : ℕ} (h : c.Sound) (hk : c.i + k ≤ c.j + 1) :
    ∃ c', fetch k c = .ok (c.rest.take k) c' ∧ (c'.Sound ∧ c'.ld = c.ld) ∧ c'.rest = c.rest.drop k := by
  have hlen := h.length_drop
  refine ⟨{ c with i := c.i + k }, ?_, ⟨⟨h.j, ?_, hk⟩, rfl⟩, ?_⟩
  · have htake : c.rest.take k = (c.s.drop (c.i - 1)).take k := by
      rw [rest, List.take_append_of_le_length (by omega)]
    rw [htake]
    unfold fetch
    rw [EStateM.get_bind, if_neg (by omega)]
    rfl
  · exact h.pos.trans (Nat.le_add_right _ _)
  · have hdrop : c.s.drop (c.i + k - 1) = (c.s.drop (c.i - 1)).drop k := by
      rw [List.drop_drop]
      congr 1
      have := h.pos
      omega
    rw [rest, rest, List.drop_append_of_le_length (by omega), hdrop]

/-- A cursor gives the bytes of its rest. -/
theorem serves (loads : Bool) : Serves fetch "missing bytes" (Over loads) rest where
  enough := by
    intro k c h hk
    -- enough bytes may be in the string already; if not, the loader is asked
    by_cases hin : c.i + k ≤ c.j + 1
    · obtain ⟨c', hfetch, ⟨hc', hld⟩, hrest⟩ := fetch_of_le h.sound hin
      exact ⟨c', hfetch, ⟨hc', by rw [hld, h.ld]⟩, hrest⟩
    · have hlen := h.sound.length_drop
      have hpos := h.sound.pos
      have hle := h.sound.le
      have hgt : c.i + k > c.j + 1 := by omega
      cases hld : c.ld with
      | none =>
        rw [rest, hld, List.length_append, hlen] at hk
        simp at hk
        omega
      | some ld =>
        have hrest : c.rest = c.s.drop (c.i - 1) ++ ld.flatten := by rw [rest, hld]; rfl
        have he : c.i + k - 1 + 1 - c.i = k := by omega
        have hload := load_cases ld (e := k) (s := c.s.drop (c.i - 1)) (j := 0) (Or.inr ⟨by omega, by omega⟩)
        rw [← hrest] at hload
        rcases hload with ⟨s', ld', hok, hs', hflat⟩ | ⟨-, hshort⟩
        · -- after the loop the bytes are in the string
          have hunder : underflow (c.i + k - 1) c = .ok () { s := s', i := 1, j := s'.length, ld := some ld' } := by
            simp only [underflow, hld, he]
            exact hok
          obtain ⟨c', hfetch, ⟨hc', hld'⟩, hrest'⟩ := fetch_of_le (k := k)
            (c := { s := s', i := 1, j := s'.length, ld := some ld' }) ⟨rfl, le_rfl, Nat.le_add_left 1 _⟩
            (by simp; omega)
          have hsame : ({ s := s', i := 1, j := s'.length, ld := some ld' } : Cursor).rest = c.rest := by
            rw [← hflat]
            rfl
          rw [hsame] at hfetch hrest'
          refine ⟨c', ?_, ⟨hc', by rw [hld', ← h.ld, hld]; rfl⟩, hrest'⟩
          rw [← hfetch]
          unfold fetch
          rw [EStateM.get_bind, EStateM.get_bind, if_pos hgt, if_neg (by simp; omega), EStateM.bind_ok hunder]
        · omega
  short := by
    intro k c h hk
    have hlen := h.sound.length_drop
    have hpos := h.sound.pos
    have hle := h.sound.le
    have hgt : c.i + k > c.j + 1 := by
      rw [rest, List.length_append, hlen] at hk
      omega
    -- too few bytes: `underflow` raises, with or without a loader
    suffices hunder : ∃ c', underflow (c.i + k - 1) c = .error "missing bytes" c' by
      obtain ⟨c', hunder⟩ := hunder
      refine ⟨c', ?_⟩
      unfold fetch
      rw [EStateM.get_bind, if_pos hgt]
      exact EStateM.bind_error hunder
    cases hld : c.ld with
    | none => exact ⟨c, by simp only [underflow, hld]⟩
    | some ld =>
      have hrest : c.rest = c.s.drop (c.i - 1) ++ ld.flatten := by rw [rest, hld]; rfl
      have he : c.i + k - 1 + 1 - c.i = k := by omega
      rw [hrest] at hk
      rw [List.length_append] at hk
      have hload := load_cases ld (e := k) (s := c.s.drop (c.i - 1)) (j := 0) (Or.inr ⟨by omega, by omega⟩)
      simp only [underflow, hld, he]
      rcases hload with ⟨s', ld', -, hs', hflat⟩ | ⟨⟨c', herror, -⟩, -⟩
      · have hcount := congrArg List.length hflat
        rw [List.length_append, List.length_append] at hcount
        omega
      · exact ⟨c', herror⟩

end Cursor

end LibeventServer.Lua.MessagePack

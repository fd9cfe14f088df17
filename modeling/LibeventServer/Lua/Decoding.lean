import LibeventServer.Lua.Unpackers

/-!
# What the unpackers make of a string

`decode` is `unpackers['any']` on a list of bytes: the value and the bytes behind it, or the message of the error.

`any_parse`: any fuel above the number of bytes gives the same.  `decode_error`: a string is refused because it ends
too early or because a value in it begins with 0xC1.  `decode_append`: what is decoded does not depend on what comes
behind.
-/

namespace LibeventServer.Lua.MessagePack

open Reading

/-- The error of a string that ends too early. -/
abbrev missing : String := "missing bytes"

/-- The error of a value that begins with 0xC1. -/
abbrev unimplemented : String := "unpack 'reserved193' is unimplemented"

/-- `unpackers['any']` on a list of bytes. -/
def decode (l : List UInt8) : Except String (Value Number × List UInt8) :=
  (unpackers.any (anyFuel l.length)).parse missing l

/-! ### Fuel -/

section

variable {d d' : Unpacking (Value Number)} {L : ℕ} {l : List UInt8}

private theorem unpackArrayFrom_congr (h : ∀ l, l.length ≤ L → d.parse missing l = d'.parse missing l) (i n : ℕ)
    (t : List (Value Number × Value Number)) (hl : l.length ≤ L) :
    (unpackArrayFrom d i n t).parse missing l = (unpackArrayFrom d' i n t).parse missing l := by
  induction n generalizing i t l with
  | zero => rfl
  | succ n ih =>
    refine parse_bind_congr (h l hl) fun v r hv => ?_
    exact ih _ _ ((length_of_parse_ok hv).trans hl)

private theorem unpackMapFrom_congr (h : ∀ l, l.length ≤ L → d.parse missing l = d'.parse missing l) (n : ℕ)
    (t : List (Value Number × Value Number)) (hl : l.length ≤ L) :
    (unpackMapFrom d n t).parse missing l = (unpackMapFrom d' n t).parse missing l := by
  induction n generalizing t l with
  | zero => rfl
  | succ n ih =>
    refine parse_bind_congr (h l hl) fun k r hk => ?_
    have hr := (length_of_parse_ok hk).trans hl
    refine parse_bind_congr (h r hr) fun v r' hv => ?_
    exact ih _ ((length_of_parse_ok hv).trans hr)

private theorem unpacker_congr (h : ∀ l, l.length ≤ L → d.parse missing l = d'.parse missing l) (val : ℕ)
    (t : WireType) (hl : l.length ≤ L) : (unpackers.unpacker d val t).parse missing l =
    (unpackers.unpacker d' val t).parse missing l := by
  have harray : ∀ n (l : List UInt8), l.length ≤ L →
      (unpack_array d n).parse missing l = (unpack_array d' n).parse missing l :=
    fun n l hl => unpackArrayFrom_congr h 1 n [] hl
  have hmap : ∀ n (l : List UInt8), l.length ≤ L →
      (unpack_map d n).parse missing l = (unpack_map d' n).parse missing l :=
    fun n l hl => unpackMapFrom_congr h n [] hl
  cases t with
  | fixarray => exact harray _ l hl
  | array16 => exact parse_bind_congr rfl fun n r hr => harray n r ((length_of_parse_ok hr).trans hl)
  | array32 => exact parse_bind_congr rfl fun n r hr => harray n r ((length_of_parse_ok hr).trans hl)
  | fixmap => exact hmap _ l hl
  | map16 => exact parse_bind_congr rfl fun n r hr => hmap n r ((length_of_parse_ok hr).trans hl)
  | map32 => exact parse_bind_congr rfl fun n r hr => hmap n r ((length_of_parse_ok hr).trans hl)
  | _ => rfl

end

/-- More fuel than there are bytes changes nothing. -/
theorem any_parse (fuel : ℕ) {l : List UInt8} (h : l.length < fuel) :
    (unpackers.any fuel).parse missing l = decode l := by
  unfold decode anyFuel
  suffices hall : ∀ n fuel fuel' (l : List UInt8), l.length ≤ n → n < fuel → n < fuel' →
      (unpackers.any fuel).parse missing l = (unpackers.any fuel').parse missing l from
    hall l.length fuel _ l le_rfl h (Nat.lt_succ_self _)
  intro n
  induction n with
  | zero =>
    intro fuel fuel' l hl hf hf'
    obtain ⟨f, rfl⟩ : ∃ f, fuel = f + 1 := ⟨fuel - 1, by omega⟩
    obtain ⟨f', rfl⟩ : ∃ f', fuel' = f' + 1 := ⟨fuel' - 1, by omega⟩
    have hshort : l.length < 1 := by omega
    rw [unpackers.any, unpackers.any, next, read_bind, read_bind, parse_read_short hshort, parse_read_short hshort]
  | succ n ih =>
    intro fuel fuel' l hl hf hf'
    obtain ⟨f, rfl⟩ : ∃ f, fuel = f + 1 := ⟨fuel - 1, by omega⟩
    obtain ⟨f', rfl⟩ : ∃ f', fuel' = f' + 1 := ⟨fuel' - 1, by omega⟩
    refine parse_bind_congr rfl fun val r hval => ?_
    -- the byte in front is gone
    have hr : r.length ≤ n := by
      have hpos : 1 ≤ l.length := by
        by_contra hlt
        rw [next, parse_read_short (Nat.lt_of_not_le hlt)] at hval
        cases hval
      rw [next, parse_read hpos] at hval
      cases hval
      rw [List.length_drop]
      omega
    exact unpacker_congr (fun l' hl' => ih f f' l' hl' (by omega) (by omega)) _ _ hr

theorem decode_nil : decode [] = .error missing := rfl

theorem wrap_of_lt {n : ℤ} (h : -2 ^ 63 ≤ n) (h' : n < 2 ^ 63) : wrap n = n := by
  unfold wrap
  rw [Int.bmod_def]
  omega

theorem bigEndian_singleton (b : UInt8) : bigEndian [b] = b.toNat := by
  have hlt := b.toNat_lt
  rw [bigEndian, List.foldl_cons, List.foldl_nil, wrap_of_lt] <;> omega

/-- Unpacking begins with one byte. -/
theorem any_parse_cons (fuel : ℕ) (b : UInt8) (l : List UInt8) : (unpackers.any (fuel + 1)).parse missing (b :: l) =
    (unpackers.unpacker (unpackers.any fuel) b.toNat (types_map b.toNat)).parse missing l := by
  have hlen : [b].length = 1 := rfl
  rw [unpackers.any, next, read_bind, ← List.singleton_append, parse_read_append hlen, done_bind]
  simp only [bigEndian_singleton, Int.toNat_natCast]

theorem decode_cons (b : UInt8) (l : List UInt8) : decode (b :: l) =
    (unpackers.unpacker (unpackers.any (anyFuel l.length)) b.toNat (types_map b.toNat)).parse missing l :=
  any_parse_cons _ b l

/-- What is decoded does not depend on what comes behind it. -/
theorem exists_decoded {l r : List UInt8} {v : Value Number} (h : decode l = .ok (v, r)) :
    ∃ u, u ≠ [] ∧ l = u ++ r ∧ ∀ t, decode (u ++ t) = .ok (v, t) := by
  obtain ⟨u, rfl, hframe⟩ := exists_read h
  have hall : ∀ t, decode (u ++ t) = .ok (v, t) := by
    intro t
    rcases le_total t.length r.length with hle | hle
    · rw [← any_parse (anyFuel (u ++ r).length) (by rw [anyFuel, List.length_append, List.length_append]; omega)]
      exact hframe t
    · -- with more fuel the front is read in the same way
      have hmore : (unpackers.any (anyFuel (u ++ t).length)).parse missing (u ++ r) = .ok (v, r) := by
        rw [any_parse _ (by rw [anyFuel, List.length_append, List.length_append]; omega)]
        exact h
      obtain ⟨u', hu', hframe'⟩ := exists_read hmore
      rw [List.append_cancel_right hu', ← any_parse (anyFuel (u' ++ t).length) (Nat.lt_succ_self _)]
      rw [List.append_cancel_right hu'] at hframe'
      exact hframe' t
  refine ⟨u, ?_, rfl, hall⟩
  rintro rfl
  have hnil := hall []
  rw [List.nil_append, decode_nil] at hnil
  cases hnil

theorem decode_append {l r : List UInt8} {v : Value Number} (h : decode l = .ok (v, r)) (t : List UInt8) :
    decode (l ++ t) = .ok (v, r ++ t) := by
  obtain ⟨u, -, rfl, hframe⟩ := exists_decoded h
  rw [List.append_assoc, hframe]

/-! ### Errors -/

section

variable {P : String → Prop} {L : ℕ} {d : Unpacking (Value Number)}

private theorem raisesOnly_unpackArrayFrom (hd : RaisesOnly missing P L d) (i n : ℕ)
    (t : List (Value Number × Value Number)) :
    RaisesOnly missing P L (unpackArrayFrom d i n t) := by
  induction n generalizing i t with
  | zero => exact raisesOnly_done _
  | succ n ih => exact hd.bind fun v => ih _ _

private theorem raisesOnly_unpackMapFrom (hd : RaisesOnly missing P L d) (n : ℕ)
    (t : List (Value Number × Value Number)) :
    RaisesOnly missing P L (unpackMapFrom d n t) := by
  induction n generalizing t with
  | zero => exact raisesOnly_done _
  | succ n ih => exact hd.bind fun k => hd.bind fun v => ih _

private theorem raisesOnly_unpacker (hmissing : P missing) (hd : RaisesOnly missing P L d) (val : ℕ) {t : WireType}
    (ht : ∀ k, t = .reserved k → P ("unpack 'reserved" ++ toString k ++ "' is unimplemented")) :
    RaisesOnly missing P L (unpackers.unpacker d val t) := by
  have hread : ∀ {α : Type} k (f : List UInt8 → α), RaisesOnly missing P L (next k >>= fun bytes => pure (f bytes)) :=
    fun k f => (raisesOnly_next hmissing k).bind fun bytes => raisesOnly_done _
  have hext : ∀ n, RaisesOnly missing P L (unpackers.ext n) :=
    fun n => (raisesOnly_next hmissing 1).bind fun tag => hread n _
  have harray : ∀ n, RaisesOnly missing P L (unpack_array d n) := fun n => raisesOnly_unpackArrayFrom hd 1 n []
  have hmap : ∀ n, RaisesOnly missing P L (unpack_map d n) := fun n => raisesOnly_unpackMapFrom hd n []
  cases t with
  | nil | false | true | fixnum_pos | fixnum_neg => exact raisesOnly_done _
  | float | double | int8 => exact hread _ _
  | uint8 | uint16 | uint32 | uint64 | int16 | int32 | int64 => exact hread _ _
  | fixstr => exact hread _ _
  | str8 | str16 | str32 | bin8 | bin16 | bin32 => exact (hread _ _).bind fun n => hread n _
  | fixarray => exact harray _
  | array16 | array32 => exact (hread _ _).bind harray
  | fixmap => exact hmap _
  | map16 | map32 => exact (hread _ _).bind hmap
  | fixext n => exact hext n
  | ext8 | ext16 | ext32 => exact (hread _ _).bind hext
  | reserved k => exact raisesOnly_raise (ht k rfl)

end

/-- 0xC1 is the only byte that is reserved. -/
private theorem eq_of_types_map_reserved {k k' : ℕ} (h : types_map k = .reserved k') : k' = 0xC1 := by
  unfold types_map at h
  split at h
  any_goals cases h
  split at h
  · split at h
    · cases h
    · split at h
      · cases h
      · split at h <;> cases h
  · split at h
    · cases h
    · cases h
      grind

private theorem raisesOnly_any {P : String → Prop} (hmissing : P missing)
    (hunimplemented : P unimplemented) {fuel L : ℕ} (h : L < fuel) : RaisesOnly missing P L (unpackers.any fuel) := by
  induction fuel generalizing L with
  | zero => omega
  | succ fuel ih =>
    refine raisesOnly_read hmissing fun hL val => ?_
    refine raisesOnly_unpacker hmissing (ih (by omega)) _ fun k hk => ?_
    rw [eq_of_types_map_reserved hk]
    exact hunimplemented

/-- The errors of `unpackers['any']`. -/
theorem decode_error {l : List UInt8} {e : String} (h : decode l = .error e) : e = missing ∨ e = unimplemented := by
  have hany : RaisesOnly missing (fun e => e = missing ∨ e = unimplemented) l.length
    (unpackers.any (anyFuel l.length)) :=
    raisesOnly_any (Or.inl rfl) (Or.inr rfl) (Nat.lt_succ_self _)
  exact hany l e le_rfl h

end LibeventServer.Lua.MessagePack

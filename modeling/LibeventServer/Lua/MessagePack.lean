import LibeventServer.Lua.Value
import Mathlib.Algebra.Order.Archimedean.Real.Basic

/-!
# Tables on the wire

What `src/msgpack/MessagePack.lua` makes of a table: `set_array'without_hole'` packs it as an array when its keys are
1, ..., n, and as a map otherwise, and `unpack_array` and `unpack_map` build a table again.  The elements are packed
and unpacked in turn; here they are what they were.

`rawget_rebuild`: a list that is put into a table, nils and all, is found in the table that arrives.
-/

namespace LibeventServer.Lua

/-- `v == nil` -/
def Value.isNil {N : Type} : Value N → Bool
  | .nil => true
  | _ => false

theorem Value.isNil_iff {N : Type} {v : Value N} : v.isNil = true ↔ v = .nil := by
  cases v <;> simp [Value.isNil]

/-- What a table is packed as. -/
inductive Wire where
  | array (l : List (Value ℝ))
  | map (l : List (Value ℝ × Value ℝ))

/-- A table assigned the elements of a list under 1, 2, ...: `{...}`, and `unpack_array`; `k` elements have gone
before.  Assigning `nil` makes no entry. -/
def fromListAt (k : ℕ) : List (Value ℝ) → List (Value ℝ × Value ℝ)
  | [] => []
  | v :: l => if v.isNil then fromListAt (k + 1) l else (.num ((k + 1 : ℕ) : ℝ), v) :: fromListAt (k + 1) l

def fromList (l : List (Value ℝ)) : List (Value ℝ × Value ℝ) := fromListAt 0 l

/-- The loop body of `packers['_table']`, for the state `is_map`, `n`, `max`. -/
noncomputable def shapeStep (s : Bool × ℕ × ℝ) (e : Value ℝ × Value ℝ) : Bool × ℕ × ℝ :=
  match e.1 with
  | .num k => if k > 0 then (s.1, s.2.1 + 1, if k > s.2.2 then k else s.2.2) else (true, s.2.1 + 1, s.2.2)
  | _ => (true, s.2.1 + 1, s.2.2)

/-- `packers['_table']`, as `set_array'without_hole'` sets it. -/
noncomputable def packTable (tbl : List (Value ℝ × Value ℝ)) : Wire :=
  let s := tbl.foldl shapeStep (false, 0, 0)
  let is_map := if s.2.2 ≠ s.2.1 then true else s.1
  if is_map then .map tbl else .array ((List.range s.2.1).map fun i => .rawget tbl (.num ((i + 1 : ℕ) : ℝ)))

/-- `unpack_map`; a later assignment counts. -/
def unpackMap (l : List (Value ℝ × Value ℝ)) : List (Value ℝ × Value ℝ) :=
  l.foldl (fun t e => if e.1.isNil then t else e :: t) []

def unpackTable : Wire → List (Value ℝ × Value ℝ)
  | .array l => fromList l
  | .map l => unpackMap l

/-- A table that has been packed and unpacked. -/
noncomputable def rebuild (tbl : List (Value ℝ × Value ℝ)) : List (Value ℝ × Value ℝ) := unpackTable (packTable tbl)

/-! ### A list in a table -/

private theorem rawget_cons (k v : Value ℝ) (tbl : List (Value ℝ × Value ℝ)) (key : Value ℝ) :
    Value.rawget ((k, v) :: tbl) key = if k.rawequal key then v else .rawget tbl key := by
  unfold Value.rawget
  rw [List.find?_cons]
  cases k.rawequal key <;> rfl

theorem rawequal_num {k : Value ℝ} {x : ℝ} : k.rawequal (.num x) = true ↔ k = .num x := by
  cases k <;> simp [Value.rawequal]

private theorem rawget_fromListAt (k : ℕ) (l : List (Value ℝ)) (i : ℕ) :
    Value.rawget (fromListAt k l) (.num ((i + 1 : ℕ) : ℝ)) = if i < k then .nil else l[i - k]?.getD .nil := by
  induction l generalizing k with
  | nil => simp [fromListAt, Value.rawget]
  | cons v l ih =>
    have hrest : (if i < k + 1 then Value.nil else l[i - (k + 1)]?.getD .nil) =
        if i < k then Value.nil else if i = k then .nil else (v :: l)[i - k]?.getD .nil := by
      rcases lt_trichotomy i k with hlt | rfl | hgt
      · simp [hlt, Nat.lt_succ_of_lt hlt]
      · simp
      · have hsub : i - k = (i - (k + 1)) + 1 := by omega
        simp only [show ¬ i < k + 1 by omega, show ¬ i < k by omega, show i ≠ k by omega, if_false, hsub,
          List.getElem?_cons_succ]
    unfold fromListAt
    split
    · rename_i hnil
      rw [ih, hrest, Value.isNil_iff.1 hnil]
      by_cases hi : i = k <;> simp [hi]
    · rw [rawget_cons, ih, hrest]
      by_cases hi : i = k
      · rw [if_pos (rawequal_num.2 (by rw [hi]))]
        simp [hi]
      · rw [if_neg fun h => hi (by have := Nat.cast_injective (Value.num.inj (rawequal_num.1 h)); omega)]
        simp [hi]

private theorem rawget_fromList (l : List (Value ℝ)) (i : ℕ) :
    Value.rawget (fromList l) (.num ((i + 1 : ℕ) : ℝ)) = l[i]?.getD .nil := by
  rw [fromList, rawget_fromListAt, if_neg (Nat.not_lt_zero i), Nat.sub_zero]

/-- The entries of such a table: one for each element that is not `nil`, under keys that are all different. -/
private theorem mem_fromListAt {k : ℕ} {l : List (Value ℝ)} {e : Value ℝ × Value ℝ} (h : e ∈ fromListAt k l) :
    ∃ i, k ≤ i ∧ e.1 = .num ((i + 1 : ℕ) : ℝ) := by
  induction l generalizing k with
  | nil => cases h
  | cons v l ih =>
    unfold fromListAt at h
    split at h
    · obtain ⟨i, hi, he⟩ := ih h
      exact ⟨i, by omega, he⟩
    · rcases List.mem_cons.1 h with rfl | h
      · exact ⟨k, le_rfl, rfl⟩
      · obtain ⟨i, hi, he⟩ := ih h
        exact ⟨i, by omega, he⟩

private theorem fromListAt_unique {k : ℕ} {l : List (Value ℝ)} {e e' : Value ℝ × Value ℝ} (h : e ∈ fromListAt k l)
    (h' : e' ∈ fromListAt k l) (heq : e.1 = e'.1) : e = e' := by
  induction l generalizing k with
  | nil => cases h
  | cons v l ih =>
    unfold fromListAt at h h'
    split at h
    · rename_i hnil
      rw [if_pos hnil] at h'
      exact ih h h'
    · rename_i hnil
      rw [if_neg hnil] at h'
      -- the first entry has the least key
      have hfirst : ∀ {e'' : Value ℝ × Value ℝ}, e'' ∈ fromListAt (k + 1) l → e''.1 ≠ .num ((k + 1 : ℕ) : ℝ) := by
        intro e'' he'' hkey
        obtain ⟨i, hi, hi'⟩ := mem_fromListAt he''
        rw [hkey, Value.num.injEq, Nat.cast_inj] at hi'
        omega
      rcases List.mem_cons.1 h with rfl | h <;> rcases List.mem_cons.1 h' with rfl | h'
      · rfl
      · exact absurd heq.symm (hfirst h')
      · exact absurd heq (hfirst h)
      · exact ih h h'

/-! ### A table that arrives -/

private theorem rawget_unpackMap {l : List (Value ℝ × Value ℝ)} (hnil : ∀ e ∈ l, e.1 ≠ .nil)
    (hunique : ∀ e ∈ l, ∀ e' ∈ l, e.1 = e'.1 → e = e') (x : ℝ) :
    Value.rawget (unpackMap l) (.num x) = .rawget l (.num x) := by
  have hrev : unpackMap l = l.reverse := by
    have hfold : ∀ (l t : List (Value ℝ × Value ℝ)), (∀ e ∈ l, e.1 ≠ .nil) →
        l.foldl (fun t e => if e.1.isNil then t else e :: t) t = l.reverse ++ t := by
      intro l
      induction l with
      | nil => exact fun _ _ => rfl
      | cons e l ih =>
        intro t hnil
        have he : ¬ e.1.isNil = true := fun h => hnil e (by simp) (Value.isNil_iff.1 h)
        rw [List.foldl_cons, if_neg he, ih _ fun e he => hnil e (by simp [he]), List.reverse_cons, List.append_assoc]
        rfl
    rw [unpackMap, hfold l [] hnil, List.append_nil]
  rw [hrev]
  unfold Value.rawget
  cases hfind : l.find? fun e => e.1.rawequal (.num x) with
  | none =>
    have hrevnone : (l.reverse.find? fun e => e.1.rawequal (.num x)) = none := by
      rw [List.find?_eq_none] at hfind ⊢
      intro e he
      exact hfind e (List.mem_reverse.1 he)
    rw [hrevnone]
  | some e =>
    have he := List.mem_of_find?_eq_some hfind
    have hek : e.1.rawequal (.num x) = true :=
      List.find?_some (p := fun e : Value ℝ × Value ℝ => e.1.rawequal (.num x)) hfind
    cases hrevfind : l.reverse.find? fun e => e.1.rawequal (.num x) with
    | none => exact absurd hek (by simpa using List.find?_eq_none.1 hrevfind e (List.mem_reverse.2 he))
    | some e' =>
      have he' := List.mem_reverse.1 (List.mem_of_find?_eq_some hrevfind)
      have hek' : e'.1.rawequal (.num x) = true :=
        List.find?_some (p := fun e : Value ℝ × Value ℝ => e.1.rawequal (.num x)) hrevfind
      rw [hunique e he e' he' ((rawequal_num.1 hek).trans (rawequal_num.1 hek').symm)]

private theorem le_shapeStep (s : Bool × ℕ × ℝ) (e : Value ℝ × Value ℝ) :
    s.2.2 ≤ (shapeStep s e).2.2 ∧ ∀ x : ℝ, e.1 = .num x → 0 < x → x ≤ (shapeStep s e).2.2 := by
  unfold shapeStep
  split
  · rename_i k hk
    split
    · refine ⟨?_, fun x hx _ => ?_⟩
      · dsimp only
        split <;> linarith
      · rw [hk, Value.num.injEq] at hx
        subst hx
        dsimp only
        split <;> linarith
    · rename_i hpos
      refine ⟨le_rfl, fun x hx h0 => ?_⟩
      rw [hk, Value.num.injEq] at hx
      exact absurd (hx ▸ h0) hpos
  · rename_i hother
    exact ⟨le_rfl, fun x hx _ => absurd hx (hother x)⟩

/-- `max` is at least every key. -/
private theorem le_tableShape (tbl : List (Value ℝ × Value ℝ)) (s : Bool × ℕ × ℝ) :
    s.2.2 ≤ (tbl.foldl shapeStep s).2.2 ∧
      ∀ e ∈ tbl, ∀ x : ℝ, e.1 = .num x → 0 < x → x ≤ (tbl.foldl shapeStep s).2.2 := by
  induction tbl generalizing s with
  | nil => exact ⟨le_rfl, by simp⟩
  | cons e tbl ih =>
    obtain ⟨hmono, hkeys⟩ := ih (shapeStep s e)
    obtain ⟨hstep, hkey⟩ := le_shapeStep s e
    rw [List.foldl_cons]
    refine ⟨hstep.trans hmono, fun e' he' x hx h0 => ?_⟩
    rcases List.mem_cons.1 he' with rfl | he'
    · exact (hkey x hx h0).trans hmono
    · exact hkeys e' he' x hx h0

/-- A map has the entries of the table; an array has `n` elements, and there is no key above `n`. -/
private theorem packTable_cases (tbl : List (Value ℝ × Value ℝ)) :
    packTable tbl = .map tbl ∨
      ∃ n : ℕ, packTable tbl = .array ((List.range n).map fun i => .rawget tbl (.num ((i + 1 : ℕ) : ℝ))) ∧
        ∀ e ∈ tbl, ∀ x : ℝ, e.1 = .num x → 0 < x → x ≤ n := by
  have hmax := (le_tableShape tbl (false, 0, 0)).2
  unfold packTable
  generalize tbl.foldl shapeStep (false, 0, 0) = s at hmax
  obtain ⟨is_map, n, max⟩ := s
  dsimp only at hmax ⊢
  by_cases hn : max = n
  · cases is_map with
    | true => exact Or.inl (by simp)
    | false =>
      refine Or.inr ⟨n, by simp [hn], fun e he x hx h0 => ?_⟩
      rw [← hn]
      exact hmax e he x hx h0
  · exact Or.inl (by simp [hn])

/-- A list that is put into a table is found in the table that arrives. -/
theorem rawget_rebuild (l : List (Value ℝ)) (i : ℕ) :
    Value.rawget (rebuild (fromList l)) (.num ((i + 1 : ℕ) : ℝ)) = l[i]?.getD .nil := by
  unfold rebuild
  rcases packTable_cases (fromList l) with hmap | ⟨n, harray, hmax⟩
  · rw [hmap, unpackTable, rawget_unpackMap, rawget_fromList]
    · intro e he
      obtain ⟨j, -, hj⟩ := mem_fromListAt he
      rw [hj]
      nofun
    · exact fun e he e' he' heq => fromListAt_unique he he' heq
  · rw [harray, unpackTable, rawget_fromList]
    by_cases hi : i < n
    · rw [List.getElem?_map, List.getElem?_range hi, Option.map_some, Option.getD_some, rawget_fromList]
    · -- beyond the array the list has no elements but `nil`
      rw [List.getElem?_map, List.getElem?_eq_none (by simpa using hi), Option.map_none, Option.getD_none]
      by_contra hne
      have hget := rawget_fromList l i
      unfold Value.rawget at hget
      split at hget
      · rename_i e he
        have hek := rawequal_num.1
          (List.find?_some (p := fun e : Value ℝ × Value ℝ => e.1.rawequal (.num ((i + 1 : ℕ) : ℝ))) he)
        have hle := hmax e (List.mem_of_find?_eq_some he) _ hek (by positivity)
        rw [Nat.cast_le] at hle
        omega
      · exact hne hget

end LibeventServer.Lua

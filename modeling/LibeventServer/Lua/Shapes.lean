import LibeventServer.Lua.Packers

/-!
# Which tables are arrays

`packers['_table']` takes a table for an array when all its keys are positive numbers and there are as many as the
largest of them says.  When they are integers as well, they are the numbers 1, ..., n (`mem_keys_iff`); the code does
not ask whether they are.
-/

namespace LibeventServer.Lua.MessagePack

/-- A value under which a table can have an entry, and which is not a table itself. -/
def IsKey : Value Number → Prop
  | .bool _ => True
  | .num n => n ≠ .nan
  | .str _ => True
  | _ => False

theorem rawequal_iff {k k' : Value Number} (hk : IsKey k) : k.rawequal k' = true ↔ k = k' := by
  cases k <;> cases k' <;> simp_all [Value.rawequal, IsKey]

/-- Only infinity and a larger number are greater than a number. -/
private theorem gt_finite_iff {x : Number} {b : ℚ} :
    x.gt (.finite b) = true ↔ x = .inf false ∨ ∃ a, x = .finite a ∧ b < a := by
  cases x with
  | nan => simp [Number.gt]
  | inf neg => cases neg <;> simp [Number.gt]
  | finite a => simp [Number.gt]

private theorem not_gt_inf (x : Number) : x.gt (.inf false) = false := by
  cases x with
  | nan => rfl
  | inf neg => cases neg <;> rfl
  | finite a => rfl

/-- What is not greater than a number is not greater than a greater one. -/
private theorem not_gt_trans {x m m' : Number} (hm0 : m = .inf false ∨ ∃ b, m = .finite b) (hm : x.gt m = false)
    (hm' : m'.gt m = true) : x.gt m' = false := by
  rcases hm0 with rfl | ⟨b, rfl⟩
  · rw [not_gt_inf] at hm'
    cases hm'
  · rw [← Bool.not_eq_true, gt_finite_iff] at hm
    rcases gt_finite_iff.1 hm' with rfl | ⟨c, rfl, hc⟩
    · exact not_gt_inf x
    · rw [← Bool.not_eq_true, gt_finite_iff]
      rintro (rfl | ⟨a, rfl, ha⟩)
      · exact hm (Or.inl rfl)
      · exact hm (Or.inr ⟨a, rfl, hc.trans ha⟩)

/-- A number is a key of the loop body, or something else that makes the table a map. -/
private theorem shapeStep_cases (s : Bool × ℕ × Number) (k : Value Number) :
    (∃ x : Number, k = .num x ∧ x.gt (.finite 0) = true ∧
        packers.shapeStep s k = (s.1, s.2.1 + 1, if x.gt s.2.2 then x else s.2.2)) ∨
      packers.shapeStep s k = (true, s.2.1 + 1, s.2.2) := by
  cases k with
  | num x =>
    cases hx : x.gt (.finite 0) with
    | true => exact Or.inl ⟨x, rfl, hx, by rw [packers.shapeStep, if_pos hx]⟩
    | false => exact Or.inr (by rw [packers.shapeStep, hx]; rfl)
  | _ => exact Or.inr rfl

/-- The loop over the keys: `is_map`, `n` and `max`. -/
def scan (keys : List (Value Number)) : Bool × ℕ × Number := keys.foldl packers.shapeStep (false, 0, .finite 0)

private theorem scan_append (keys : List (Value Number)) (k : Value Number) :
    scan (keys ++ [k]) = packers.shapeStep (scan keys) k := by
  rw [scan, List.foldl_append, List.foldl_cons, List.foldl_nil, scan]

private theorem scan_count (keys : List (Value Number)) : (scan keys).2.1 = keys.length := by
  induction keys using List.reverseRecOn with
  | nil => rfl
  | append_singleton keys k ih =>
    rw [scan_append, List.length_append, List.length_singleton, ← ih]
    rcases shapeStep_cases (scan keys) k with ⟨x, -, -, hstep⟩ | hstep <;> rw [hstep]

/-- The largest key is not `nan`. -/
private theorem scan_max_cases (keys : List (Value Number)) :
    (scan keys).2.2 = .inf false ∨ ∃ b, (scan keys).2.2 = .finite b := by
  induction keys using List.reverseRecOn with
  | nil => exact Or.inr ⟨0, rfl⟩
  | append_singleton keys k ih =>
    rw [scan_append]
    rcases shapeStep_cases (scan keys) k with ⟨x, -, hpos, hstep⟩ | hstep
    · rw [hstep]
      cases hgt : x.gt (scan keys).2.2 with
      | true =>
        rcases gt_finite_iff.1 hpos with rfl | ⟨a, rfl, -⟩
        · exact Or.inl rfl
        · exact Or.inr ⟨a, rfl⟩
      | false => exact ih
    · rw [hstep]
      exact ih

/-- In a table that is not a map all keys are positive numbers, and none is greater than the largest. -/
private theorem scan_max {keys : List (Value Number)} (h : (scan keys).1 = false) :
    ∀ k ∈ keys, ∃ x : Number, k = .num x ∧ x.gt (.finite 0) = true ∧ x.gt (scan keys).2.2 = false := by
  induction keys using List.reverseRecOn with
  | nil => simp
  | append_singleton keys k ih =>
    have hcases := scan_max_cases keys
    rw [scan_append] at h ⊢
    rcases shapeStep_cases (scan keys) k with ⟨x, rfl, hpos, hstep⟩ | hstep
    · rw [hstep] at h ⊢
      intro k' hk'
      rcases List.mem_append.1 hk' with hk' | hk'
      · obtain ⟨y, rfl, hy, hle⟩ := ih h k' hk'
        refine ⟨y, rfl, hy, ?_⟩
        cases hgt : x.gt (scan keys).2.2 with
        | true => exact not_gt_trans hcases hle hgt
        | false => exact hle
      · rw [List.mem_singleton.1 hk']
        refine ⟨x, rfl, hpos, ?_⟩
        cases hgt : x.gt (scan keys).2.2 with
        | true =>
          rcases gt_finite_iff.1 hpos with rfl | ⟨a, rfl, -⟩
          · rfl
          · simp [Number.gt]
        | false => exact hgt
    · rw [hstep] at h
      cases h

theorem shape_eq (keys : List (Value Number)) :
    packers.shape keys = ((scan keys).1 || decide ((scan keys).2.2 ≠ .finite keys.length), keys.length) := by
  have hcount := scan_count keys
  unfold scan at hcount ⊢
  rw [packers.shape, hcount]
  split_ifs with hmax
  · rw [decide_eq_true hmax, Bool.or_true]
  · rw [decide_eq_false hmax, Bool.or_false]

/-- The keys of a table that is taken for an array, when they are integers: 1, ..., n. -/
theorem mem_keys_iff {keys : List (Value Number)} (h : (packers.shape keys).1 = false) (hnodup : keys.Nodup)
    (hint : ∀ k ∈ keys, ∃ n : ℤ, k = .num (.finite n)) (k : Value Number) :
    k ∈ keys ↔ ∃ i : ℕ, i < keys.length ∧ k = .num (.finite ((i + 1 : ℕ) : ℚ)) := by
  rw [shape_eq, Bool.or_eq_false_iff, decide_eq_false_iff_not, not_not] at h
  obtain ⟨hscan, hmax⟩ := h
  have hsub : keys ⊆ (List.range keys.length).map fun i => Value.num (.finite ((i + 1 : ℕ) : ℚ)) := by
    intro k hk
    obtain ⟨n, rfl⟩ := hint k hk
    obtain ⟨x, hx, hpos, hle⟩ := scan_max hscan _ hk
    obtain rfl := Value.num.inj hx
    have hpos' : 0 < n := by simpa [Number.gt] using hpos
    have hle' : n ≤ keys.length := by
      rw [hmax] at hle
      simp only [Number.gt, gt_iff_lt, decide_eq_false_iff_not, not_lt] at hle
      exact_mod_cast hle
    refine List.mem_map.2 ⟨(n - 1).toNat, List.mem_range.2 (by omega), ?_⟩
    have hcast : (((n - 1).toNat + 1 : ℕ) : ℤ) = n := by omega
    have hcast' : (((n - 1).toNat + 1 : ℕ) : ℚ) = n := by exact_mod_cast hcast
    rw [hcast']
  have hperm := (hnodup.subperm hsub).perm_of_length_le (by simp)
  rw [hperm.mem_iff, List.mem_map]
  simp only [List.mem_range, eq_comm]

end LibeventServer.Lua.MessagePack

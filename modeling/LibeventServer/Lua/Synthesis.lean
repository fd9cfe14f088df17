import LibeventServer.Lua.Impulse

/-!
# What a synthesis adds up to

`synthesis` combines the speeds of a table one after the other.  The value it goes on with is the length of the sum,
by the law of cosines, but the angle it goes on with is the one *between* the two speeds it has combined, not that of
their sum.  `synthesis_adds_iff`: the sums are right, entry by entry, exactly as long as each of them happens to point
along the angle gone on with.
-/

namespace LibeventServer.Lua

/-- No speed of the table is negative. -/
def NonNegative (tbl : Finmap fun _ : ℝ => ℝ) : Prop := ∀ angle value, tbl.lookup angle = some value → 0 ≤ value

/-! ### One step -/

/-- The local `a`. -/
noncomputable def between (angle _angle : ℝ) : ℝ :=
  if |angle - _angle| > Real.pi then 2 * Real.pi - |angle - _angle| else |angle - _angle|

private theorem cos_between (angle _angle : ℝ) : Real.cos (between angle _angle) = Real.cos (angle - _angle) := by
  unfold between
  split
  · rw [Real.cos_two_pi_sub, Real.cos_abs]
  · rw [Real.cos_abs]

theorem synthesisStep_none {tbl : Finmap fun _ : ℝ => ℝ} {a v : ℝ} (ha : tbl.lookup a = some v) :
    synthesisStep tbl none a = some (a, v) := by
  rw [synthesisStep, ha]

theorem synthesisStep_between {tbl : Finmap fun _ : ℝ => ℝ} {b w : ℝ} (hb : tbl.lookup b = some w) (a v : ℝ) :
    synthesisStep tbl (some (a, v)) b =
      some (between a b, Real.sqrt (v ^ 2 + w ^ 2 + 2 * v * w * Real.cos (between a b))) := by
  rw [synthesisStep, hb]
  rfl

/-- The law of cosines. -/
theorem law_of_cosines (a b v w : ℝ) : v ^ 2 + w ^ 2 + 2 * v * w * Real.cos (between a b) =
    (v * Real.cos a + w * Real.cos b) ^ 2 + (v * Real.sin a + w * Real.sin b) ^ 2 := by
  calc v ^ 2 + w ^ 2 + 2 * v * w * Real.cos (between a b)
      = v ^ 2 * (Real.sin a ^ 2 + Real.cos a ^ 2) + w ^ 2 * (Real.sin b ^ 2 + Real.cos b ^ 2) +
          2 * v * w * (Real.cos a * Real.cos b + Real.sin a * Real.sin b) := by
        rw [cos_between, Real.cos_sub, Real.sin_sq_add_cos_sq, Real.sin_sq_add_cos_sq]
        ring
    _ = (v * Real.cos a + w * Real.cos b) ^ 2 + (v * Real.sin a + w * Real.sin b) ^ 2 := by ring

/-- Where the sum points along `angle`, the root is its length. -/
private theorem sqrt_of_sum {a b v w r angle : ℝ} (hr : 0 ≤ r)
    (hsum : v • direction a + w • direction b = r • direction angle) :
    Real.sqrt (v ^ 2 + w ^ 2 + 2 * v * w * Real.cos (between a b)) = r := by
  have hx : v * Real.cos a + w * Real.cos b = r * Real.cos angle := congrArg Prod.fst hsum
  have hy : v * Real.sin a + w * Real.sin b = r * Real.sin angle := congrArg Prod.snd hsum
  have hsq : v ^ 2 + w ^ 2 + 2 * v * w * Real.cos (between a b) = r ^ 2 := by
    calc v ^ 2 + w ^ 2 + 2 * v * w * Real.cos (between a b)
        = (v * Real.cos a + w * Real.cos b) ^ 2 + (v * Real.sin a + w * Real.sin b) ^ 2 := law_of_cosines a b v w
      _ = r ^ 2 * (Real.sin angle ^ 2 + Real.cos angle ^ 2) := by
          rw [hx, hy]
          ring
      _ = r ^ 2 := by rw [Real.sin_sq_add_cos_sq, mul_one]
  rw [hsq, Real.sqrt_sq hr]

/-! ### The entries met so far -/

/-- The angle the loop goes on with after these angles: the first one, and then what lies between it and the next. -/
noncomputable def carried : List ℝ → ℝ
  | [] => 0
  | angle :: rest => rest.foldl between angle

private theorem carried_append {l : List ℝ} (hl : l ≠ []) (b : ℝ) : carried (l ++ [b]) = between (carried l) b := by
  obtain ⟨a, rest, rfl⟩ := List.exists_cons_of_ne_nil hl
  rw [List.cons_append, carried, List.foldl_append]
  rfl

/-- The sum of the entries under these angles. -/
noncomputable def sumOver (tbl : Finmap fun _ : ℝ => ℝ) (l : List ℝ) : ℝ × ℝ := Tally.totalOver direction tbl l

private theorem sumOver_append {tbl : Finmap fun _ : ℝ => ℝ} {b w : ℝ} (hb : tbl.lookup b = some w) (l : List ℝ) :
    sumOver tbl (l ++ [b]) = sumOver tbl l + w • direction b :=
  Tally.totalOver_append direction hb l

private theorem sumOver_order (order : Enumeration ℝ) (tbl : Finmap fun _ : ℝ => ℝ) :
    sumOver tbl (order.order tbl.keys) = velocity tbl :=
  Tally.totalOver_order direction order tbl

/-- The sum of the speeds themselves. -/
noncomputable def speed (tbl : Finmap fun _ : ℝ => ℝ) : ℝ := Tally.total (fun _ => (1 : ℝ)) tbl

/-- The velocity that the loop state stands for. -/
noncomputable def stateVelocity : Option (ℝ × ℝ) → ℝ × ℝ
  | some (angle, value) => value • direction angle
  | none => 0

/-- The loop state after some of the entries: its value is at most the sum of the speeds. -/
private theorem foldl_synthesisStep {tbl : Finmap fun _ : ℝ => ℝ} (hpos : NonNegative tbl) {l : List ℝ} (hl : l ≠ [])
    (hmem : ∀ a ∈ l, a ∈ tbl) : ∃ value, 0 ≤ value ∧ value ≤ Tally.totalOver (fun _ => (1 : ℝ)) tbl l ∧
      l.foldl (synthesisStep tbl) none = some (carried l, value) := by
  induction l using List.reverseRecOn with
  | nil => exact absurd rfl hl
  | append_singleton l b ih =>
    obtain ⟨w, hw⟩ := Finmap.mem_iff.1 (hmem b (by simp))
    have hwpos := hpos b w hw
    rw [List.foldl_append, List.foldl_cons, List.foldl_nil, Tally.totalOver_append _ hw, smul_eq_mul, mul_one]
    by_cases hnil : l = []
    · subst hnil
      exact ⟨w, hwpos, (zero_add w).ge, synthesisStep_none hw⟩
    · obtain ⟨v, hvpos, hv, hfold⟩ := ih hnil fun a ha => hmem a (by simp [ha])
      have hroot : Real.sqrt (v ^ 2 + w ^ 2 + 2 * v * w * Real.cos (between (carried l) b)) ≤ v + w := by
        have hcos := mul_le_mul_of_nonneg_left (Real.cos_le_one (between (carried l) b)) (mul_nonneg hvpos hwpos)
        refine Real.sqrt_le_iff.2 ⟨add_nonneg hvpos hwpos, ?_⟩
        linarith [add_sq v w]
      rw [hfold, synthesisStep_between hw, carried_append hnil]
      exact ⟨_, Real.sqrt_nonneg _, by linarith, rfl⟩

private theorem velocity_synthesis (order : Enumeration ℝ) (tbl : Finmap fun _ : ℝ => ℝ) :
    velocity (synthesis order tbl) = stateVelocity ((order.order tbl.keys).foldl (synthesisStep tbl) none) := by
  rw [synthesis]
  cases (order.order tbl.keys).foldl (synthesisStep tbl) none with
  | none => exact Tally.total_empty direction
  | some p => exact Tally.total_singleton direction p.1 p.2

private theorem card_synthesis (order : Enumeration ℝ) (tbl : Finmap fun _ : ℝ => ℝ) :
    (synthesis order tbl).keys.card ≤ 1 := by
  rw [synthesis]
  cases (order.order tbl.keys).foldl (synthesisStep tbl) none with
  | none => simp
  | some p => simp

/-- The loop ends with no entry, or with one whose speed is at most the sum of all speeds. -/
theorem synthesis_cases {tbl : Finmap fun _ : ℝ => ℝ} (hpos : NonNegative tbl) (e : Enumeration ℝ) :
    tbl = ∅ ∨ ∃ angle value, 0 ≤ value ∧ value ≤ speed tbl ∧ synthesis e tbl = Finmap.singleton angle value := by
  by_cases hnil : e.order tbl.keys = []
  · refine Or.inl (Finmap.ext_lookup fun a => ?_)
    rw [Finmap.lookup_empty, Finmap.lookup_eq_none, ← Finmap.mem_keys, ← e.mem_order, hnil]
    exact List.not_mem_nil
  · have hmem : ∀ a ∈ e.order tbl.keys, a ∈ tbl := fun a ha => Finmap.mem_keys.1 ((e.mem_order _ a).1 ha)
    obtain ⟨value, hvalue, hle, hfold⟩ := foldl_synthesisStep hpos hnil hmem
    rw [Tally.totalOver_order] at hle
    exact Or.inr ⟨_, value, hvalue, hle, by rw [synthesis, hfold]⟩

theorem speed_singleton (angle value : ℝ) : speed (Finmap.singleton angle value) = value := by
  rw [speed, Tally.total_singleton, smul_eq_mul, mul_one]

/-! ### When the sums are right -/

/-- A part of two entries is one entry. -/
private theorem prefix_of_length_le_two {l l' : List ℝ} (h : l'.length ≤ 2) (hl : l <+: l') (hnil : l ≠ []) :
    l = l' ∨ ∃ a, l = [a] := by
  by_cases hall : l = l'
  · exact Or.inl hall
  · have hlt : l.length < l'.length := lt_of_le_of_ne hl.length_le fun hlen => hall (hl.eq_of_length hlen)
    match l, hnil, hlt with
    | [a], _, _ => exact Or.inr ⟨a, rfl⟩
    | _ :: _ :: _, _, hlt =>
      simp only [List.length_cons] at hlt
      omega

/-- A vector that is 0 or has this angle. -/
def PointsAlong (i : ℝ × ℝ) (angle : ℝ) : Prop := ∃ r : ℝ, 0 ≤ r ∧ i = r • direction angle

/-- `synthesis` gives at most one entry, and it stands for the velocity of the table. -/
def AddsUp (order : Enumeration ℝ) (tbl : Finmap fun _ : ℝ => ℝ) : Prop :=
  (synthesis order tbl).keys.card ≤ 1 ∧ velocity (synthesis order tbl) = velocity tbl

/-- After each entry the sum of the entries met so far points along the angle gone on with. -/
def Aligned (order : Enumeration ℝ) (tbl : Finmap fun _ : ℝ => ℝ) : Prop :=
  ∀ l, l <+: order.order tbl.keys → l ≠ [] → PointsAlong (sumOver tbl l) (carried l)

section

variable {order : Enumeration ℝ} {tbl : Finmap fun _ : ℝ => ℝ}

private theorem mem_of_part {l : List ℝ} (hl : l <+: order.order tbl.keys) : ∀ a ∈ l, a ∈ tbl :=
  fun a ha => Finmap.mem_keys.1 ((order.mem_order _ a).1 (hl.subset ha))

/-- One entry is carried on as it is. -/
private theorem pointsAlong_singleton (hpos : NonNegative tbl) (a : ℝ) :
    PointsAlong (sumOver tbl [a]) (carried [a]) := by
  refine ⟨(tbl.lookup a).getD 0, ?_, List.sum_singleton⟩
  cases ha : tbl.lookup a with
  | none => exact le_rfl
  | some v => exact hpos a v ha

/-- As long as the sums point along the angles gone on with, the loop state stands for them. -/
private theorem stateVelocity_of_aligned (hpos : NonNegative tbl) (halign : Aligned order tbl) {l : List ℝ}
    (hl : l <+: order.order tbl.keys) : stateVelocity (l.foldl (synthesisStep tbl) none) = sumOver tbl l := by
  induction l using List.reverseRecOn with
  | nil => rfl
  | append_singleton l b ih =>
    have hprefix : l <+: order.order tbl.keys := (List.prefix_append l [b]).trans hl
    obtain ⟨w, hw⟩ := Finmap.mem_iff.1 (mem_of_part hl b (by simp))
    rw [List.foldl_append, List.foldl_cons, List.foldl_nil]
    by_cases hnil : l = []
    · subst hnil
      rw [List.foldl_nil, synthesisStep_none hw, sumOver_append hw]
      exact (zero_add _).symm
    · obtain ⟨v, -, -, hfold⟩ := foldl_synthesisStep hpos hnil (mem_of_part hprefix)
      obtain ⟨r, hr, hsum⟩ := halign (l ++ [b]) hl (by simp)
      have hprev := ih hprefix
      rw [hfold] at hprev ⊢
      rw [sumOver_append hw, ← hprev] at hsum
      rw [synthesisStep_between hw, sumOver_append hw, ← hprev]
      simp only [stateVelocity] at hsum ⊢
      rw [hsum, sqrt_of_sum hr hsum, carried_append hnil]

private theorem pointsAlong_state (hpos : NonNegative tbl) {l : List ℝ} (hl : l <+: order.order tbl.keys)
    (hnil : l ≠ []) (hsum : stateVelocity (l.foldl (synthesisStep tbl) none) = sumOver tbl l) :
    PointsAlong (sumOver tbl l) (carried l) := by
  obtain ⟨v, hv, -, hfold⟩ := foldl_synthesisStep hpos hnil (mem_of_part hl)
  rw [hfold] at hsum
  exact ⟨v, hv, hsum.symm⟩

private theorem addsUp_of_aligned (hpos : NonNegative tbl) (halign : Aligned order tbl) : AddsUp order tbl := by
  refine ⟨card_synthesis order tbl, ?_⟩
  rw [velocity_synthesis, stateVelocity_of_aligned hpos halign (List.prefix_refl _), sumOver_order]

private theorem aligned_of_addsUp (hpos : NonNegative tbl) (hcard : tbl.keys.card ≤ 2) (hadds : AddsUp order tbl) :
    Aligned order tbl := by
  intro l hl hnil
  have hsum := hadds.2
  rw [velocity_synthesis, ← sumOver_order order] at hsum
  have hlen : (order.order tbl.keys).length ≤ 2 := by
    rw [(order.order_perm default tbl.keys).length_eq]
    exact (Finset.length_toList _).trans_le hcard
  rcases prefix_of_length_le_two hlen hl hnil with rfl | ⟨a, rfl⟩
  · exact pointsAlong_state hpos hl hnil hsum
  · exact pointsAlong_singleton hpos a

/-- Two entries, in either order. -/
private theorem aligned_pair_iff (hpos : NonNegative tbl) {a b : ℝ} (hab : a ≠ b) (hkeys : tbl.keys = {a, b}) :
    Aligned order tbl ↔ PointsAlong (velocity tbl) (between a b) := by
  have hperm : (order.order tbl.keys).Perm [a, b] := by
    refine (List.perm_ext_iff_of_nodup (order.nodup _) (by simpa using hab)).2 fun k => ?_
    rw [order.mem_order, hkeys]
    simp
  have hcomm : between b a = between a b := by rw [between, abs_sub_comm, between]
  have hlist : carried (order.order tbl.keys) = between a b := by
    rcases List.perm_pair.1 hperm with h | h
    · rw [h]
      rfl
    · rw [h, ← hcomm]
      rfl
  rw [← hlist, ← sumOver_order order]
  constructor
  · intro halign
    refine halign _ (List.prefix_refl _) fun hnil => ?_
    rw [hnil] at hperm
    exact absurd hperm.length_eq (by simp)
  · intro hall l hl hnil
    rcases prefix_of_length_le_two hperm.length_eq.le hl hnil with rfl | ⟨a, rfl⟩
    · exact hall
    · exact pointsAlong_singleton hpos a

end

/-- Entry by entry the sums are right exactly as long as each of them points along the angle gone on with.  Then the
result is right; and where there are at most two entries, it is right only then. -/
theorem synthesis_adds_iff {tbl : Finmap fun _ : ℝ => ℝ} (hpos : NonNegative tbl) (order : Enumeration ℝ) :
    ((∀ l, l <+: order.order tbl.keys → stateVelocity (l.foldl (synthesisStep tbl) none) = sumOver tbl l) ↔
        Aligned order tbl) ∧
      (Aligned order tbl → AddsUp order tbl) ∧ (tbl.keys.card ≤ 2 → (AddsUp order tbl ↔ Aligned order tbl)) := by
  refine ⟨⟨?_, ?_⟩, addsUp_of_aligned hpos, fun hcard => ⟨aligned_of_addsUp hpos hcard, addsUp_of_aligned hpos⟩⟩
  · intro hsum l hl hnil
    exact pointsAlong_state hpos hl hnil (hsum l hl)
  · intro halign l hl
    exact stateVelocity_of_aligned hpos halign hl

/-! ### Two speeds -/

/-- The speed `v` under the angle 0 and `w` under another one. -/
noncomputable def twoSpeeds (v angle w : ℝ) : Finmap fun _ : ℝ => ℝ := (Finmap.singleton 0 v).insert angle w

section

variable {v angle w : ℝ}

private theorem twoSpeeds_keys : (twoSpeeds v angle w).keys = {0, angle} := by
  rw [twoSpeeds, Table.keys_insert, Finmap.keys_singleton, Finset.pair_comm]

private theorem twoSpeeds_nonNegative (hv : 0 ≤ v) (hw : 0 ≤ w) : NonNegative (twoSpeeds v angle w) := by
  intro a x hx
  have hmem := Finmap.mem_of_lookup_eq_some hx
  by_cases ha : a = angle
  · subst ha
    rw [twoSpeeds, Finmap.lookup_insert, Option.some.injEq] at hx
    exact hx ▸ hw
  · rw [twoSpeeds, Finmap.mem_insert, Finmap.mem_singleton] at hmem
    obtain rfl := hmem.resolve_left ha
    rw [twoSpeeds, Finmap.lookup_insert_of_ne _ ha, Finmap.lookup_singleton_eq, Option.some.injEq] at hx
    exact hx ▸ hv

private theorem twoSpeeds_velocity (hangle : angle ≠ 0) :
    velocity (twoSpeeds v angle w) = v • direction 0 + w • direction angle := by
  have hadd : twoSpeeds v angle w = addv (Finmap.singleton 0 v) angle w := by
    rw [addv, Finmap.lookup_eq_none.2 (by rwa [Finmap.mem_singleton]), Option.getD_none, zero_add, twoSpeeds]
  rw [hadd, velocity_addv, velocity, Tally.total_singleton]

end

/-- Against each other: the stronger one wins in its direction. -/
theorem synthesis_opposite : AddsUp default (twoSpeeds 1 Real.pi 2) := by
  have hpi := Real.pi_pos
  have hpos : NonNegative (twoSpeeds 1 Real.pi 2) := twoSpeeds_nonNegative (by norm_num) (by norm_num)
  refine (synthesis_adds_iff hpos default).2.1 ((aligned_pair_iff hpos hpi.ne twoSpeeds_keys).2 ⟨1, by norm_num, ?_⟩)
  have hbetween : between 0 Real.pi = Real.pi := by
    rw [between, zero_sub, abs_neg, abs_of_pos hpi, if_neg (lt_irrefl _)]
  rw [twoSpeeds_velocity hpi.ne', hbetween]
  ext <;> norm_num [direction]

/-- To the right and up: the result points up. -/
theorem synthesis_right_up : NonNegative (twoSpeeds 1 (Real.pi / 2) 1) ∧
    ∀ order, ¬ AddsUp order (twoSpeeds 1 (Real.pi / 2) 1) := by
  have hpi := Real.pi_pos
  have hhalf : (0 : ℝ) ≠ Real.pi / 2 := by positivity
  have hpos : NonNegative (twoSpeeds 1 (Real.pi / 2) 1) := twoSpeeds_nonNegative (by norm_num) (by norm_num)
  refine ⟨hpos, fun order hadds => ?_⟩
  have hcard : (twoSpeeds 1 (Real.pi / 2) 1).keys.card ≤ 2 := by
    rw [twoSpeeds_keys]
    exact Finset.card_le_two
  obtain ⟨r, -, hr⟩ := (aligned_pair_iff hpos hhalf twoSpeeds_keys).1 (aligned_of_addsUp hpos hcard hadds)
  have hbetween : between 0 (Real.pi / 2) = Real.pi / 2 := by
    rw [between, zero_sub, abs_neg, abs_of_pos (by positivity), if_neg (by linarith)]
  rw [twoSpeeds_velocity hhalf.symm, hbetween] at hr
  have hfst := congrArg Prod.fst hr
  norm_num [direction] at hfst

end LibeventServer.Lua

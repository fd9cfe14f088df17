import LibeventServer.Lua.Impulse

/-!
# The hit phase conserves momentum

The hit phase tests each unordered pair of clients once.  The two clients of a pair that overlaps get the same speed
in opposite directions, in every branch of the test (`push_opposite`); so the velocities of all clients add up to the
same before and after the phase, and their speeds to `2*HIT_A` more for each pair that overlaps (`hitAll_conserves`).
-/

namespace LibeventServer.Lua

open Pairs

/-- The ids in their order. -/
instance instLinearOrderUInt32 : LinearOrder UInt32 where
  le_refl := UInt32.le_refl
  le_trans _ _ _ := UInt32.le_trans
  lt_iff_le_not_ge _ _ := by
    rw [UInt32.not_le]
    exact ⟨fun h => ⟨UInt32.le_of_lt h, h⟩, fun h => h.2⟩
  le_antisymm _ _ := UInt32.le_antisymm
  le_total := UInt32.le_total
  toDecidableLE := inferInstance
  toDecidableEq := inferInstance

/-! ### The two clients of a pair -/

section

variable {c d : Client ℝ}

theorem push_eq_none (first : Bool) (h : ¬ Overlapping c d) : push first c d = none := by
  have hlen : ¬ len c d > 0 := fun hlen => h (len_pos_iff.1 hlen)
  have hlen' : ¬ len d c > 0 := fun hlen => h (overlapping_comm.1 (len_pos_iff.1 hlen))
  cases first <;> simp [push, hlen, hlen']

/-- The two get opposite angles. -/
theorem push_opposite (first : Bool) (h : Overlapping c d) :
    ∃ angle, push first c d = some angle ∧ push (!first) d c = some (angle + Real.pi) ∨
      push first c d = some (angle + Real.pi) ∧ push (!first) d c = some angle := by
  have hlen := len_pos_iff.2 h
  have hlen' := len_pos_iff.2 (overlapping_comm.1 h)
  cases first with
  | true =>
    refine ⟨hitAngle c d, ?_⟩
    by_cases hy : c.y > d.y
    · exact Or.inl ⟨by simp [push, hlen, hy], by simp [push, hlen, hy, PI, LuaMath.pi]⟩
    · exact Or.inr ⟨by simp [push, hlen, hy, PI, LuaMath.pi], by simp [push, hlen, hy]⟩
  | false =>
    refine ⟨hitAngle d c, ?_⟩
    by_cases hy : d.y > c.y
    · exact Or.inr ⟨by simp [push, hlen', hy, PI, LuaMath.pi], by simp [push, hlen', hy]⟩
    · exact Or.inl ⟨by simp [push, hlen', hy], by simp [push, hlen', hy, PI, LuaMath.pi]⟩

end

/-! ### Sums over all clients -/

section

variable {M : Type*} [AddCommGroup M] [Module ℝ M] (w : ℝ → M)

/-- The sum over all clients and all entries of their tables. -/
noncomputable def sumClients (t : Finmap fun _ : UInt32 => Client ℝ) : M :=
  ∑ u ∈ t.keys, ((t.lookup u).map fun c => Tally.total w c.vTbl).getD 0

/-- What the phase adds to the client of `u` for that of `v`. -/
noncomputable def gain (T : Traversals ℝ) (t : Finmap fun _ : UInt32 => Client ℝ) (u v : UInt32) : M :=
  (((t.lookup u).bind fun c =>
    (t.lookup v).bind (push (decide (Before (T.hit.order t.keys) u v)) c)).toList.map fun angle =>
      (HIT_A : ℝ) • w angle).sum

/-- What the phase adds, for each unordered pair. -/
private theorem sumClients_hitAll (T : Traversals ℝ) (t : Finmap fun _ : UInt32 => Client ℝ) :
    sumClients w (hitAll T t) =
      sumClients w t + ∑ p ∈ unordered t.keys, (gain w T t p.1 p.2 + gain w T t p.2 p.1) := by
  have hclient : ∀ u ∈ t.keys, (((hitAll T t).lookup u).map fun c => Tally.total w c.vTbl).getD 0 =
      ((t.lookup u).map fun c => Tally.total w c.vTbl).getD 0 + ∑ v ∈ t.keys.erase u, gain w T t u v := by
    intro u hu
    obtain ⟨c, hc⟩ := Finmap.mem_iff.1 (Finmap.mem_keys.1 hu)
    obtain ⟨c', hc', hsum⟩ := total_hitAll w T hc
    rw [hc', hc, Option.map_some, Option.getD_some, Option.map_some, Option.getD_some, hsum]
    simp only [gain, hc, Option.bind_some]
  have hkeys : (hitAll T t).keys = t.keys := keys_eq_of_proxies (hitAll_proxies T t)
  rw [sumClients, hkeys, Finset.sum_congr rfl hclient, Finset.sum_add_distrib, sum_erase]
  rfl

variable {w} {T : Traversals ℝ} {t : Finmap fun _ : UInt32 => Client ℝ} {u v : UInt32} {c d : Client ℝ}

private theorem gain_eq (hu : t.lookup u = some c) (hv : t.lookup v = some d) :
    gain w T t u v =
      ((push (decide (Before (T.hit.order t.keys) u v)) c d).toList.map fun angle => (HIT_A : ℝ) • w angle).sum := by
  rw [gain, hu, Option.bind_some, hv, Option.bind_some]

/-- What the two clients of a pair get together. -/
private theorem gain_add_gain (huv : u ≠ v) (hu : t.lookup u = some c) (hv : t.lookup v = some d) :
    Overlapping c d ∧ (∃ angle, gain w T t u v + gain w T t v u =
        (HIT_A : ℝ) • w angle + (HIT_A : ℝ) • w (angle + Real.pi)) ∨
      ¬ Overlapping c d ∧ gain w T t u v + gain w T t v u = 0 := by
  have hmem : u ∈ T.hit.order t.keys :=
    (T.hit.mem_order _ u).2 (Finmap.mem_keys.2 (Finmap.mem_of_lookup_eq_some hu))
  -- one of the two is visited first
  have hfirst : decide (Before (T.hit.order t.keys) v u) = !decide (Before (T.hit.order t.keys) u v) := by
    rcases before_or_before hmem huv with h | h
    · simp [h, not_before_of_before h]
    · simp [h, not_before_of_before h]
  rw [gain_eq hu hv, gain_eq hv hu, hfirst]
  by_cases hover : Overlapping c d
  · refine Or.inl ⟨hover, ?_⟩
    obtain ⟨angle, h | h⟩ := push_opposite (decide (Before (T.hit.order t.keys) u v)) hover
    · exact ⟨angle, by rw [h.1, h.2]; simp⟩
    · exact ⟨angle, by rw [h.1, h.2]; simp [add_comm]⟩
  · refine Or.inr ⟨hover, ?_⟩
    rw [push_eq_none _ hover, push_eq_none _ fun h => hover (overlapping_comm.1 h)]
    simp

end

/-! ### The conservation laws -/

/-- The sum of all velocities. -/
noncomputable def momentum (t : Finmap fun _ : UInt32 => Client ℝ) : ℝ × ℝ := sumClients direction t

/-- The sum of all stored speeds. -/
noncomputable def speeds (t : Finmap fun _ : UInt32 => Client ℝ) : ℝ := sumClients (fun _ => (1 : ℝ)) t

/-- The clients of the pair overlap. -/
def OverlapAt (t : Finmap fun _ : UInt32 => Client ℝ) (p : UInt32 × UInt32) : Prop :=
  ∃ c d, t.lookup p.1 = some c ∧ t.lookup p.2 = some d ∧ Overlapping c d

open Classical in
/-- The unordered pairs of clients that overlap. -/
noncomputable def overlaps (t : Finmap fun _ : UInt32 => Client ℝ) : Finset (UInt32 × UInt32) :=
  (unordered t.keys).filter (OverlapAt t)

section

variable {T : Traversals ℝ} {t : Finmap fun _ : UInt32 => Client ℝ}

private theorem lookup_of_mem_unordered {u v : UInt32} (h : (u, v) ∈ unordered t.keys) :
    u ≠ v ∧ ∃ c d, t.lookup u = some c ∧ t.lookup v = some d := by
  obtain ⟨hu, hv, hlt⟩ := mem_unordered.1 h
  obtain ⟨c, hc⟩ := Finmap.mem_iff.1 (Finmap.mem_keys.1 hu)
  obtain ⟨d, hd⟩ := Finmap.mem_iff.1 (Finmap.mem_keys.1 hv)
  exact ⟨hlt.ne, c, d, hc, hd⟩

private theorem momentum_hitAll (T : Traversals ℝ) (t : Finmap fun _ : UInt32 => Client ℝ) :
    momentum (hitAll T t) = momentum t := by
  have hpair : ∀ p ∈ unordered t.keys, gain direction T t p.1 p.2 + gain direction T t p.2 p.1 = 0 := by
    rintro ⟨u, v⟩ hp
    obtain ⟨hne, c, d, hc, hd⟩ := lookup_of_mem_unordered hp
    rcases gain_add_gain (w := direction) (T := T) hne hc hd with ⟨-, angle, hsum⟩ | ⟨-, hsum⟩
    · rw [hsum, direction_add_pi, smul_neg, add_neg_cancel]
    · exact hsum
  rw [momentum, sumClients_hitAll, Finset.sum_eq_zero hpair, add_zero]
  rfl

private theorem speeds_hitAll (T : Traversals ℝ) (t : Finmap fun _ : UInt32 => Client ℝ) :
    speeds (hitAll T t) = speeds t + 2 * HIT_A * (overlaps t).card := by
  classical
  have hpair : ∀ p ∈ unordered t.keys, gain (fun _ => (1 : ℝ)) T t p.1 p.2 + gain (fun _ => (1 : ℝ)) T t p.2 p.1 =
      if OverlapAt t p then 2 * HIT_A else 0 := by
    rintro ⟨u, v⟩ hp
    obtain ⟨hne, c, d, hc, hd⟩ := lookup_of_mem_unordered hp
    rcases gain_add_gain (w := fun _ => (1 : ℝ)) (T := T) hne hc hd with ⟨hover, angle, hsum⟩ | ⟨hover, hsum⟩
    · rw [hsum, if_pos ⟨c, d, hc, hd, hover⟩, smul_eq_mul, mul_one, two_mul]
    · rw [hsum, if_neg]
      rintro ⟨c', d', hc', hd', hover'⟩
      rw [hc, Option.some.injEq] at hc'
      rw [hd, Option.some.injEq] at hd'
      exact hover (hc' ▸ hd' ▸ hover')
  rw [speeds, sumClients_hitAll, Finset.sum_congr rfl hpair, ← Finset.sum_filter, Finset.sum_const, nsmul_eq_mul,
    mul_comm]
  congr 3

/-- Each unordered pair is tested from one side, and nothing else is tested. -/
private theorem tested_once (T : Traversals ℝ) (t : Finmap fun _ : UInt32 => Client ℝ) :
    (∀ p ∈ (hitAllTested T t).2, p ∈ unordered t.keys ∨ p.swap ∈ unordered t.keys) ∧
      ∀ p ∈ unordered t.keys, (hitAllTested T t).2.count p + (hitAllTested T t).2.count p.swap = 1 := by
  have hinner : ∀ u ∈ T.hit.order t.keys, ∀ v, v ∈ (T.hitInner u).order t.keys ↔ v ∈ T.hit.order t.keys :=
    fun u _ v => by rw [(T.hitInner u).mem_order, T.hit.mem_order]
  have hmem : ∀ u v, (u, v) ∈ hitOrder T t.keys ↔ u ∈ t.keys ∧ v ∈ t.keys ∧ Before (T.hit.order t.keys) u v := by
    intro u v
    rw [hitOrder, mem_visits (T.hit.nodup _) hinner, T.hit.mem_order, T.hit.mem_order]
  have hnodup : (hitOrder T t.keys).Nodup := nodup_visits (T.hit.nodup _) fun u _ => (T.hitInner u).nodup _
  rw [(hitAllTested_eq T t).2]
  constructor
  · rintro ⟨u, v⟩ hp
    obtain ⟨hu, hv, hbefore⟩ := (hmem u v).1 hp
    have hne : u ≠ v := by
      rintro rfl
      exact lt_irrefl _ hbefore
    rcases lt_or_gt_of_ne hne with hlt | hlt
    · exact Or.inl (mem_unordered.2 ⟨hu, hv, hlt⟩)
    · exact Or.inr (mem_unordered.2 ⟨hv, hu, hlt⟩)
  · rintro ⟨u, v⟩ hp
    obtain ⟨hu, hv, hlt⟩ := mem_unordered.1 hp
    rw [Prod.swap_prod_mk, hnodup.count, hnodup.count]
    rcases before_or_before ((T.hit.mem_order _ u).2 hu) hlt.ne with h | h
    · rw [if_pos ((hmem u v).2 ⟨hu, hv, h⟩), if_neg fun hin => not_before_of_before h ((hmem v u).1 hin).2.2]
    · rw [if_neg fun hin => not_before_of_before h ((hmem u v).1 hin).2.2, if_pos ((hmem v u).2 ⟨hv, hu, h⟩)]

end

/-- The phase, in any order, tests each unordered pair of clients once and nothing else; the velocities of all clients
add up to the same before and after it, and the speeds to `2*HIT_A` more for each unordered pair that overlaps. -/
theorem hitAll_conserves (T : Traversals ℝ) (t : Finmap fun _ : UInt32 => Client ℝ) :
    (hitAllTested T t).1.2 = hitAll T t ∧
      (∀ p ∈ (hitAllTested T t).2, p ∈ unordered t.keys ∨ p.swap ∈ unordered t.keys) ∧
      (∀ p ∈ unordered t.keys, (hitAllTested T t).2.count p + (hitAllTested T t).2.count p.swap = 1) ∧
      momentum (hitAll T t) = momentum t ∧ speeds (hitAll T t) = speeds t + 2 * HIT_A * (overlaps t).card :=
  ⟨hitAllTested_fst T t, (tested_once T t).1, (tested_once T t).2, momentum_hitAll T t, speeds_hitAll T t⟩

end LibeventServer.Lua

import LibeventServer.Lua.Calls
import LibeventServer.Lua.Hit

/-!
# Impulses

The entries of a client's `vTbl` stand for a velocity.  In the hit phase a client gains one impulse for each client it
overlaps with (`velocity_hitAll`).  It points away from the other client, except between two clients of the same
height: there the one visited first is pushed to the left and the other to the right, whichever side they are on
(`pushed_apart_iff`).
-/

namespace LibeventServer.Lua

open Pairs

def Client.centre (c : Client ℝ) : ℝ × ℝ := (c.x, c.y)

/-- The circles of the two clients overlap. -/
def Overlapping (c d : Client ℝ) : Prop := Real.sqrt ((c.x - d.x) ^ 2 + (c.y - d.y) ^ 2) < c.r + d.r

noncomputable def direction (angle : ℝ) : ℝ × ℝ := (Real.cos angle, Real.sin angle)

/-- The velocity a table of speeds stands for. -/
noncomputable def velocity (vTbl : Finmap fun _ : ℝ => ℝ) : ℝ × ℝ := Tally.total direction vTbl

theorem velocity_addv (vTbl : Finmap fun _ : ℝ => ℝ) (angle value : ℝ) :
    velocity (addv vTbl angle value) = velocity vTbl + value • direction angle :=
  Tally.total_add direction vTbl angle value

/-- What the angles stand for is added as often as they are struck. -/
private theorem total_struck {M : Type*} [AddCommGroup M] [Module ℝ M] (w : ℝ → M) (c : Client ℝ) (l : List ℝ) :
    Tally.total w (c.struck l).vTbl = Tally.total w c.vTbl + (l.map fun angle => (HIT_A : ℝ) • w angle).sum := by
  induction l generalizing c with
  | nil => simp
  | cons angle l ih =>
    have hcons : c.struck (angle :: l) = (c.struck [angle]).struck l := by rw [Client.struck_struck]; rfl
    rw [hcons, ih, List.map_cons, List.sum_cons, ← add_assoc]
    congr 1
    exact Tally.total_add w c.vTbl angle HIT_A

private theorem velocity_struck (c : Client ℝ) (l : List ℝ) :
    velocity (c.struck l).vTbl = velocity c.vTbl + (l.map fun angle => (HIT_A : ℝ) • direction angle).sum :=
  total_struck direction c l

/-! ### The angle of a hit -/

section

variable {c d : Client ℝ}

theorem overlapping_comm : Overlapping c d ↔ Overlapping d c := by
  unfold Overlapping
  rw [add_comm c.r, ← neg_sub d.x, ← neg_sub d.y, neg_sq, neg_sq]

theorem len_pos_iff : len c d > 0 ↔ Overlapping c d := by
  unfold len Overlapping
  exact sub_pos

theorem direction_add_pi (angle : ℝ) : direction (angle + Real.pi) = -direction angle := by
  simp [direction, Real.cos_add_pi, Real.sin_add_pi]

private theorem sqrt_one_add_div_sq {a b : ℝ} (hb : 0 < b) :
    Real.sqrt (1 + (a / b) ^ 2) = Real.sqrt (b ^ 2 + a ^ 2) / b := by
  have hsq : 1 + (a / b) ^ 2 = (b ^ 2 + a ^ 2) / b ^ 2 := by
    field_simp
  rw [hsq, Real.sqrt_div (by positivity), Real.sqrt_sq hb.le]

/-- `math.atan(a/b)`, or `PI/2` where `b` is 0, is the angle of the vector with the sides `b` and `a`. -/
private theorem direction_atan {a b : ℝ} (ha : 0 ≤ a) (hb : 0 ≤ b) (hab : a ≠ 0 ∨ b ≠ 0) :
    Real.sqrt (b ^ 2 + a ^ 2) • direction (if b = 0 then Real.pi / 2 else Real.arctan (a / b)) = (b, a) := by
  by_cases hb0 : b = 0
  · subst hb0
    simp [direction, Real.sqrt_sq ha]
  · have hbpos : 0 < b := lt_of_le_of_ne hb (Ne.symm hb0)
    have hdist : Real.sqrt (b ^ 2 + a ^ 2) ≠ 0 := by positivity
    rw [if_neg hb0, direction, Real.cos_arctan, Real.sin_arctan, sqrt_one_add_div_sq hbpos]
    ext
    · simp only [Prod.smul_fst, smul_eq_mul]
      field_simp
    · simp only [Prod.smul_snd, smul_eq_mul]
      field_simp

private theorem hitAngle_comm (c d : Client ℝ) : hitAngle c d = hitAngle d c := by
  have hprod : (c.y - d.y) * (c.x - d.x) = (d.y - c.y) * (d.x - c.x) := by ring
  unfold hitAngle
  rw [abs_sub_comm c.y, abs_sub_comm c.x, hprod]

/-- The angle of a hit is that from the lower client to the upper one. -/
private theorem direction_hitAngle (hy : d.y < c.y) :
    Real.sqrt ((c.x - d.x) ^ 2 + (c.y - d.y) ^ 2) • direction (hitAngle c d) = c.centre - d.centre := by
  have hpos : 0 < c.y - d.y := sub_pos.2 hy
  have hatan := direction_atan (abs_nonneg (c.y - d.y)) (abs_nonneg (c.x - d.x)) (Or.inl (abs_ne_zero.2 hpos.ne'))
  rw [sq_abs, sq_abs, abs_of_pos hpos] at hatan
  have hcentre : c.centre - d.centre = (c.x - d.x, c.y - d.y) := rfl
  rw [hcentre]
  by_cases hx : c.x - d.x < 0
  · -- to the left: the angle is mirrored
    have hangle : hitAngle c d =
        Real.pi - if |c.x - d.x| = 0 then Real.pi / 2 else Real.arctan ((c.y - d.y) / |c.x - d.x|) := by
      unfold hitAngle
      rw [if_pos (mul_neg_of_pos_of_neg hpos hx), abs_of_pos hpos]
      rfl
    have hmirror : ∀ angle, direction (Real.pi - angle) = (-(direction angle).1, (direction angle).2) := by
      intro angle
      rw [direction, Real.cos_pi_sub, Real.sin_pi_sub]
      rfl
    have hfst := congrArg Prod.fst hatan
    have hsnd := congrArg Prod.snd hatan
    rw [hangle, hmirror]
    rw [abs_of_neg hx] at hfst hsnd ⊢
    simp only [Prod.smul_fst, Prod.smul_snd, smul_eq_mul] at hfst hsnd
    rw [Prod.smul_mk, smul_eq_mul, smul_eq_mul, mul_neg, hfst, hsnd, neg_neg]
  · have hangle : hitAngle c d =
        if |c.x - d.x| = 0 then Real.pi / 2 else Real.arctan ((c.y - d.y) / |c.x - d.x|) := by
      unfold hitAngle
      rw [if_neg (not_lt.2 (mul_nonneg hpos.le (not_lt.1 hx))), abs_of_pos hpos]
      rfl
    rw [hangle, hatan, abs_of_nonneg (not_lt.1 hx)]

/-- Between clients of one height the angle is 0, or `PI/2` where they are at one place. -/
private theorem hitAngle_level (hy : c.y = d.y) : hitAngle c d = if c.x = d.x then Real.pi / 2 else 0 := by
  unfold hitAngle
  simp only [hy, sub_self, abs_zero, zero_mul, lt_irrefl, if_false, zero_div, abs_eq_zero, sub_eq_zero]
  show (if c.x = d.x then Real.pi / 2 else Real.arctan 0) = _
  rw [Real.arctan_zero]

/-- Between clients of different heights it does not matter which is visited first. -/
theorem push_of_ne (first : Bool) (hy : c.y ≠ d.y) :
    push first c d = if len c d > 0 then some (if d.y < c.y then hitAngle c d else hitAngle c d + PI) else none := by
  cases first with
  | true => rw [push, if_pos rfl]
  | false =>
    have hlen : len d c > 0 ↔ len c d > 0 := by rw [len_pos_iff, len_pos_iff, overlapping_comm]
    rw [push, if_neg Bool.false_ne_true, hitAngle_comm d c]
    simp only [hlen]
    rcases lt_or_gt_of_ne hy with hlt | hlt
    · rw [if_pos hlt, if_neg hlt.not_gt]
    · rw [if_neg hlt.not_gt, if_pos hlt]

/-- They push each other straight apart. -/
private theorem direction_push {first : Bool} {angle : ℝ} (hy : c.y ≠ d.y) (h : push first c d = some angle) :
    Real.sqrt ((c.x - d.x) ^ 2 + (c.y - d.y) ^ 2) • direction angle = c.centre - d.centre := by
  rw [push_of_ne first hy] at h
  split at h
  · rcases lt_or_gt_of_ne hy with hlt | hlt
    · rw [if_neg hlt.not_gt, Option.some.injEq] at h
      have hback := direction_hitAngle hlt
      rw [← h, show (PI : ℝ) = Real.pi from rfl, direction_add_pi, smul_neg, hitAngle_comm, ← neg_sub d.x,
        ← neg_sub d.y, neg_sq, neg_sq, hback, neg_sub]
    · rw [if_pos hlt, Option.some.injEq] at h
      rw [← h, direction_hitAngle hlt]
  · cases h

theorem push_level (first : Bool) (hover : Overlapping c d) (hy : c.y = d.y) :
    push first c d = some ((if c.x = d.x then Real.pi / 2 else 0) + if first then Real.pi else 0) := by
  cases first with
  | true =>
    rw [push, if_pos rfl, if_pos (len_pos_iff.2 hover), if_neg hy.not_gt, hitAngle_level hy, if_pos rfl]
    rfl
  | false =>
    have hover' := overlapping_comm.1 hover
    rw [push, if_neg Bool.false_ne_true, if_pos (len_pos_iff.2 hover'), if_neg hy.not_lt, hitAngle_level hy.symm,
      if_neg Bool.false_ne_true, add_zero]
    simp only [eq_comm]

private theorem push_isSome (first : Bool) (hover : Overlapping c d) : ∃ angle, push first c d = some angle := by
  cases first with
  | true => exact ⟨_, by rw [push, if_pos rfl, if_pos (len_pos_iff.2 hover)]⟩
  | false =>
    exact ⟨_, by rw [push, if_neg Bool.false_ne_true, if_pos (len_pos_iff.2 (overlapping_comm.1 hover))]⟩

end

/-! ### Impulses -/

/-- The velocity a visit adds to one of its two clients, the `first` one or the other. -/
noncomputable def visitImpulse (first : Bool) (own other : Client ℝ) : ℝ × ℝ :=
  if first then velocity (hitPair own other).1.vTbl - velocity own.vTbl
  else velocity (hitPair other own).2.vTbl - velocity own.vTbl

private theorem visitImpulse_eq (first : Bool) (c d : Client ℝ) :
    visitImpulse first c d = ((push first c d).toList.map fun angle => (HIT_A : ℝ) • direction angle).sum := by
  cases first with
  | true => rw [visitImpulse, if_pos rfl, hitPair_eq, velocity_struck, add_sub_cancel_left]
  | false => rw [visitImpulse, if_neg Bool.false_ne_true, hitPair_eq, velocity_struck, add_sub_cancel_left]

/-- The velocity the hit phase adds to the client `u` for its collision with `v`. -/
noncomputable def impulse (T : Traversals ℝ) (t : Finmap fun _ : UInt32 => Client ℝ) (u v : UInt32) : ℝ × ℝ :=
  match t.lookup u, t.lookup v with
  | some c, some d => visitImpulse (decide (Before (T.hit.order t.keys) u v)) c d
  | _, _ => 0

private theorem impulse_eq {T : Traversals ℝ} {t : Finmap fun _ : UInt32 => Client ℝ} {u v : UInt32} {c d : Client ℝ}
    (hu : t.lookup u = some c) (hv : t.lookup v = some d) :
    impulse T t u v = visitImpulse (decide (Before (T.hit.order t.keys) u v)) c d := by
  rw [impulse, hu, hv]

/-- What a client gains in the hit phase, for each of the others. -/
theorem total_hitAll {M : Type*} [AddCommGroup M] [Module ℝ M] (w : ℝ → M) (T : Traversals ℝ)
    {t : Finmap fun _ : UInt32 => Client ℝ} {u : UInt32} {c : Client ℝ} (hu : t.lookup u = some c) :
    ∃ c', (hitAll T t).lookup u = some c' ∧
      Tally.total w c'.vTbl = Tally.total w c.vTbl + ∑ v ∈ t.keys.erase u,
        (((t.lookup v).bind (push (decide (Before (T.hit.order t.keys) u v)) c)).toList.map fun angle =>
          (HIT_A : ℝ) • w angle).sum := by
  refine ⟨c.struck (pushes T t u c), by rw [lookup_hitAll, hu]; rfl, ?_⟩
  have hsum : ∀ (f : UInt32 → Option ℝ) (l : List UInt32),
      ((l.filterMap f).map fun angle => (HIT_A : ℝ) • w angle).sum =
        (l.map fun v => ((f v).toList.map fun angle => (HIT_A : ℝ) • w angle).sum).sum := by
    intro f l
    induction l with
    | nil => rfl
    | cons v l ih =>
      rw [List.map_cons, List.sum_cons, ← ih]
      cases hv : f v <;> simp [hv]
  have hmem : u ∈ t := Finmap.mem_of_lookup_eq_some hu
  rw [total_struck, pushes, hsum, ((partners_hitOrder T hmem).map _).sum_eq, Finset.sum_map_toList]

/-- What a client gains in the hit phase is the sum of its impulses. -/
theorem velocity_hitAll (T : Traversals ℝ) {t : Finmap fun _ : UInt32 => Client ℝ} {u : UInt32} {c : Client ℝ}
    (hu : t.lookup u = some c) :
    ∃ c', (hitAll T t).lookup u = some c' ∧
      velocity c'.vTbl = velocity c.vTbl + ∑ v ∈ t.keys.erase u, impulse T t u v := by
  obtain ⟨c', hc', hsum⟩ := total_hitAll direction T hu
  refine ⟨c', hc', hsum.trans ?_⟩
  rw [velocity]
  congr 1
  refine Finset.sum_congr rfl fun v _ => ?_
  cases hv : t.lookup v with
  | none => simp [impulse, hv]
  | some d => rw [impulse_eq hu hv, visitImpulse_eq, Option.bind_some]

/-- The vector points from the centre of `d` towards that of `c`. -/
def PointsAway (c d : Client ℝ) (i : ℝ × ℝ) : Prop := ∃ k : ℝ, 0 < k ∧ i = k • (c.centre - d.centre)

/-- Of two clients at one height, the one visited first is pushed to the left, that is towards the other if it is on
the right. -/
private theorem not_pointsAway_level {c d : Client ℝ} (hover : Overlapping c d) (hy : c.y = d.y) (hx : d.x < c.x) :
    ¬ PointsAway c d (visitImpulse true c d) := by
  rintro ⟨k, hk, hi⟩
  rw [visitImpulse_eq, push_level true hover hy, if_neg hx.ne', if_pos rfl, zero_add] at hi
  have hfst := congrArg Prod.fst hi
  simp only [Option.toList_some, List.map_cons, List.map_nil, List.sum_cons, List.sum_nil, add_zero, direction,
    Real.cos_pi, Client.centre, Prod.smul_fst, Prod.fst_sub, smul_eq_mul, HIT_A] at hfst
  have hright := mul_pos hk (sub_pos.2 hx)
  linarith

/-- The traversals in which `u` is the first of the clients `keys` in the hit phase. -/
noncomputable def hitFirst (u : UInt32) (keys : Finset UInt32) : Traversals ℝ :=
  { (default : Traversals ℝ) with hit := Enumeration.listed (u :: (keys.erase u).toList) }

theorem before_hitFirst {keys : Finset UInt32} {u v : UInt32} (hu : u ∈ keys) (huv : u ≠ v) :
    Before ((hitFirst u keys).hit.order keys) u v := by
  have hnodup : (u :: (keys.erase u).toList).Nodup := List.nodup_cons.2 ⟨by simp, Finset.nodup_toList _⟩
  have hmem : ∀ w, w ∈ u :: (keys.erase u).toList ↔ w ∈ keys := by
    intro w
    by_cases hw : w = u <;> simp [hw, hu]
  rw [hitFirst, Enumeration.order_listed hnodup hmem]
  exact before_cons (Ne.symm huv)

/-- Two clients that overlap are pushed apart in every order of visit exactly when they are not at the same height. -/
theorem pushed_apart_iff {t : Finmap fun _ : UInt32 => Client ℝ} {u v : UInt32} {c d : Client ℝ} (huv : u ≠ v)
    (hu : t.lookup u = some c) (hv : t.lookup v = some d) (hcentre : c.centre ≠ d.centre) (hover : Overlapping c d) :
    (∀ T : Traversals ℝ, PointsAway c d (impulse T t u v) ∧ PointsAway d c (impulse T t v u)) ↔ c.y ≠ d.y := by
  constructor
  · intro h hy
    have hx : c.x ≠ d.x := fun hx => hcentre (Prod.ext hx hy)
    have hmem : ∀ {w e}, t.lookup w = some e → w ∈ t.keys :=
      fun h => Finmap.mem_keys.2 (Finmap.mem_of_lookup_eq_some h)
    -- visit first the one on the right
    rcases lt_or_gt_of_ne hx with hlt | hlt
    · have hfirst := (h (hitFirst v t.keys)).2
      rw [impulse_eq hv hu, decide_eq_true (before_hitFirst (hmem hv) (Ne.symm huv))] at hfirst
      exact not_pointsAway_level (overlapping_comm.1 hover) hy.symm hlt hfirst
    · have hfirst := (h (hitFirst u t.keys)).1
      rw [impulse_eq hu hv, decide_eq_true (before_hitFirst (hmem hu) huv)] at hfirst
      exact not_pointsAway_level hover hy hlt hfirst
  · intro hy T
    have haway : ∀ {c d : Client ℝ}, Overlapping c d → c.y ≠ d.y →
      ∀ first, PointsAway c d (visitImpulse first c d) := by
      intro c d hover hy first
      obtain ⟨angle, hangle⟩ := push_isSome first hover
      have hdist : 0 < Real.sqrt ((c.x - d.x) ^ 2 + (c.y - d.y) ^ 2) := by
        have := sq_pos_of_ne_zero (sub_ne_zero.2 hy)
        positivity
      refine ⟨HIT_A / Real.sqrt ((c.x - d.x) ^ 2 + (c.y - d.y) ^ 2), div_pos (by norm_num [HIT_A]) hdist, ?_⟩
      rw [visitImpulse_eq, hangle, ← direction_push hy hangle, smul_smul, div_mul_cancel₀ _ hdist.ne']
      simp
    rw [impulse_eq hu hv, impulse_eq hv hu]
    exact ⟨haway hover hy _, haway (overlapping_comm.1 hover) (Ne.symm hy) _⟩

/-- A new client that has moved to `(x, y)`. -/
noncomputable def Client.at (vfd : UInt32) (x y : ℝ) : Client ℝ :=
  { Client._init (.num (number vfd)) with x := x, y := y }

/-- Client 1 at `(x, y)`, and client 2 where it was created. -/
noncomputable def pairAt (x y : ℝ) : Finmap fun _ : UInt32 => Client ℝ :=
  (Finmap.singleton 1 (Client.at 1 x y)).insert 2 (Client.at 2 0 0)

theorem lookup_pairAt_one (x y : ℝ) : (pairAt x y).lookup 1 = some (Client.at 1 x y) := by
  rw [pairAt, Finmap.lookup_insert_of_ne _ (by decide), Finmap.lookup_singleton_eq]

theorem lookup_pairAt_two (x y : ℝ) : (pairAt x y).lookup 2 = some (Client.at 2 0 0) := by
  rw [pairAt, Finmap.lookup_insert]

private theorem overlapping_pairAt {x y : ℝ} (h : x ^ 2 + y ^ 2 < 100 ^ 2) :
    Overlapping (Client.at 1 x y) (Client.at 2 0 0) := by
  have hsqrt : Real.sqrt (x ^ 2 + y ^ 2) < 100 := (Real.sqrt_lt' (by norm_num)).2 h
  simp only [Overlapping, Client.at, Client._init, sub_zero]
  linarith

/-- One client above the other: they are pushed apart. -/
theorem pushed_apart_above :
    PointsAway (Client.at 1 0 30) (Client.at 2 0 0) (impulse default (pairAt 0 30) 1 2) ∧
      PointsAway (Client.at 2 0 0) (Client.at 1 0 30) (impulse default (pairAt 0 30) 2 1) := by
  have hcentre : (Client.at 1 0 30).centre ≠ (Client.at 2 0 0).centre := by
    intro h
    have hy := congrArg Prod.snd h
    norm_num [Client.centre, Client.at] at hy
  have hiff := pushed_apart_iff (by decide) (lookup_pairAt_one 0 30) (lookup_pairAt_two 0 30) hcentre
    (overlapping_pairAt (by norm_num))
  exact hiff.2 (by norm_num [Client.at]) default

/-- One client to the right of the other, and visited first: it is pushed towards the other. -/
theorem beside_not_apart :
    ¬ ∀ T : Traversals ℝ, PointsAway (Client.at 1 30 0) (Client.at 2 0 0) (impulse T (pairAt 30 0) 1 2) ∧
      PointsAway (Client.at 2 0 0) (Client.at 1 30 0) (impulse T (pairAt 30 0) 2 1) := by
  intro h
  have hmem : (1 : UInt32) ∈ (pairAt 30 0).keys :=
    Finmap.mem_keys.2 (Finmap.mem_of_lookup_eq_some (lookup_pairAt_one 30 0))
  have hfirst := (h (hitFirst 1 (pairAt 30 0).keys)).1
  rw [impulse_eq (lookup_pairAt_one 30 0) (lookup_pairAt_two 30 0),
    decide_eq_true (before_hitFirst hmem (by decide))] at hfirst
  exact not_pointsAway_level (overlapping_pairAt (by norm_num)) rfl (by norm_num [Client.at]) hfirst

end LibeventServer.Lua

import Mathlib.Algebra.BigOperators.Group.Finset.Sigma
import Mathlib.Data.Finset.Prod
import Mathlib.Data.List.Nodup

/-!
# Every unordered pair once

Two nested loops over the same members, of which the inner one skips what the outer one is done with, visit each
unordered pair of different members once: from the one the outer loop comes to first (`mem_visits`), and so every
member meets every other member once (`partners_perm`).

A sum over all members and their others is a sum over the unordered pairs, of what the two get (`sum_erase`).
-/

namespace Pairs

variable {κ : Type*} [DecidableEq κ]

/-- The visits of the loops, the outer one over a list, the inner one over `inner u`; `done` is what the outer loop
has gone over before. -/
def visits (inner : κ → List κ) : List κ → List κ → List (κ × κ)
  | _, [] => []
  | done, u :: outer =>
    ((inner u).filter fun v => v ≠ u ∧ v ∉ done).map (fun v => (u, v)) ++ visits inner (u :: done) outer

/-- `u` comes before `v` in `l`. -/
def Before (l : List κ) (u v : κ) : Prop := l.idxOf u < l.idxOf v

instance (l : List κ) (u v : κ) : Decidable (Before l u v) := inferInstanceAs (Decidable (_ < _))

theorem before_or_before {l : List κ} {u v : κ} (hu : u ∈ l) (h : u ≠ v) : Before l u v ∨ Before l v u :=
  lt_or_gt_of_ne fun hidx => h ((List.idxOf_inj hu).1 hidx)

theorem not_before_of_before {l : List κ} {u v : κ} (h : Before l u v) : ¬ Before l v u := lt_asymm h

/-- The first of a list comes before all others. -/
theorem before_cons {l : List κ} {u v : κ} (h : v ≠ u) : Before (u :: l) u v := by
  unfold Before
  rw [List.idxOf_cons_self, List.idxOf_cons_ne _ (Ne.symm h)]
  exact Nat.succ_pos _

theorem before_cons_iff {l : List κ} {w u v : κ} (hu : u ≠ w) (hv : v ≠ w) : Before (w :: l) u v ↔ Before l u v := by
  unfold Before
  rw [List.idxOf_cons_ne _ (Ne.symm hu), List.idxOf_cons_ne _ (Ne.symm hv), Nat.succ_lt_succ_iff]

theorem not_before_cons {l : List κ} {u v : κ} : ¬ Before (u :: l) v u := by
  unfold Before
  rw [List.idxOf_cons_self]
  exact Nat.not_lt_zero _

variable {inner : κ → List κ} {done outer : List κ}

/-- The visits from `w`. -/
private theorem mem_row {l : List κ} {w u v : κ} :
    (u, v) ∈ (l.filter fun v => v ≠ w ∧ v ∉ done).map (fun v => (w, v)) ↔ u = w ∧ v ∈ l ∧ v ≠ w ∧ v ∉ done := by
  simp only [List.mem_map, List.mem_filter, decide_eq_true_eq, Prod.mk.injEq]
  constructor
  · rintro ⟨v', hv, rfl, rfl⟩
    exact ⟨rfl, hv⟩
  · rintro ⟨rfl, hv⟩
    exact ⟨v, hv, rfl, rfl⟩

theorem mem_visits_from (hnodup : outer.Nodup) (hdone : ∀ u ∈ outer, u ∉ done)
    (hinner : ∀ u ∈ outer, ∀ v, v ∈ inner u ↔ v ∈ done ∨ v ∈ outer) (u v : κ) :
    (u, v) ∈ visits inner done outer ↔ u ∈ outer ∧ v ∈ outer ∧ Before outer u v := by
  induction outer generalizing done with
  | nil => simp [visits]
  | cons w outer ih =>
    obtain ⟨hw, hnodup⟩ := List.nodup_cons.1 hnodup
    have hrest : (u, v) ∈ visits inner (w :: done) outer ↔ u ∈ outer ∧ v ∈ outer ∧ Before outer u v := by
      refine ih hnodup (fun u hu => ?_) fun u hu v => ?_
      · rw [List.mem_cons, not_or]
        exact ⟨fun h => hw (h ▸ hu), hdone u (by simp [hu])⟩
      · rw [hinner u (by simp [hu]), List.mem_cons, List.mem_cons]
        tauto
    rw [visits, List.mem_append, mem_row, hrest, hinner w (by simp), List.mem_cons]
    constructor
    · rintro (⟨rfl, hv | hv | hv, hne, hnot⟩ | ⟨hu, hv, hbefore⟩)
      · exact absurd hv hnot
      · exact absurd hv hne
      · exact ⟨by simp, by simp [hv], before_cons hne⟩
      · have hne : u ≠ w := fun h => hw (h ▸ hu)
        have hne' : v ≠ w := fun h => hw (h ▸ hv)
        exact ⟨by simp [hu], by simp [hv], (before_cons_iff hne hne').2 hbefore⟩
    · rintro ⟨hu, hv, hbefore⟩
      have hne : v ≠ w := by
        rintro rfl
        exact not_before_cons hbefore
      have hv' : v ∈ outer := hv.resolve_left hne
      rcases List.mem_cons.1 hu with rfl | hu
      · -- what is not done is still to come
        exact Or.inl ⟨rfl, Or.inr (Or.inr hv'), hne, hdone v (by simp [hv'])⟩
      · have hne' : u ≠ w := fun h => hw (h ▸ hu)
        exact Or.inr ⟨hu, hv', (before_cons_iff hne' hne).1 hbefore⟩

theorem fst_mem_of_mem_visits {p : κ × κ} (h : p ∈ visits inner done outer) : p.1 ∈ outer := by
  induction outer generalizing done with
  | nil => simp [visits] at h
  | cons u outer ih =>
    rcases List.mem_append.1 h with h | h
    · obtain ⟨v, -, rfl⟩ := List.mem_map.1 h
      simp
    · simp [ih h]

theorem nodup_visits (hnodup : outer.Nodup) (hinner : ∀ u ∈ outer, (inner u).Nodup) :
    (visits inner done outer).Nodup := by
  induction outer generalizing done with
  | nil => exact List.nodup_nil
  | cons w outer ih =>
    obtain ⟨hw, hnodup⟩ := List.nodup_cons.1 hnodup
    refine List.nodup_append.2 ⟨?_, ih hnodup fun u hu => hinner u (by simp [hu]), ?_⟩
    · exact List.Nodup.map (fun a b h => (Prod.mk.inj h).2) ((hinner w (by simp)).filter _)
    · rintro p hp _ hq rfl
      obtain ⟨v, -, rfl⟩ := List.mem_map.1 hp
      exact hw (fst_mem_of_mem_visits hq)

/-! ### Whom a member meets -/

/-- The other member of a pair that has `u`. -/
def partner (u : κ) (p : κ × κ) : Option κ := if p.1 = u then some p.2 else if p.2 = u then some p.1 else none

theorem partner_eq_some {u v : κ} {p : κ × κ} (h : partner u p = some v) : p = (u, v) ∨ p = (v, u) := by
  obtain ⟨a, b⟩ := p
  unfold partner at h
  split at h
  · rename_i ha
    cases ha
    cases h
    exact Or.inl rfl
  · split at h
    · rename_i hb
      cases hb
      cases h
      exact Or.inr rfl
    · cases h

/-- The members that `u` is visited with. -/
def partners (u : κ) (l : List (κ × κ)) : List κ := l.filterMap (partner u)

theorem mem_partners {u v : κ} {l : List (κ × κ)} : v ∈ partners u l ↔ (u, v) ∈ l ∨ (v, u) ∈ l := by
  simp only [partners, List.mem_filterMap]
  constructor
  · rintro ⟨p, hp, hv⟩
    rcases partner_eq_some hv with rfl | rfl
    · exact Or.inl hp
    · exact Or.inr hp
  · rintro (hp | hp)
    · exact ⟨(u, v), hp, by simp [partner]⟩
    · refine ⟨(v, u), hp, ?_⟩
      by_cases hv : v = u <;> simp [partner, hv]

section

variable (hnodup : outer.Nodup) (hinner : ∀ u ∈ outer, (inner u).Nodup)
  (hmem : ∀ u ∈ outer, ∀ v, v ∈ inner u ↔ v ∈ outer)
include hnodup hmem

theorem mem_visits (u v : κ) : (u, v) ∈ visits inner [] outer ↔ u ∈ outer ∧ v ∈ outer ∧ Before outer u v :=
  mem_visits_from hnodup (by simp) (by simpa using hmem) u v

/-- What comes of the visits of `u`, in terms of its partners and of which of the two comes first. -/
theorem filterMap_visits {β : Type*} (f : Bool → κ → Option β) (u : κ) :
    ((visits inner [] outer).filterMap fun p =>
        if p.1 = u then f true p.2 else if p.2 = u then f false p.1 else none) =
      (partners u (visits inner [] outer)).filterMap fun v => f (decide (Before outer u v)) v := by
  rw [partners, List.filterMap_filterMap]
  refine List.filterMap_congr ?_
  rintro ⟨a, b⟩ hp
  obtain ⟨-, -, hbefore⟩ := (mem_visits hnodup hmem a b).1 hp
  by_cases ha : a = u
  · subst ha
    simp [partner, hbefore]
  · by_cases hb : b = u
    · subst hb
      simp [partner, ha, not_before_of_before hbefore]
    · simp [partner, ha, hb]

include hinner

/-- Every member meets every other member once. -/
theorem partners_perm {u : κ} (hu : u ∈ outer) : (partners u (visits inner [] outer)).Perm (outer.erase u) := by
  refine (List.perm_ext_iff_of_nodup ?_ (hnodup.erase u)).2 fun v => ?_
  · rw [partners, List.Nodup, List.pairwise_filterMap]
    refine (nodup_visits hnodup hinner).imp_of_mem ?_
    rintro p q hp hq hne v hv _ hv' rfl
    -- the same partner twice: the same pair, or the pair in both orders
    rcases partner_eq_some hv with rfl | rfl <;> rcases partner_eq_some hv' with rfl | rfl
    · exact hne rfl
    · exact not_before_of_before ((mem_visits hnodup hmem _ _).1 hp).2.2 ((mem_visits hnodup hmem _ _).1 hq).2.2
    · exact not_before_of_before ((mem_visits hnodup hmem _ _).1 hp).2.2 ((mem_visits hnodup hmem _ _).1 hq).2.2
    · exact hne rfl
  · rw [mem_partners, mem_visits hnodup hmem, mem_visits hnodup hmem, hnodup.mem_erase_iff]
    constructor
    · rintro (⟨-, hv, hbefore⟩ | ⟨hv, -, hbefore⟩)
      · exact ⟨fun h => by subst h; exact lt_irrefl _ hbefore, hv⟩
      · exact ⟨fun h => by subst h; exact lt_irrefl _ hbefore, hv⟩
    · rintro ⟨hne, hv⟩
      rcases before_or_before hu (Ne.symm hne) with hbefore | hbefore
      · exact Or.inl ⟨hu, hv, hbefore⟩
      · exact Or.inr ⟨hv, hu, hbefore⟩

end

/-! ### Sums over pairs -/

section

variable {κ : Type*} [LinearOrder κ] {M : Type*} [AddCommMonoid M]

/-- The unordered pairs of different members, the smaller one first. -/
def unordered (s : Finset κ) : Finset (κ × κ) := s.offDiag.filter fun p => p.1 < p.2

theorem mem_unordered {s : Finset κ} {u v : κ} : (u, v) ∈ unordered s ↔ u ∈ s ∧ v ∈ s ∧ u < v := by
  rw [unordered, Finset.mem_filter, Finset.mem_offDiag]
  constructor
  · rintro ⟨⟨hu, hv, -⟩, hlt⟩
    exact ⟨hu, hv, hlt⟩
  · rintro ⟨hu, hv, hlt⟩
    exact ⟨⟨hu, hv, hlt.ne⟩, hlt⟩

theorem sum_erase (s : Finset κ) (f : κ → κ → M) :
    ∑ u ∈ s, ∑ v ∈ s.erase u, f u v = ∑ p ∈ unordered s, (f p.1 p.2 + f p.2 p.1) := by
  have hdiag : ∑ u ∈ s, ∑ v ∈ s.erase u, f u v = ∑ p ∈ s.offDiag, f p.1 p.2 := by
    rw [Finset.sum_sigma']
    refine Finset.sum_bij' (fun x _ => (x.1, x.2)) (fun p _ => ⟨p.1, p.2⟩) ?_ ?_ ?_ ?_ ?_
    · rintro ⟨u, v⟩ h
      simp only [Finset.mem_sigma, Finset.mem_erase] at h
      exact Finset.mem_offDiag.2 ⟨h.1, h.2.2, Ne.symm h.2.1⟩
    · rintro ⟨u, v⟩ h
      obtain ⟨hu, hv, hne⟩ := Finset.mem_offDiag.1 h
      exact Finset.mem_sigma.2 ⟨hu, Finset.mem_erase.2 ⟨Ne.symm hne, hv⟩⟩
    · exact fun _ _ => rfl
    · exact fun _ _ => rfl
    · exact fun _ _ => rfl
  -- the pairs with the larger one first, the other way round
  have hswap : ∑ p ∈ s.offDiag.filter (fun p => ¬ p.1 < p.2), f p.1 p.2 = ∑ p ∈ unordered s, f p.2 p.1 := by
    refine Finset.sum_bij' (fun p _ => p.swap) (fun p _ => p.swap) ?_ ?_ ?_ ?_ ?_
    · rintro ⟨u, v⟩ h
      rw [Finset.mem_filter, Finset.mem_offDiag] at h
      obtain ⟨⟨hu, hv, hne⟩, hnot⟩ := h
      exact mem_unordered.2 ⟨hv, hu, lt_of_le_of_ne (not_lt.1 hnot) (Ne.symm hne)⟩
    · rintro ⟨u, v⟩ h
      obtain ⟨hu, hv, hlt⟩ := mem_unordered.1 h
      rw [Finset.mem_filter, Finset.mem_offDiag]
      exact ⟨⟨hv, hu, hlt.ne'⟩, not_lt.2 hlt.le⟩
    · exact fun _ _ => rfl
    · exact fun _ _ => rfl
    · exact fun _ _ => rfl
  rw [hdiag, ← Finset.sum_filter_add_sum_filter_not s.offDiag fun p => p.1 < p.2, hswap, Finset.sum_add_distrib]
  rfl

end

end Pairs

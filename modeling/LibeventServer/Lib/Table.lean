import Mathlib.Data.Finmap
import Mathlib.Data.Finset.Dedup

/-!
# Loops over the entries of a table

A table is visited in an order that is not specified: an `Enumeration` chooses one for every set of keys.

A loop that replaces the entry under each visited key by a function of it (`forEach`) computes the same table in every
order (`lookup_forEach`); a loop that also files a value under each visited key (`visit`) likewise
(`lookup_foldl_visit_snd`).
-/

/-- An order of visit for every finite set: each member once. -/
structure Enumeration (κ : Type*) where
  order : Finset κ → List κ
  nodup : ∀ s, (order s).Nodup
  mem_order : ∀ s k, k ∈ order s ↔ k ∈ s

noncomputable instance {κ : Type*} : Inhabited (Enumeration κ) :=
  ⟨⟨Finset.toList, Finset.nodup_toList, fun s _ => Finset.mem_toList (s := s)⟩⟩

namespace Enumeration

variable {κ : Type*}

theorem order_empty (e : Enumeration κ) : e.order ∅ = [] :=
  List.eq_nil_iff_forall_not_mem.2 fun k hk => Finset.notMem_empty k ((e.mem_order ∅ k).1 hk)

theorem order_singleton (e : Enumeration κ) (k : κ) : e.order {k} = [k] :=
  List.perm_singleton.1 ((List.perm_ext_iff_of_nodup (e.nodup _) (List.nodup_singleton k)).2 fun q => by
    rw [e.mem_order, Finset.mem_singleton, List.mem_singleton])

theorem order_perm (e e' : Enumeration κ) (s : Finset κ) : (e.order s).Perm (e'.order s) :=
  (List.perm_ext_iff_of_nodup (e.nodup s) (e'.nodup s)).2 fun k => by rw [e.mem_order, e'.mem_order]

theorem length_order (e : Enumeration κ) (s : Finset κ) : (e.order s).length = s.card := by
  have hperm : (e.order s).Perm s.toList := (List.perm_ext_iff_of_nodup (e.nodup s) (Finset.nodup_toList s)).2
    fun k => by rw [e.mem_order, Finset.mem_toList]
  rw [hperm.length_eq, Finset.length_toList]

/-- A fold over at most two members, when the two may be swapped. -/
theorem foldl_of_card_le_two (e e' : Enumeration κ) {s : Finset κ} (hs : s.card ≤ 2) {σ : Type*}
    {f : σ → κ → σ} {x : σ} (hf : ∀ a b, f (f x a) b = f (f x b) a) :
    (e.order s).foldl f x = (e'.order s).foldl f x := by
  have hlen : (e.order s).length ≤ 2 := by
    have hperm : (e.order s).Perm s.toList := (List.perm_ext_iff_of_nodup (e.nodup s) (Finset.nodup_toList s)).2
      fun k => by rw [e.mem_order, Finset.mem_toList]
    rw [hperm.length_eq, Finset.length_toList]
    exact hs
  have hperm := e.order_perm e' s
  generalize e.order s = l at hlen hperm
  generalize e'.order s = l' at hperm
  induction hperm with
  | nil => rfl
  | cons a h =>
    -- the rest has at most one member
    rename_i l₁ l₂ _
    match l₁, h, hlen with
    | [], h, _ => rw [h.nil_eq]
    | [b], h, _ => rw [List.singleton_perm.1 h]
  | swap a b l =>
    have hl : l = [] := List.length_eq_zero_iff.1 (by simpa using hlen)
    subst hl
    exact hf b a
  | trans h₁ _ ih₁ ih₂ => rw [ih₁ hlen, ih₂ (h₁.length_eq ▸ hlen)]

/-- An order that visits the members of `l` as they are listed. -/
noncomputable def listed [DecidableEq κ] (l : List κ) : Enumeration κ where
  order s := if l.Nodup ∧ l.toFinset = s then l else s.toList
  nodup s := by
    split
    · rename_i h
      exact h.1
    · exact Finset.nodup_toList _
  mem_order s k := by
    split
    · rename_i h
      rw [← h.2, List.mem_toFinset]
    · exact Finset.mem_toList

theorem order_listed [DecidableEq κ] {l : List κ} {s : Finset κ} (hl : l.Nodup) (hs : ∀ k, k ∈ l ↔ k ∈ s) :
    (listed l).order s = l :=
  if_pos ⟨hl, Finset.ext fun k => by rw [List.mem_toFinset, hs]⟩

end Enumeration

namespace Table

variable {κ α β : Type*} [DecidableEq κ]

/-- The entry under `k`, if there is one, is replaced by a function of it. -/
def modify (t : Finmap fun _ : κ => α) (k : κ) (f : α → α) : Finmap fun _ : κ => α :=
  match t.lookup k with
  | some a => t.insert k (f a)
  | none => t

theorem lookup_modify (t : Finmap fun _ : κ => α) (k q : κ) (f : α → α) :
    (modify t k f).lookup q = if q = k then (t.lookup q).map f else t.lookup q := by
  unfold modify
  by_cases hq : q = k
  · subst hq
    cases hk : t.lookup q with
    | none => simp [hk]
    | some a => simp
  · cases hk : t.lookup k with
    | none => simp [hq]
    | some a => simp [hq, Finmap.lookup_insert_of_ne t hq]

theorem mem_modify {t : Finmap fun _ : κ => α} {k q : κ} {f : α → α} : q ∈ modify t k f ↔ q ∈ t := by
  rw [← Finmap.lookup_isSome, ← Finmap.lookup_isSome, lookup_modify]
  split <;> simp

theorem keys_insert (t : Finmap fun _ : κ => α) (k : κ) (a : α) : (t.insert k a).keys = insert k t.keys := by
  ext q
  simp [Finmap.mem_keys]

/-- Replace the entries under the keys `l`, one after the other. -/
def forEach (l : List κ) (f : κ → α → α) (t : Finmap fun _ : κ => α) : Finmap fun _ : κ => α :=
  l.foldl (fun t k => modify t k (f k)) t

theorem lookup_forEach {l : List κ} (hl : l.Nodup) (f : κ → α → α) (t : Finmap fun _ : κ => α) (q : κ) :
    (forEach l f t).lookup q = if q ∈ l then (t.lookup q).map (f q) else t.lookup q := by
  induction l generalizing t with
  | nil => simp [forEach]
  | cons k l ih =>
    obtain ⟨hk, hl⟩ := List.nodup_cons.1 hl
    have hstep : (forEach (k :: l) f t).lookup q = (forEach l f (modify t k (f k))).lookup q := rfl
    rw [hstep, ih hl, lookup_modify]
    by_cases hq : q = k
    · subst hq
      simp [hk]
    · simp [hq]

/-- Visit a key: replace its entry by the first component of `f`, and file the second component in another table. -/
def visit (f : κ → α → α × β) (s : (Finmap fun _ : κ => α) × (Finmap fun _ : κ => β)) (k : κ) :
    (Finmap fun _ : κ => α) × (Finmap fun _ : κ => β) :=
  match s.1.lookup k with
  | some a => (s.1.insert k (f k a).1, s.2.insert k (f k a).2)
  | none => s

theorem visit_fst (f : κ → α → α × β) (s : (Finmap fun _ : κ => α) × (Finmap fun _ : κ => β)) (k : κ) :
    (visit f s k).1 = modify s.1 k fun a => (f k a).1 := by
  unfold visit modify
  cases s.1.lookup k <;> rfl

theorem lookup_visit_snd (f : κ → α → α × β) (s : (Finmap fun _ : κ => α) × (Finmap fun _ : κ => β)) (k q : κ) :
    (visit f s k).2.lookup q =
      if q = k ∧ q ∈ s.1 then (s.1.lookup q).map fun a => (f q a).2 else s.2.lookup q := by
  unfold visit
  by_cases hq : q = k
  · subst hq
    cases ha : s.1.lookup q with
    | none => simp [Finmap.lookup_eq_none.1 ha]
    | some a => simp [Finmap.mem_of_lookup_eq_some ha]
  · cases ha : s.1.lookup k with
    | none => simp [hq]
    | some a => simp [hq, Finmap.lookup_insert_of_ne _ hq]

theorem foldl_visit_fst (l : List κ) (f : κ → α → α × β) (s : (Finmap fun _ : κ => α) × (Finmap fun _ : κ => β)) :
    (l.foldl (visit f) s).1 = forEach l (fun k a => (f k a).1) s.1 := by
  induction l generalizing s with
  | nil => rfl
  | cons k l ih => rw [List.foldl_cons, ih, visit_fst]; rfl

/-- What is filed under a key is computed from the entry the loop found there. -/
theorem lookup_foldl_visit_snd {l : List κ} (hl : l.Nodup) (f : κ → α → α × β)
    (s : (Finmap fun _ : κ => α) × (Finmap fun _ : κ => β)) (q : κ) :
    (l.foldl (visit f) s).2.lookup q =
      if q ∈ l ∧ q ∈ s.1 then (s.1.lookup q).map fun a => (f q a).2 else s.2.lookup q := by
  induction l generalizing s with
  | nil => simp
  | cons k l ih =>
    obtain ⟨hk, hl⟩ := List.nodup_cons.1 hl
    rw [List.foldl_cons, ih hl, lookup_visit_snd, visit_fst, lookup_modify]
    simp only [mem_modify]
    by_cases hq : q = k
    · subst hq
      simp [hk]
    · simp [hq]

end Table

import LibeventServer.Lib.Table
import Mathlib.Algebra.BigOperators.Group.Finset.Basic
import Mathlib.Algebra.Module.Defs

/-!
# Tables of amounts

A table files an amount under each of its keys; `add` adds to the amount under a key.  The order in which amounts are
added does not matter (`foldl_add_perm`).

Where the keys stand for vectors (`w`), a table stands for a linear combination of them (`total`), and `add` adds a
multiple of one of them (`total_add`).
-/

namespace Tally

section

variable {κ R : Type*} [DecidableEq κ] [AddCommMonoid R]

/-- Add `v` to the amount under `k`. -/
def add (t : Finmap fun _ : κ => R) (k : κ) (v : R) : Finmap fun _ : κ => R :=
  t.insert k ((t.lookup k).getD 0 + v)

theorem lookup_add (t : Finmap fun _ : κ => R) (k q : κ) (v : R) :
    (add t k v).lookup q = if q = k then some ((t.lookup q).getD 0 + v) else t.lookup q := by
  unfold add
  by_cases hq : q = k
  · subst hq
    simp
  · simp [hq, Finmap.lookup_insert_of_ne t hq]

theorem add_swap (t : Finmap fun _ : κ => R) (a b : κ) (v w : R) :
    add (add t a v) b w = add (add t b w) a v := by
  apply Finmap.ext_lookup
  intro q
  simp only [lookup_add]
  by_cases ha : q = a
  · subst ha
    by_cases hb : q = b
    · subst hb
      simp only [if_true, Option.getD_some]
      rw [add_right_comm]
    · simp only [if_neg hb, if_true]
  · simp only [if_neg ha]

/-- Amounts `v` added under the keys `l`. -/
theorem lookup_foldl_add (l : List κ) (v : R) (t : Finmap fun _ : κ => R) (q : κ) :
    (l.foldl (fun t k => add t k v) t).lookup q =
      if q ∈ l then some ((t.lookup q).getD 0 + l.count q • v) else t.lookup q := by
  induction l generalizing t with
  | nil => simp
  | cons k l ih =>
    rw [List.foldl_cons, ih, lookup_add]
    by_cases hk : q = k
    · subst hk
      rw [List.count_cons_self, succ_nsmul']
      by_cases hq : q ∈ l
      · simp [hq, add_assoc]
      · simp [hq, List.count_eq_zero_of_not_mem hq]
    · rw [List.count_cons_of_ne (Ne.symm hk)]
      simp [hk]

theorem getD_lookup_foldl_add (l : List κ) (v : R) (t : Finmap fun _ : κ => R) (q : κ) :
    ((l.foldl (fun t k => add t k v) t).lookup q).getD 0 = (t.lookup q).getD 0 + l.count q • v := by
  rw [lookup_foldl_add]
  by_cases hq : q ∈ l
  · simp [hq]
  · simp [hq, List.count_eq_zero_of_not_mem hq]

theorem foldl_add_perm {l l' : List κ} (h : l.Perm l') (v : R) (t : Finmap fun _ : κ => R) :
    l.foldl (fun t k => add t k v) t = l'.foldl (fun t k => add t k v) t :=
  h.foldl_eq' (fun a _ b _ t => add_swap t a b v v) t

end

section

variable {κ R M : Type*} [DecidableEq κ] [Semiring R] [AddCommMonoid M] [Module R M] (w : κ → M)

/-- The linear combination with the amounts as coefficients. -/
def total (t : Finmap fun _ : κ => R) : M := ∑ k ∈ t.keys, (t.lookup k).getD 0 • w k

theorem total_empty : total w (∅ : Finmap fun _ : κ => R) = 0 := by
  rw [total, Finmap.keys_empty, Finset.sum_empty]

theorem total_singleton (k : κ) (v : R) : total w (Finmap.singleton k v : Finmap fun _ : κ => R) = v • w k := by
  rw [total, Finmap.keys_singleton, Finset.sum_singleton, Finmap.lookup_singleton_eq, Option.getD_some]

theorem total_add (t : Finmap fun _ : κ => R) (k : κ) (v : R) : total w (add t k v) = total w t + v • w k := by
  have hother : ∀ q ∈ t.keys.erase k, ((add t k v).lookup q).getD 0 • w q = (t.lookup q).getD 0 • w q := by
    intro q hq
    rw [lookup_add, if_neg (Finset.ne_of_mem_erase hq)]
  have hkeys : (add t k v).keys = insert k (t.keys.erase k) := by
    ext q
    by_cases hq : q = k <;> simp [add, Finmap.mem_keys, hq]
  have hself : total w t = (t.lookup k).getD 0 • w k + ∑ q ∈ t.keys.erase k, (t.lookup q).getD 0 • w q := by
    by_cases hk : k ∈ t
    · rw [total, Finset.add_sum_erase t.keys (fun q => (t.lookup q).getD 0 • w q) (Finmap.mem_keys.2 hk)]
    · have hk' : k ∉ t.keys := fun h => hk (Finmap.mem_keys.1 h)
      rw [total, Finset.erase_eq_of_notMem hk', Finmap.lookup_eq_none.2 hk, Option.getD_none, zero_smul, zero_add]
  calc total w (add t k v)
      = ((t.lookup k).getD 0 + v) • w k + ∑ q ∈ t.keys.erase k, (t.lookup q).getD 0 • w q := by
        rw [total, hkeys, Finset.sum_insert (Finset.notMem_erase k _), Finset.sum_congr rfl hother, lookup_add,
          if_pos rfl, Option.getD_some]
    _ = total w t + v • w k := by
        rw [hself, add_smul, add_right_comm]

/-- The part of the combination under the keys `l`. -/
def totalOver (t : Finmap fun _ : κ => R) (l : List κ) : M := (l.map fun k => (t.lookup k).getD 0 • w k).sum

theorem totalOver_append {t : Finmap fun _ : κ => R} {k : κ} {v : R} (hk : t.lookup k = some v) (l : List κ) :
    totalOver w t (l ++ [k]) = totalOver w t l + v • w k := by
  rw [totalOver, List.map_append, List.sum_append, List.map_singleton, List.sum_singleton, hk, Option.getD_some,
    totalOver]

theorem totalOver_order (e : Enumeration κ) (t : Finmap fun _ : κ => R) :
    totalOver w t (e.order t.keys) = total w t := by
  have hperm : (e.order t.keys).Perm t.keys.toList :=
    (List.perm_ext_iff_of_nodup (e.nodup _) (Finset.nodup_toList _)).2 fun k => by rw [e.mem_order, Finset.mem_toList]
  rw [totalOver, (hperm.map _).sum_eq, Finset.sum_map_toList]
  rfl

end

end Tally

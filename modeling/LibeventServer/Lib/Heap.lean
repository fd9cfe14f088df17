import Mathlib.Data.Option.Basic

/-!
# A heap of objects

Objects are allocated under increasing addresses and an address is never used twice, so a dead cell below `next`
is an object that was deleted.  That no cell at or above `next` is in use is a field of the heap.
-/

/-- A heap of objects of type `α`; `cell p` is the live object at `p`. -/
@[ext] structure Heap (α : Type) where
  next : Nat
  cell : Nat → Option α
  fresh : ∀ p, next ≤ p → cell p = none

namespace Heap

variable {α β : Type}

/-- The heap without objects. -/
def empty : Heap α := ⟨0, fun _ => none, fun _ _ => rfl⟩

/-- Allocate `a` at `h.next`. -/
def alloc (h : Heap α) (a : α) : Heap α where
  next := h.next + 1
  cell q := if q = h.next then some a else h.cell q
  fresh q hq := by
    have : q ≠ h.next := by omega
    simp only [this, ↓reduceIte]
    exact h.fresh q (by omega)

/-- Change the object at `p`, if there is one. -/
def update (h : Heap α) (p : Nat) (f : α → α) : Heap α where
  next := h.next
  cell q := if q = p then (h.cell q).map f else h.cell q
  fresh q hq := by simp [h.fresh q hq]

/-- Delete the object at `p`. -/
def free (h : Heap α) (p : Nat) : Heap α where
  next := h.next
  cell q := if q = p then none else h.cell q
  fresh q hq := by simp [h.fresh q hq]

/-- Look at every object through `f`. -/
def map (f : α → β) (h : Heap α) : Heap β where
  next := h.next
  cell q := (h.cell q).map f
  fresh q hq := by simp [h.fresh q hq]

@[simp] theorem empty_cell (p : Nat) : (empty : Heap α).cell p = none := rfl
@[simp] theorem alloc_next (h : Heap α) (a : α) : (h.alloc a).next = h.next + 1 := rfl
@[simp] theorem update_next (h : Heap α) (p : Nat) (f : α → α) : (h.update p f).next = h.next := rfl
@[simp] theorem free_next (h : Heap α) (p : Nat) : (h.free p).next = h.next := rfl
@[simp] theorem map_next (f : α → β) (h : Heap α) : (h.map f).next = h.next := rfl
@[simp] theorem map_cell (f : α → β) (h : Heap α) (p : Nat) : (h.map f).cell p = (h.cell p).map f := rfl

@[simp] theorem alloc_cell_self (h : Heap α) (a : α) : (h.alloc a).cell h.next = some a := by simp [alloc]
@[simp] theorem update_cell_self (h : Heap α) (p : Nat) (f : α → α) :
    (h.update p f).cell p = (h.cell p).map f := by simp [update]
@[simp] theorem free_cell_self (h : Heap α) (p : Nat) : (h.free p).cell p = none := by simp [free]

theorem alloc_cell_of_ne (h : Heap α) (a : α) {q : Nat} (hq : q ≠ h.next) :
    (h.alloc a).cell q = h.cell q := by simp [alloc, hq]
theorem update_cell_of_ne (h : Heap α) {p q : Nat} (f : α → α) (hq : q ≠ p) :
    (h.update p f).cell q = h.cell q := by simp [update, hq]
theorem free_cell_of_ne (h : Heap α) {p q : Nat} (hq : q ≠ p) : (h.free p).cell q = h.cell q := by
  simp [free, hq]

theorem cell_of_alloc {h : Heap α} {a a' : α} {q : Nat} (hq : (h.alloc a).cell q = some a') :
    q = h.next ∧ a' = a ∨ h.cell q = some a' := by
  by_cases hne : q = h.next
  · subst hne
    rw [alloc_cell_self, Option.some.injEq] at hq
    exact Or.inl ⟨rfl, hq.symm⟩
  · exact Or.inr ((alloc_cell_of_ne _ _ hne).symm.trans hq)

theorem cell_of_free {h : Heap α} {p q : Nat} {a : α} (hq : (h.free p).cell q = some a) :
    q ≠ p ∧ h.cell q = some a := by
  have hne : q ≠ p := by
    rintro rfl
    simp at hq
  exact ⟨hne, (free_cell_of_ne _ hne).symm.trans hq⟩

theorem update_cell_of_some {h : Heap α} {p q : Nat} {f : α → α} {a : α} (ha : h.cell q = some a) :
    (h.update p f).cell q = some (if q = p then f a else a) := by
  simp only [update, ha]
  split <;> rfl

theorem lt_next {h : Heap α} {p : Nat} {a : α} (hp : h.cell p = some a) : p < h.next := by
  by_contra hlt
  rw [h.fresh p (by omega)] at hp
  cases hp

theorem alloc_cell_of_some {h : Heap α} {q : Nat} {a' : α} (a : α) (hq : h.cell q = some a') :
    (h.alloc a).cell q = some a' :=
  (alloc_cell_of_ne h a (Nat.ne_of_lt (lt_next hq))).trans hq

/-- How many objects at `p` have been deleted. -/
def deleted (h : Heap α) (p : Nat) : Nat := if p < h.next ∧ h.cell p = none then 1 else 0

theorem deleted_le_one (h : Heap α) (p : Nat) : h.deleted p ≤ 1 := by
  unfold deleted
  split <;> omega

theorem deleted_alloc (h : Heap α) (a : α) (p : Nat) : (h.alloc a).deleted p = h.deleted p := by
  unfold deleted
  by_cases hp : p = h.next
  · subst hp
    simp
  · have hlt : p < h.next + 1 ↔ p < h.next := by omega
    simp only [alloc_cell_of_ne _ _ hp, alloc_next, hlt]

theorem deleted_update (h : Heap α) (q : Nat) (f : α → α) (p : Nat) : (h.update q f).deleted p = h.deleted p := by
  unfold deleted
  by_cases hp : p = q
  · subst hp
    simp
  · rw [update_cell_of_ne _ _ hp, update_next]

theorem deleted_free {h : Heap α} {q : Nat} {a : α} (hq : h.cell q = some a) (p : Nat) :
    (h.free q).deleted p = h.deleted p + if p = q then 1 else 0 := by
  unfold deleted
  by_cases hp : p = q
  · subst hp
    simp [hq, lt_next hq]
  · simp [free_cell_of_ne _ hp, hp]

theorem deleted_free_self {h : Heap α} {q : Nat} {a : α} (hq : h.cell q = some a) : (h.free q).deleted q = 1 := by
  have hlt := lt_next hq
  simp [deleted, hlt]

theorem deleted_eq_one_iff {h : Heap α} {p : Nat} : h.deleted p = 1 ↔ p < h.next ∧ h.cell p = none := by
  unfold deleted
  split <;> simp_all

/-- A change that changes nothing. -/
theorem update_of_eq {h : Heap α} {p : Nat} {f : α → α} (hf : ∀ a, h.cell p = some a → f a = a) :
    h.update p f = h := by
  ext q : 2
  · rfl
  · by_cases hq : q = p
    · subst hq
      rw [update_cell_self]
      cases hc : h.cell q with
      | none => rfl
      | some a => rw [Option.map_some, hf a hc]
    · rw [update_cell_of_ne _ _ hq]

theorem next_foldl_free (h : Heap α) (ps : List Nat) : (ps.foldl free h).next = h.next := by
  induction ps generalizing h with
  | nil => rfl
  | cons p ps ih => rw [List.foldl_cons, ih, free_next]

theorem cell_foldl_free (h : Heap α) (ps : List Nat) (q : Nat) :
    (ps.foldl free h).cell q = if q ∈ ps then none else h.cell q := by
  induction ps generalizing h with
  | nil => simp
  | cons p ps ih =>
    rw [List.foldl_cons, ih]
    by_cases hq : q = p
    · simp [hq]
    · simp [hq, free_cell_of_ne _ hq]

/-! ### Looking through a map -/

theorem map_alloc (f : α → β) (h : Heap α) (a : α) : (h.alloc a).map f = (h.map f).alloc (f a) := by
  ext q : 2
  · rfl
  · simp only [map_cell, alloc, map_next]
    split <;> simp_all

theorem map_update (f : α → β) (h : Heap α) (p : Nat) {g : α → α} {g' : β → β}
    (hg : ∀ a, h.cell p = some a → f (g a) = g' (f a)) :
    (h.update p g).map f = (h.map f).update p g' := by
  ext q : 2
  · rfl
  · simp only [map_cell, update]
    by_cases hq : q = p
    · subst hq
      cases hc : h.cell q with
      | none => simp
      | some a => simp [hg a hc]
    · simp only [hq, ↓reduceIte]

/-- A change that `f` does not see is not seen. -/
theorem map_update_of_eq (f : α → β) (h : Heap α) (p : Nat) {g : α → α} (hg : ∀ a, f (g a) = f a) :
    (h.update p g).map f = h.map f := by
  ext q : 2
  · rfl
  · simp only [map_cell, update]
    split
    · cases h.cell q <;> simp [hg]
    · rfl

theorem map_free (f : α → β) (h : Heap α) (p : Nat) : (h.free p).map f = (h.map f).free p := by
  ext q : 2
  · rfl
  · simp only [map_cell, free]
    split <;> simp

theorem update_update (h : Heap α) (p : Nat) (f g : α → α) :
    (h.update p f).update p g = h.update p (g ∘ f) := by
  ext q : 2
  · rfl
  · simp only [update]
    split <;> simp

theorem free_update (h : Heap α) (p : Nat) (f : α → α) : (h.update p f).free p = h.free p := by
  ext q : 2
  · rfl
  · simp only [update, free]
    split <;> simp

end Heap

import LibeventServer.Lib.Heap
import Mathlib.Data.Finset.Card
import Mathlib.Data.Finset.Range

/-!
# Singly linked lists on a heap

A list of nodes, each an address and an object, is threaded by making every object point to the address of the next
one (`thread`).  A heap `Holds` a threaded list and some loose objects when these are all its objects.  A list may end
at a dangling pointer `q`, as it does while its end is being replaced.

* `Holds.cell`, `Holds.update`: look at a node and change it in place.
* `Holds.free_head`, `Holds.free_tail`, `Holds.relink`, `Holds.attach`: take nodes away at either end, and put one to
  the end.
* `Holds.length_le`: how many steps a walk along the list takes.
-/

/-- Objects with a pointer to the next one. -/
class Linked (α : Type) where
  next : α → Option Nat
  link : Option Nat → α → α
  next_link : ∀ q c, next (link q c) = q
  link_link : ∀ q r c, link q (link r c) = link q c

namespace LinkedList

open Linked

variable {α : Type}

/-- Where a list starts: at its first node, or at `q` if it is empty. -/
def head (l : List (Nat × α)) (q : Option Nat) : Option Nat := (l.head?.map Prod.fst).or q

/-- The addresses of the nodes. -/
def addresses (l : List (Nat × α)) : List Nat := l.map Prod.fst

@[simp] theorem head_nil (q : Option Nat) : head ([] : List (Nat × α)) q = q := rfl
@[simp] theorem head_cons (n : Nat × α) (l : List (Nat × α)) (q : Option Nat) : head (n :: l) q = some n.1 := rfl
@[simp] theorem addresses_nil : addresses ([] : List (Nat × α)) = [] := rfl
@[simp] theorem addresses_cons (n : Nat × α) (l : List (Nat × α)) : addresses (n :: l) = n.1 :: addresses l := rfl
@[simp] theorem addresses_append (l l' : List (Nat × α)) : addresses (l ++ l') = addresses l ++ addresses l' :=
  List.map_append

theorem head_append (l l' : List (Nat × α)) (q : Option Nat) : head (l ++ l') q = head l (head l' q) := by
  cases l <;> rfl

/-- Where a list starts and ends depends on the addresses only. -/
theorem head_congr {l l' : List (Nat × α)} (h : addresses l = addresses l') (q : Option Nat) :
    head l q = head l' q := by
  unfold head
  rw [← List.head?_map, ← List.head?_map]
  exact congrArg (fun addresses => addresses.head?.or q) h

theorem getLast?_congr {l l' : List (Nat × α)} (h : addresses l = addresses l') :
    l.getLast?.map Prod.fst = l'.getLast?.map Prod.fst := by
  rw [← List.getLast?_map, ← List.getLast?_map]
  exact congrArg List.getLast? h

theorem mem_addresses {n : Nat × α} {l : List (Nat × α)} (h : n ∈ l) : n.1 ∈ addresses l := List.mem_map_of_mem h

variable [Linked α]

/-- The nodes with their pointers; the last one points to `q`. -/
def thread : List (Nat × α) → Option Nat → List (Nat × α)
  | [], _ => []
  | (a, c) :: l, q => (a, link (head l q) c) :: thread l q

@[simp] theorem thread_nil (q : Option Nat) : thread ([] : List (Nat × α)) q = [] := rfl

theorem thread_append (l l' : List (Nat × α)) (q : Option Nat) :
    thread (l ++ l') q = thread l (head l' q) ++ thread l' q := by
  induction l with
  | nil => rfl
  | cons n l ih =>
    obtain ⟨a, c⟩ := n
    rw [List.cons_append, thread, thread, ih, head_append, List.cons_append]

@[simp] theorem addresses_thread (l : List (Nat × α)) (q : Option Nat) : addresses (thread l q) = addresses l := by
  induction l with
  | nil => rfl
  | cons n l ih => simp [thread, ih]

/-- The nodes of `l` are on the heap. -/
def Reads (h : Heap α) (l : List (Nat × α)) (q : Option Nat) : Prop := ∀ n ∈ thread l q, h.cell n.1 = some n.2

theorem reads_cons {h : Heap α} {a : Nat} {c : α} {l : List (Nat × α)} {q : Option Nat} :
    Reads h ((a, c) :: l) q ↔ h.cell a = some (link (head l q) c) ∧ Reads h l q := by
  simp [Reads, thread]

theorem reads_append {h : Heap α} {l l' : List (Nat × α)} {q : Option Nat} :
    Reads h (l ++ l') q ↔ Reads h l (head l' q) ∧ Reads h l' q := by
  simp only [Reads, thread_append, List.mem_append]
  exact ⟨fun hr => ⟨fun n hn => hr n (Or.inl hn), fun n hn => hr n (Or.inr hn)⟩,
    fun hr n hn => hn.elim (hr.1 n) (hr.2 n)⟩

theorem Reads.free {h : Heap α} {l : List (Nat × α)} {q : Option Nat} (hr : Reads h l q) {a : Nat}
    (ha : a ∉ addresses l) : Reads (h.free a) l q := by
  intro n hn
  have hmem := mem_addresses hn
  rw [addresses_thread] at hmem
  rw [Heap.free_cell_of_ne _ (ne_of_mem_of_not_mem hmem ha)]
  exact hr n hn

/-- The objects of the heap are the nodes of `l`, of which the last points to `q`, and those of `loose`. -/
structure Holds (h : Heap α) (l : List (Nat × α)) (q : Option Nat) (loose : List (Nat × α)) : Prop where
  nodup : (addresses l ++ addresses loose).Nodup
  mem : ∀ a c, h.cell a = some c ↔ (a, c) ∈ thread l q ++ loose

variable {h : Heap α} {l l' loose : List (Nat × α)} {q : Option Nat} {a : Nat} {c d : α}

theorem holds_empty : Holds (Heap.empty : Heap α) [] none [] where
  nodup := List.nodup_nil
  mem a c := by simp

theorem Holds.nodup_thread (hh : Holds h l q loose) : (addresses (thread l q ++ loose)).Nodup := by
  rw [addresses_append, addresses_thread]
  exact hh.nodup

theorem Holds.reads (hh : Holds h l q loose) : Reads h l q :=
  fun n hn => (hh.mem n.1 n.2).2 (List.mem_append_left _ hn)

theorem Holds.cell (hh : Holds h (l ++ (a, c) :: l') q loose) : h.cell a = some (link (head l' q) c) :=
  (reads_cons.1 (reads_append.1 hh.reads).2).1

theorem Holds.cell_loose (hh : Holds h l q loose) (hn : (a, c) ∈ loose) : h.cell a = some c :=
  (hh.mem a c).2 (List.mem_append_right _ hn)

/-- A walk along the list takes at most as many steps as there are addresses. -/
theorem Holds.length_le (hh : Holds h l q loose) : l.length + loose.length ≤ h.next := by
  have hlt : ∀ a ∈ addresses (thread l q ++ loose), a < h.next := by
    intro a ha
    obtain ⟨⟨b, c⟩, hn, rfl⟩ := List.mem_map.1 ha
    exact Heap.lt_next ((hh.mem b c).2 hn)
  have hcard := Finset.card_le_card (s := (addresses (thread l q ++ loose)).toFinset) (t := Finset.range h.next)
    fun a ha => Finset.mem_range.2 (hlt a (List.mem_toFinset.1 ha))
  rw [List.toFinset_card_of_nodup hh.nodup_thread, Finset.card_range, addresses_append, addresses_thread] at hcard
  simpa [addresses] using hcard

/-! ### Changing a node -/

/-- Changing the object at one address changes that node and no other. -/
theorem Holds.mem_update (hh : Holds h l q loose) {m k : List (Nat × α)} (hm : thread l q ++ loose = m ++ (a, c) :: k)
    (f : α → α) (b : Nat) (e : α) : (h.update a f).cell b = some e ↔ (b, e) ∈ m ++ (a, f c) :: k := by
  have hnodup := hh.nodup_thread
  rw [hm, addresses_append, addresses_cons] at hnodup
  have ha : a ∉ addresses (m ++ k) := by
    rw [addresses_append]
    exact (List.nodup_middle.1 hnodup).notMem
  have hcell : ∀ e, h.cell b = some e ↔ (b, e) ∈ m ++ (a, c) :: k := by
    intro e
    rw [hh.mem, hm]
  by_cases hb : b = a
  · subst hb
    rw [Heap.update_cell_self, (hcell c).2 (by simp), Option.map_some, Option.some.injEq]
    constructor
    · rintro rfl
      simp
    · intro he
      rcases List.mem_append.1 he with he | he
      · exact absurd (mem_addresses (List.mem_append_left k he)) ha
      · rcases List.mem_cons.1 he with he | he
        · exact (congrArg Prod.snd he).symm
        · exact absurd (mem_addresses (List.mem_append_right m he)) ha
  · rw [Heap.update_cell_of_ne _ _ hb, hcell]
    simp [hb]

theorem Holds.update (hh : Holds h (l ++ (a, c) :: l') q loose) {f : α → α} (hf : ∀ r, f (link r c) = link r (f c)) :
    Holds (h.update a f) (l ++ (a, f c) :: l') q loose where
  nodup := by
    have hnodup := hh.nodup
    simpa using hnodup
  mem b e := by
    rw [hh.mem_update (c := link (head l' q) c) (m := thread l (some a)) (k := thread l' q ++ loose), hf,
      thread_append]
    · simp [thread]
    · rw [thread_append]
      simp [thread]

theorem Holds.update_loose (hh : Holds h l q ((a, c) :: loose)) (f : α → α) :
    Holds (h.update a f) l q ((a, f c) :: loose) where
  nodup := hh.nodup
  mem b e := hh.mem_update rfl f b e

/-- Making the last node point elsewhere. -/
theorem Holds.relink (hh : Holds h (l ++ [(a, c)]) q loose) (r : Option Nat) :
    Holds (h.update a (link r)) (l ++ [(a, c)]) r loose where
  nodup := hh.nodup
  mem b e := by
    rw [hh.mem_update (c := link q c) (m := thread l (some a)) (k := loose), link_link, thread_append]
    · simp [thread]
    · rw [thread_append]
      simp [thread]

/-! ### Putting nodes in and taking them out -/

theorem Holds.alloc (hh : Holds h l q loose) (d : α) : Holds (h.alloc d) l q ((h.next, d) :: loose) where
  nodup := by
    have hnext : h.next ∉ addresses l ++ addresses loose := by
      intro hmem
      rw [← addresses_thread l q, ← addresses_append] at hmem
      obtain ⟨⟨b, e⟩, hn, hb⟩ := List.mem_map.1 hmem
      have hlt := Heap.lt_next ((hh.mem b e).2 hn)
      exact absurd hlt (by simp only at hb; omega)
    rw [addresses_cons, List.nodup_middle, List.nodup_cons]
    exact ⟨hnext, hh.nodup⟩
  mem b e := by
    have hcell := hh.mem b e
    by_cases hb : b = h.next
    · subst hb
      rw [h.fresh h.next le_rfl] at hcell
      simp only [reduceCtorEq, false_iff, List.mem_append, not_or] at hcell
      simp [hcell, eq_comm]
    · rw [Heap.alloc_cell_of_ne _ _ hb, hcell]
      simp [hb]

/-- It does not matter where an empty list points. -/
theorem Holds.of_nil (hh : Holds h [] q loose) (r : Option Nat) : Holds h [] r loose := ⟨hh.nodup, hh.mem⟩

/-- A loose object to which the last node points is the last node. -/
theorem Holds.attach (hh : Holds h l (some a) ((a, link q c) :: loose)) : Holds h (l ++ [(a, c)]) q loose where
  nodup := by
    have hnodup := hh.nodup
    simpa using hnodup
  mem b e := by
    rw [hh.mem, thread_append]
    simp [thread]

/-- Freeing an object takes it out, wherever it stands. -/
theorem Holds.mem_free (hh : Holds h l q loose) {m k : List (Nat × α)} (hm : thread l q ++ loose = m ++ (a, c) :: k)
    (b : Nat) (e : α) : (h.free a).cell b = some e ↔ (b, e) ∈ m ++ k := by
  have hnodup := hh.nodup_thread
  rw [hm, addresses_append, addresses_cons] at hnodup
  have ha : a ∉ addresses (m ++ k) := by
    rw [addresses_append]
    exact (List.nodup_middle.1 hnodup).notMem
  by_cases hb : b = a
  · subst hb
    rw [Heap.free_cell_self]
    simp only [reduceCtorEq, false_iff]
    exact fun he => ha (mem_addresses he)
  · rw [Heap.free_cell_of_ne _ hb, hh.mem, hm]
    simp [hb]

theorem Holds.free_head (hh : Holds h ((a, c) :: l) q loose) : Holds (h.free a) l q loose where
  nodup := (List.nodup_cons.1 hh.nodup).2
  mem := hh.mem_free (m := []) rfl

/-- After the nodes `l` at the front are freed, the rest is left. -/
theorem Holds.free_front {m : List (Nat × α)} (hh : Holds h (l ++ m) q loose) :
    Holds ((addresses l).foldl Heap.free h) m q loose := by
  induction l generalizing h with
  | nil => exact hh
  | cons n l ih => exact ih hh.free_head

/-- After the nodes `l'` at the end are freed, the node before them points to the first of them still. -/
theorem Holds.free_tail (hh : Holds h (l ++ l') q loose) :
    Holds ((addresses l').foldl Heap.free h) l (head l' q) loose where
  nodup := by
    have hnodup := hh.nodup
    rw [addresses_append, List.append_assoc] at hnodup
    exact hnodup.sublist (List.Sublist.append_left (List.sublist_append_right _ _) _)
  mem b e := by
    have hdisjoint : b ∈ addresses l' → (b, e) ∉ thread l (head l' q) ++ loose := by
      intro hb hmem
      have hnodup := hh.nodup
      rw [addresses_append, List.append_assoc] at hnodup
      have hperm := (List.perm_append_comm_assoc (addresses l) (addresses l') (addresses loose)).nodup_iff.1 hnodup
      have hb' := mem_addresses hmem
      rw [addresses_append, addresses_thread] at hb'
      exact List.disjoint_of_nodup_append hperm hb hb'
    rw [Heap.cell_foldl_free]
    by_cases hb : b ∈ addresses l'
    · simp only [hb, if_true, reduceCtorEq, false_iff]
      exact hdisjoint hb
    · have hnot : (b, e) ∉ thread l' q := by
        intro hmem
        have hb' := mem_addresses hmem
        rw [addresses_thread] at hb'
        exact hb hb'
      simp only [hb, if_false, hh.mem, thread_append, List.mem_append, hnot, or_false]

end LinkedList

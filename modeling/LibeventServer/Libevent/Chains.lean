import LibeventServer.Libevent.Buffer
import Mathlib.Algebra.Group.Nat.Defs

/-!
# The chains of an evbuffer

`Evbuffer.Laid b pre rest loose`: the chains of `b` are `pre ++ rest`, all those of `pre` hold data, `rest` starts
with the chain to which `*last_with_datap` points, and the chains behind that are empty; `loose` are chains that are
not in the list yet.  These are all chains there are, so that none is lost.  The bytes in the evbuffer are
`content (pre ++ rest)`.
-/

namespace LibeventServer

open EStateM Linked LinkedList

/-- A chain with its address. -/
abbrev Node : Type := Nat × EvbufferChain

/-- The bytes a chain holds. -/
def EvbufferChain.data (c : EvbufferChain) : List UInt8 := c.buffer.slice c.misalign c.off

/-- A chain as it is between two operations. -/
structure EvbufferChain.Ok (c : EvbufferChain) : Prop where
  fits : c.misalign + c.off ≤ c.buffer_len
  pos : 0 < c.buffer_len
  le : c.buffer_len ≤ EVBUFFER_CHAIN_MAX - EVBUFFER_CHAIN_SIZE
  aligned : c.off = 0 → c.misalign = 0

/-- The bytes the chains hold. -/
def content (l : List Node) : List UInt8 := l.flatMap fun n => n.2.data

/-- The slot behind the chains `l`. -/
def slotAfter (l : List Node) : ChainSlot :=
  match l.getLast? with
  | none => .first
  | some n => .next n.1

/-- The chains in `b` are `pre ++ rest`, and the first of `rest` is the last one with data. -/
structure Evbuffer.Laid (b : Evbuffer) (pre rest loose : List Node) : Prop where
  holds : Holds b.chains (pre ++ rest) none loose
  first : b.first = head (pre ++ rest) none
  last : b.last = (pre ++ rest).getLast?.map Prod.fst
  slot : b.last_with_datap = slotAfter pre
  ok : ∀ n ∈ pre ++ rest, n.2.Ok
  full : ∀ n ∈ pre, n.2.off ≠ 0
  spare : ∀ n ∈ rest.tail, n.2.off = 0
  cur : pre ≠ [] → ∃ n ∈ rest.head?, n.2.off ≠ 0
  total : b.total_len = (content (pre ++ rest)).length

/-- The bytes in an evbuffer. -/
def Evbuffer.Carries (b : Evbuffer) (bytes : List UInt8) : Prop :=
  ∃ pre rest, b.Laid pre rest [] ∧ content (pre ++ rest) = bytes

/-- The bytes in an evbuffer whose last chain is the last one with data. -/
def Evbuffer.CarriesTight (b : Evbuffer) (bytes : List UInt8) : Prop :=
  ∃ pre rest, b.Laid pre rest [] ∧ rest.tail = [] ∧ content (pre ++ rest) = bytes

/-- Nothing but the chains and the fate of `malloc` differs. -/
structure Evbuffer.Alike (b b' : Evbuffer) : Prop where
  freeze_start : b'.freeze_start = b.freeze_start
  freeze_end : b'.freeze_end = b.freeze_end
  sent : b'.sent = b.sent
  malloc : b'.malloc <:+ b.malloc

theorem Evbuffer.Alike.refl (b : Evbuffer) : b.Alike b := ⟨rfl, rfl, rfl, List.suffix_rfl⟩

theorem Evbuffer.Alike.trans {b₁ b₂ b₃ : Evbuffer} (h : b₁.Alike b₂) (h' : b₂.Alike b₃) : b₁.Alike b₃ :=
  ⟨h'.freeze_start.trans h.freeze_start, h'.freeze_end.trans h.freeze_end, h'.sent.trans h.sent,
    h'.malloc.trans h.malloc⟩

/-! ### Small facts -/

@[simp] theorem length_data (c : EvbufferChain) : c.data.length = c.off := Bytes.length_slice _ _ _

@[simp] theorem next_link' (q : Option Nat) (c : EvbufferChain) : (link q c).next = q := rfl
@[simp] theorem off_link (q : Option Nat) (c : EvbufferChain) : (link q c).off = c.off := rfl
@[simp] theorem misalign_link (q : Option Nat) (c : EvbufferChain) : (link q c).misalign = c.misalign := rfl
@[simp] theorem buffer_len_link (q : Option Nat) (c : EvbufferChain) : (link q c).buffer_len = c.buffer_len := rfl
@[simp] theorem buffer_link (q : Option Nat) (c : EvbufferChain) : (link q c).buffer = c.buffer := rfl
@[simp] theorem spaceLen_link (q : Option Nat) (c : EvbufferChain) : (link q c).spaceLen = c.spaceLen := rfl

theorem link_none {c : EvbufferChain} (h : c.next = none) : link none c = c := by
  cases c
  obtain rfl : _ = none := h
  rfl

@[simp] theorem content_nil : content [] = [] := rfl
@[simp] theorem content_cons (n : Node) (l : List Node) : content (n :: l) = n.2.data ++ content l := rfl
@[simp] theorem content_append (l l' : List Node) : content (l ++ l') = content l ++ content l' := List.flatMap_append

theorem content_eq_nil {l : List Node} (h : ∀ n ∈ l, n.2.off = 0) : content l = [] := by
  induction l with
  | nil => rfl
  | cons n l ih =>
    have hn : n.2.data = [] := List.length_eq_zero_iff.1 ((length_data n.2).trans (h n List.mem_cons_self))
    rw [content_cons, hn, ih fun m hm => h m (List.mem_cons_of_mem n hm), List.nil_append]

theorem drop_length_take (l : List UInt8) (n : Nat) : l.drop (l.take n).length = l.drop n := by
  rw [List.length_take]
  rcases Nat.le_total n l.length with h | h
  · rw [Nat.min_eq_left h]
  · rw [Nat.min_eq_right h, List.drop_length, List.drop_of_length_le h]

theorem take_length_take (l : List UInt8) (n : Nat) : l.take (l.take n).length = l.take n := by
  rw [List.length_take]
  rcases Nat.le_total n l.length with h | h
  · rw [Nat.min_eq_left h]
  · rw [Nat.min_eq_right h, List.take_length, List.take_of_length_le h]

@[simp] theorem slotAfter_nil : slotAfter [] = .first := rfl
@[simp] theorem slotAfter_append_singleton (l : List Node) (n : Node) : slotAfter (l ++ [n]) = .next n.1 := by
  simp [slotAfter]

theorem slotAfter_cons {n : Node} {l : List Node} (h : l ≠ []) : slotAfter (n :: l) = slotAfter l := by
  obtain ⟨init, m, rfl⟩ := (List.eq_nil_or_concat l).resolve_left h
  rw [List.concat_eq_append, ← List.cons_append, slotAfter_append_singleton, slotAfter_append_singleton]

theorem slotAfter_ne {a : Nat} {l : List Node} (h : a ∉ addresses l) : slotAfter l ≠ .next a := by
  rcases List.eq_nil_or_concat l with rfl | ⟨init, n, rfl⟩
  · simp
  · rw [List.concat_eq_append, slotAfter_append_singleton]
    rintro heq
    cases heq
    exact h (by simp)

/-- The slot behind chains depends on their addresses only. -/
theorem slotAfter_congr {l l' : List Node} (h : addresses l = addresses l') : slotAfter l = slotAfter l' := by
  have hlast := getLast?_congr h
  unfold slotAfter
  cases hl : l.getLast? <;> cases hl' : l'.getLast? <;> simp_all

/-! ### Pointers -/

/-- Change the chain at `a`. -/
def Evbuffer.update (b : Evbuffer) (a : Nat) (f : EvbufferChain → EvbufferChain) : Evbuffer :=
  { b with chains := b.chains.update a f }

@[simp] theorem Evbuffer.update_first (b : Evbuffer) (a : Nat) (f : EvbufferChain → EvbufferChain) :
    (b.update a f).first = b.first := rfl
@[simp] theorem Evbuffer.update_total_len (b : Evbuffer) (a : Nat) (f : EvbufferChain → EvbufferChain) :
    (b.update a f).total_len = b.total_len := rfl

theorem Evbuffer.update_update (b : Evbuffer) (a : Nat) (f g : EvbufferChain → EvbufferChain) :
    (b.update a f).update a g = b.update a (g ∘ f) := by
  simp only [update, Heap.update_update]

theorem Evbuffer.cell_update {b : Evbuffer} {a : Nat} {c : EvbufferChain} (h : b.chains.cell a = some c)
    (f : EvbufferChain → EvbufferChain) : (b.update a f).chains.cell a = some (f c) := by
  rw [update, Heap.update_cell_self, h, Option.map_some]

section

variable {b : Evbuffer} {l l' loose : List Node} {q : Option Nat} {a : Nat} {c : EvbufferChain}

theorem getChain_of_cell (h : b.chains.cell a = some c) : getChain (some a) b = .ok c b := by
  simp [getChain, h]

theorem setChain_of_cell (h : b.chains.cell a = some c) (f : EvbufferChain → EvbufferChain) :
    setChain (some a) f b = .ok () (b.update a f) := by
  simp [setChain, h, Evbuffer.update]

theorem storeChain_of_cell (h : b.chains.cell a = some c) (i : Nat) (data : List UInt8)
    (hfit : i + data.length ≤ c.buffer_len) :
    storeChain (some a) i data b = .ok () (b.update a fun c => { c with buffer := c.buffer.write i data }) := by
  unfold storeChain
  rw [bind_ok (getChain_of_cell h), if_pos hfit, setChain_of_cell h]

theorem loadChain_of_cell (h : b.chains.cell a = some c) {i len : Nat} (hfit : i + len ≤ c.buffer_len) :
    loadChain (some a) i len b = .ok (c.buffer.slice i len) b := by
  unfold loadChain
  rw [bind_ok (getChain_of_cell h), EvbufferChain.load, if_pos hfit]
  rfl

theorem evbuffer_chain_free_of_cell (h : b.chains.cell a = some c) :
    evbuffer_chain_free a b = .ok () { b with chains := b.chains.free a } := by
  simp [evbuffer_chain_free, h]

theorem setBuf_bind {α : Type} (f : Evbuffer → Evbuffer) (k : Unit → Buf α) (b : Evbuffer) :
    (setBuf f >>= k) b = k () (f b) := rfl

theorem fuel_bind {α : Type} (k : Nat → Buf α) (b : Evbuffer) : (fuel >>= k) b = k (b.chains.next + 1) b := rfl

theorem assert_ok {p : Prop} [Decidable p] (h : p) : EVUTIL_ASSERT p b = .ok () b := by
  simp [EVUTIL_ASSERT, h]

/-- The slot behind `pre` points to the first chain of `rest`. -/
theorem readSlot_after {pre rest : List Node} (h : Reads b.chains (pre ++ rest) q)
    (hfirst : pre = [] → b.first = head rest q) : readSlot (slotAfter pre) b = .ok (head rest q) b := by
  rcases List.eq_nil_or_concat pre with rfl | ⟨init, ⟨a, c⟩, rfl⟩
  · rw [slotAfter_nil, ← hfirst rfl]
    rfl
  · rw [List.concat_eq_append] at h ⊢
    rw [slotAfter_append_singleton, readSlot]
    rw [List.append_assoc, List.singleton_append, reads_append, reads_cons] at h
    rw [bind_ok (getChain_of_cell h.2.1)]
    rfl

/-- Freeing all chains from the first of `l` on. -/
theorem freeChains_ok {l : List Node} : ∀ {b : Evbuffer} {n : Nat}, Reads b.chains l none → (addresses l).Nodup →
    l.length ≤ n → freeChains n (head l none) b =
    .ok () { b with chains := (addresses l).foldl Heap.free b.chains } := by
  induction l with
  | nil =>
    intro b n _ _ _
    cases n <;> rfl
  | cons x l ih =>
    intro b n hr hnodup hn
    obtain ⟨a, c⟩ := x
    obtain ⟨hcell, hr⟩ := reads_cons.1 hr
    obtain ⟨ha, hnodup⟩ := List.nodup_cons.1 hnodup
    cases n with
    | zero => simp at hn
    | succ n =>
      rw [head_cons, freeChains, bind_ok (getChain_of_cell hcell), bind_ok (evbuffer_chain_free_of_cell hcell)]
      exact ih (b := { b with chains := b.chains.free a }) (hr.free ha) hnodup (by simpa using hn)

end

/-! ### New chains -/

private theorem doubleUp_ok (size : Nat) (b : Evbuffer) (n : Nat) : ∀ t, size ≤ t * 2 ^ n →
    ∃ t', doubleUp size (n + 1) t b = .ok t' b ∧ size ≤ t' ∧ t ≤ t' ∧ (t' = t ∨ t' < 2 * size) := by
  induction n with
  | zero =>
    intro t ht
    refine ⟨t, ?_, by omega, le_rfl, Or.inl rfl⟩
    rw [doubleUp, if_neg (by omega)]
    rfl
  | succ n ih =>
    intro t ht
    by_cases hlt : t < size
    · have ht' : size ≤ 2 * t * 2 ^ n := by
        rw [Nat.mul_comm 2 t, Nat.mul_assoc, Nat.mul_comm 2, ← Nat.pow_succ]
        exact ht
      obtain ⟨t', hr, hle, hge, hbound⟩ := ih (2 * t) ht'
      refine ⟨t', ?_, hle, by omega, by omega⟩
      rw [doubleUp, if_pos hlt]
      exact hr
    · refine ⟨t, ?_, by omega, le_rfl, Or.inl rfl⟩
      rw [doubleUp, if_neg hlt]
      rfl

private theorem mm_malloc_cases (c : EvbufferChain) (b : Evbuffer) :
    (∃ malloc, mm_malloc c b = .ok none { b with malloc := malloc } ∧ malloc <:+ b.malloc ∧ false ∈ b.malloc) ∨
    ∃ malloc, mm_malloc c b = .ok (some b.chains.next) { b with chains := b.chains.alloc c, malloc := malloc } ∧
      malloc <:+ b.malloc := by
  unfold mm_malloc
  rcases hm : b.malloc with _ | ⟨ok, malloc⟩
  · exact Or.inr ⟨[], rfl, List.suffix_rfl⟩
  · cases ok with
    | false => exact Or.inl ⟨malloc, rfl, List.suffix_cons _ _, List.mem_cons_self⟩
    | true => exact Or.inr ⟨malloc, rfl, List.suffix_cons _ _⟩

private theorem sizeToAlloc_ok (size : Nat) (b : Evbuffer) (hsize : size ≤ EVBUFFER_CHAIN_MAX) :
    ∃ t, sizeToAlloc size b = .ok t b ∧ size ≤ t ∧ MIN_BUFFER_SIZE ≤ t ∧ t ≤ EVBUFFER_CHAIN_MAX := by
  have hmax : EVBUFFER_CHAIN_MAX = 9223372036854775807 := rfl
  have hmin : MIN_BUFFER_SIZE = 1024 := rfl
  unfold sizeToAlloc
  by_cases hsmall : size < EVBUFFER_CHAIN_MAX / 2
  · obtain ⟨t, hr, hle, hge, hbound⟩ := doubleUp_ok size b 63 MIN_BUFFER_SIZE (by omega)
    rw [if_pos hsmall]
    exact ⟨t, hr, hle, hge, by omega⟩
  · rw [if_neg hsmall]
    exact ⟨size, rfl, le_rfl, by omega, hsize⟩

/-- A new chain is large enough; if there is none, the size is too large or `malloc` has failed. -/
theorem evbuffer_chain_new_cases (size : Nat) (b : Evbuffer) :
    (∃ malloc, evbuffer_chain_new size b = .ok none { b with malloc := malloc } ∧ malloc <:+ b.malloc ∧
      (EVBUFFER_CHAIN_MAX - EVBUFFER_CHAIN_SIZE < size ∨ false ∈ b.malloc)) ∨
    ∃ malloc c, evbuffer_chain_new size b =
        .ok (some b.chains.next) { b with chains := b.chains.alloc c, malloc := malloc } ∧
      malloc <:+ b.malloc ∧ c.Ok ∧ size ≤ c.buffer_len ∧ c.off = 0 ∧ c.misalign = 0 ∧ c.next = none := by
  unfold evbuffer_chain_new
  by_cases hlarge : EVBUFFER_CHAIN_MAX - EVBUFFER_CHAIN_SIZE < size
  · rw [if_pos hlarge]
    exact Or.inl ⟨b.malloc, rfl, List.suffix_rfl, Or.inl hlarge⟩
  · have hmax : EVBUFFER_CHAIN_MAX = 9223372036854775807 := rfl
    have hchain : EVBUFFER_CHAIN_SIZE = 48 := rfl
    have hmin : MIN_BUFFER_SIZE = 1024 := rfl
    obtain ⟨t, hr, hle, hge, hbound⟩ := sizeToAlloc_ok (size + EVBUFFER_CHAIN_SIZE) b (by omega)
    have hok : (⟨none, t - EVBUFFER_CHAIN_SIZE, 0, 0, fun _ => 0⟩ : EvbufferChain).Ok :=
      ⟨by simp, by simp; omega, by simp; omega, fun _ => rfl⟩
    rw [if_neg hlarge]
    show (∃ malloc, (sizeToAlloc _ >>= _) b = _ ∧ _) ∨ ∃ malloc c, (sizeToAlloc _ >>= _) b = _ ∧ _
    rw [bind_ok hr]
    rcases mm_malloc_cases ⟨none, t - EVBUFFER_CHAIN_SIZE, 0, 0, fun _ => 0⟩ b
      with ⟨malloc, h, hm, hfail⟩ | ⟨malloc, h, hm⟩
    · exact Or.inl ⟨malloc, h, hm, Or.inr hfail⟩
    · exact Or.inr ⟨malloc, _, h, hm, hok, by simp; omega, rfl, rfl, rfl⟩

/-! ### Changing the layout -/

section

variable {b : Evbuffer} {pre rest spare loose : List Node} {a : Nat} {c : EvbufferChain}

theorem Evbuffer.Laid.set_malloc (h : b.Laid pre rest loose) (malloc : List Bool) :
    Evbuffer.Laid { b with malloc := malloc } pre rest loose :=
  ⟨h.holds, h.first, h.last, h.slot, h.ok, h.full, h.spare, h.cur, h.total⟩

theorem Evbuffer.Laid.alloc (h : b.Laid pre rest loose) (c : EvbufferChain) (malloc : List Bool) :
    Evbuffer.Laid { b with chains := b.chains.alloc c, malloc := malloc } pre rest ((b.chains.next, c) :: loose) :=
  ⟨h.holds.alloc c, h.first, h.last, h.slot, h.ok, h.full, h.spare, h.cur, h.total⟩

/-- A chain that is not in the list may be changed. -/
theorem Evbuffer.Laid.set_loose (h : b.Laid pre rest ((a, c) :: loose)) (f : EvbufferChain → EvbufferChain) :
    (b.update a f).Laid pre rest ((a, f c) :: loose) :=
  ⟨h.holds.update_loose f, h.first, h.last, h.slot, h.ok, h.full, h.spare, h.cur, h.total⟩

/-- The current chain is changed and holds `k` more bytes. -/
theorem Evbuffer.Laid.set_cur (h : b.Laid pre ((a, c) :: spare) loose) {f : EvbufferChain → EvbufferChain}
    (hf : ∀ q, f (link q c) = link q (f c)) (hok : (f c).Ok) {k : Nat} (hk : (f c).off = c.off + k) :
    Evbuffer.Laid { b with chains := b.chains.update a f, total_len := b.total_len + k } pre
    ((a, f c) :: spare) loose where
  holds := h.holds.update hf
  first := by
    have hfirst := h.first
    simpa [head_append] using hfirst
  last := by
    have hlast := h.last
    rw [← List.getLast?_map] at hlast ⊢
    simpa using hlast
  slot := h.slot
  ok n hn := by
    have hall := h.ok n
    rcases List.mem_append.1 hn with hn | hn
    · exact hall (List.mem_append_left _ hn)
    · rcases List.mem_cons.1 hn with rfl | hn
      · exact hok
      · exact hall (List.mem_append_right _ (List.mem_cons_of_mem _ hn))
  full := h.full
  spare := h.spare
  cur hpre := by
    obtain ⟨n, hn, hoff⟩ := h.cur hpre
    obtain rfl : (a, c) = n := by simpa using hn
    refine ⟨(a, f c), by simp, ?_⟩
    show (f c).off ≠ 0
    have hoff : c.off ≠ 0 := hoff
    omega
  total := by
    have htotal := h.total
    simp only [content_append, content_cons, List.length_append, length_data] at htotal ⊢
    omega

/-- `*last_with_datap` is the first of `rest`. -/
theorem Evbuffer.Laid.readSlot (h : b.Laid pre rest loose) :
    readSlot b.last_with_datap b = .ok (head rest none) b := by
  rw [h.slot]
  refine readSlot_after h.holds.reads fun hpre => ?_
  rw [h.first, hpre, List.nil_append]

theorem Evbuffer.Laid.cell (h : b.Laid pre ((a, c) :: spare) loose) :
    b.chains.cell a = some (link (head spare none) c) := Holds.cell h.holds

/-- The first chain is put in. -/
theorem evbuffer_chain_insert_first (h : b.Laid [] [] [(a, c)]) (hc : c.Ok) (hnext : c.next = none) :
    ∃ b', evbuffer_chain_insert a b = .ok () b' ∧ b'.Laid [] [(a, c)] [] ∧ b.Alike b' := by
  have hcell : b.chains.cell a = some c := h.holds.cell_loose (by simp)
  have hfirst : b.first = none := h.first
  have hslot : readSlot b.last_with_datap b = .ok none b := h.readSlot
  unfold evbuffer_chain_insert
  rw [get_bind, bind_ok (getChain_of_cell hcell), bind_ok hslot]
  simp only
  rw [bind_ok (assert_ok (show b.last_with_datap = .first from h.slot)), bind_ok (assert_ok hfirst)]
  have hholds : Holds b.chains [(a, c)] none [] := by
    have hloose := h.holds.of_nil (some a)
    rw [← link_none hnext] at hloose
    exact hloose.attach
  refine ⟨_, rfl, ⟨hholds, rfl, rfl, h.slot, by simpa using hc, by simp, by simp, by simp, ?_⟩,
    rfl, rfl, rfl, List.suffix_rfl⟩
  have htotal := h.total
  simpa using htotal

end

end LibeventServer

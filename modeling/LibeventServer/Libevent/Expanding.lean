import LibeventServer.Libevent.Chains

/-!
# Making space in an evbuffer

`_evbuffer_expand_fast` makes sure that the last `n` chains with space have place for `datlen` bytes, from the last
one with data on.  It does so by leaving things as they are, by putting one more empty chain to the end, or by
replacing all empty chains by one.  The content stays as it is, also when `malloc` fails (`evbuffer_expand_fast_ok`).
-/

namespace LibeventServer

open EStateM Linked LinkedList

/-! ### Space -/

/-- The space in the first `n` chains of `l` that have some. -/
def room : List Node → Nat → Nat
  | [], _ => 0
  | x :: l, n =>
    if x.2.spaceLen = 0 then room l n
    else if n = 0 then 0
    else x.2.spaceLen + room l (n - 1)

/-- How many chains of `l` have space. -/
def spacious (l : List Node) : Nat := l.countP fun x => x.2.spaceLen ≠ 0

theorem room_zero (l : List Node) : room l 0 = 0 := by
  induction l with
  | nil => rfl
  | cons x l ih =>
    rw [room]
    split_ifs
    · exact ih
    · rfl
    · contradiction

theorem room_cons_of_eq {x : Node} (h : x.2.spaceLen = 0) (l : List Node) (n : Nat) : room (x :: l) n = room l n := by
  rw [room, if_pos h]

theorem room_cons_of_ne {x : Node} (h : x.2.spaceLen ≠ 0) (l : List Node) (n : Nat) :
    room (x :: l) (n + 1) = x.2.spaceLen + room l n := by
  rw [room, if_neg h, if_neg (Nat.succ_ne_zero n), Nat.add_sub_cancel]

private theorem spacious_cons (x : Node) (l : List Node) :
    spacious (x :: l) = (if x.2.spaceLen = 0 then 0 else 1) + spacious l := by
  rw [spacious, List.countP_cons, spacious]
  by_cases h : x.2.spaceLen = 0 <;> simp [h, Nat.add_comm]

/-- One more chain is looked at if fewer than `n` have space. -/
private theorem room_append_singleton {l : List Node} (x : Node) : ∀ {n : Nat}, spacious l < n →
    room (l ++ [x]) n = room l n + x.2.spaceLen := by
  induction l with
  | nil =>
    intro n hn
    obtain ⟨n, rfl⟩ : ∃ m, n = m + 1 := ⟨n - 1, by omega⟩
    by_cases hx : x.2.spaceLen = 0
    · simp [room, hx]
    · simp [room, hx]
  | cons y l ih =>
    intro n hn
    rw [spacious_cons] at hn
    by_cases hy : y.2.spaceLen = 0
    · rw [if_pos hy] at hn
      rw [List.cons_append, room_cons_of_eq hy, room_cons_of_eq hy, ih (by omega)]
    · rw [if_neg hy] at hn
      obtain ⟨n, rfl⟩ : ∃ m, n = m + 1 := ⟨n - 1, by omega⟩
      rw [List.cons_append, room_cons_of_ne hy, room_cons_of_ne hy, ih (by omega), Nat.add_assoc]

private theorem spaceLen_le_room (x : Node) (l : List Node) (n : Nat) : x.2.spaceLen ≤ room (x :: l) (n + 1) := by
  by_cases hx : x.2.spaceLen = 0
  · omega
  · rw [room_cons_of_ne hx]
    omega

/-- An empty chain has its whole buffer as space. -/
theorem EvbufferChain.Ok.spaceLen_of_empty {c : EvbufferChain} (h : c.Ok) (hoff : c.off = 0) :
    c.spaceLen = c.buffer_len := by
  have hmisalign := h.aligned hoff
  unfold EvbufferChain.spaceLen
  omega

/-! ### Looking for space -/

/-- A chain counts if it has space.  An empty one is aligned already, so that nothing changes. -/
private theorem countSpace_ok {b : Evbuffer} {a used avail : Nat} {c : EvbufferChain} {q : Option Nat}
    (hcell : b.chains.cell a = some (link q c)) (hc : c.Ok)
    (hcur : c.off ≠ 0 → readSlot b.last_with_datap b = .ok (some a) b) :
    countSpace a used avail b = .ok (if c.spaceLen = 0 then (used, avail) else (used + 1, avail + c.spaceLen)) b := by
  unfold countSpace
  rw [bind_ok (getChain_of_cell hcell), off_link, spaceLen_link, buffer_len_link]
  by_cases hoff : c.off = 0
  · have hspace : c.spaceLen ≠ 0 := by
      rw [hc.spaceLen_of_empty hoff]
      exact hc.pos.ne'
    have hsame : b.update a (fun c => { c with misalign := 0 }) = b := by
      have hupdate : b.chains.update a (fun c => { c with misalign := 0 }) = b.chains := by
        refine Heap.update_of_eq fun c' hc' => ?_
        obtain rfl : link q c = c' := Option.some.inj (hcell.symm.trans hc')
        rw [← hc.aligned hoff]
        rfl
      rw [Evbuffer.update, hupdate]
    rw [if_neg (not_not.2 hoff), bind_ok (setChain_of_cell hcell _), hsame, if_neg hspace, hc.spaceLen_of_empty hoff]
    rfl
  · rw [if_pos hoff, get_bind, bind_ok (hcur hoff), bind_ok (assert_ok rfl)]
    by_cases hspace : c.spaceLen = 0
    · simp [hspace]
    · simp [hspace]

/-- The loop changes nothing, and finds out whether the chains from `l` on have enough space. -/
private theorem expandLoop_ok {b : Evbuffer} (datlen : Nat) {n : Nat} {l : List Node} :
    ∀ {k : Nat} (used avail : Nat), Reads b.chains l none → (∀ x ∈ l, x.2.Ok) →
    (∀ x ∈ l, x.2.off ≠ 0 → readSlot b.last_with_datap b = .ok (some x.1) b) → l.length ≤ k → used < n →
    avail < datlen ∨ l ≠ [] →
    (expandLoop datlen n k (head l none) used avail b = .ok .enough b ∧ datlen ≤ avail + room l (n - used)) ∨
    ∃ chain used', expandLoop datlen n k (head l none) used avail b =
        .ok (.short chain used' (avail + room l (n - used))) b ∧
      avail + room l (n - used) < datlen ∧ (used' < n → chain = none ∧ used' = used + spacious l) := by
  induction l with
  | nil =>
    intro k used avail _ _ _ _ _ hshort
    refine Or.inr ⟨none, used, ?_, by simpa [room] using hshort, fun _ => ⟨rfl, rfl⟩⟩
    cases k <;> rfl
  | cons x l ih =>
    intro k used avail hr hok hcur hk hused hshort
    obtain ⟨a, c⟩ := x
    obtain ⟨hcell, hr⟩ := reads_cons.1 hr
    have hc : c.Ok := hok (a, c) List.mem_cons_self
    obtain ⟨k, rfl⟩ : ∃ m, k = m + 1 := ⟨k - 1, by simp at hk; omega⟩
    have hcur' : ∀ x ∈ l, x.2.off ≠ 0 → readSlot b.last_with_datap b = .ok (some x.1) b :=
      fun x hx => hcur x (List.mem_cons_of_mem _ hx)
    have hok' : ∀ x ∈ l, x.2.Ok := fun x hx => hok x (List.mem_cons_of_mem _ hx)
    have hk' : l.length ≤ k := by simpa using hk
    rw [head_cons, expandLoop, bind_ok (countSpace_ok hcell hc (hcur (a, c) List.mem_cons_self))]
    by_cases hspace : c.spaceLen = 0
    · -- a chain without space is not counted
      have hroom : room ((a, c) :: l) (n - used) = room l (n - used) := room_cons_of_eq hspace l _
      simp only [hspace, if_true, hroom, spacious_cons, Nat.zero_add]
      by_cases henough : datlen ≤ avail
      · rw [if_pos henough]
        exact Or.inl ⟨rfl, by omega⟩
      · rw [if_neg henough, if_neg (by omega), bind_ok (getChain_of_cell hcell)]
        exact ih used avail hr hok' hcur' hk' hused (Or.inl (by omega))
    · have hroom : room ((a, c) :: l) (n - used) = c.spaceLen + room l (n - (used + 1)) := by
        have hcons := room_cons_of_ne (x := (a, c)) hspace l (n - (used + 1))
        rwa [show n - (used + 1) + 1 = n - used by omega] at hcons
      simp only [hspace, if_false, hroom, spacious_cons]
      by_cases henough : datlen ≤ avail + c.spaceLen
      · rw [if_pos henough]
        exact Or.inl ⟨rfl, by omega⟩
      · rw [if_neg henough]
        -- the loop gives up at the `n`th chain with space
        by_cases hfull : used + 1 = n
        · have hzero : room l (n - (used + 1)) = 0 := by
            rw [hfull, Nat.sub_self, room_zero]
          rw [if_pos hfull, hzero]
          exact Or.inr ⟨some a, used + 1, rfl, by omega, fun hlt => by omega⟩
        · rw [if_neg hfull, bind_ok (getChain_of_cell hcell), next_link']
          have hrest := ih (used + 1) (avail + c.spaceLen) hr hok' hcur' hk' (by omega)
            (Or.inl (by omega))
          simpa only [Nat.add_assoc] using hrest

/-! ### Making space -/

/-- The empty chains behind the current one have been replaced. -/
private theorem Evbuffer.Laid.replace_spare {b : Evbuffer} {pre spare spare' loose loose' : List Node} {n : Node}
    (h : b.Laid pre (n :: spare) loose) {chains : Heap EvbufferChain}
    (hh : Holds chains (pre ++ n :: spare') none loose')
    (hspare : ∀ x ∈ spare', x.2.Ok ∧ x.2.off = 0) (malloc : List Bool) :
    Evbuffer.Laid { b with
      chains := chains
      last := (n :: spare').getLast?.map Prod.fst
      malloc := malloc } pre (n :: spare') loose' where
  holds := hh
  first := by
    have hfirst := h.first
    simpa [head_append] using hfirst
  last := by
    show _ = (pre ++ n :: spare').getLast?.map Prod.fst
    rw [List.getLast?_append_of_ne_nil pre (List.cons_ne_nil n spare')]
  slot := h.slot
  ok x hx := by
    rcases List.mem_append.1 hx with hx | hx
    · exact h.ok x (List.mem_append_left _ hx)
    · rcases List.mem_cons.1 hx with rfl | hx
      · exact h.ok x (by simp)
      · exact (hspare x hx).1
  full := h.full
  spare x hx := (hspare x hx).2
  cur := h.cur
  total := by
    have htotal := h.total
    rw [content_append, content_cons, content_eq_nil (l := spare) h.spare] at htotal
    rw [content_append, content_cons, content_eq_nil fun x hx => (hspare x hx).2]
    exact htotal

/-- What `_evbuffer_expand_fast` does. -/
def Evbuffer.Expanded (b : Evbuffer) (bytes : List UInt8) (datlen n : Nat) (r : Int) (b' : Evbuffer) : Prop :=
  b.Alike b' ∧ ∃ pre rest, b'.Laid pre rest [] ∧ content (pre ++ rest) = bytes ∧
    (r = 0 ∧ rest ≠ [] ∧ datlen ≤ room rest n ∨
      r = -1 ∧ (EVBUFFER_CHAIN_MAX - EVBUFFER_CHAIN_SIZE < datlen ∨ false ∈ b.malloc))

/-- Empty chains add nothing. -/
private theorem content_of_spare {spare : List Node} (n : Node) (h : ∀ x ∈ spare, x.2.off = 0) :
    content (n :: spare) = n.2.data := by
  rw [content_cons, content_eq_nil h, List.append_nil]

/-- One more chain is put to the end. -/
private theorem appendEmptyChain_ok {b : Evbuffer} {pre rest : List Node} {datlen n : Nat} (h : b.Laid pre rest [])
    (hne : rest ≠ []) (hspacious : spacious rest < n) :
    ∃ r b', appendEmptyChain (datlen - room rest n) b = .ok r b' ∧
    b.Expanded (content (pre ++ rest)) datlen n r b' := by
  unfold appendEmptyChain
  rcases evbuffer_chain_new_cases (datlen - room rest n) b with
    ⟨malloc, hnew, hm, hfail⟩ | ⟨malloc, d, hnew, hm, hd, hlen, hempty, -, hnext⟩
  · rw [bind_ok hnew]
    refine ⟨-1, _, rfl, ⟨rfl, rfl, rfl, hm⟩, pre, rest, h.set_malloc malloc, rfl, Or.inr ⟨rfl, ?_⟩⟩
    exact hfail.imp_left fun hlt => by omega
  · rw [bind_ok hnew]
    -- the last chain may be the current one or an empty one behind it
    obtain ⟨init, ⟨a, c⟩, hsplit⟩ : ∃ init n, pre ++ rest = init ++ [n] := by
      obtain ⟨init, n, hconcat⟩ := (List.eq_nil_or_concat (pre ++ rest)).resolve_left (by simp [hne])
      exact ⟨init, n, by rw [hconcat, List.concat_eq_append]⟩
    have hlaid := h.alloc d malloc
    generalize b.chains.next = t at hlaid
    have hholds := hlaid.holds
    rw [hsplit] at hholds
    have hlast : b.last = some a := by
      rw [h.last, hsplit]
      simp
    obtain ⟨x, rest, rfl⟩ := List.exists_cons_of_ne_nil hne
    have hattach : Holds ((b.chains.alloc d).update a (link (some t))) (pre ++ x :: (rest ++ [(t, d)])) none [] := by
      have hrelink : Holds ((b.chains.alloc d).update a (link (some t))) (init ++ [(a, c)])
        (some t) [(t, link none d)] := by
        rw [link_none hnext]
        exact hholds.relink (some t)
      have hattach := hrelink.attach
      rwa [← hsplit, List.append_assoc, List.cons_append] at hattach
    have hcell : (b.chains.alloc d).cell a = some (link none c) := Holds.cell hholds
    simp only
    rw [get_bind]
    simp only [hlast]
    rw [bind_ok (setChain_of_cell hcell _)]
    have hspare : ∀ y ∈ rest ++ [(t, d)], y.2.Ok ∧ y.2.off = 0 := by
      intro y hy
      rcases List.mem_append.1 hy with hy | hy
      · exact ⟨h.ok y (by simp [hy]), h.spare y hy⟩
      · obtain rfl : y = (t, d) := by simpa using hy
        exact ⟨hd, hempty⟩
    refine ⟨0, _, rfl, ⟨rfl, rfl, rfl, hm⟩, pre, x :: (rest ++ [(t, d)]), ?_, ?_, Or.inl ⟨rfl, by simp, ?_⟩⟩
    · have hreplace := h.replace_spare hattach hspare malloc
      rwa [← List.cons_append, List.getLast?_concat] at hreplace
    · have hrest : ∀ y ∈ rest, y.2.off = 0 := h.spare
      rw [content_append, content_append, content_of_spare x hrest, content_of_spare x fun y hy => (hspare y hy).2]
    · rw [← List.cons_append, room_append_singleton (t, d) hspacious, hd.spaceLen_of_empty hempty]
      omega

private theorem freeEmptyChains_ok {l : List Node} : ∀ {b : Evbuffer} {n : Nat}, Reads b.chains l none →
    (addresses l).Nodup → (∀ x ∈ l, x.2.off = 0) → l.length ≤ n →
    freeEmptyChains n (head l none) b = .ok () { b with chains := (addresses l).foldl Heap.free b.chains } := by
  induction l with
  | nil =>
    intro b n _ _ _ _
    cases n <;> rfl
  | cons x l ih =>
    intro b n hr hnodup hempty hn
    obtain ⟨a, c⟩ := x
    obtain ⟨hcell, hr⟩ := reads_cons.1 hr
    obtain ⟨ha, hnodup⟩ := List.nodup_cons.1 hnodup
    have hc : c.off = 0 := hempty (a, c) List.mem_cons_self
    obtain ⟨n, rfl⟩ : ∃ m, n = m + 1 := ⟨n - 1, by simp at hn; omega⟩
    rw [head_cons, freeEmptyChains, bind_ok (getChain_of_cell hcell), bind_ok (assert_ok (by simpa using hc))]
    rw [bind_ok (evbuffer_chain_free_of_cell hcell)]
    exact ih (b := { b with chains := b.chains.free a }) (hr.free ha) hnodup
      (fun y hy => hempty y (List.mem_cons_of_mem _ hy)) (by simpa using hn)

/-- A buffer without data gets one chain in place of all. -/
private theorem replaceEmptyChains_all {b : Evbuffer} {spare : List Node} {a datlen n : Nat} {c : EvbufferChain}
    (h : b.Laid [] ((a, c) :: spare) []) (hoff : c.off = 0) (hn : 0 < n) :
    ∃ r b', replaceEmptyChains datlen b = .ok r b' ∧ b.Expanded [] datlen n r b' := by
  have hempty : ∀ x ∈ (a, c) :: spare, x.2.off = 0 := List.forall_mem_cons.2 ⟨hoff, h.spare⟩
  have hnodup : (addresses ((a, c) :: spare)).Nodup := (List.nodup_append.1 h.holds.nodup).1
  have hlength := h.holds.length_le
  -- the current chain is freed with the others
  have hfree := freeEmptyChains_ok (l := (a, c) :: spare) (n := b.chains.next + 1) h.holds.reads hnodup hempty
    (by simp at hlength ⊢; omega)
  have hholds : Holds ((addresses ((a, c) :: spare)).foldl Heap.free b.chains) [] none [] :=
    Holds.free_front (m := []) (by rw [List.append_nil]; exact h.holds)
  have htotal : b.total_len = 0 := by
    rw [h.total, List.nil_append, content_eq_nil hempty, List.length_nil]
  generalize (addresses ((a, c) :: spare)).foldl Heap.free b.chains = chains at hfree hholds
  rw [head_cons] at hfree
  unfold replaceEmptyChains
  rw [get_bind, bind_ok h.readSlot, head_cons, bind_ok (getChain_of_cell h.cell), off_link]
  simp only [hoff, if_true]
  rw [bind_ok (assert_ok (show some a = b.first from h.first.symm)), fuel_bind, bind_ok hfree]
  rw [bind_ok (assert_ok (by rw [if_pos hoff]; exact Nat.zero_le _)), Nat.sub_zero]
  rcases evbuffer_chain_new_cases datlen { b with chains := chains } with
    ⟨malloc, hnew, hm, hfail⟩ | ⟨malloc, d, hnew, hm, hd, hlen, hempty, -, hnext⟩
  · rw [bind_ok hnew]
    refine ⟨-1, _, rfl, ⟨rfl, rfl, rfl, hm⟩, [], [], ⟨hholds, rfl, rfl, rfl, ?_, ?_, ?_, ?_, rfl⟩, rfl,
      Or.inr ⟨rfl, hfail⟩⟩
    all_goals simp
  · rw [bind_ok hnew]
    have hnew' : Holds (chains.alloc d) [(chains.next, d)] none [] := Holds.attach (l := [])
      (by rw [link_none hnext]; exact (hholds.alloc d).of_nil _)
    have hroom : datlen ≤ room [(chains.next, d)] n := by
      rw [← List.nil_append [_], room_append_singleton _ hn, hd.spaceLen_of_empty hempty]
      omega
    refine ⟨0, _, rfl, ⟨rfl, rfl, rfl, hm⟩, [], [(chains.next, d)], ⟨hnew', rfl, rfl, rfl, ?_, ?_, ?_, ?_, ?_⟩, ?_,
      Or.inl ⟨rfl, by simp, hroom⟩⟩
    · simpa using hd
    · simp
    · simp
    · simp
    · simpa [hempty] using htotal
    · exact content_eq_nil (by simpa using hempty)

/-- The empty chains behind the current one are freed, and one that is long enough is put there if `malloc` allows. -/
private theorem replaceEmptyChains_spare {b : Evbuffer} {pre spare : List Node} {a datlen n : Nat} {c : EvbufferChain}
    (h : b.Laid pre ((a, c) :: spare) []) (hoff : c.off ≠ 0) (hn : 2 ≤ n) (hspace : c.spaceLen ≤ datlen) :
    ∃ r b', replaceEmptyChains datlen b = .ok r b' ∧ b.Expanded (content (pre ++ [(a, c)])) datlen n r b' := by
  have hnodup : (addresses spare).Nodup := by
    have hnodup := (List.nodup_append.1 h.holds.nodup).1
    rw [addresses_append, addresses_cons] at hnodup
    exact (List.nodup_cons.1 (List.nodup_append.1 hnodup).2.1).2
  have hlength := h.holds.length_le
  have hreads := (reads_append.1 h.holds.reads).2
  have hfree := freeEmptyChains_ok (n := b.chains.next + 1) (reads_cons.1 hreads).2 hnodup h.spare
    (by simp at hlength ⊢; omega)
  -- the current chain still points to what was freed, until it is linked anew
  have hholds : Holds ((addresses spare).foldl Heap.free b.chains) (pre ++ [(a, c)]) (head spare none) [] :=
    Holds.free_tail (by rw [List.append_assoc]; exact h.holds)
  generalize (addresses spare).foldl Heap.free b.chains = chains at hfree hholds
  have hcell := Holds.cell (l := pre) hholds
  rw [head_nil] at hcell
  unfold replaceEmptyChains
  rw [get_bind, bind_ok h.readSlot, head_cons, bind_ok (getChain_of_cell h.cell), off_link]
  simp only [hoff, if_false]
  rw [fuel_bind, next_link', bind_ok hfree, bind_ok (assert_ok (by rw [if_neg hoff]; exact hspace)), spaceLen_link]
  rcases evbuffer_chain_new_cases (datlen - c.spaceLen) { b with chains := chains } with
    ⟨malloc, hnew, hm, hfail⟩ | ⟨malloc, d, hnew, hm, hd, hlen, hempty, -, hnext⟩
  · rw [bind_ok hnew]
    simp only
    rw [setBuf_bind, bind_ok (setChain_of_cell hcell _)]
    have hlaid := h.replace_spare (hholds.relink none) (by simp) malloc
    refine ⟨-1, _, rfl, ⟨rfl, rfl, rfl, hm⟩, pre, _, hlaid, rfl, Or.inr ⟨rfl, ?_⟩⟩
    exact hfail.imp_left fun hlt => by omega
  · rw [bind_ok hnew]
    have hrelink : Holds ((chains.alloc d).update a (link (some chains.next))) (pre ++ [(a, c)]) (some chains.next)
        [(chains.next, link none d)] := by
      rw [link_none hnext]
      exact (hholds.alloc d).relink _
    have hattach := hrelink.attach
    rw [List.append_assoc, List.singleton_append] at hattach
    have hspare : ∀ x ∈ [(chains.next, d)], x.2.Ok ∧ x.2.off = 0 := by simpa using ⟨hd, hempty⟩
    have hlaid := h.replace_spare hattach hspare malloc
    have hcell' := Holds.cell (l := pre) (hholds.alloc d)
    simp only
    rw [bind_ok (setChain_of_cell hcell' _)]
    refine ⟨0, _, rfl, ⟨rfl, rfl, rfl, hm⟩, pre, _, hlaid, ?_, Or.inl ⟨rfl, by simp, ?_⟩⟩
    · rw [content_append, content_append, content_of_spare _ fun x hx => (hspare x hx).2,
        content_of_spare _ (by simp)]
    · have hone : spacious [(a, c)] < n := by
        rw [spacious_cons]
        split_ifs <;> simp [spacious] <;> omega
      rw [← List.singleton_append, room_append_singleton _ hone, hd.spaceLen_of_empty hempty]
      have hcur := spaceLen_le_room (a, c) [] (n - 1)
      rw [Nat.sub_add_cancel (by omega)] at hcur
      simp only at hcur
      omega

/-- A buffer without chains gets one. -/
private theorem evbuffer_expand_fast_first {b : Evbuffer} {datlen n : Nat} (h : b.Laid [] [] []) (hn : 2 ≤ n) :
    ∃ r b', evbuffer_expand_fast datlen n b = .ok r b' ∧ b.Expanded [] datlen n r b' := by
  have hlast : b.last = none := h.last
  unfold evbuffer_expand_fast
  rw [get_bind, bind_ok (assert_ok hn)]
  simp only [hlast]
  rcases evbuffer_chain_new_cases datlen b with
    ⟨malloc, hnew, hm, hfail⟩ | ⟨malloc, d, hnew, hm, hd, hlen, hempty, -, hnext⟩
  · rw [bind_ok hnew]
    exact ⟨-1, _, rfl, ⟨rfl, rfl, rfl, hm⟩, [], [], h.set_malloc malloc, rfl, Or.inr ⟨rfl, hfail⟩⟩
  · rw [bind_ok hnew]
    obtain ⟨b', hinsert, hlaid, halike⟩ := evbuffer_chain_insert_first (h.alloc d malloc) hd hnext
    simp only
    rw [bind_ok hinsert]
    have hroom : datlen ≤ room [(b.chains.next, d)] n := by
      rw [← List.nil_append [_], room_append_singleton _ (by simp [spacious]; omega), hd.spaceLen_of_empty hempty]
      omega
    refine ⟨0, b', rfl, ⟨halike.freeze_start, halike.freeze_end, halike.sent, halike.malloc.trans hm⟩,
      [], _, hlaid, ?_, Or.inl ⟨rfl, by simp, hroom⟩⟩
    exact content_eq_nil (by simpa using hempty)

/-- Space for `datlen` bytes is made, or there is no memory for it; the content is as it was. -/
theorem evbuffer_expand_fast_ok {b : Evbuffer} {bytes : List UInt8} (datlen : Nat) {n : Nat} (h : b.Carries bytes)
    (hn : 2 ≤ n) :
    ∃ r b', evbuffer_expand_fast datlen n b = .ok r b' ∧ b.Expanded bytes datlen n r b' := by
  obtain ⟨pre, rest, hlaid, rfl⟩ := h
  cases rest with
  | nil =>
    have hpre : pre = [] := by
      by_contra hne
      obtain ⟨x, hx, -⟩ := hlaid.cur hne
      simp at hx
    subst hpre
    exact evbuffer_expand_fast_first hlaid hn
  | cons x spare =>
    obtain ⟨a, c⟩ := x
    obtain ⟨last, hlast⟩ : ∃ last, b.last = some last := by
      rw [hlaid.last, List.getLast?_append_of_ne_nil _ (List.cons_ne_nil _ _),
        List.getLast?_eq_getLast_of_ne_nil (List.cons_ne_nil _ _)]
      exact ⟨_, rfl⟩
    have hlength := hlaid.holds.length_le
    have hcur : ∀ y ∈ (a, c) :: spare, y.2.off ≠ 0 → readSlot b.last_with_datap b = .ok (some y.1) b := by
      intro y hy hoff
      rcases List.mem_cons.1 hy with rfl | hy
      · exact hlaid.readSlot
      · exact absurd (hlaid.spare y hy) hoff
    have hloop := expandLoop_ok datlen (n := n) (k := b.chains.next + 1) 0 0
      (reads_append.1 hlaid.holds.reads).2 (fun y hy => hlaid.ok y (List.mem_append_right _ hy)) hcur
      (by simp at hlength ⊢; omega) (by omega) (Or.inr (List.cons_ne_nil _ _))
    rw [Nat.sub_zero, Nat.zero_add] at hloop
    unfold evbuffer_expand_fast
    rw [get_bind, bind_ok (assert_ok hn)]
    simp only [hlast]
    rw [fuel_bind, bind_ok hlaid.readSlot]
    rcases hloop with ⟨hloop, hroom⟩ | ⟨chain, used, hloop, hroom, hused⟩
    · rw [bind_ok hloop]
      exact ⟨0, b, rfl, .refl b, pre, _, hlaid, rfl, Or.inl ⟨rfl, List.cons_ne_nil _ _, hroom⟩⟩
    · rw [bind_ok hloop]
      simp only
      by_cases hlt : used < n
      · -- fewer than `n` chains have space: one more may be added
        obtain ⟨hchain, rfl⟩ := hused hlt
        rw [if_pos hlt, bind_ok (assert_ok hchain)]
        exact appendEmptyChain_ok hlaid (List.cons_ne_nil _ _) (by omega)
      · rw [if_neg hlt]
        -- there are `n` already, which are replaced by one; it depends on whether the current one has data
        by_cases hoff : c.off = 0
        · have hpre : pre = [] := by
            by_contra hne
            obtain ⟨x, hx, hfull⟩ := hlaid.cur hne
            obtain rfl : (a, c) = x := by simpa using hx
            exact hfull hoff
          subst hpre
          have hempty : ∀ y ∈ (a, c) :: spare, y.2.off = 0 := List.forall_mem_cons.2 ⟨hoff, hlaid.spare⟩
          rw [List.nil_append, content_eq_nil hempty]
          exact replaceEmptyChains_all hlaid hoff (by omega)
        · have hspace := spaceLen_le_room (a, c) spare (n - 1)
          rw [Nat.sub_add_cancel (by omega)] at hspace
          have hspare : ∀ y ∈ spare, y.2.off = 0 := hlaid.spare
          have hcontent : content (pre ++ (a, c) :: spare) = content (pre ++ [(a, c)]) := by
            rw [content_append, content_append, content_of_spare _ hspare, content_of_spare _ (by simp)]
          rw [hcontent]
          exact replaceEmptyChains_spare hlaid hoff hn (hspace.trans hroom.le)

end LibeventServer

import LibeventServer.Libevent.Chains

/-!
# Taking data out of an evbuffer

`evbuffer_copyout` copies from the front of the content and `evbuffer_drain` takes that many bytes away, for any
chains; both walk along the chains and stop inside one.  `evbuffer_remove` is one after the other.
-/

namespace LibeventServer

open EStateM Linked LinkedList

/-! ### Copying -/

/-- The loop copies the first `d` bytes the chains hold. -/
private theorem copyChains_ok {l : List Node} :
    ∀ {b : Evbuffer} {n d : Nat} {data : List UInt8}, Reads b.chains l none →
    (∀ x ∈ l, x.2.Ok) → d ≤ (content l).length → l.length < n →
    copyChains n (head l none) d data b = .ok (data ++ (content l).take d) b := by
  induction l with
  | nil =>
    intro b n d data _ _ hd hn
    obtain ⟨n, rfl⟩ : ∃ m, n = m + 1 := ⟨n - 1, by omega⟩
    obtain rfl : d = 0 := by simpa using hd
    simp [copyChains]
  | cons x l ih =>
    intro b n d data hr hok hd hn
    obtain ⟨a, c⟩ := x
    obtain ⟨hcell, hr⟩ := reads_cons.1 hr
    obtain ⟨n, rfl⟩ : ∃ m, n = m + 1 := ⟨n - 1, by omega⟩
    have hc : c.Ok := hok (a, c) List.mem_cons_self
    have hlen : (c.data ++ content l).length = c.off + (content l).length := by simp
    rw [head_cons, copyChains]
    by_cases hzero : d = 0
    · subst hzero
      simp
    · rw [if_neg hzero, bind_ok (getChain_of_cell hcell)]
      simp only [off_link, misalign_link, next_link']
      by_cases hall : c.off ≤ d
      · have hd' : d - c.off ≤ (content l).length := by
          rw [content_cons, hlen] at hd
          omega
        -- a chain that is copied whole is followed by another one, or nothing is left to copy
        have hassert : (head l none).isSome ∨ d - c.off = 0 := by
          cases l with
          | nil => exact Or.inr (by simpa using hd')
          | cons y l => exact Or.inl rfl
        rw [if_pos hall, bind_ok (loadChain_of_cell hcell hc.fits), bind_ok (assert_ok hassert)]
        rw [ih hr (fun y hy => hok y (List.mem_cons_of_mem _ hy)) hd' (by simpa using hn), content_cons]
        simp [List.take_append, EvbufferChain.data, Bytes.take_slice, hall]
      · -- the part of a chain with which the loop ends
        have hfits : c.misalign + d ≤ c.buffer_len := by
          have := hc.fits
          omega
        have htake : (content ((a, c) :: l)).take d = c.buffer.slice c.misalign d := by
          rw [content_cons, List.take_append_of_le_length (by simp; omega)]
          rw [EvbufferChain.data, Bytes.take_slice, Nat.min_eq_left (Nat.le_of_not_le hall)]
        rw [if_neg hall, bind_ok (loadChain_of_cell hcell hfits), htake]
        rfl

private theorem evbuffer_copyout_ok {b : Evbuffer} {pre rest : List Node} (h : b.Laid pre rest [])
    (hfreeze : b.freeze_start = false) (n : Nat) : evbuffer_copyout n b =
      .ok ((((content (pre ++ rest)).take n).length : Int), (content (pre ++ rest)).take n) b := by
  have htotal := h.total
  unfold evbuffer_copyout
  rw [get_bind]
  by_cases hzero : (if b.total_len ≤ n then b.total_len else n) = 0
  · have hempty : (content (pre ++ rest)).take n = [] := by
      split_ifs at hzero with hle
      · rw [List.length_eq_zero_iff.1 (htotal.symm.trans hzero), List.take_nil]
      · rw [hzero, List.take_zero]
    simp only [hzero, hempty, if_true]
    rfl
  · have hfuel : (pre ++ rest).length < b.chains.next + 1 := by
      have := h.holds.length_le
      simp only [List.length_nil] at this
      omega
    have hmin : (if b.total_len ≤ n then b.total_len else n) = min n (content (pre ++ rest)).length := by
      rw [← htotal]
      split_ifs <;> omega
    simp only [hmin] at hzero ⊢
    rw [if_neg hzero, hfreeze, h.first]
    simp only [Bool.false_eq_true, if_false]
    rw [bind_ok (show fuel b = .ok (b.chains.next + 1) b from rfl)]
    rw [bind_ok (copyChains_ok h.holds.reads h.ok (Nat.min_le_right _ _) hfuel)]
    rw [List.nil_append, ← List.take_take, List.take_length, List.length_take]
    rfl

/-! ### Draining -/

/-- The loop frees the chains `gone`, which hold no more than is to be drained, and stops at one that holds more than
remains to be drained. -/
private theorem drainChains_ok {rest : List Node} (hspare : ∀ m ∈ rest.tail, m.2.off = 0) {pre : List Node} :
    ∀ {b : Evbuffer} {n r : Nat}, Reads b.chains (pre ++ rest) none → (addresses (pre ++ rest)).Nodup →
    b.last_with_datap = slotAfter pre → r < (content (pre ++ rest)).length → pre.length < n →
    ∃ gone pre' a c l, pre = gone ++ pre' ∧ pre' ++ rest = (a, c) :: l ∧ (content gone).length ≤ r ∧
      r - (content gone).length < c.off ∧
      drainChains n (head (pre ++ rest) none) r b = .ok (some a, r - (content gone).length)
        { b with chains := (addresses gone).foldl Heap.free b.chains, last_with_datap := slotAfter pre' } := by
  induction pre with
  | nil =>
    intro b n r hr _ hslot hlt hn
    obtain ⟨n, rfl⟩ : ∃ m, n = m + 1 := ⟨n - 1, by omega⟩
    cases rest with
    | nil => simp at hlt
    | cons x l =>
      -- all of the content is in the first chain, which is not used up
      obtain ⟨a, c⟩ := x
      have hspare : ∀ m ∈ l, m.2.off = 0 := hspare
      have hoff : r < c.off := by
        rw [List.nil_append, content_cons, content_eq_nil hspare] at hlt
        simpa using hlt
      refine ⟨[], [], a, c, l, rfl, rfl, Nat.zero_le _, by simpa using hoff, ?_⟩
      obtain ⟨hcell, -⟩ := reads_cons.1 hr
      rw [List.nil_append, head_cons, drainChains, bind_ok (getChain_of_cell hcell), off_link, if_neg (by omega)]
      simp [← hslot]
  | cons x pre ih =>
    intro b n r hr hnodup hslot hlt hn
    obtain ⟨a, c⟩ := x
    obtain ⟨n, rfl⟩ : ∃ m, n = m + 1 := ⟨n - 1, by omega⟩
    obtain ⟨hcell, hr'⟩ := reads_cons.1 hr
    by_cases hall : c.off ≤ r
    · obtain ⟨ha, hnodup⟩ := List.nodup_cons.1 hnodup
      have hhead : some a ≠ head rest none := by
        cases rest with
        | nil => simp
        | cons y rest =>
          rintro heq
          cases heq
          exact ha (by simp)
      rw [List.cons_append, head_cons, drainChains, bind_ok (getChain_of_cell hcell), off_link, if_pos hall, get_bind]
      simp only [hslot]
      rw [bind_ok (readSlot_after hr fun h => by cases h)]
      simp only [hhead, if_false]
      -- `last_with_datap` must not point into the chain that is about to be freed
      have hreset : (if b.last_with_datap = .next a then { b with last_with_datap := .first } else b) =
          { b with last_with_datap := slotAfter pre } := by
        rw [hslot]
        by_cases hpre : pre = []
        · subst hpre
          simp [slotAfter]
        · have hne : slotAfter pre ≠ .next a := slotAfter_ne fun hmem => ha (by simp [addresses] at hmem; simp [hmem])
          rw [slotAfter_cons hpre, if_neg hne, ← slotAfter_cons (n := (a, c)) hpre, ← hslot]
      rw [setBuf_bind, hreset]
      have hfree : evbuffer_chain_free a { b with last_with_datap := slotAfter pre } =
          .ok () { b with chains := b.chains.free a, last_with_datap := slotAfter pre } :=
          evbuffer_chain_free_of_cell hcell
      rw [bind_ok hfree, next_link']
      have hlen : (c.data ++ content (pre ++ rest)).length = c.off + (content (pre ++ rest)).length := by simp
      rw [List.cons_append, content_cons, hlen] at hlt
      obtain ⟨gone, pre', a', c', l, hpre, hsplit, hgone, hoff, hloop⟩ :=
        ih (b := { b with chains := b.chains.free a, last_with_datap := slotAfter pre }) (n := n) (r := r - c.off)
          (hr'.free ha) hnodup rfl (by omega) (by simpa using hn)
      refine ⟨(a, c) :: gone, pre', a', c', l, by rw [hpre, List.cons_append], hsplit, ?_, ?_, ?_⟩
      · simp
        omega
      · simp
        omega
      · refine hloop.trans ?_
        rw [content_cons, List.length_append, length_data, Nat.sub_sub]
        rfl
    · -- the chain holds more than is left to drain
      refine ⟨[], (a, c) :: pre, a, c, pre ++ rest, rfl, rfl, Nat.zero_le _, by simp; omega, ?_⟩
      rw [List.cons_append, head_cons, drainChains, bind_ok (getChain_of_cell hcell), off_link, if_neg hall]
      simp [← hslot]

/-- The chains `gone` at the front have been freed. -/
private theorem Evbuffer.Laid.drop_front {b : Evbuffer} {gone rest : List Node} (pre : List Node)
    (h : b.Laid (gone ++ pre) rest []) (hne : pre ++ rest ≠ []) :
    Evbuffer.Laid { b with
      chains := (addresses gone).foldl Heap.free b.chains
      first := head (pre ++ rest) none
      last_with_datap := slotAfter pre
      total_len := b.total_len - (content gone).length } pre rest [] where
  holds := by
    have hholds := h.holds
    rw [List.append_assoc] at hholds
    exact hholds.free_front
  first := rfl
  last := by
    have hlast := h.last
    rw [List.append_assoc, List.getLast?_append_of_ne_nil gone hne] at hlast
    exact hlast
  slot := rfl
  ok n hn := h.ok n (by simp at hn ⊢; tauto)
  full n hn := h.full n (List.mem_append_right gone hn)
  spare := h.spare
  cur hpre := h.cur (by simp [hpre])
  total := by
    have htotal := h.total
    simp only [List.append_assoc, content_append, List.length_append] at htotal ⊢
    omega

/-- The first `r` bytes have been taken out of the first chain, which holds more. -/
private theorem Evbuffer.Laid.consume {b : Evbuffer} {pre rest l : List Node} {a : Nat} {c : EvbufferChain} {r : Nat}
    (h : b.Laid pre rest []) (hsplit : pre ++ rest = (a, c) :: l) (hr : r < c.off) :
    ∃ pre' rest' c', pre' ++ rest' = (a, c') :: l ∧ c'.data = c.data.drop r ∧ (rest.tail = [] → rest'.tail = []) ∧
      Evbuffer.Laid { b with
        chains := b.chains.update a fun c => { c with misalign := c.misalign + r, off := c.off - r }
        total_len := b.total_len - r } pre' rest' [] := by
  have hc : c.Ok := h.ok (a, c) (by simp [hsplit])
  have hfits := hc.fits
  have hupdate := h.holds
  rw [hsplit] at hupdate
  have hholds := hupdate.update (l := []) (f := fun c => { c with misalign := c.misalign + r, off := c.off - r })
    fun q => rfl
  have hok : ({ c with misalign := c.misalign + r, off := c.off - r } : EvbufferChain).Ok :=
    ⟨by simp; omega, hc.pos, hc.le, fun hzero => by simp at hzero; omega⟩
  have hdata : ({ c with misalign := c.misalign + r, off := c.off - r } : EvbufferChain).data = c.data.drop r := by
    rw [EvbufferChain.data, EvbufferChain.data, Bytes.drop_slice]
  generalize { c with misalign := c.misalign + r, off := c.off - r } = c' at hholds hok hdata
  have hfirst : b.first = head ((a, c') :: l) none := by rw [h.first, hsplit]; rfl
  have hlast : b.last = ((a, c') :: l).getLast?.map Prod.fst := by
    rw [h.last, hsplit, ← List.getLast?_map, ← List.getLast?_map]
    rfl
  have htotal : b.total_len - r = (content ((a, c') :: l)).length := by
    rw [h.total, hsplit, content_cons, content_cons, hdata]
    simp
    omega
  have hall : ∀ n ∈ (a, c') :: l, n.2.Ok := by
    intro n hn
    rcases List.mem_cons.1 hn with rfl | hn
    · exact hok
    · exact h.ok n (by simp [hsplit, hn])
  -- some data is left in it, so that it stays on its side of the current chain
  have hoff : c'.off ≠ 0 := by
    have hlen := congrArg List.length hdata
    simp at hlen
    omega
  cases pre with
  | nil =>
    obtain rfl : rest = (a, c) :: l := hsplit
    exact ⟨[], (a, c') :: l, c', rfl, hdata, fun ht => ht, hholds, hfirst, hlast, h.slot, hall, by simp, h.spare,
      by simp, htotal⟩
  | cons x p =>
    rw [List.cons_append, List.cons.injEq] at hsplit
    obtain ⟨rfl, rfl⟩ := hsplit
    refine ⟨(a, c') :: p, rest, c', rfl, hdata, fun ht => ht, hholds, hfirst, hlast, ?_, hall, ?_,
      h.spare, ?_, htotal⟩
    · exact h.slot.trans (slotAfter_congr rfl)
    · intro n hn
      rcases List.mem_cons.1 hn with rfl | hn
      · exact hoff
      · exact h.full n (List.mem_cons_of_mem _ hn)
    · exact fun _ => h.cur (by simp)

/-- Draining takes bytes away from the front. -/
theorem evbuffer_drain_ok {b : Evbuffer} {pre rest : List Node} (h : b.Laid pre rest [])
    (hfreeze : b.freeze_start = false)
    (n : Nat) : ∃ b' pre' rest', evbuffer_drain n b = .ok 0 b' ∧ b'.Laid pre' rest' [] ∧
      content (pre' ++ rest') = (content (pre ++ rest)).drop n ∧ (rest.tail = [] → rest'.tail = []) ∧ b.Alike b' := by
  have htotal := h.total
  have hlength := h.holds.length_le
  rw [List.length_nil] at hlength
  unfold evbuffer_drain
  rw [get_bind]
  simp only [hfreeze, Bool.false_eq_true, if_false]
  by_cases hzero : b.total_len = 0
  · have hempty : content (pre ++ rest) = [] := List.length_eq_zero_iff.1 (htotal.symm.trans hzero)
    rw [if_pos hzero]
    exact ⟨b, pre, rest, rfl, h, by rw [hempty, List.drop_nil], fun ht => ht, .refl b⟩
  rw [if_neg hzero]
  by_cases hall : b.total_len ≤ n
  · -- everything goes: the chains are freed without a look at their data
    have hnodup : (addresses (pre ++ rest)).Nodup := by simpa using h.holds.nodup
    rw [if_pos hall, fuel_bind, h.first, bind_ok (freeChains_ok h.holds.reads hnodup (by omega))]
    refine ⟨_, [], [], rfl, ⟨?_, rfl, rfl, rfl, by simp, by simp, by simp, by simp, rfl⟩, ?_, fun _ => rfl,
      rfl, rfl, rfl, List.suffix_rfl⟩
    · have hholds := h.holds
      rw [← List.append_nil (pre ++ rest)] at hholds
      exact hholds.free_front
    · rw [List.drop_of_length_le (by omega)]
      rfl
  · rw [if_neg hall, setBuf_bind, fuel_bind]
    -- the chains in front are freed, and the first that is left is cut
    obtain ⟨gone, pre', a, c, l, rfl, hsplit, hgone, hoff, hloop⟩ :=
      drainChains_ok (b := { b with total_len := b.total_len - n }) (n := b.chains.next + 1) (r := n) h.spare
        h.holds.reads (by simpa using h.holds.nodup) h.slot (by omega) (by simp at hlength; omega)
    have hdrop := Evbuffer.Laid.drop_front pre' h (by rw [hsplit]; exact List.cons_ne_nil _ _)
    obtain ⟨pre'', rest', c', hsplit', hdata, htight, hlaid⟩ := hdrop.consume hsplit hoff
    have hcell : ((addresses gone).foldl Heap.free b.chains).cell a = some (link (head l none) c) := by
      have hholds := hdrop.holds
      rw [hsplit] at hholds
      exact hholds.cell (l := [])
    rw [← h.first] at hloop
    rw [bind_ok hloop, setBuf_bind]
    simp only [Option.isSome_some, if_true]
    rw [bind_ok (getChain_of_cell hcell), off_link, bind_ok (assert_ok hoff.le)]
    rw [bind_ok (setChain_of_cell hcell _)]
    refine ⟨_, pre'', rest', rfl, ?_, ?_, htight, rfl, rfl, rfl, List.suffix_rfl⟩
    · have hlen : b.total_len - (content gone).length - (n - (content gone).length) = b.total_len - n := by omega
      rw [hlen, hsplit] at hlaid
      exact hlaid
    · rw [hsplit', List.append_assoc, hsplit, content_append, content_cons, content_cons, hdata]
      rw [List.drop_append, List.drop_of_length_le hgone, List.drop_append_of_le_length (by simpa using hoff.le)]
      rfl

/-- `evbuffer_remove` takes the first `n` bytes, or all there are. -/
theorem evbuffer_remove_ok {b : Evbuffer} {bytes : List UInt8} (h : b.Carries bytes)
    (hfreeze : b.freeze_start = false)
    (n : Nat) : ∃ b', evbuffer_remove n b = .ok (Int32.ofInt (bytes.take n).length, bytes.take n) b' ∧
      b'.Carries (bytes.drop n) ∧ b.Alike b' := by
  obtain ⟨pre, rest, h, rfl⟩ := h
  unfold evbuffer_remove
  rw [bind_ok (evbuffer_copyout_ok h hfreeze n)]
  by_cases hpos : 0 < ((content (pre ++ rest)).take n).length
  · obtain ⟨b', pre', rest', hdrain, hlaid, hcontent, -, halike⟩ :=
      evbuffer_drain_ok h hfreeze ((content (pre ++ rest)).take n).length
    refine ⟨b', ?_, ⟨pre', rest', hlaid, ?_⟩, halike⟩
    · have hpos' : (0 : Int) < ((content (pre ++ rest)).take n).length := by omega
      simp only [hpos', if_true, Int.toNat_natCast]
      rw [bind_ok hdrain]
      rfl
    · rw [hcontent, drop_length_take]
  · have hnone : (content (pre ++ rest)).take n = [] := List.length_eq_zero_iff.1 (by omega)
    refine ⟨b, ?_, ⟨pre, rest, h, ?_⟩, .refl b⟩
    · rw [hnone]
      rfl
    · have happend := List.take_append_drop n (content (pre ++ rest))
      rw [hnone, List.nil_append] at happend
      exact happend.symm

end LibeventServer

import LibeventServer.Libevent.Draining

/-!
# Writing an evbuffer to a socket

`evbuffer_write_atmost` offers the kernel the data of up to 128 chains and drains what it took.  So what the kernel
has got and what is left are always the two parts of the content, cut at one place (`evbuffer_write_atmost_ok`).
-/

namespace LibeventServer

open EStateM Linked LinkedList

/-- The vectors hold the first `m` bytes of the first `i` chains. -/
private theorem writeVecs_ok {b : Evbuffer} {l : List Node} : ∀ {i m : Nat}, Reads b.chains l none →
    (∀ x ∈ l, x.2.Ok) →
    ∃ iov, writeVecs i (head l none) m b = .ok iov b ∧ gather iov b = .ok ((content (l.take i)).take m) b ∧
      (iov = [] → (content (l.take i)).take m = []) := by
  induction l with
  | nil =>
    intro i m _ _
    refine ⟨[], ?_, ?_, fun _ => by simp⟩
    · cases i <;> rfl
    · simp [gather]
  | cons x l ih =>
    intro i m hr hok
    obtain ⟨a, c⟩ := x
    obtain ⟨hcell, hr⟩ := reads_cons.1 hr
    have hc : c.Ok := hok (a, c) List.mem_cons_self
    have hfits := hc.fits
    cases i with
    | zero => exact ⟨[], rfl, by simp [gather], fun _ => by simp⟩
    | succ i =>
      rw [head_cons, writeVecs]
      by_cases hzero : m = 0
      · subst hzero
        exact ⟨[], rfl, by simp [gather], fun _ => by simp⟩
      rw [if_neg hzero, bind_ok (getChain_of_cell hcell)]
      simp only [off_link, misalign_link, next_link', List.take_succ_cons, content_cons]
      -- the last vector may end inside its chain
      by_cases hall : c.off ≤ m
      · obtain ⟨iov, hwrite, hgather, -⟩ :=
          ih (i := i) (m := m - c.off) hr fun y hy => hok y (List.mem_cons_of_mem _ hy)
        have hload : loadChain (some a) c.misalign c.off b = .ok c.data b := loadChain_of_cell hcell hfits
        rw [if_pos hall, bind_ok hwrite]
        refine ⟨_, rfl, ?_, fun h => by cases h⟩
        rw [gather, bind_ok hload, bind_ok hgather, List.take_append, length_data]
        rw [List.take_of_length_le (l := c.data) (by simpa using hall)]
        rfl
      · have hload : loadChain (some a) c.misalign m b = .ok (c.buffer.slice c.misalign m) b :=
          loadChain_of_cell hcell (by simp; omega)
        rw [if_neg hall]
        refine ⟨_, rfl, ?_, fun h => by cases h⟩
        rw [gather, bind_ok hload, List.take_append_of_le_length (by simp; omega), EvbufferChain.data,
          Bytes.take_slice, Nat.min_eq_left (Nat.le_of_not_le hall)]
        simp [gather]

/-- Where there is data, the first chain holds some. -/
private theorem Evbuffer.Laid.content_take_ne_nil {b : Evbuffer} {pre rest loose : List Node}
    (h : b.Laid pre rest loose)
    (hne : content (pre ++ rest) ≠ []) (i : Nat) : content ((pre ++ rest).take (i + 1)) ≠ [] := by
  have hdata : ∀ {n : Node} {l : List Node}, n.2.off ≠ 0 → content ((n :: l).take (i + 1)) ≠ [] := by
    intro n l hoff hnil
    have hlen := congrArg List.length hnil
    simp at hlen
    omega
  cases pre with
  | cons n pre => exact hdata (h.full n List.mem_cons_self)
  | nil =>
    cases rest with
    | nil => exact absurd rfl hne
    | cons n rest =>
      refine hdata fun hoff => hne (content_eq_nil fun m hm => ?_)
      rcases List.mem_cons.1 hm with rfl | hm
      · exact hoff
      · exact h.spare m hm

/-- `writev` takes some of the first `howmuch` bytes, and some if the kernel has room. -/
private theorem evbuffer_write_iovec_ok {b : Evbuffer} {pre rest : List Node} (h : b.Laid pre rest [])
    (room : Option Nat) {howmuch : Nat} (hpos : 0 < howmuch) (hne : content (pre ++ rest) ≠ []) :
    ∃ k, k ≤ howmuch ∧ k ≤ (content (pre ++ rest)).length ∧
      evbuffer_write_iovec room howmuch b = .ok (if room.isSome then k else -1)
        { b with sent := b.sent ++ (content (pre ++ rest)).take k } ∧
      (k = 0 ↔ room.getD 0 = 0) := by
  obtain ⟨iov, hwrite, hgather, hnil⟩ := writeVecs_ok (i := NUM_WRITE_IOVEC) (m := howmuch) h.holds.reads h.ok
  have hsome := h.content_take_ne_nil hne 127
  have hsplit : content (pre ++ rest) = content ((pre ++ rest).take NUM_WRITE_IOVEC) ++
      content ((pre ++ rest).drop NUM_WRITE_IOVEC) := by
    rw [← content_append, List.take_append_drop]
  have hlen : 0 < (content ((pre ++ rest).take NUM_WRITE_IOVEC)).length := List.length_pos_iff.2 hsome
  -- `writev` is never called without a vector
  have hiov : iov.isEmpty = false := by
    cases iov with
    | nil =>
      have hzero := congrArg List.length (hnil rfl)
      simp only [List.length_take, List.length_nil] at hzero
      omega
    | cons v iov => rfl
  rw [← h.first] at hwrite
  unfold evbuffer_write_iovec
  rw [get_bind, bind_ok hwrite]
  simp only [hiov, Bool.false_eq_true, if_false]
  generalize content ((pre ++ rest).take NUM_WRITE_IOVEC) = front at hgather hsplit hlen
  cases room with
  | none =>
    refine ⟨0, Nat.zero_le _, Nat.zero_le _, ?_, by simp⟩
    rw [writev, bind_ok hgather]
    simp
  | some room =>
    have htake : (content (pre ++ rest)).take ((front.take howmuch).take room).length =
      (front.take howmuch).take room := by
      rw [hsplit, List.take_append_of_le_length (by simp), List.take_take, take_length_take]
    refine ⟨((front.take howmuch).take room).length, by simp, by simp [hsplit], ?_, ?_⟩
    · rw [writev, bind_ok hgather, htake]
      rfl
    · simp only [List.length_take, Option.getD_some]
      omega

/-- What the kernel takes is drained, and nothing else. -/
theorem evbuffer_write_atmost_ok {b : Evbuffer} {bytes : List UInt8} (h : b.CarriesTight bytes)
    (hfreeze : b.freeze_start = false) (hne : bytes ≠ []) (room : Option Nat) {howmuch : Int} (hpos : 0 < howmuch) :
    ∃ (k : Nat) (b' : Evbuffer), evbuffer_write_atmost room howmuch b = .ok (if room.isSome then k else -1) b' ∧
      b'.CarriesTight (bytes.drop k) ∧ Evbuffer.Alike { b with sent := b.sent ++ bytes.take k } b' ∧
      k ≤ bytes.length ∧ (k : Int) ≤ howmuch ∧ (k = 0 ↔ room.getD 0 = 0) := by
  have hholds := h
  obtain ⟨pre, rest, h, htight, rfl⟩ := h
  have hlen : 0 < (content (pre ++ rest)).length := List.length_pos_iff.2 hne
  obtain ⟨m, hm, hmpos, hmle⟩ : ∃ m : Nat, (if howmuch < 0 ∨ (b.total_len : Int) < howmuch then (b.total_len : Int)
      else howmuch) = m ∧ 0 < m ∧ (m : Int) ≤ howmuch := by
    rw [h.total]
    by_cases hle : howmuch < 0 ∨ ((content (pre ++ rest)).length : Int) < howmuch
    · rw [if_pos hle]
      exact ⟨_, rfl, hlen, by omega⟩
    · rw [if_neg hle]
      exact ⟨howmuch.toNat, by omega, by omega, by omega⟩
  obtain ⟨k, hkm, hklen, hwrite, hk⟩ := evbuffer_write_iovec_ok h room hmpos hne
  have hm' : (0 : Int) < m := by omega
  unfold evbuffer_write_atmost
  rw [get_bind, if_neg (by simp [hfreeze])]
  simp only [hm, hm', if_true, Int.toNat_natCast]
  rw [bind_ok hwrite]
  have hlaid : Evbuffer.Laid { b with sent := b.sent ++ (content (pre ++ rest)).take k } pre rest [] :=
    ⟨h.holds, h.first, h.last, h.slot, h.ok, h.full, h.spare, h.cur, h.total⟩
  by_cases hzero : k = 0
  · -- nothing was taken, so nothing is drained
    have hnone : ¬ (0 : Int) < if room.isSome then (k : Int) else -1 := by
      rw [hzero]
      split_ifs <;> simp
    rw [if_neg hnone]
    subst hzero
    exact ⟨0, _, rfl, ⟨pre, rest, hlaid, htight, rfl⟩, .refl _, Nat.zero_le _, hpos.le, hk⟩
  · have hsome : room.isSome = true := by
      cases room with
      | none => exact absurd (hk.2 rfl) hzero
      | some room => rfl
    obtain ⟨b', pre', rest', hdrain, hlaid', hcontent, htight', halike⟩ := evbuffer_drain_ok hlaid hfreeze k
    have hpos' : (0 : Int) < k := by omega
    simp only [hsome, if_true, hpos', Int.toNat_natCast]
    rw [bind_ok hdrain]
    exact ⟨k, b', rfl, ⟨pre', rest', hlaid', htight' htight, hcontent⟩, halike, hklen, by omega, hk⟩

end LibeventServer

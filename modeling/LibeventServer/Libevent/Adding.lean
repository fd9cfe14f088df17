import LibeventServer.Libevent.Chains

/-!
# Putting data into an evbuffer

`evbuffer_add` writes to the last chain, not to the one that `*last_with_datap` points to.  Where these are the same
it appends the data or, when `malloc` fails, leaves the content as it was (`evbuffer_add_ok`).
-/

namespace LibeventServer

open EStateM Linked LinkedList

/-! ### One more chain -/

/-- A chain with data is put behind the last one, which holds data too. -/
private theorem evbuffer_chain_insert_last {b : Evbuffer} {pre : List Node} {a t : Nat} {c d : EvbufferChain}
    (h : b.Laid pre [(a, c)] [(t, d)]) (hc : c.off ≠ 0) (hd : d.Ok) (hoff : d.off ≠ 0) (hnext : d.next = none) :
    ∃ b', evbuffer_chain_insert t b = .ok () b' ∧ b'.Laid (pre ++ [(a, c)]) [(t, d)] [] ∧ b.Alike b' := by
  have hcellt : b.chains.cell t = some d := h.holds.cell_loose (by simp)
  have hcella : b.chains.cell a = some (link none c) := h.holds.cell
  have hlast : b.last = some a := by
    rw [h.last]
    simp
  have hslot : readSlot b.last_with_datap b = .ok (some a) b := by
    rw [h.slot]
    exact readSlot_after h.holds.reads fun hpre => by rw [h.first, hpre]; rfl
  have hend : readSlot (.next a) b = .ok none b := by
    rw [readSlot, bind_ok (getChain_of_cell hcella)]
    rfl
  -- the current chain has data, so the search goes one step and ends at its `next`
  have hfind : findVictim (b.chains.next + 1) b.last_with_datap b = .ok (.next a) b := by
    obtain ⟨n, hn⟩ : ∃ n, b.chains.next = n + 1 := by
      have hlength := h.holds.length_le
      simp at hlength
      exact ⟨b.chains.next - 1, by omega⟩
    rw [hn, findVictim, bind_ok hslot]
    simp only
    rw [bind_ok (getChain_of_cell hcella), off_link, if_pos hc, findVictim, bind_ok hend]
    rfl
  unfold evbuffer_chain_insert
  rw [get_bind, bind_ok (getChain_of_cell hcellt), bind_ok hslot]
  simp only
  rw [fuel_bind, bind_ok hfind, bind_ok hend, hlast]
  simp only
  rw [bind_ok (setChain_of_cell hcella _), if_pos hoff]
  have hholds : Holds (b.chains.update a (link (some t))) (pre ++ [(a, c)] ++ [(t, d)]) none [] := by
    have hrelink := h.holds.relink (some t)
    rw [← link_none hnext] at hrelink
    exact hrelink.attach
  refine ⟨_, rfl, ⟨hholds, ?_, ?_, ?_, ?_, ?_, by simp, ?_, ?_⟩, rfl, rfl, rfl, List.suffix_rfl⟩
  · have hfirst := h.first
    simpa [head_append] using hfirst
  · simp
  · simp
  · intro n hn
    rcases List.mem_append.1 hn with hn | hn
    · exact h.ok n hn
    · obtain rfl : n = (t, d) := by simpa using hn
      exact hd
  · intro n hn
    rcases List.mem_append.1 hn with hn | hn
    · exact h.full n hn
    · obtain rfl : n = (a, c) := by simpa using hn
      exact hc
  · exact fun _ => ⟨(t, d), by simp, hoff⟩
  · have htotal := h.total
    simp at htotal ⊢
    omega

/-! ### More data in the last chain -/

/-- Data is copied behind the data of the last chain. -/
private theorem appendChain_ok {b : Evbuffer} {pre loose : List Node} {a : Nat} {c : EvbufferChain}
    (h : b.Laid pre [(a, c)] loose) (data : List UInt8) (hfit : c.misalign + c.off + data.length ≤ c.buffer_len) :
    ∃ c' b', appendChain (some a) data b = .ok () b' ∧ b'.Laid pre [(a, c')] loose ∧ c'.data = c.data ++ data ∧
      b.Alike b' := by
  have hc : c.Ok := h.ok (a, c) (by simp)
  have hcell : b.chains.cell a = some (link none c) := h.holds.cell
  have hstore := storeChain_of_cell hcell (c.misalign + c.off) data hfit
  have hok : ({ c with
      buffer := c.buffer.write (c.misalign + c.off) data
      off := c.off + data.length } : EvbufferChain).Ok :=
    ⟨by simp; omega, hc.pos, hc.le, fun hzero => hc.aligned (by simp at hzero; omega)⟩
  have hlaid := h.set_cur (f := fun x => { x with
      buffer := x.buffer.write (c.misalign + c.off) data
      off := x.off + data.length }) (fun q => rfl) hok rfl
  refine ⟨_, _, ?_, hlaid, Bytes.slice_write_append _ _ _ _, rfl, rfl, rfl, List.suffix_rfl⟩
  unfold appendChain
  rw [bind_ok (getChain_of_cell hcell), misalign_link, off_link, bind_ok hstore]
  rw [bind_ok (setChain_of_cell (Evbuffer.cell_update hcell _) _), Evbuffer.update_update]
  rfl

/-- The data of a chain is moved to the start of its buffer. -/
private theorem evbuffer_chain_align_ok {b : Evbuffer} {pre loose : List Node} {a : Nat} {c : EvbufferChain}
    (h : b.Laid pre [(a, c)] loose) :
    ∃ c' b', evbuffer_chain_align (some a) b = .ok () b' ∧ b'.Laid pre [(a, c')] loose ∧ c'.data = c.data ∧
      c'.misalign = 0 ∧ c'.buffer_len = c.buffer_len ∧ b.Alike b' := by
  have hc : c.Ok := h.ok (a, c) (by simp)
  have hfits := hc.fits
  have hcell : b.chains.cell a = some (link none c) := h.holds.cell
  have hload : loadChain (some a) c.misalign c.off b = .ok c.data b := loadChain_of_cell hcell hfits
  have hstore := storeChain_of_cell hcell 0 c.data (by simp; omega)
  have hok : ({ c with buffer := c.buffer.write 0 c.data, misalign := 0 } : EvbufferChain).Ok :=
    ⟨by simp; omega, hc.pos, hc.le, fun _ => rfl⟩
  have hlaid :=
    h.set_cur (f := fun x => { x with buffer := x.buffer.write 0 c.data, misalign := 0 }) (fun q => rfl) hok
    (k := 0) rfl
  have hdata : ({ c with buffer := c.buffer.write 0 c.data, misalign := 0 } : EvbufferChain).data = c.data := by
    have hslice := c.buffer.slice_write 0 c.data
    rwa [length_data] at hslice
  refine ⟨_, _, ?_, hlaid, hdata, rfl, rfl, rfl, rfl, rfl, List.suffix_rfl⟩
  unfold evbuffer_chain_align
  rw [bind_ok (getChain_of_cell hcell), misalign_link, off_link, bind_ok hload, bind_ok hstore]
  rw [setChain_of_cell (Evbuffer.cell_update hcell _) _, Evbuffer.update_update]
  rfl

/-! ### `evbuffer_add` -/

/-- There is no place for `data` behind `bytes`. -/
def Evbuffer.Refuses (b : Evbuffer) (bytes data : List UInt8) : Prop :=
  b.freeze_end = true ∨ EV_SIZE_MAX - bytes.length < data.length ∨
    EVBUFFER_CHAIN_MAX - EVBUFFER_CHAIN_SIZE < data.length ∨ false ∈ b.malloc

private theorem Evbuffer.Refuses.of_alike {b b' : Evbuffer} {bytes data : List UInt8} (h : b'.Refuses bytes data)
    (halike : b.Alike b') : b.Refuses bytes data := by
  unfold Refuses at h ⊢
  rw [halike.freeze_end] at h
  exact h.imp_right (Or.imp_right (Or.imp_right fun hfail => halike.malloc.subset hfail))

/-- The data was appended, or it was refused and the content is as it was. -/
def Evbuffer.Added (b : Evbuffer) (bytes data : List UInt8) (r : Int) (b' : Evbuffer) : Prop :=
  b.Alike b' ∧ (r = 0 ∧ b'.CarriesTight (bytes ++ data) ∨ r = -1 ∧ b'.CarriesTight bytes ∧ b.Refuses bytes data)

/-- What did not fit the last chain goes to the new chain `t`. -/
private theorem addToNew_ok {b : Evbuffer} {pre : List Node} {a t : Nat} {c d : EvbufferChain} (data : List UInt8)
    (h : b.Laid pre [(a, c)] [(t, d)]) (hc : c.off ≠ 0) (hd : d.Ok) (hmisalign : d.misalign = 0)
    (hnext : d.next = none) (hdata : data ≠ []) (hfit : data.length ≤ d.buffer_len) :
    ∃ b', addToNew t data b = .ok 0 b' ∧ b.Alike b' ∧ b'.CarriesTight (content (pre ++ [(a, c)]) ++ data) := by
  have hcell : b.chains.cell t = some d := h.holds.cell_loose (by simp)
  have hlaid := (h.set_loose fun x => { x with buffer := x.buffer.write 0 data }).set_loose fun x =>
    { x with off := data.length }
  have hlen : data.length ≠ 0 := fun hzero => hdata (List.length_eq_zero_iff.1 hzero)
  have hok : ({ d with buffer := d.buffer.write 0 data, off := data.length } : EvbufferChain).Ok :=
    ⟨by simp; omega, hd.pos, hd.le, fun _ => hmisalign⟩
  obtain ⟨b', hinsert, hlaid', halike⟩ := evbuffer_chain_insert_last hlaid hc hok hlen hnext
  have hwritten : ({ d with buffer := d.buffer.write 0 data, off := data.length } : EvbufferChain).data = data := by
    rw [EvbufferChain.data, hmisalign, Bytes.slice_write]
  refine ⟨b', ?_, ⟨halike.freeze_start, halike.freeze_end, halike.sent, halike.malloc⟩,
    pre ++ [(a, c)], _, hlaid', rfl, ?_⟩
  · unfold addToNew
    rw [bind_ok (storeChain_of_cell hcell 0 data (by omega))]
    rw [bind_ok (setChain_of_cell (Evbuffer.cell_update hcell _) _), bind_ok hinsert]
    rfl
  · rw [content_append (pre ++ [(a, c)]), content_cons, hwritten]
    simp

private theorem le_sizeToAdd (buffer_len datlen : Nat) : datlen ≤ sizeToAdd buffer_len datlen := by
  unfold sizeToAdd
  split_ifs <;> simp only <;> split_ifs <;> omega

/-- The size is too large only if that of the data is. -/
private theorem lt_of_sizeToAdd {buffer_len datlen : Nat}
    (hle : buffer_len ≤ EVBUFFER_CHAIN_MAX - EVBUFFER_CHAIN_SIZE)
    (h : EVBUFFER_CHAIN_MAX - EVBUFFER_CHAIN_SIZE < sizeToAdd buffer_len datlen) :
    EVBUFFER_CHAIN_MAX - EVBUFFER_CHAIN_SIZE < datlen := by
  have hmax : EVBUFFER_CHAIN_MAX = 9223372036854775807 := rfl
  have hchain : EVBUFFER_CHAIN_SIZE = 48 := rfl
  have hauto : EVBUFFER_CHAIN_MAX_AUTO_SIZE = 4096 := rfl
  unfold sizeToAdd at h
  simp only at h
  split_ifs at h <;> omega

private theorem addToLast_ok {b : Evbuffer} {pre : List Node} {a : Nat} {c : EvbufferChain}
    (h : b.Laid pre [(a, c)] []) (data : List UInt8) : ∃ r b', addToLast (some a) data b = .ok r b' ∧
    b.Added (content (pre ++ [(a, c)])) data r b' := by
  have hc : c.Ok := h.ok (a, c) (by simp)
  have hfits := hc.fits
  have hle := hc.le
  have hcell : b.chains.cell a = some (link none c) := h.holds.cell
  unfold addToLast
  rw [bind_ok (getChain_of_cell hcell)]
  simp only [misalign_link, off_link, buffer_len_link]
  rw [bind_ok (assert_ok (show c.misalign ≤ EVBUFFER_CHAIN_MAX by omega))]
  -- the data fits behind what the chain holds
  by_cases hfit : data.length ≤ c.buffer_len - c.misalign - c.off
  · obtain ⟨c', b', happend, hlaid, hdata, halike⟩ := appendChain_ok h data (by omega)
    rw [if_pos hfit, bind_ok happend]
    refine ⟨0, b', rfl, halike, Or.inl ⟨rfl, pre, [(a, c')], hlaid, rfl, ?_⟩⟩
    simp [hdata]
  rw [if_neg hfit]
  -- it fits once the data in front is moved to the start
  by_cases hrealign : evbuffer_chain_should_realign (link none c) data.length = true
  · obtain ⟨c₁, b₁, halign, hlaid₁, hdata₁, hmisalign, hbuffer_len, halike₁⟩ := evbuffer_chain_align_ok h
    have hoff : c₁.off = c.off := by
      have hlen := congrArg List.length hdata₁
      simpa using hlen
    have hspace : data.length ≤ c.buffer_len - c.off := by
      simp [evbuffer_chain_should_realign] at hrealign
      omega
    obtain ⟨c', b', happend, hlaid, hdata, halike⟩ := appendChain_ok hlaid₁ data (by omega)
    rw [if_pos hrealign, bind_ok halign, bind_ok happend]
    refine ⟨0, b', rfl, halike₁.trans halike, Or.inl ⟨rfl, pre, [(a, c')], hlaid, rfl, ?_⟩⟩
    simp [hdata, hdata₁]
  rw [if_neg hrealign]
  -- it needs one more chain, for which there must be memory
  rcases evbuffer_chain_new_cases (sizeToAdd c.buffer_len data.length) b with
    ⟨malloc, hnew, hm, hfail⟩ | ⟨malloc, d, hnew, hm, hd, hlen, hempty, hmisalign, hnext⟩
  · rw [bind_ok hnew]
    refine ⟨-1, _, rfl, ⟨rfl, rfl, rfl, hm⟩, Or.inr ⟨rfl, ⟨pre, [(a, c)], h.set_malloc malloc, rfl, rfl⟩, ?_⟩⟩
    exact Or.inr (Or.inr (hfail.imp_left (lt_of_sizeToAdd hle)))
  have hdata := le_sizeToAdd c.buffer_len data.length
  have hlaid := h.alloc d malloc
  rw [bind_ok hnew]
  simp only
  -- the old chain takes what it has space for, and the new one the rest
  by_cases hremain : c.buffer_len - c.misalign - c.off = 0
  · have hoff : c.off ≠ 0 := by
      intro hzero
      have hmisalign := hc.aligned hzero
      have hpos := hc.pos
      omega
    obtain ⟨b', hadd, halike, hholds⟩ := addToNew_ok data hlaid hoff hd hmisalign hnext
      (fun hnil => hfit (by simp [hnil])) (by omega)
    rw [if_neg (not_not.2 hremain), hremain, List.drop_zero]
    exact ⟨0, b', hadd, ⟨halike.freeze_start, halike.freeze_end, halike.sent, halike.malloc.trans hm⟩,
      Or.inl ⟨rfl, hholds⟩⟩
  · generalize hr : c.buffer_len - c.misalign - c.off = r at hfit hremain
    obtain ⟨c', b₁, happend, hlaid₁, hdata₁, halike₁⟩ := appendChain_ok hlaid (data.take r) (by simp; omega)
    have hoff : c'.off ≠ 0 := by
      have hlen' := congrArg List.length hdata₁
      simp at hlen'
      omega
    obtain ⟨b', hadd, halike, hholds⟩ := addToNew_ok (data.drop r) hlaid₁ hoff hd hmisalign hnext
      (fun hnil => hfit (by simpa using hnil)) (by simp; omega)
    rw [if_pos hremain, bind_ok happend]
    refine ⟨0, b', hadd, ?_, Or.inl ⟨rfl, ?_⟩⟩
    · have halike' := halike₁.trans halike
      exact ⟨halike'.freeze_start, halike'.freeze_end, halike'.sent, halike'.malloc.trans hm⟩
    · have hcontent : content (pre ++ [(a, c')]) ++ data.drop r = content (pre ++ [(a, c)]) ++ data := by
        simp [hdata₁]
      exact hcontent ▸ hholds

/-- Adding to an evbuffer whose last chain is the last one with data. -/
theorem evbuffer_add_ok {b : Evbuffer} {bytes : List UInt8} (h : b.CarriesTight bytes) (data : List UInt8) :
    ∃ r b', evbuffer_add data b = .ok r b' ∧ b.Added bytes data r b' := by
  have hholds := h
  obtain ⟨pre, rest, h, htight, rfl⟩ := h
  have hlast := h.last
  unfold evbuffer_add
  rw [get_bind]
  by_cases hfreeze : b.freeze_end = true
  · rw [if_pos hfreeze]
    exact ⟨-1, b, rfl, .refl b, Or.inr ⟨rfl, hholds, Or.inl hfreeze⟩⟩
  rw [if_neg hfreeze]
  by_cases htotal : EV_SIZE_MAX - b.total_len < data.length
  · rw [if_pos htotal]
    rw [h.total] at htotal
    exact ⟨-1, b, rfl, .refl b, Or.inr ⟨rfl, hholds, Or.inr (Or.inl htotal)⟩⟩
  rw [if_neg htotal]
  cases rest with
  | nil =>
    -- without a current chain there is none at all
    obtain rfl : pre = [] := by
      by_contra hne
      obtain ⟨n, hn, -⟩ := h.cur hne
      simp at hn
    have hlast : b.last = none := hlast
    simp only [hlast]
    rcases evbuffer_chain_new_cases data.length b with
      ⟨malloc, hnew, hm, hfail⟩ | ⟨malloc, c, hnew, hm, hc, -, hempty, -, hnext⟩
    · rw [bind_ok hnew]
      exact ⟨-1, _, rfl, ⟨rfl, rfl, rfl, hm⟩,
        Or.inr ⟨rfl, ⟨[], [], h.set_malloc malloc, rfl, rfl⟩, Or.inr (Or.inr hfail)⟩⟩
    · obtain ⟨b₁, hinsert, hlaid, halike₁⟩ := evbuffer_chain_insert_first (h.alloc c malloc) hc hnext
      obtain ⟨r, b', hadd, halike, hadded⟩ := addToLast_ok hlaid data
      rw [bind_ok hnew]
      simp only
      rw [bind_ok hinsert]
      have halike₀ : b.Alike b₁ := ⟨halike₁.freeze_start, halike₁.freeze_end, halike₁.sent, halike₁.malloc.trans hm⟩
      have hnone : content [(b.chains.next, c)] = [] := content_eq_nil fun n hn => by
        obtain rfl : n = _ := List.mem_singleton.1 hn
        exact hempty
      rw [List.nil_append, hnone] at hadded
      refine ⟨r, b', hadd, halike₀.trans halike, ?_⟩
      exact hadded.imp_right fun hrefused => ⟨hrefused.1, hrefused.2.1, hrefused.2.2.of_alike halike₀⟩
  | cons n rest =>
    -- nothing is behind the current chain, which is therefore the last
    obtain rfl : rest = [] := htight
    obtain ⟨a, c⟩ := n
    have hlast : b.last = some a := by simpa using hlast
    simp only [hlast]
    exact addToLast_ok h data

end LibeventServer

import LibeventServer.Libevent.Expanding

/-!
# Reading into an evbuffer

`evbuffer_read` makes space, lets the kernel fill the space of several chains at once, and then counts the bytes that
came as data of these chains.  In between the bytes lie behind the data (`stash`); afterwards they are data
(`absorb`), and `last_with_datap` has moved on to the last chain that got any.
-/

namespace LibeventServer

open EStateM Linked LinkedList

/-! ### Chains with space -/

/-- The chains between which the bytes are spread: all of them have space. -/
def Spacious (l : List Node) : Prop := ∀ x ∈ l, x.2.spaceLen ≠ 0

private theorem Spacious.room_cons {x : Node} {l : List Node} (h : Spacious (x :: l)) (i : Nat) :
    room (x :: l) (i + 1) = x.2.spaceLen + room l i := room_cons_of_ne (h x List.mem_cons_self) l i

private theorem Spacious.tail {x : Node} {l : List Node} (h : Spacious (x :: l)) : Spacious l :=
  fun y hy => h y (List.mem_cons_of_mem x hy)

/-- The vectors for `m` bytes in the first `i` chains. -/
def vecsFor : List Node → Nat → Nat → List Iovec
  | [], _, _ => []
  | _ :: _, 0, _ => []
  | (a, c) :: l, i + 1, m =>
    if m = 0 then []
    else ⟨some a, c.misalign + c.off, min m c.spaceLen⟩ :: vecsFor l i (m - c.spaceLen)

/-- The chain with bytes behind its data. -/
def EvbufferChain.stash (c : EvbufferChain) (ds : List UInt8) : EvbufferChain :=
  { c with buffer := c.buffer.write (c.misalign + c.off) ds }

/-- The chain with more data. -/
def EvbufferChain.put (c : EvbufferChain) (ds : List UInt8) : EvbufferChain :=
  { c.stash ds with off := c.off + ds.length }

/-- The bytes `ds` spread over the space of the chains. -/
def stash : List Node → List UInt8 → List Node
  | [], _ => []
  | (a, c) :: l, ds => (a, c.stash (ds.take c.spaceLen)) :: stash l (ds.drop c.spaceLen)

/-- The bytes `ds` put to the chains: the chains they fill, and those from the last one they reach on. -/
def absorb : List Node → List UInt8 → List Node × List Node
  | [], _ => ([], [])
  | (a, c) :: l, ds =>
    if c.spaceLen < ds.length then
      ((a, c.put (ds.take c.spaceLen)) :: (absorb l (ds.drop c.spaceLen)).1, (absorb l (ds.drop c.spaceLen)).2)
    else ([], (a, c.put ds) :: l)

@[simp] theorem stash_nil (l : List Node) : stash l [] = l := by
  induction l with
  | nil => rfl
  | cons x l ih =>
    obtain ⟨a, c⟩ := x
    rw [stash, List.take_nil, List.drop_nil, ih, EvbufferChain.stash, Bytes.write_nil]

private theorem data_put (c : EvbufferChain) (ds : List UInt8) : (c.put ds).data = c.data ++ ds :=
  Bytes.slice_write_append _ _ _ _

private theorem EvbufferChain.Ok.put {c : EvbufferChain} (h : c.Ok) {ds : List UInt8} (hds : ds.length ≤ c.spaceLen) :
    (c.put ds).Ok where
  fits := by
    have hfits := h.fits
    unfold EvbufferChain.spaceLen at hds
    show c.misalign + (c.off + ds.length) ≤ c.buffer_len
    omega
  pos := h.pos
  le := h.le
  aligned hoff := h.aligned (Nat.eq_zero_of_add_eq_zero_right hoff)

/-! ### What becomes of the chains -/

private theorem addresses_absorb (l : List Node) (ds : List UInt8) :
    addresses ((absorb l ds).1 ++ (absorb l ds).2) = addresses l := by
  fun_induction absorb l ds with
  | case1 => rfl
  | case2 a c l ds hlt ih => simpa using ih
  | case3 => rfl

private theorem ok_of_mem_absorb {l : List Node} {ds : List UInt8} (h : ∀ x ∈ l, x.2.Ok) :
    ∀ x ∈ (absorb l ds).1 ++ (absorb l ds).2, x.2.Ok := by
  fun_induction absorb l ds with
  | case1 => simp
  | case2 a c l ds hlt ih =>
    obtain ⟨hc, hl⟩ := List.forall_mem_cons.1 h
    exact List.forall_mem_cons.2 ⟨hc.put (by simp), ih hl⟩
  | case3 a c l ds hlt =>
    obtain ⟨hc, hl⟩ := List.forall_mem_cons.1 h
    exact List.forall_mem_cons.2 ⟨hc.put (Nat.le_of_not_lt hlt), hl⟩

/-- A chain that has been filled holds data. -/
private theorem full_of_mem_absorb {l : List Node} {ds : List UInt8} (h : Spacious l) :
    ∀ x ∈ (absorb l ds).1, x.2.off ≠ 0 := by
  fun_induction absorb l ds with
  | case1 => simp
  | case2 a c l ds hlt ih =>
    refine List.forall_mem_cons.2 ⟨?_, ih h.tail⟩
    have hspace : c.spaceLen ≠ 0 := h (a, c) List.mem_cons_self
    simp only [EvbufferChain.put, List.length_take]
    omega
  | case3 => simp

/-- The chains behind the last one that got bytes are empty still. -/
private theorem spare_of_mem_absorb {l : List Node} {ds : List UInt8} (h : ∀ x ∈ l.tail, x.2.off = 0) :
    ∀ x ∈ (absorb l ds).2.tail, x.2.off = 0 := by
  fun_induction absorb l ds with
  | case1 => simp
  | case2 a c l ds hlt ih => exact ih fun x hx => h x (List.mem_of_mem_tail hx)
  | case3 a c l ds hlt => exact h

/-- The last chain that got bytes holds data. -/
private theorem cur_absorb {l : List Node} {ds : List UInt8} {i : Nat} (h : Spacious l) (hne : ds ≠ [])
    (hroom : ds.length ≤ room l i) : ∃ x ∈ (absorb l ds).2.head?, x.2.off ≠ 0 := by
  fun_induction absorb l ds generalizing i with
  | case1 ds => simp [room] at hroom; contradiction
  | case2 a c l ds hlt ih =>
    cases i with
    | zero => simp [room_zero] at hroom; contradiction
    | succ i =>
      rw [h.room_cons] at hroom
      simp only at hroom
      exact ih (i := i) h.tail (by simpa using hlt) (by simp; omega)
  | case3 a c l ds hlt =>
    have hpos := List.length_pos_iff.2 hne
    refine ⟨(a, c.put ds), by simp, ?_⟩
    simp only [EvbufferChain.put]
    omega

/-- No byte is lost, and they stay in order. -/
private theorem content_absorb {l : List Node} {ds : List UInt8} {i : Nat} (h : Spacious l)
    (hspare : ∀ x ∈ l.tail, x.2.off = 0)
    (hroom : ds.length ≤ room l i) : content ((absorb l ds).1 ++ (absorb l ds).2) = content l ++ ds := by
  fun_induction absorb l ds generalizing i with
  | case1 ds => simpa [room] using hroom
  | case2 a c l ds hlt ih =>
    cases i with
    | zero => simp [room_zero] at hroom; simp [hroom] at hlt
    | succ i =>
      rw [h.room_cons] at hroom
      simp only at hroom
      have hrest := ih h.tail (fun x hx => hspare x (List.mem_of_mem_tail hx)) (i := i) (by simp; omega)
      have hl : content l = [] := content_eq_nil hspare
      rw [List.cons_append, content_cons, hrest, content_cons, hl, data_put]
      simp
  | case3 a c l ds hlt =>
    have hl : content l = [] := content_eq_nil hspare
    rw [List.nil_append, content_cons, content_cons, hl, data_put]
    simp

/-! ### The vectors -/

/-- The vectors give the space for what is still to be read. -/
private theorem setupVecs_ok {b : Evbuffer} {l : List Node} {howmuch : Nat} :
    ∀ {i : Nat} (so_far : Nat), Reads b.chains l none → Spacious l → howmuch - so_far ≤ room l i →
    setupVecs howmuch i (head l none) so_far b = .ok (vecsFor l i (howmuch - so_far)) b := by
  induction l with
  | nil =>
    intro i so_far _ _ hroom
    cases i with
    | zero => rfl
    | succ i =>
      rw [setupVecs, if_neg (by simp [room] at hroom; omega)]
      rfl
  | cons x l ih =>
    intro i so_far hr hl hroom
    obtain ⟨a, c⟩ := x
    obtain ⟨hcell, hr⟩ := reads_cons.1 hr
    cases i with
    | zero => rfl
    | succ i =>
      rw [setupVecs, vecsFor, head_cons]
      by_cases hdone : howmuch - so_far = 0
      · rw [if_neg (by omega), if_pos hdone]
        rfl
      · rw [hl.room_cons] at hroom
        simp only at hroom
        -- the last vector is cut to what is still to be read
        have havail : (if howmuch - so_far < (link (head l none) c).spaceLen then howmuch - so_far
            else (link (head l none) c).spaceLen) = min (howmuch - so_far) c.spaceLen := by
          rw [spaceLen_link]
          split_ifs <;> omega
        rw [if_pos (by omega), if_neg hdone, bind_ok (getChain_of_cell hcell)]
        simp only [havail, next_link', misalign_link, off_link]
        have hrest := ih (i := i) (so_far + min (howmuch - so_far) c.spaceLen) hr hl.tail (by omega)
        have hleft : howmuch - (so_far + min (howmuch - so_far) c.spaceLen) =
          howmuch - so_far - c.spaceLen := by omega
        rw [hleft] at hrest
        rw [bind_ok hrest]
        rfl

/-- The kernel fills the vectors one after the other. -/
private theorem readv_ok {l : List Node} : ∀ {b : Evbuffer} {pre : List Node} {i m : Nat} (data : List UInt8),
    Holds b.chains (pre ++ l) none [] → (∀ x ∈ l, x.2.Ok) → Spacious l → m ≤ room l i →
    ∃ chains, readv (vecsFor l i m) data b = .ok (data.take m).length { b with chains := chains } ∧
      Holds chains (pre ++ stash l (data.take m)) none [] := by
  induction l with
  | nil =>
    intro b pre i m data hh _ _ hm
    obtain rfl : m = 0 := by simpa [room] using hm
    exact ⟨b.chains, by cases i <;> rfl, by simpa using hh⟩
  | cons x l ih =>
    intro b pre i m data hh hok hl hm
    obtain ⟨a, c⟩ := x
    obtain ⟨hc, hok⟩ := List.forall_mem_cons.1 hok
    by_cases hzero : m = 0
    · subst hzero
      refine ⟨b.chains, ?_, by simpa using hh⟩
      cases i with
      | zero => rfl
      | succ i =>
        rw [vecsFor, if_pos rfl]
        rfl
    · obtain ⟨i, rfl⟩ : ∃ j, i = j + 1 := by
        refine ⟨i - 1, ?_⟩
        by_contra hi
        obtain rfl : i = 0 := by omega
        rw [room_zero] at hm
        omega
      rw [hl.room_cons] at hm
      simp only at hm hc
      have hfits := hc.fits
      have hfit : c.misalign + c.off + (data.take (min m c.spaceLen)).length ≤ c.buffer_len := by
        unfold EvbufferChain.spaceLen
        simp
        omega
      have hstore := storeChain_of_cell (Holds.cell hh) (c.misalign + c.off) (data.take (min m c.spaceLen)) hfit
      -- the induction goes on with the chain filled, as one more in front
      have hh' : Holds (b.chains.update a _) (pre ++ (a, c.stash (data.take (min m c.spaceLen))) :: l) none [] :=
        hh.update
          (f := fun x => { x with buffer := x.buffer.write (c.misalign + c.off) (data.take (min m c.spaceLen)) })
          fun q => rfl
      rw [List.append_cons] at hh'
      obtain ⟨chains, hrest, hholds⟩ := ih (b := b.update a _) (i := i) (m := m - c.spaceLen)
        (data.drop (min m c.spaceLen)) hh' hok hl.tail (by omega)
      refine ⟨chains, ?_, ?_⟩
      · rw [vecsFor, if_neg hzero, readv, bind_ok hstore, bind_ok hrest]
        have hlen : (data.take (min m c.spaceLen)).length +
          ((data.drop (min m c.spaceLen)).take (m - c.spaceLen)).length = (data.take m).length := by
          simp
          omega
        rw [hlen]
        rfl
      · have htake : (data.take m).take c.spaceLen = data.take (min m c.spaceLen) := by
          rw [List.take_take, Nat.min_comm]
        have hdrop : (data.take m).drop c.spaceLen = (data.drop (min m c.spaceLen)).take (m - c.spaceLen) := by
          rw [List.drop_take]
          rcases Nat.le_total m c.spaceLen with hle | hle
          · simp [Nat.sub_eq_zero_of_le hle]
          · rw [Nat.min_eq_right hle]
        rw [stash, htake, hdrop, List.append_cons]
        exact hholds

/-- No chain has more space than `EVBUFFER_CHAIN_MAX`. -/
private theorem EvbufferChain.Ok.space_eq {c : EvbufferChain} (h : c.Ok) :
    (if EVBUFFER_CHAIN_MAX < c.spaceLen then EVBUFFER_CHAIN_MAX else c.spaceLen) = c.spaceLen := by
  have hbuffer := h.le
  unfold EvbufferChain.spaceLen
  split_ifs <;> omega

/-- The bytes behind the data of the chains are counted as data. -/
private theorem commitVecs_ok {l : List Node} : ∀ {b : Evbuffer} {pre : List Node} {i m : Nat} {ds : List UInt8},
    Holds b.chains (pre ++ stash l ds) none [] → b.first = head (pre ++ l) none → Spacious l →
    (∀ x ∈ l, x.2.Ok) → ds ≠ [] → ds.length ≤ m → m ≤ room l i →
    ∃ chains, commitVecs (vecsFor l i m).length (slotAfter pre) ds.length b =
        .ok () { b with chains := chains, last_with_datap := slotAfter (pre ++ (absorb l ds).1) } ∧
      Holds chains (pre ++ ((absorb l ds).1 ++ (absorb l ds).2)) none [] := by
  induction l with
  | nil =>
    intro b pre i m ds _ _ _ _ hne hle hm
    obtain rfl : m = 0 := by simpa [room] using hm
    simp at hle
    contradiction
  | cons x l ih =>
    intro b pre i m ds hh hfirst hl hok hne hle hm
    obtain ⟨a, c⟩ := x
    obtain ⟨hc, hok⟩ := List.forall_mem_cons.1 hok
    have hpos := List.length_pos_iff.2 hne
    obtain ⟨i, rfl⟩ : ∃ j, i = j + 1 := by
      refine ⟨i - 1, ?_⟩
      by_contra hi
      obtain rfl : i = 0 := by omega
      rw [room_zero] at hm
      omega
    rw [hl.room_cons] at hm
    simp only at hm hc
    have hslot : readSlot (slotAfter pre) b = .ok (some a) b := by
      refine readSlot_after hh.reads fun hpre => ?_
      rw [hfirst, hpre]
      rfl
    have hcell := Holds.cell hh
    rw [vecsFor, if_neg (by omega), List.length_cons, commitVecs, bind_ok hslot, bind_ok (getChain_of_cell hcell)]
    have hspace : ∀ q,
        (if EVBUFFER_CHAIN_MAX < (link q (c.stash (ds.take c.spaceLen))).spaceLen then EVBUFFER_CHAIN_MAX
        else (link q (c.stash (ds.take c.spaceLen))).spaceLen) = c.spaceLen :=
      fun q => hc.space_eq
    simp only [hspace]
    -- the chain is full if more bytes came than it has space for
    by_cases hlt : c.spaceLen < ds.length
    · rw [if_pos hlt, bind_ok (setChain_of_cell hcell _), absorb, if_pos hlt]
      simp only
      have hput : ({ c.stash (ds.take c.spaceLen) with off := c.off + c.spaceLen } : EvbufferChain) =
          c.put (ds.take c.spaceLen) := by
        rw [EvbufferChain.put, List.length_take, Nat.min_eq_left hlt.le]
      have hh' : Holds (b.chains.update a fun c' => { c' with off := c'.off + c.spaceLen })
          (pre ++ (a, c.put (ds.take c.spaceLen)) :: stash l (ds.drop c.spaceLen)) none [] := by
        rw [← hput]
        exact hh.update fun q => rfl
      rw [List.append_cons] at hh'
      have hrest := ih (b := b.update a _) (i := i) (m := m - c.spaceLen) hh'
        (by rw [Evbuffer.update_first, hfirst]; simp [head_append]) hl.tail hok (by simpa using hlt)
        (by simp; omega) (by omega)
      rw [slotAfter_append_singleton, List.length_drop] at hrest
      simp only [List.append_assoc, List.cons_append, List.nil_append] at hrest ⊢
      exact hrest
    · have htake : ds.take c.spaceLen = ds := List.take_of_length_le (by omega)
      have hdrop : ds.drop c.spaceLen = [] := List.drop_of_length_le (by omega)
      rw [if_neg hlt, bind_ok (setChain_of_cell hcell _), absorb, if_neg hlt]
      have hh' := hh.update (f := fun c' => { c' with off := c'.off + ds.length }) fun q => rfl
      rw [htake, hdrop, stash_nil] at hh'
      exact ⟨_, by simp only [List.append_nil]; rfl, hh'⟩

/-! ### `evbuffer_read` -/

/-- The vectors start at the current chain, or behind it if it is full. -/
private theorem evbuffer_read_setup_vecs_ok {b : Evbuffer} {pre rest : List Node} {m i : Nat} (h : b.Laid pre rest [])
    (hne : rest ≠ []) (hroom : m ≤ room rest i) :
    ∃ pre' l, pre ++ rest = pre' ++ l ∧ Spacious l ∧ m ≤ room l i ∧ (∀ x ∈ pre', x.2.off ≠ 0) ∧
      (∀ x ∈ l.tail, x.2.off = 0) ∧ evbuffer_read_setup_vecs m i b = .ok (vecsFor l i m, slotAfter pre') b := by
  obtain ⟨⟨a, c⟩, spare, rfl⟩ := List.exists_cons_of_ne_nil hne
  have hc : c.Ok := h.ok (a, c) (by simp)
  -- an empty chain always has space
  have hspare : Spacious spare := by
    intro x hx
    have hx' := h.ok x (by simp [hx])
    rw [hx'.spaceLen_of_empty (h.spare x hx)]
    exact hx'.pos.ne'
  have hreads := (reads_append.1 h.holds.reads).2
  unfold evbuffer_read_setup_vecs
  rw [get_bind, bind_ok h.readSlot, head_cons, bind_ok (getChain_of_cell h.cell)]
  simp only
  by_cases hspace : c.spaceLen = 0
  · -- a full chain holds data, and the chain behind it is the one to fill
    have hoff : c.off ≠ 0 := by
      intro hzero
      have hempty := hc.spaceLen_of_empty hzero
      have hpos := hc.pos
      omega
    have hslot : readSlot (.next a) b = .ok (head spare none) b := by
      rw [readSlot, bind_ok (getChain_of_cell h.cell)]
      rfl
    rw [room_cons_of_eq hspace] at hroom
    have hvecs := setupVecs_ok 0 (reads_cons.1 hreads).2 hspare hroom
    refine ⟨pre ++ [(a, c)], spare, by simp, hspare, hroom, ?_, fun x hx => h.spare x (List.mem_of_mem_tail hx), ?_⟩
    · intro x hx
      rcases List.mem_append.1 hx with hx | hx
      · exact h.full x hx
      · obtain rfl : x = (a, c) := by simpa using hx
        exact hoff
    · rw [if_pos (show (link (head spare none) c).spaceLen = 0 from hspace), bind_ok hslot, bind_ok hvecs,
        slotAfter_append_singleton]
      rfl
  · have hl : Spacious ((a, c) :: spare) := List.forall_mem_cons.2 ⟨hspace, hspare⟩
    have hvecs := setupVecs_ok 0 hreads hl hroom
    refine ⟨pre, _, rfl, hl, hroom, h.full, h.spare, ?_⟩
    rw [if_neg (show ¬(link (head spare none) c).spaceLen = 0 from hspace), bind_ok h.readSlot, bind_ok hvecs, h.slot]
    rfl

/-- The chains after `ds` has been put to those with space. -/
private theorem Evbuffer.Laid.fill {b : Evbuffer} {pre rest pre' l : List Node} {i : Nat} {ds : List UInt8}
    (h : b.Laid pre rest []) (hsplit : pre ++ rest = pre' ++ l) (hl : Spacious l) (hfull : ∀ x ∈ pre', x.2.off ≠ 0)
    (hspare : ∀ x ∈ l.tail, x.2.off = 0) (hne : ds ≠ []) (hroom : ds.length ≤ room l i) {chains : Heap EvbufferChain}
    (hh : Holds chains (pre' ++ ((absorb l ds).1 ++ (absorb l ds).2)) none []) :
    Evbuffer.Laid { b with
      chains := chains
      last_with_datap := slotAfter (pre' ++ (absorb l ds).1)
      total_len := b.total_len + ds.length } (pre' ++ (absorb l ds).1) (absorb l ds).2 [] := by
  have hok : ∀ x ∈ pre' ++ l, x.2.Ok := by
    rw [← hsplit]
    exact h.ok
  have haddresses : addresses (pre' ++ ((absorb l ds).1 ++ (absorb l ds).2)) = addresses (pre ++ rest) := by
    rw [hsplit, addresses_append, addresses_absorb, addresses_append]
  rw [← List.append_assoc] at hh haddresses
  refine ⟨hh, ?_, ?_, rfl, ?_, ?_, spare_of_mem_absorb hspare, fun _ => cur_absorb hl hne hroom, ?_⟩
  · exact h.first.trans (head_congr haddresses none).symm
  · exact h.last.trans (getLast?_congr haddresses).symm
  · intro x hx
    rw [List.append_assoc] at hx
    rcases List.mem_append.1 hx with hx | hx
    · exact hok x (List.mem_append_left _ hx)
    · exact ok_of_mem_absorb (fun y hy => hok y (List.mem_append_right _ hy)) x hx
  · intro x hx
    rcases List.mem_append.1 hx with hx | hx
    · exact hfull x hx
    · exact full_of_mem_absorb hl x hx
  · have htotal := h.total
    rw [hsplit] at htotal
    rw [List.append_assoc, content_append, content_absorb hl hspare hroom]
    simp only [content_append, List.length_append] at htotal ⊢
    omega

theorem howMuchToRead_le (fionread howmuch : Int) : howMuchToRead fionread howmuch ≤ EVBUFFER_MAX_READ := by
  simp only [howMuchToRead]
  split_ifs <;> omega

/-- What `evbuffer_read` does: it appends what waits, up to `m` bytes, or fails and keeps the content. -/
def Evbuffer.HasRead (b : Evbuffer) (bytes : List UInt8) (fd : Readable) (m : Nat) (r : Int) (b' : Evbuffer) : Prop :=
  b.Alike b' ∧ (r = -1 ∧ b'.Carries bytes ∧ (fd.waiting = none ∨ false ∈ b.malloc) ∨
    ∃ data, fd.waiting = some data ∧ r = (data.take m).length ∧ b'.Carries (bytes ++ data.take m))

/-- What was read goes to the end of the content. -/
private theorem readIntoSpace_ok {b : Evbuffer} {pre rest : List Node} {m : Nat} (h : b.Laid pre rest [])
    (hne : rest ≠ []) (hroom : m ≤ room rest NUM_READ_IOVEC) (fd : Readable) :
    ∃ r b', readIntoSpace fd m b = .ok r b' ∧ b.HasRead (content (pre ++ rest)) fd m r b' := by
  obtain ⟨pre', l, hsplit, hl, hroom, hfull, hspare, hsetup⟩ := evbuffer_read_setup_vecs_ok h hne hroom
  unfold readIntoSpace
  rw [bind_ok hsetup]
  simp only
  rcases hwaiting : fd.waiting with _ | data
  · exact ⟨-1, b, rfl, .refl b, Or.inl ⟨rfl, ⟨pre, rest, h, rfl⟩, Or.inl hwaiting⟩⟩
  · have hholds := h.holds
    have hok := h.ok
    rw [hsplit] at hholds hok
    have hok' : ∀ x ∈ l, x.2.Ok := fun x hx => hok x (List.mem_append_right _ hx)
    obtain ⟨chains, hread, hstash⟩ := readv_ok data hholds hok' hl hroom
    simp only
    rw [bind_ok hread]
    by_cases hnone : data.take m = []
    · rw [hnone, stash_nil, ← hsplit] at hstash
      -- with nothing read no chain has changed
      have hlaid : Evbuffer.Laid { b with chains := chains } pre rest [] :=
        ⟨hstash, h.first, h.last, h.slot, h.ok, h.full, h.spare, h.cur, h.total⟩
      rw [hnone, if_pos List.length_nil]
      refine ⟨0, _, rfl, ⟨rfl, rfl, rfl, List.suffix_rfl⟩, Or.inr ⟨data, hwaiting, ?_, ?_⟩⟩
      · rw [hnone]
        rfl
      · rw [hnone, List.append_nil]
        exact ⟨pre, rest, hlaid, rfl⟩
    · have hpos := List.length_pos_iff.2 hnone
      have hle : (data.take m).length ≤ m := by simp
      have hfirst : b.first = head (pre' ++ l) none := by
        rw [h.first, hsplit]
      obtain ⟨chains', hcommit, hholds'⟩ :=
        commitVecs_ok (b := { b with chains := chains }) hstash hfirst hl hok' hnone hle hroom
      have hlaid := h.fill hsplit hl hfull hspare hnone (hle.trans hroom) hholds'
      rw [if_neg (by omega), bind_ok hcommit, setBuf_bind]
      refine ⟨_, _, rfl, ⟨rfl, rfl, rfl, List.suffix_rfl⟩, Or.inr ⟨data, hwaiting, rfl, _, _, hlaid, ?_⟩⟩
      rw [hsplit, List.append_assoc, content_append, content_absorb hl hspare (hle.trans hroom), content_append,
        List.append_assoc]

/-- `evbuffer_read` never does what it must not, whatever the kernel and `malloc` do. -/
theorem evbuffer_read_ok {b : Evbuffer} {bytes : List UInt8} (h : b.Carries bytes) (hfreeze : b.freeze_end = false)
    (fd : Readable) (howmuch : Int) :
    ∃ r b', evbuffer_read fd howmuch b = .ok r b' ∧
      b.HasRead bytes fd (howMuchToRead fd.fionread howmuch).toNat r b' := by
  have hle := howMuchToRead_le fd.fionread howmuch
  unfold evbuffer_read
  rw [get_bind]
  simp only [hfreeze, Bool.false_eq_true, if_false]
  obtain ⟨r, b₁, hexpand, halike, pre, rest, hlaid, rfl, hresult⟩ := evbuffer_expand_fast_ok
    (howMuchToRead fd.fionread howmuch).toNat h (show 2 ≤ NUM_READ_IOVEC by decide)
  rw [bind_ok hexpand]
  rcases hresult with ⟨rfl, hne, hroom⟩ | ⟨rfl, hfail⟩
  · obtain ⟨r, b', hread, halike', hresult⟩ := readIntoSpace_ok hlaid hne hroom fd
    rw [if_neg (by simp)]
    refine ⟨r, b', hread, halike.trans halike', hresult.imp_left fun hr => ⟨hr.1, hr.2.1, hr.2.2.imp_right ?_⟩⟩
    exact fun hfalse => halike.malloc.subset hfalse
  · rw [if_pos rfl]
    refine ⟨-1, b₁, rfl, halike, Or.inl ⟨rfl, ⟨pre, rest, hlaid, rfl⟩, Or.inr (hfail.resolve_left ?_)⟩⟩
    -- the request is too small to be refused for its size
    have hmax : EVBUFFER_CHAIN_MAX = 9223372036854775807 := rfl
    have hsize : EVBUFFER_CHAIN_SIZE = 48 := rfl
    have hread : EVBUFFER_MAX_READ = 4096 := rfl
    omega

end LibeventServer

import LibeventServer.Libevent.BuffereventSock

/-!
# The streams of a bufferevent

`BuffereventPrivate.Ok p i o`: `i` waits in the input and `o` in the output of `p`.  What was received is what was
taken followed by `i`, and what was queued is what was sent followed by `o`.  Only what is enabled is waited for; and
unless an event could not be added, reading is waited for when it is enabled, and writing when it is enabled and `o`
is not empty.

Every action keeps this (`act_ok`) and so does every run (`acts_ok`), whatever the kernel and `malloc` do.
-/

namespace LibeventServer

open EStateM Linked LinkedList

/-! ### Freezing -/

private theorem Evbuffer.Carries.set_end {b : Evbuffer} {bytes : List UInt8} (h : b.Carries bytes) (x : Bool) :
    Evbuffer.Carries { b with freeze_end := x } bytes := by
  obtain ⟨pre, rest, h, hcontent⟩ := h
  exact ⟨pre, rest, ⟨h.holds, h.first, h.last, h.slot, h.ok, h.full, h.spare, h.cur, h.total⟩, hcontent⟩

private theorem Evbuffer.CarriesTight.set_start {b : Evbuffer} {bytes : List UInt8}
    (h : b.CarriesTight bytes) (x : Bool) :
    Evbuffer.CarriesTight { b with freeze_start := x } bytes := by
  obtain ⟨pre, rest, h, htight, hcontent⟩ := h
  exact ⟨pre, rest, ⟨h.holds, h.first, h.last, h.slot, h.ok, h.full, h.spare, h.cur, h.total⟩, htight, hcontent⟩

theorem Evbuffer.CarriesTight.carries {b : Evbuffer} {bytes : List UInt8} (h : b.CarriesTight bytes) :
    b.Carries bytes := by
  obtain ⟨pre, rest, h, -, hcontent⟩ := h
  exact ⟨pre, rest, h, hcontent⟩

private theorem Evbuffer.Carries.total {b : Evbuffer} {bytes : List UInt8} (h : b.Carries bytes) :
    b.total_len = bytes.length := by
  obtain ⟨pre, rest, h, rfl⟩ := h
  exact h.total

private theorem evbuffer_new_carries (malloc : List Bool) : (evbuffer_new malloc).CarriesTight [] :=
  ⟨[], [], ⟨holds_empty, rfl, rfl, rfl, by simp, by simp, by simp, by simp, rfl⟩, rfl, rfl⟩

/-- All chains are freed, each of them once. -/
theorem evbuffer_free_ok {b : Evbuffer} {bytes : List UInt8} (h : b.Carries bytes) :
    ∃ b', evbuffer_free b = .ok () b' ∧ ∀ a, b'.chains.cell a = none := by
  obtain ⟨pre, rest, h, rfl⟩ := h
  have hlength := h.holds.length_le
  have hnodup : (addresses (pre ++ rest)).Nodup := (List.nodup_append.1 h.holds.nodup).1
  have hfree := freeChains_ok (n := b.chains.next + 1) h.holds.reads hnodup (by simp at hlength ⊢; omega)
  have hholds : Holds ((addresses (pre ++ rest)).foldl Heap.free b.chains) [] none [] :=
    Holds.free_front (m := []) (by rw [List.append_nil]; exact h.holds)
  rw [← h.first] at hfree
  refine ⟨_, hfree, fun a => ?_⟩
  cases hcell : ((addresses (pre ++ rest)).foldl Heap.free b.chains).cell a with
  | none => rfl
  | some c => exact absurd ((hholds.mem a c).1 hcell) (by simp)

namespace BuffereventPrivate

/-! ### The invariant -/

/-- A bufferevent with `i` in its input and `o` in its output. -/
structure Ok (p : BuffereventPrivate) (i o : List UInt8) : Prop where
  input : p.input.Carries i
  output : p.output.CarriesTight o
  input_start : p.input.freeze_start = false
  input_end : p.input.freeze_end = true
  output_start : p.output.freeze_start = true
  output_end : p.output.freeze_end = false
  received : p.taken ++ i = p.received
  queued : p.output.sent ++ o = p.queued
  reading : p.pending.EV_READ = true → p.enabled.EV_READ = true
  writing : p.pending.EV_WRITE = true → p.enabled.EV_WRITE = true
  waits : p.refused = [] → (p.enabled.EV_READ = true → p.pending.EV_READ = true) ∧
    (p.enabled.EV_WRITE = true → o ≠ [] → p.pending.EV_WRITE = true)

/-- Nothing was queued, and `malloc` has gone on at most. -/
structure Kept (p p' : BuffereventPrivate) : Prop where
  queued : p'.queued = p.queued
  malloc : p'.output.malloc <:+ p.output.malloc

private theorem Kept.trans {p p₁ p' : BuffereventPrivate} (h : Kept p p₁) (h' : Kept p₁ p') : Kept p p' :=
  ⟨h'.queued.trans h.queued, h'.malloc.trans h.malloc⟩

theorem bufferevent_socket_new_ok (mallocs : List Bool × List Bool) (adds : List Bool) :
    (bufferevent_socket_new mallocs adds).Ok [] [] where
  input := (evbuffer_new_carries _).carries.set_end true
  output := (evbuffer_new_carries _).set_start true
  input_start := rfl
  input_end := rfl
  output_start := rfl
  output_end := rfl
  received := rfl
  queued := rfl
  reading h := by cases h
  writing h := by cases h
  waits _ := ⟨Bool.noConfusion, fun _ hne => absurd rfl hne⟩

variable {p : BuffereventPrivate} {i o : List UInt8}

theorem onInput_ok {α : Type} {m : Buf α} {a : α} {b : Evbuffer} (h : m p.input = .ok a b) :
    onInput m p = .ok a { p with input := b } := part_ok h

theorem onOutput_ok {α : Type} {m : Buf α} {a : α} {b : Evbuffer} (h : m p.output = .ok a b) :
    onOutput m p = .ok a { p with output := b } := part_ok h

private theorem setBev_bind {α : Type} (f : BuffereventPrivate → BuffereventPrivate) (k : Unit → Bev α)
    (p : BuffereventPrivate) : (setBev f >>= k) p = k () (f p) := rfl

/-- Running a callback changes nothing but the list of calls. -/
private theorem Ok.run (h : p.Ok i o) (callback : BevCallback) : Ok { p with called := p.called ++ [callback] } i o :=
  ⟨h.input, h.output, h.input_start, h.input_end, h.output_start, h.output_end, h.received, h.queued,
    h.reading, h.writing, h.waits⟩

/-- Other events are enabled and waited for. -/
private theorem Ok.set_events (h : p.Ok i o) {enabled pending : EvFlags} {adds : List Bool} {refused : List EvFlags}
    (hreading : pending.EV_READ = true → enabled.EV_READ = true)
    (hwriting : pending.EV_WRITE = true → enabled.EV_WRITE = true)
    (hwaits : refused = [] → (enabled.EV_READ = true → pending.EV_READ = true) ∧
      (enabled.EV_WRITE = true → o ≠ [] → pending.EV_WRITE = true)) :
    Ok { p with enabled := enabled, pending := pending, adds := adds, refused := refused } i o :=
  ⟨h.input, h.output, h.input_start, h.input_end, h.output_start, h.output_end, h.received, h.queued,
    hreading, hwriting, hwaits⟩

theorem Ok.disable (h : p.Ok i o) (event : EvFlags) :
    Ok { p with enabled := p.enabled.andNot event, pending := p.pending.andNot event } i o := by
  refine h.set_events ?_ ?_ fun hrefused => ⟨?_, ?_⟩
  all_goals simp only [EvFlags.andNot, Bool.and_eq_true]
  · exact fun hpending => ⟨h.reading hpending.1, hpending.2⟩
  · exact fun hpending => ⟨h.writing hpending.1, hpending.2⟩
  · exact fun henabled => ⟨(h.waits hrefused).1 henabled.1, henabled.2⟩
  · exact fun henabled hne => ⟨(h.waits hrefused).2 henabled.1 hne, henabled.2⟩

/-! ### Adding events -/

/-- An event that is waited for is no new one. -/
private theorem or_of_has {flags ev : EvFlags} (hev : ev = EV_READ ∨ ev = EV_WRITE) (h : flags.has ev = true) :
    flags.or ev = flags := by
  obtain ⟨read, write⟩ := flags
  rcases hev with rfl | rfl <;> simpa [EvFlags.has, EvFlags.or] using h

/-- An event is added, or it could not be and nothing else has changed. -/
private theorem event_add_cases {ev : EvFlags} (hev : ev = EV_READ ∨ ev = EV_WRITE) (p : BuffereventPrivate) : ∃ adds,
    event_add ev p = .ok 0 { p with pending := p.pending.or ev, adds := adds } ∨
      event_add ev p = .ok (-1) { p with adds := adds, refused := p.refused ++ [ev] } := by
  unfold event_add
  by_cases hhas : p.pending.has ev = true
  · -- the event is among those waited for
    rw [if_pos hhas, or_of_has hev hhas]
    exact ⟨p.adds, Or.inl rfl⟩
  · rw [if_neg hhas]
    cases p.adds with
    | nil => exact ⟨[], Or.inl rfl⟩
    | cons fate adds =>
      cases fate with
      | true => exact ⟨adds, Or.inl rfl⟩
      | false => exact ⟨adds, Or.inr rfl⟩

/-- All events are added, or one could not be, and then nothing else is. -/
private theorem be_socket_enable_cases (event : EvFlags) (p : BuffereventPrivate) :
    (∃ adds, be_socket_enable event p = .ok 0 { p with pending := p.pending.or event, adds := adds }) ∨
      ∃ pending adds refused, be_socket_enable event p =
          .ok (-1) { p with pending := pending, adds := adds, refused := refused } ∧ refused ≠ [] ∧
        (pending.EV_READ = true → (p.pending.or event).EV_READ = true) ∧
        (pending.EV_WRITE = true → (p.pending.or event).EV_WRITE = true) := by
  obtain ⟨read, write⟩ := event
  unfold be_socket_enable
  cases read with
  | false =>
    cases write with
    | false =>
      rw [EvFlags.or_none]
      exact Or.inl ⟨p.adds, rfl⟩
    | true =>
      obtain ⟨adds, hadd | hadd⟩ := event_add_cases (Or.inr rfl) p
      · exact Or.inl ⟨adds, (bind_ok hadd).trans rfl⟩
      · exact Or.inr ⟨_, adds, _, (bind_ok hadd).trans rfl, by simp, by simp [EvFlags.or],
          by simp +contextual [EvFlags.or]⟩
  | true =>
    obtain ⟨adds, hadd | hadd⟩ := event_add_cases (Or.inl rfl) p
    · cases write with
      | false => exact Or.inl ⟨adds, (bind_ok hadd).trans rfl⟩
      | true =>
        obtain ⟨adds', hadd' | hadd'⟩ := event_add_cases (Or.inr rfl)
          { p with pending := p.pending.or EV_READ, adds := adds }
        · rw [EvFlags.or_or] at hadd'
          exact Or.inl ⟨adds', (bind_ok hadd).trans ((bind_ok hadd').trans rfl)⟩
        · exact Or.inr ⟨_, adds', _, (bind_ok hadd).trans ((bind_ok hadd').trans rfl), by simp, by simp [EvFlags.or],
            by simp [EvFlags.or]⟩
    · exact Or.inr ⟨_, adds, _, (bind_ok hadd).trans rfl, by simp, by simp [EvFlags.or],
        by simp +contextual [EvFlags.or]⟩

/-- Writing is waited for from now on, or it could not be, or there is no reason to begin with it. -/
private theorem bufferevent_socket_outbuf_cb_cases (n_added : Nat) (p : BuffereventPrivate) : ∃ adds,
    p.enabled.EV_WRITE = true ∧ bufferevent_socket_outbuf_cb n_added p =
        .ok () { p with pending := p.pending.or EV_WRITE, adds := adds } ∨
      bufferevent_socket_outbuf_cb n_added p =
        .ok () { p with adds := adds, refused := p.refused ++ [EV_WRITE] } ∨
      (n_added ≠ 0 → p.enabled.EV_WRITE = true → p.pending.EV_WRITE = true) ∧
        bufferevent_socket_outbuf_cb n_added p = .ok () p := by
  unfold bufferevent_socket_outbuf_cb
  rw [get_bind]
  by_cases hwake : n_added ≠ 0 ∧ p.enabled.EV_WRITE = true ∧ p.pending.EV_WRITE = false
  · rw [if_pos hwake]
    obtain ⟨adds, hadd | hadd⟩ := event_add_cases (Or.inr rfl) p
    · exact ⟨adds, Or.inl ⟨hwake.2.1, (bind_ok hadd).trans rfl⟩⟩
    · exact ⟨adds, Or.inr (Or.inl ((bind_ok hadd).trans rfl))⟩
  · rw [if_neg hwake]
    refine ⟨p.adds, Or.inr (Or.inr ⟨fun hadded henabled => ?_, rfl⟩)⟩
    by_contra hpending
    exact hwake ⟨hadded, henabled, by simpa using hpending⟩

/-- `bufferevent_enable` changes what is enabled and waited for, and the callbacks are left. -/
theorem bufferevent_enable_ok (h : p.Ok i o) (event : EvFlags) :
    ∃ r p', bufferevent_enable event p = .ok r p' ∧ p'.Ok i o ∧ Kept p p' ∧ p'.called = p.called := by
  -- what is waited for in the end is enabled by then
  have hreads : ∀ ev : EvFlags, (p.pending.or ev).EV_READ = true → (p.enabled.or ev).EV_READ = true := by
    simp only [EvFlags.or, Bool.or_eq_true]
    exact fun ev hpending => hpending.imp_left h.reading
  have hwrites : ∀ ev : EvFlags, (p.pending.or ev).EV_WRITE = true → (p.enabled.or ev).EV_WRITE = true := by
    simp only [EvFlags.or, Bool.or_eq_true]
    exact fun ev hpending => hpending.imp_left h.writing
  unfold bufferevent_enable
  rw [setBev_bind]
  by_cases hnone : event = ⟨false, false⟩
  · subst hnone
    rw [EvFlags.or_none]
    exact ⟨0, p, rfl, h, ⟨rfl, List.suffix_rfl⟩, rfl⟩
  · rw [if_pos hnone]
    rcases be_socket_enable_cases event { p with enabled := p.enabled.or event } with
      ⟨adds, hadd⟩ | ⟨pending, adds, refused, hadd, hrefused, hread, hwrite⟩
    · refine ⟨0, _, (bind_ok hadd).trans rfl, h.set_events (hreads event) (hwrites event) fun hnil => ?_,
        ⟨rfl, List.suffix_rfl⟩, rfl⟩
      simp only [EvFlags.or, Bool.or_eq_true]
      exact ⟨Or.imp_left (h.waits hnil).1, fun henabled hne => henabled.imp_left fun he => (h.waits hnil).2 he hne⟩
    · exact ⟨-1, _, (bind_ok hadd).trans rfl, h.set_events (fun hpending => hreads event (hread hpending))
        (fun hpending => hwrites event (hwrite hpending)) fun hnil => absurd hnil hrefused,
        ⟨rfl, List.suffix_rfl⟩, rfl⟩

/-! ### Reading -/

/-- `bufferevent_read` takes bytes from the front of the input. -/
theorem bufferevent_read_ok (h : p.Ok i o) (size : Nat) :
    ∃ p', bufferevent_read size p = .ok ((Int32.ofInt (i.take size).length).toInt64.toUInt64, i.take size) p' ∧
      p'.Ok (i.drop size) o ∧ Kept p p' ∧ p'.called = p.called := by
  obtain ⟨b, hremove, hcarries, halike⟩ := evbuffer_remove_ok h.input h.input_start size
  unfold bufferevent_read
  rw [bind_ok (onInput_ok hremove)]
  refine ⟨_, rfl, ⟨hcarries, h.output, halike.freeze_start.trans h.input_start, halike.freeze_end.trans h.input_end,
    h.output_start, h.output_end, ?_, h.queued, h.reading, h.writing, h.waits⟩, ⟨rfl, List.suffix_rfl⟩, rfl⟩
  show p.taken ++ i.take size ++ i.drop size = p.received
  rw [List.append_assoc, List.take_append_drop, h.received]

/-- Either bytes were received and `readcb` was called, or nothing was received and at most `errorcb` was called. -/
theorem bufferevent_readcb_ok (h : p.Ok i o) (fd : Readable) (retriable : Bool) :
    ∃ p', bufferevent_readcb fd retriable p = .ok () p' ∧ Kept p p' ∧
      (p'.Ok i o ∧ (p'.called = p.called ∨ ∃ what, p'.called = p.called ++ [.eventcb what]) ∨
        ∃ chunk, chunk ≠ [] ∧ chunk <+: fd.waiting.getD [] ∧ chunk.length ≤ EVBUFFER_MAX_READ ∧ p'.Ok (i ++ chunk) o ∧
          p'.called = p.called ++ [.readcb]) := by
  obtain ⟨r, b, hread, halike, hresult⟩ := evbuffer_read_ok (b := { p.input with freeze_end := false })
    (h.input.set_end false) rfl fd MAX_TO_READ_EVER
  unfold bufferevent_readcb
  rw [bind_ok (onInput_ok (m := evbuffer_unfreeze false) rfl)]
  rw [bind_ok (onInput_ok hread), bind_ok (onInput_ok (m := evbuffer_freeze false) rfl), setBev_bind]
  rcases hresult with ⟨rfl, hcarries, -⟩ | ⟨data, hwaiting, rfl, hcarries⟩
  · -- an error: reading goes on if it may be tried again, and is disabled otherwise
    have hok : Ok { p with input := { b with freeze_end := true }, received := p.received ++ [] } i o :=
      ⟨hcarries.set_end true, h.output, halike.freeze_start.trans h.input_start, rfl, h.output_start, h.output_end,
        by rw [List.append_nil]; exact h.received, h.queued, h.reading, h.writing, h.waits⟩
    cases retriable with
    | true => exact ⟨_, rfl, ⟨rfl, List.suffix_rfl⟩, Or.inl ⟨hok, Or.inl rfl⟩⟩
    | false => exact ⟨_, rfl, ⟨rfl, List.suffix_rfl⟩, Or.inl ⟨(hok.disable EV_READ).run _, Or.inr ⟨_, rfl⟩⟩⟩
  · generalize hchunk : data.take (howMuchToRead fd.fionread MAX_TO_READ_EVER).toNat = chunk at hcarries
    have hreceived : (fd.waiting.getD []).take ((chunk.length : Int)).toNat = chunk := by
      rw [hwaiting, Option.getD_some, Int.toNat_natCast, ← hchunk, take_length_take]
    have hok : Ok { p with
        input := { b with freeze_end := true }
        received := p.received ++ (fd.waiting.getD []).take ((chunk.length : Int)).toNat } (i ++ chunk) o :=
      ⟨hcarries.set_end true, h.output, halike.freeze_start.trans h.input_start, rfl, h.output_start, h.output_end,
        by rw [hreceived, ← h.received, List.append_assoc], h.queued, h.reading, h.writing, h.waits⟩
    by_cases hnone : chunk = []
    · -- the peer has closed: reading is disabled and `errorcb` called
      subst hnone
      rw [List.append_nil] at hok
      exact ⟨_, rfl, ⟨rfl, List.suffix_rfl⟩, Or.inl ⟨(hok.disable EV_READ).run _, Or.inr ⟨_, rfl⟩⟩⟩
    · have hpos := List.length_pos_iff.2 hnone
      rw [if_neg (by omega), if_neg (by omega)]
      refine ⟨_, rfl, ⟨rfl, List.suffix_rfl⟩, Or.inr ⟨chunk, hnone, ?_, ?_, hok.run _, rfl⟩⟩
      · rw [hwaiting, ← hchunk]
        exact List.take_prefix _ _
      · have hle := howMuchToRead_le fd.fionread MAX_TO_READ_EVER
        rw [← hchunk, List.length_take]
        omega

/-! ### Writing -/

theorem Ok.length_output (h : p.Ok i o) : p.output.total_len = o.length := h.output.carries.total

/-- Writing is not waited for any more when there is nothing to write. -/
private theorem stopWriting_ok (h : p.Ok i o) : ∃ p', stopWriting p = .ok () p' ∧ p'.Ok i o ∧ p'.called = p.called ∧
    Kept p p' ∧ (o = [] → p'.pending.EV_WRITE = false) ∧ (o ≠ [] → p'.pending = p.pending) := by
  unfold stopWriting
  rw [get_bind]
  by_cases hzero : p.output.total_len = 0
  · rw [if_pos hzero]
    obtain rfl : o = [] := List.length_eq_zero_iff.1 (h.length_output.symm.trans hzero)
    refine ⟨_, rfl, h.set_events ?_ ?_ fun hrefused => ⟨?_, fun _ hne => absurd rfl hne⟩, rfl, ⟨rfl, List.suffix_rfl⟩,
      fun _ => ?_, fun hne => absurd rfl hne⟩
    all_goals simp only [EvFlags.andNot, Bool.not_false, Bool.and_true, Bool.not_true, Bool.and_false,
      Bool.false_eq_true, false_imp_iff]
    · exact h.reading
    · exact (h.waits hrefused).1
  · rw [if_neg hzero]
    refine ⟨p, rfl, h, rfl, ⟨rfl, List.suffix_rfl⟩, ?_, fun _ => rfl⟩
    rintro rfl
    exact absurd h.length_output hzero

private theorem finishWriting_ok (h : p.Ok i o) : ∃ p', finishWriting p = .ok () p' ∧ p'.Ok i o ∧
    (p'.called = p.called ∨ p'.called = p.called ++ [.writecb]) ∧ Kept p p' ∧
    (o = [] → p'.pending.EV_WRITE = false) ∧ (o ≠ [] → p'.pending = p.pending) := by
  obtain ⟨p₁, hstop, hok, hcalled, hkept, hpending⟩ := stopWriting_ok h
  unfold finishWriting
  rw [bind_ok hstop, get_bind]
  by_cases hzero : p₁.output.total_len = 0
  · rw [if_pos hzero]
    exact ⟨_, rfl, hok.run _, Or.inr (congrArg (· ++ [.writecb]) hcalled), ⟨hkept.queued, hkept.malloc⟩, hpending⟩
  · rw [if_neg hzero]
    exact ⟨p₁, rfl, hok, Or.inl hcalled, hkept, hpending⟩

/-- The kernel takes bytes from the front of the output, and some if it has room for any. -/
theorem bufferevent_writecb_ok (h : p.Ok i o) (room : Option Nat) (retriable : Bool) :
    ∃ k p', bufferevent_writecb room retriable p = .ok () p' ∧ p'.Ok i (o.drop k) ∧
      (p'.called = p.called ∨ ∃ c, p'.called = p.called ++ [c] ∧ c ≠ .readcb) ∧ Kept p p' ∧
      (0 < room.getD 0 → (o ≠ [] → 0 < k) ∧ (o.drop k = [] → p'.pending.EV_WRITE = false) ∧
        (o.drop k ≠ [] → p'.pending = p.pending)) := by
  unfold bufferevent_writecb
  rw [get_bind]
  by_cases hzero : p.output.total_len = 0
  · obtain rfl : o = [] := List.length_eq_zero_iff.1 (h.length_output.symm.trans hzero)
    obtain ⟨p', hfinish, hok, hcalled, hkept, hpending⟩ := finishWriting_ok h
    rw [if_pos hzero]
    exact ⟨0, p', hfinish, hok, hcalled.imp_right fun hc => ⟨_, hc, by decide⟩, hkept,
      fun _ => ⟨fun hne => absurd rfl hne, hpending⟩⟩
  · have hne : o ≠ [] := by
      rintro rfl
      exact hzero h.length_output
    obtain ⟨k, b, hwrite, hcarries, halike, hle, -, hroom⟩ := evbuffer_write_atmost_ok
      (b := { p.output with freeze_start := false }) (h.output.set_start false) rfl hne room
      (show 0 < MAX_TO_WRITE_EVER by decide)
    have hok : Ok { p with output := { b with freeze_start := true } } i (o.drop k) :=
      ⟨h.input, hcarries.set_start true, h.input_start, h.input_end, rfl, halike.freeze_end.trans h.output_end,
        h.received, by rw [← h.queued]; simp [halike.sent], h.reading, h.writing,
        fun hrefused => ⟨(h.waits hrefused).1, fun henabled _ => (h.waits hrefused).2 henabled hne⟩⟩
    have hkept : Kept p { p with output := { b with freeze_start := true } } := ⟨rfl, halike.malloc⟩
    -- the output is unfrozen for the time of the write only
    have hunfreeze : onOutput (evbuffer_unfreeze true) p =
        .ok () { p with output := { p.output with freeze_start := false } } := onOutput_ok rfl
    have hwrite' := onOutput_ok (p := { p with output := { p.output with freeze_start := false } }) hwrite
    have hfreeze : onOutput (evbuffer_freeze true) { p with output := b } =
        .ok () { p with output := { b with freeze_start := true } } := onOutput_ok rfl
    rw [if_neg hzero, bind_ok hunfreeze, bind_ok hwrite', bind_ok hfreeze]
    cases room with
    | none =>
      have hnone : ¬ 0 < (none : Option Nat).getD 0 := by simp
      cases retriable with
      | true =>
        obtain ⟨p', hstop, hok', hcalled, hkept', -⟩ := stopWriting_ok hok
        exact ⟨k, p', hstop, hok', Or.inl hcalled, hkept.trans hkept', fun hpos => absurd hpos hnone⟩
      | false =>
        exact ⟨k, _, rfl, (hok.disable EV_WRITE).run _, Or.inr ⟨_, rfl, by simp⟩, ⟨rfl, halike.malloc⟩,
          fun hpos => absurd hpos hnone⟩
    | some room =>
      simp only [Option.isSome_some, if_true, Option.getD_some] at hroom ⊢
      rw [if_neg (by omega)]
      -- a write of no bytes counts as the end of the connection
      by_cases hk : k = 0
      · rw [if_pos (by omega)]
        exact ⟨k, _, rfl, (hok.disable EV_WRITE).run _, Or.inr ⟨_, rfl, by simp⟩, ⟨rfl, halike.malloc⟩,
          fun hpos => by omega⟩
      · rw [if_neg (by omega)]
        obtain ⟨p', hfinish, hok', hcalled, hkept', hpending⟩ := finishWriting_ok hok
        exact ⟨k, p', hfinish, hok', hcalled.imp_right fun hc => ⟨_, hc, by simp⟩, hkept.trans hkept',
          fun _ => ⟨fun _ => Nat.pos_of_ne_zero hk, hpending⟩⟩

/-- `bufferevent_write` queues all of `data` and waits for the socket, or fails and changes nothing. -/
theorem bufferevent_write_ok (h : p.Ok i o) (data : List UInt8) :
    ∃ r p', bufferevent_write data p = .ok r p' ∧ p'.called = p.called ∧ p'.output.malloc <:+ p.output.malloc ∧
      (r = 0 ∧ p'.Ok i (o ++ data) ∧ p'.queued = p.queued ++ data ∨
        r = -1 ∧ p'.Ok i o ∧ p'.queued = p.queued ∧ p.output.Refuses o data) := by
  obtain ⟨r, b, hadd, halike, hresult⟩ := evbuffer_add_ok h.output data
  unfold bufferevent_write
  rw [bind_ok (onOutput_ok hadd)]
  rcases hresult with ⟨rfl, hcarries⟩ | ⟨rfl, hcarries, hrefuses⟩
  · have hqueued : b.sent ++ (o ++ data) = p.queued ++ data := by
      rw [halike.sent, ← h.queued, List.append_assoc]
    have hstart := halike.freeze_start.trans h.output_start
    have hend := halike.freeze_end.trans h.output_end
    rw [if_neg (by decide)]
    obtain ⟨adds, ⟨henabled, hcb⟩ | hcb | ⟨hnone, hcb⟩⟩ :=
      bufferevent_socket_outbuf_cb_cases data.length { p with output := b }
    · rw [bind_ok hcb]
      refine ⟨0, _, rfl, rfl, halike.malloc,
        Or.inl ⟨rfl, ⟨h.input, hcarries, h.input_start, h.input_end, hstart, hend,
          h.received, hqueued, ?_, fun _ => henabled, fun hrefused => ⟨?_, ?_⟩⟩, rfl⟩⟩
      · simpa [EvFlags.or] using h.reading
      · simpa [EvFlags.or] using (h.waits hrefused).1
      · simp [EvFlags.or]
    · rw [bind_ok hcb]
      exact ⟨0, _, rfl, rfl, halike.malloc, Or.inl ⟨rfl, ⟨h.input, hcarries, h.input_start, h.input_end, hstart, hend,
        h.received, hqueued, h.reading, h.writing, fun hrefused => absurd hrefused (by simp)⟩, rfl⟩⟩
    · rw [bind_ok hcb]
      refine ⟨0, _, rfl, rfl, halike.malloc,
        Or.inl ⟨rfl, ⟨h.input, hcarries, h.input_start, h.input_end, hstart, hend,
          h.received, hqueued, h.reading, h.writing,
          fun hrefused => ⟨(h.waits hrefused).1, fun henabled hne => ?_⟩⟩, rfl⟩⟩
      -- nothing was added, or writing is waited for already
      by_cases hdata : data.length = 0
      · rw [List.length_eq_zero_iff.1 hdata, List.append_nil] at hne
        exact (h.waits hrefused).2 henabled hne
      · exact hnone hdata henabled
  · rw [if_pos rfl]
    exact ⟨-1, _, rfl, rfl, halike.malloc, Or.inr ⟨rfl, ⟨h.input, hcarries, h.input_start, h.input_end,
      halike.freeze_start.trans h.output_start, halike.freeze_end.trans h.output_end, h.received,
      by rw [← h.queued]; simp [halike.sent], h.reading, h.writing, h.waits⟩, rfl, hrefuses⟩⟩

/-! ### Every action -/

theorem act_ok (h : p.Ok i o) (action : Action) : ∃ p' i' o', act action p = .ok () p' ∧ p'.Ok i' o' := by
  cases action with
  | readable fd retriable =>
    rw [act, get_bind]
    by_cases hpending : p.pending.EV_READ = true
    · rw [if_pos hpending]
      obtain ⟨p', hread, -, ⟨hok, -⟩ | ⟨chunk, -, -, -, hok, -⟩⟩ := bufferevent_readcb_ok h fd retriable
      · exact ⟨p', _, _, hread, hok⟩
      · exact ⟨p', _, _, hread, hok⟩
    · rw [if_neg hpending]
      exact ⟨p, i, o, rfl, h⟩
  | writable room retriable =>
    rw [act, get_bind]
    by_cases hpending : p.pending.EV_WRITE = true
    · rw [if_pos hpending]
      obtain ⟨k, p', hwrite, hok, -⟩ := bufferevent_writecb_ok h room retriable
      exact ⟨p', _, _, hwrite, hok⟩
    · rw [if_neg hpending]
      exact ⟨p, i, o, rfl, h⟩
  | read size =>
    obtain ⟨p', hread, hok, -⟩ := bufferevent_read_ok h size
    rw [act, bind_ok hread]
    exact ⟨p', _, _, rfl, hok⟩
  | write data =>
    obtain ⟨r, p', hwrite, -, -, ⟨-, hok, -⟩ | ⟨-, hok, -⟩⟩ := bufferevent_write_ok h data
    all_goals
      rw [act, bind_ok hwrite]
      exact ⟨p', _, _, rfl, hok⟩
  | enable event =>
    obtain ⟨r, p', henable, hok, -⟩ := bufferevent_enable_ok h event
    rw [act, bind_ok henable]
    exact ⟨p', _, _, rfl, hok⟩
  | disable event => exact ⟨_, i, o, rfl, h.disable event⟩

/-- Every run goes through. -/
theorem acts_ok (h : p.Ok i o) (l : List Action) : ∃ p' i' o', acts l p = .ok () p' ∧ p'.Ok i' o' := by
  induction l generalizing p i o with
  | nil => exact ⟨p, i, o, rfl, h⟩
  | cons action l ih =>
    obtain ⟨p₁, i₁, o₁, hact, hok₁⟩ := act_ok h action
    obtain ⟨p', i', o', hacts, hok⟩ := ih hok₁
    exact ⟨p', i', o', (bind_ok hact).trans hacts, hok⟩

/-! ### When every event can be added -/

/-- No event was refused, and none will be. -/
def NoneRefused (p : BuffereventPrivate) : Prop := p.refused = [] ∧ false ∉ p.adds

private theorem keeps_setBev {f : BuffereventPrivate → BuffereventPrivate}
    (h : ∀ p, (f p).refused = p.refused ∧ (f p).adds = p.adds) : Keeps NoneRefused (setBev f) := by
  intro p a p' hp hrun
  cases hrun
  rwa [NoneRefused, (h p).1, (h p).2]

private theorem keeps_onInput {α : Type} (m : Buf α) : Keeps NoneRefused (onInput m) :=
  Keeps.part fun _ _ hp => hp

private theorem keeps_onOutput {α : Type} (m : Buf α) : Keeps NoneRefused (onOutput m) :=
  Keeps.part fun _ _ hp => hp

private theorem keeps_event_add (ev : EvFlags) : Keeps NoneRefused (event_add ev) := by
  intro p a p' hp hrun
  unfold event_add at hrun
  split at hrun
  · cases hrun
    exact hp
  · split at hrun
    · rename_i adds hadds
      exact absurd (hadds ▸ List.mem_cons_self) hp.2
    · rename_i adds hadds
      cases hrun
      exact ⟨hp.1, fun hmem => hp.2 (hadds ▸ List.mem_cons_of_mem _ hmem)⟩
    · cases hrun
      exact hp

private theorem keeps_run (callback : BevCallback) : Keeps NoneRefused (bufferevent_run callback) :=
  keeps_setBev fun _ => ⟨rfl, rfl⟩

private theorem keeps_disable (event : EvFlags) : Keeps NoneRefused (bufferevent_disable event) := by
  unfold bufferevent_disable event_del
  exact Keeps.bind (keeps_setBev fun _ => ⟨rfl, rfl⟩) fun _ => keeps_setBev fun _ => ⟨rfl, rfl⟩

private theorem keeps_enable (event : EvFlags) : Keeps NoneRefused (bufferevent_enable event) := by
  have hwrite : ∀ c : Prop, [Decidable c] → Keeps NoneRefused (if c then event_add EV_WRITE >>= fun n =>
      if n = -1 then pure (-1) else pure 0 else pure 0) :=
    fun c _ => .ite (Keeps.bind (keeps_event_add _) fun _ => .ite (.pure _) (.pure _)) (.pure _)
  have hsocket : Keeps NoneRefused (be_socket_enable event) := by
    unfold be_socket_enable
    exact .ite (Keeps.bind (keeps_event_add _) fun _ => .ite (.pure _) (hwrite _)) (hwrite _)
  unfold bufferevent_enable
  refine Keeps.bind (keeps_setBev fun _ => ⟨rfl, rfl⟩) fun _ => .ite ?_ (.pure _)
  exact Keeps.bind hsocket fun _ => .ite (.pure _) (.pure _)

private theorem keeps_stopWriting : Keeps NoneRefused stopWriting := by
  unfold stopWriting event_del
  exact Keeps.bind Keeps.get fun _ => .ite (keeps_setBev fun _ => ⟨rfl, rfl⟩) (.pure _)

private theorem keeps_finishWriting : Keeps NoneRefused finishWriting := by
  unfold finishWriting
  exact Keeps.bind keeps_stopWriting fun _ => Keeps.bind Keeps.get fun _ => .ite (keeps_run _) (.pure _)

private theorem keeps_readcb (fd : Readable) (retriable : Bool) :
    Keeps NoneRefused (bufferevent_readcb fd retriable) := by
  unfold bufferevent_readcb
  refine Keeps.bind (keeps_onInput _) fun _ => Keeps.bind (keeps_onInput _) fun res =>
    Keeps.bind (keeps_onInput _) fun _ =>
    Keeps.bind (keeps_setBev fun _ => ⟨rfl, rfl⟩) fun _ => .ite (.pure _) (.ite ?_ (keeps_run _))
  exact Keeps.bind (keeps_disable _) fun _ => keeps_run _

private theorem keeps_writecb (room : Option Nat) (retriable : Bool) :
    Keeps NoneRefused (bufferevent_writecb room retriable) := by
  unfold bufferevent_writecb
  refine Keeps.bind Keeps.get fun _ => .ite keeps_finishWriting (Keeps.bind (keeps_onOutput _) fun _ =>
    Keeps.bind (keeps_onOutput _) fun res => Keeps.bind (keeps_onOutput _) fun _ =>
      .ite keeps_stopWriting (.ite ?_ keeps_finishWriting))
  exact Keeps.bind (keeps_disable _) fun _ => keeps_run _

private theorem keeps_write (data : List UInt8) : Keeps NoneRefused (bufferevent_write data) := by
  unfold bufferevent_write bufferevent_socket_outbuf_cb
  refine Keeps.bind (keeps_onOutput _) fun _ => .ite (.pure _) (Keeps.bind ?_ fun _ =>
    Keeps.bind (keeps_setBev fun _ => ⟨rfl, rfl⟩) fun _ => .pure _)
  exact Keeps.bind Keeps.get fun _ => .ite (Keeps.bind (keeps_event_add _) fun _ => .pure _) (.pure _)

private theorem keeps_read (size : Nat) : Keeps NoneRefused (bufferevent_read size) := by
  unfold bufferevent_read
  exact Keeps.bind (keeps_onInput _) fun _ => Keeps.bind (keeps_setBev fun _ => ⟨rfl, rfl⟩) fun _ => .pure _

theorem acts_noneRefused (l : List Action) : Keeps NoneRefused (acts l) := by
  refine Keeps.forM fun action _ => ?_
  cases action with
  | readable fd retriable => exact Keeps.bind Keeps.get fun _ => .ite (keeps_readcb fd retriable) (.pure _)
  | writable room retriable => exact Keeps.bind Keeps.get fun _ => .ite (keeps_writecb room retriable) (.pure _)
  | read size => exact Keeps.bind (keeps_read size) fun _ => .pure _
  | write data => exact Keeps.bind (keeps_write data) fun _ => .pure _
  | enable event => exact Keeps.bind (keeps_enable event) fun _ => .pure _
  | disable event => exact keeps_disable event

end BuffereventPrivate

end LibeventServer

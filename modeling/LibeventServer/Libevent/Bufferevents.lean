import LibeventServer.Libevent.Streaming
import LibeventServer.Overflow

/-!
# Bufferevents over whole runs

A run takes a new bufferevent through any actions: the socket is ready, with anything the kernel may say, or the user
reads, writes, enables or disables; any allocation may fail, and any `event_add`.

* `streams_kept`: nothing goes wrong, and no byte is lost, doubled or moved in either direction.
* `writing_awaited`: bytes do not wait in the output while nobody waits for the socket, unless an event could not be
  added.
* `output_flushed`: once the socket is waited for they are all sent if it keeps taking some.
* `chains_freed`: `bufferevent_free` leaves no chain behind.
* `bufferevent_refined`: the two lists of bytes in the model of the server behave as the chains do.
-/

namespace LibeventServer

open EStateM

namespace BuffereventPrivate

/-- Every run of a bufferevent goes through, and keeps both streams. -/
theorem streams_kept (mallocs : List Bool × List Bool) (adds : List Bool) (l : List Action) :
    ∃ p i o, acts l (bufferevent_socket_new mallocs adds) = .ok () p ∧ p.input.Carries i ∧ p.output.CarriesTight o ∧
      p.taken ++ i = p.received ∧ p.output.sent ++ o = p.queued := by
  obtain ⟨p, i, o, hacts, hok⟩ := acts_ok (bufferevent_socket_new_ok mallocs adds) l
  exact ⟨p, i, o, hacts, hok.input, hok.output, hok.received, hok.queued⟩

/-- Only what is enabled is waited for.  Where no event could not be added, reading is waited for when it is enabled,
and writing when it is enabled and there are bytes to write; that is so where every call of `evmap_io_add` succeeds.
-/
theorem writing_awaited (mallocs : List Bool × List Bool) (adds : List Bool) (l : List Action) :
    ∃ p, acts l (bufferevent_socket_new mallocs adds) = .ok () p ∧
      (p.pending.EV_READ = true → p.enabled.EV_READ = true) ∧
      (p.pending.EV_WRITE = true → p.enabled.EV_WRITE = true) ∧
      (p.refused = [] → p.pending.EV_READ = p.enabled.EV_READ ∧
        (p.enabled.EV_WRITE = true → p.output.total_len ≠ 0 → p.pending.EV_WRITE = true)) ∧
      (false ∉ adds → p.refused = []) := by
  obtain ⟨p, i, o, hacts, hok⟩ := acts_ok (bufferevent_socket_new_ok mallocs adds) l
  refine ⟨p, hacts, hok.reading, hok.writing, fun hrefused => ⟨?_, fun henabled hlength => ?_⟩, fun hadds => ?_⟩
  · exact Bool.eq_iff_iff.2 ⟨hok.reading, (hok.waits hrefused).1⟩
  · refine (hok.waits hrefused).2 henabled ?_
    rintro rfl
    exact hlength hok.length_output
  · exact (acts_noneRefused l _ _ _ ⟨rfl, hadds⟩ hacts).1

/-- A write whose event is refused succeeds, and its bytes wait. -/
example : ∃ p, bufferevent_write [1, 2, 3] (bufferevent_socket_new ([], []) [false]) = .ok 0 p ∧
    p.output.total_len = 3 ∧ p.enabled.EV_WRITE = true ∧ p.pending.EV_WRITE = false :=
  ⟨_, rfl, rfl, rfl, rfl⟩

/-! ### Progress -/

/-- The socket is ready for writing again and again, with room for some bytes each time. -/
def writables (rooms : List (Nat × Bool)) : List Action := rooms.map fun r => .writable (some r.1) r.2

/-- Each time there are fewer bytes left, and with the last one the waiting ends. -/
private theorem writables_ok {i : List UInt8} {rooms : List (Nat × Bool)} (hrooms : ∀ r ∈ rooms, 0 < r.1) :
    ∀ {p : BuffereventPrivate} {o : List UInt8}, p.Ok i o → (o ≠ [] → p.pending.EV_WRITE = true) →
      (o = [] ∧ p.pending.EV_WRITE = false ∨ o.length < rooms.length) →
      ∃ p', acts (writables rooms) p = .ok () p' ∧ p'.Ok i [] ∧ p'.pending.EV_WRITE = false ∧
      p'.queued = p.queued := by
  induction rooms with
  | nil =>
    intro p o h _ hleft
    obtain ⟨rfl, hpending⟩ := hleft.resolve_right (by simp)
    exact ⟨p, rfl, h, hpending, rfl⟩
  | cons r rooms ih =>
    intro p o h hwait hleft
    obtain ⟨hr, hrooms⟩ := List.forall_mem_cons.1 hrooms
    obtain ⟨p₁, o₁, hact, hok, hwait₁, hqueued, hleft₁⟩ : ∃ p₁ o₁, act (.writable (some r.1) r.2) p = .ok () p₁ ∧
        p₁.Ok i o₁ ∧ (o₁ ≠ [] → p₁.pending.EV_WRITE = true) ∧ p₁.queued = p.queued ∧
        (o₁ = [] ∧ p₁.pending.EV_WRITE = false ∨ o₁.length < rooms.length) := by
      rw [act, get_bind]
      by_cases hpending : p.pending.EV_WRITE = true
      · obtain ⟨k, p₁, hwrite, hok, -, hkept, hroom⟩ := bufferevent_writecb_ok h (some r.1) r.2
        obtain ⟨hk, hdone, hsame⟩ := hroom hr
        rw [if_pos hpending]
        refine ⟨p₁, _, hwrite, hok, fun hne => by rw [hsame hne, hpending], hkept.queued, ?_⟩
        -- with bytes left there are fewer of them than turns, since at least one was taken
        by_cases hnone : o.drop k = []
        · exact Or.inl ⟨hnone, hdone hnone⟩
        · have hne : o ≠ [] := by
            rintro rfl
            exact hnone List.drop_nil
          have hlt := hleft.resolve_left fun hl => hne hl.1
          have hpos := hk hne
          have hlen := List.length_pos_iff.2 hne
          rw [List.length_cons] at hlt
          refine Or.inr ?_
          rw [List.length_drop]
          omega
      · have hnone : o = [] := by
          by_contra hne
          exact hpending (hwait hne)
        rw [if_neg hpending]
        exact ⟨p, o, rfl, h, hwait, rfl, Or.inl ⟨hnone, by simpa using hpending⟩⟩
    obtain ⟨p', hacts, hok', hpending', hqueued'⟩ := ih hrooms hok hwait₁ hleft₁
    exact ⟨p', (bind_ok hact).trans hacts, hok', hpending', hqueued'.trans hqueued⟩

/-- After any run that ends with the socket waited for, or nothing to write, all that was queued is sent once the
socket has been ready more often than there are bytes left, and then writing is not waited for any more. -/
theorem output_flushed (mallocs : List Bool × List Bool) (adds : List Bool) (l : List Action) {p : BuffereventPrivate}
    (hp : acts l (bufferevent_socket_new mallocs adds) = .ok () p)
    (hwait : p.output.total_len ≠ 0 → p.pending.EV_WRITE = true)
    (rooms : List (Nat × Bool)) (hrooms : ∀ r ∈ rooms, 0 < r.1) (hlength : p.output.total_len < rooms.length) :
    ∃ p', acts (writables rooms) p = .ok () p' ∧ p'.output.sent = p.queued ∧ p'.pending.EV_WRITE = false := by
  obtain ⟨p₁, i, o, hacts, hok⟩ := acts_ok (bufferevent_socket_new_ok mallocs adds) l
  rw [hp] at hacts
  cases hacts
  rw [hok.length_output] at hwait hlength
  obtain ⟨p', hacts, hok', hpending, hqueued⟩ :=
    writables_ok hrooms hok (fun hne => hwait fun hzero => hne (List.length_eq_zero_iff.1 hzero)) (Or.inr hlength)
  refine ⟨p', hacts, ?_, hpending⟩
  rw [← hqueued, ← hok'.queued, List.append_nil]

/-- Three bytes are queued, and the event that was refused then is added when writing is enabled again.  The socket
takes two bytes and then the third. -/
theorem output_flushed_three : ∃ p p',
    acts [.write [1, 2, 3], .enable EV_WRITE] (bufferevent_socket_new ([], []) [false]) = .ok () p ∧
    acts (writables [(2, false), (7, false), (1, false), (1, false)]) p = .ok () p' ∧ p'.output.sent = p.queued ∧
    p'.pending.EV_WRITE = false := by
  obtain ⟨p, hp, hpending, hlength⟩ : ∃ p,
      acts [.write [1, 2, 3], .enable EV_WRITE] (bufferevent_socket_new ([], []) [false]) = .ok () p ∧
      p.pending.EV_WRITE = true ∧ p.output.total_len = 3 := ⟨_, rfl, rfl, rfl⟩
  obtain ⟨p', hacts, hsent, hpending'⟩ := output_flushed ([], []) [false] [.write [1, 2, 3], .enable EV_WRITE] hp
    (fun _ => hpending) [(2, false), (7, false), (1, false), (1, false)] (by decide) (by rw [hlength]; decide)
  exact ⟨p, p', hp, hacts, hsent, hpending'⟩

/-! ### The end -/

/-- After any run, the chains of both evbuffers are freed, each of them once. -/
theorem chains_freed (mallocs : List Bool × List Bool) (adds : List Bool) (l : List Action) :
    ∃ p, (acts l >>= fun _ => bufferevent_free) (bufferevent_socket_new mallocs adds) = .ok () p ∧
      (∀ a, p.input.chains.cell a = none) ∧ ∀ a, p.output.chains.cell a = none := by
  obtain ⟨p, i, o, hacts, hok⟩ := acts_ok (bufferevent_socket_new_ok mallocs adds) l
  obtain ⟨input, hin, hinput⟩ := evbuffer_free_ok hok.input
  obtain ⟨output, hout, houtput⟩ := evbuffer_free_ok hok.output.carries
  refine ⟨{ p with input := input, output := output }, ?_, hinput, houtput⟩
  rw [bind_ok hacts]
  unfold bufferevent_free
  rw [bind_ok (onInput_ok hin)]
  exact onOutput_ok hout

/-! ### The model of the server -/

/-- The model of the server keeps the bytes of `p` as lists; `malloc` is the fate of the allocations for its output.
-/
def Represents (malloc : List Bool) (p : BuffereventPrivate) (e : Bufferevent) : Prop :=
  ∃ o, p.Ok e.input o ∧ p.queued = e.output ∧ p.output.malloc <:+ malloc

/-- Why a write fails: an allocation may, or there are too many bytes. -/
def WriteFails (malloc : List Bool) (e : Bufferevent) (data : List UInt8) : Prop :=
  false ∈ malloc ∨ EV_SIZE_MAX - e.output.length < data.length ∨
    EVBUFFER_CHAIN_MAX - EVBUFFER_CHAIN_SIZE < data.length

/-- What an action does in the model of the server, and which callbacks it calls.  What is read from the socket is a
`Callback.Read`. -/
inductive Moves (malloc : List Bool) : Action → Bufferevent → List BevCallback → Bufferevent → Prop where
  | received {fd : Readable} {retriable : Bool} {e : Bufferevent} {chunk : List UInt8} (hne : chunk ≠ [])
      (hwaiting : chunk <+: fd.waiting.getD []) (hread : ∀ b, (Callback.readable b chunk : Callback Unit).Read) :
      Moves malloc (.readable fd retriable) e [.readcb] { e with input := e.input ++ chunk }
  | ready {fd : Readable} {retriable : Bool} {e : Bufferevent} {calls : List BevCallback} (hcalls : .readcb ∉ calls) :
      Moves malloc (.readable fd retriable) e calls e
  | writable {room : Option Nat} {retriable : Bool} {e : Bufferevent} {calls : List BevCallback}
      (hcalls : .readcb ∉ calls) : Moves malloc (.writable room retriable) e calls e
  | read {size : Nat} {e : Bufferevent} : Moves malloc (.read size) e [] { e with input := e.input.drop size }
  | write {data : List UInt8} {e : Bufferevent} :
      Moves malloc (.write data) e [] { e with output := e.output ++ data }
  | failed {data : List UInt8} {e : Bufferevent} (hfails : WriteFails malloc e data) :
      Moves malloc (.write data) e [] e
  | enable {event : EvFlags} {e : Bufferevent} : Moves malloc (.enable event) e [] e
  | disable {event : EvFlags} {e : Bufferevent} : Moves malloc (.disable event) e [] e

/-- The actions one after the other. -/
inductive MovesAll (malloc : List Bool) : List Action → Bufferevent → List BevCallback → Bufferevent → Prop where
  | nil {e : Bufferevent} : MovesAll malloc [] e [] e
  | cons {action : Action} {l : List Action} {e e₁ e' : Bufferevent} {calls calls' : List BevCallback}
      (h : Moves malloc action e calls e₁) (hl : MovesAll malloc l e₁ calls' e') :
      MovesAll malloc (action :: l) e (calls ++ calls') e'

private theorem Represents.kept {malloc : List Bool} {p p' : BuffereventPrivate} {e e' : Bufferevent} {o : List UInt8}
    (h : Represents malloc p e) (hok : p'.Ok e'.input o) (hkept : Kept p p') (he : e'.output = e.output) :
    Represents malloc p' e' := by
  obtain ⟨-, -, hqueued, hmalloc⟩ := h
  exact ⟨o, hok, by rw [hkept.queued, hqueued, he], hkept.malloc.trans hmalloc⟩

/-- A write that the output refuses fails. -/
private theorem Ok.writeFails {malloc : List Bool} {p : BuffereventPrivate} {i o data : List UInt8} {e : Bufferevent}
    (h : p.Ok i o) (hqueued : p.queued = e.output) (hmalloc : p.output.malloc <:+ malloc)
    (hrefuses : p.output.Refuses o data) : WriteFails malloc e data := by
  have hlength : o.length ≤ e.output.length := by
    rw [← hqueued, ← h.queued, List.length_append]
    omega
  rcases hrefuses with hfrozen | hmany | hlarge | hfalse
  · rw [h.output_end] at hfrozen
    cases hfrozen
  · exact Or.inr (Or.inl (by omega))
  · exact Or.inr (Or.inr hlarge)
  · exact Or.inl (hmalloc.subset hfalse)

private theorem act_refined {malloc : List Bool} {p : BuffereventPrivate} {e : Bufferevent}
    (h : Represents malloc p e) (action : Action) :
    ∃ p' calls e', act action p = .ok () p' ∧ Moves malloc action e calls e' ∧
      Represents malloc p' e' ∧ p'.called = p.called ++ calls := by
  have hrepresents := h
  obtain ⟨o, hok, hqueued, hmalloc⟩ := h
  cases action with
  | readable fd retriable =>
    rw [act, get_bind]
    by_cases hpending : p.pending.EV_READ = true
    · rw [if_pos hpending]
      obtain ⟨p', hread, hkept, ⟨hok', hcalled⟩ | ⟨chunk, hne, hwaiting, hle, hok', hcalled⟩⟩ :=
        bufferevent_readcb_ok hok fd retriable
      · -- an error that may be tried again calls nothing
        rcases hcalled with hcalled | ⟨what, hcalled⟩
        · exact ⟨p', [], e, hread, .ready (by simp), hrepresents.kept hok' hkept rfl,
            by rw [hcalled, List.append_nil]⟩
        · exact ⟨p', _, e, hread, .ready (by simp), hrepresents.kept hok' hkept rfl, hcalled⟩
      · exact ⟨p', _, { e with input := e.input ++ chunk }, hread, .received hne hwaiting fun _ => hle,
          hrepresents.kept hok' hkept rfl, hcalled⟩
    · rw [if_neg hpending]
      exact ⟨p, [], e, rfl, .ready (by simp), hrepresents, by rw [List.append_nil]⟩
  | writable room retriable =>
    rw [act, get_bind]
    by_cases hpending : p.pending.EV_WRITE = true
    · rw [if_pos hpending]
      obtain ⟨k, p', hwrite, hok', hcalled, hkept, -⟩ := bufferevent_writecb_ok hok room retriable
      rcases hcalled with hcalled | ⟨c, hcalled, hc⟩
      · exact ⟨p', [], e, hwrite, .writable (by simp), hrepresents.kept hok' hkept rfl,
          by rw [hcalled, List.append_nil]⟩
      · exact ⟨p', _, e, hwrite, .writable (by simpa using hc.symm), hrepresents.kept hok' hkept rfl, hcalled⟩
    · rw [if_neg hpending]
      exact ⟨p, [], e, rfl, .writable (by simp), hrepresents, by rw [List.append_nil]⟩
  | read size =>
    obtain ⟨p', hread, hok', hkept, hcalled⟩ := bufferevent_read_ok hok size
    rw [act, bind_ok hread]
    exact ⟨p', [], { e with input := e.input.drop size }, rfl, .read, hrepresents.kept hok' hkept rfl,
      by rw [hcalled, List.append_nil]⟩
  | write data =>
    -- what is accepted is queued, and a write that is refused is one that may fail in the model of the server
    obtain ⟨r, p', hwrite, hcalled, hsuffix, ⟨-, hok', hqueued'⟩ | ⟨-, hok', hqueued', hrefuses⟩⟩ :=
      bufferevent_write_ok hok data
    · rw [act, bind_ok hwrite]
      refine ⟨p', [], { e with output := e.output ++ data }, rfl, .write, ⟨_, hok', ?_, hsuffix.trans hmalloc⟩, ?_⟩
      · rw [hqueued', hqueued]
      · rw [hcalled, List.append_nil]
    · rw [act, bind_ok hwrite]
      refine ⟨p', [], e, rfl, .failed (hok.writeFails hqueued hmalloc hrefuses),
        ⟨_, hok', ?_, hsuffix.trans hmalloc⟩, ?_⟩
      · rw [hqueued', hqueued]
      · rw [hcalled, List.append_nil]
  | enable event =>
    obtain ⟨r, p', henable, hok', hkept, hcalled⟩ := bufferevent_enable_ok hok event
    rw [act, bind_ok henable]
    exact ⟨p', [], e, rfl, .enable, hrepresents.kept hok' hkept rfl, by rw [hcalled, List.append_nil]⟩
  | disable event =>
    exact ⟨_, [], e, rfl, .disable, ⟨o, hok.disable event, hqueued, hmalloc⟩, (List.append_nil _).symm⟩

private theorem acts_refined {malloc : List Bool} (l : List Action) : ∀ {p : BuffereventPrivate} {e : Bufferevent},
    Represents malloc p e → ∃ p' calls e', acts l p = .ok () p' ∧ MovesAll malloc l e calls e' ∧
      Represents malloc p' e' ∧ p'.called = p.called ++ calls := by
  induction l with
  | nil => exact fun {p e} h => ⟨p, [], e, rfl, .nil, h, (List.append_nil _).symm⟩
  | cons action l ih =>
    intro p e h
    obtain ⟨p₁, calls, e₁, hact, hmoves, h₁, hcalled⟩ := act_refined h action
    obtain ⟨p', calls', e', hacts, hall, h', hcalled'⟩ := ih h₁
    exact ⟨p', _, e', (bind_ok hact).trans hacts, .cons hmoves hall, h', by rw [hcalled', hcalled, List.append_assoc]⟩

/-- Every run of a bufferevent is one of the bufferevent of the server's model. -/
theorem bufferevent_refined (mallocs : List Bool × List Bool) (adds : List Bool) (cbarg : UInt32) (l : List Action) :
    ∃ p calls e, acts l (bufferevent_socket_new mallocs adds) = .ok () p ∧
      MovesAll mallocs.2 l { cbarg := cbarg, input := [], output := [] } calls e ∧ Represents mallocs.2 p e ∧
      p.called = calls :=
  acts_refined l ⟨[], bufferevent_socket_new_ok mallocs adds, rfl, List.suffix_rfl⟩

end BuffereventPrivate

end LibeventServer

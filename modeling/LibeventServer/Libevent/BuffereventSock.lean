import LibeventServer.Libevent.Adding
import LibeventServer.Libevent.Reading
import LibeventServer.Libevent.Writing

/-!
# `bufferevent_sock.c`

A bufferevent on a connected socket: what is received goes to `input`, from where the user takes it; what the user
writes goes to `output`, from where it is sent.  Timeouts, watermarks and rate limits are not set, so that nothing is
suspended.

The event loop calls `bufferevent_readcb` or `bufferevent_writecb` when the socket is ready and the event pending.
The user's callback is the last thing these do, so that what it does to the bufferevent comes after them.

`event_add` may fail: `evmap_io_add` allocates and calls `epoll_ctl`.  `adds` lists whether its next calls succeed;
after its end they do.  `bufferevent_socket_outbuf_cb` ignores a failure, and `bufferevent_enable` leaves the events
enabled.  It is assumed that `event_del` does not fail: it only lowers what the kernel watches an open socket for.

Reading appends to `input` behind its spare chains, and `evbuffer_add` does not expect such chains; `input` is frozen
at its end, and `output` at its start, while the user may reach them.
-/

namespace LibeventServer

open EStateM

/-! ### `bufferevent_ratelim.c` and `event2/bufferevent.h` -/

abbrev MAX_TO_READ_EVER : Int := 16384

abbrev MAX_TO_WRITE_EVER : Int := 16384

abbrev BEV_EVENT_READING : UInt16 := 0x01

abbrev BEV_EVENT_WRITING : UInt16 := 0x02

abbrev BEV_EVENT_EOF : UInt16 := 0x10

abbrev BEV_EVENT_ERROR : UInt16 := 0x20

/-- A set of `EV_READ` and `EV_WRITE`. -/
structure EvFlags where
  EV_READ : Bool
  EV_WRITE : Bool
  deriving DecidableEq

abbrev EV_READ : EvFlags := ⟨true, false⟩

abbrev EV_WRITE : EvFlags := ⟨false, true⟩

/-- `flags & ev`, for one event. -/
def EvFlags.has (flags ev : EvFlags) : Bool := (flags.EV_READ && ev.EV_READ) || (flags.EV_WRITE && ev.EV_WRITE)

/-- `enabled |= event` -/
def EvFlags.or (enabled event : EvFlags) : EvFlags where
  EV_READ := enabled.EV_READ || event.EV_READ
  EV_WRITE := enabled.EV_WRITE || event.EV_WRITE

/-- `enabled &= ~event` -/
def EvFlags.andNot (enabled event : EvFlags) : EvFlags where
  EV_READ := enabled.EV_READ && !event.EV_READ
  EV_WRITE := enabled.EV_WRITE && !event.EV_WRITE

theorem EvFlags.or_none (flags : EvFlags) : flags.or ⟨false, false⟩ = flags := by
  simp [EvFlags.or]

theorem EvFlags.or_or (flags ev ev' : EvFlags) : (flags.or ev).or ev' = flags.or (ev.or ev') := by
  simp [EvFlags.or, Bool.or_assoc]

/-- A call of one of the three callbacks of `bufferevent_setcb`; the server passes no `writecb`. -/
inductive BevCallback where
  | readcb
  | writecb
  | eventcb (what : UInt16)
  deriving DecidableEq

/-- `struct bufferevent_private`.  `pending` tells which of `ev_read` and `ev_write` are added, `refused` which ones
could not be, and `called` lists the callbacks run; `received` are the bytes the kernel has handed over, `taken` those
the user has read, and `queued` those it has written. -/
structure BuffereventPrivate where
  input : Evbuffer
  output : Evbuffer
  enabled : EvFlags
  pending : EvFlags
  adds : List Bool
  refused : List EvFlags
  called : List BevCallback
  received : List UInt8
  taken : List UInt8
  queued : List UInt8

/-- Code of `bufferevent_sock.c`. -/
abbrev Bev : Type → Type := EStateM BufferFault BuffereventPrivate

namespace BuffereventPrivate

/-! ### Parts -/

/-- Change the bufferevent. -/
def setBev (f : BuffereventPrivate → BuffereventPrivate) : Bev Unit := fun p => .ok () (f p)

def onInput {α : Type} : Buf α → Bev α := part input fun b p => { p with input := b }

def onOutput {α : Type} : Buf α → Bev α := part output fun b p => { p with output := b }

/-- `event_add(ev, NULL)`, for one event; one that is added already is not added again. -/
def event_add (ev : EvFlags) : Bev Int := fun p =>
  if p.pending.has ev = true then .ok 0 p
  else
    match p.adds with
    | false :: adds => .ok (-1) { p with adds := adds, refused := p.refused ++ [ev] }
    | true :: adds => .ok 0 { p with pending := p.pending.or ev, adds := adds }
    | [] => .ok 0 { p with pending := p.pending.or ev }

def event_del (ev : EvFlags) : Bev Unit := setBev fun p => { p with pending := p.pending.andNot ev }

/-- `_bufferevent_run_readcb`, `_bufferevent_run_writecb` and `_bufferevent_run_eventcb` -/
def bufferevent_run (callback : BevCallback) : Bev Unit := setBev fun p => { p with called := p.called ++ [callback] }

/-! ### `bufferevent.c` -/

/-- `bufferevent_socket_new(base, fd, options)`; `mallocs` is the fate of the allocations for the input and the
output, and `adds` that of the calls of `evmap_io_add`. -/
def bufferevent_socket_new (mallocs : List Bool × List Bool) (adds : List Bool) : BuffereventPrivate where
  input := { evbuffer_new mallocs.1 with freeze_end := true }
  output := { evbuffer_new mallocs.2 with freeze_start := true }
  enabled := EV_WRITE
  pending := ⟨false, false⟩
  adds := adds
  refused := []
  called := []
  received := []
  taken := []
  queued := []

/-- `be_socket_enable(bufev, event)` -/
def be_socket_enable (event : EvFlags) : Bev Int := do
  if event.EV_READ = true then
    if (← event_add EV_READ) = -1 then return -1
  if event.EV_WRITE = true then
    if (← event_add EV_WRITE) = -1 then return -1
  return 0

/-- `bufferevent_enable(bufev, event)` -/
def bufferevent_enable (event : EvFlags) : Bev Int := do
  setBev fun p => { p with enabled := p.enabled.or event }
  if event ≠ ⟨false, false⟩ then
    if (← be_socket_enable event) < 0 then return -1
  return 0

/-- `bufferevent_disable(bufev, event)`, with `be_socket_disable`. -/
def bufferevent_disable (event : EvFlags) : Bev Unit := do
  setBev fun p => { p with enabled := p.enabled.andNot event }
  event_del event

/-- `bufferevent_socket_outbuf_cb`, to which `evbuffer_add` tells how much it has added. -/
def bufferevent_socket_outbuf_cb (n_added : Nat) : Bev Unit := do
  let bufev ← get
  if n_added ≠ 0 ∧ bufev.enabled.EV_WRITE = true ∧ bufev.pending.EV_WRITE = false then
    let _ ← event_add EV_WRITE

/-- `bufferevent_write(bufev, data, size)` -/
def bufferevent_write (data : List UInt8) : Bev Int := do
  if (← onOutput (evbuffer_add data)) = -1 then return -1
  bufferevent_socket_outbuf_cb data.length
  setBev fun p => { p with queued := p.queued ++ data }
  return 0

/-- `bufferevent_read(bufev, data, size)`: the result of `evbuffer_remove` is converted to `size_t`. -/
def bufferevent_read (size : Nat) : Bev (UInt64 × List UInt8) := do
  let (n, data) ← onInput (evbuffer_remove size)
  setBev fun p => { p with taken := p.taken ++ data }
  return (n.toInt64.toUInt64, data)

/-- `bufferevent_free(bufev)` frees the chains of both evbuffers. -/
def bufferevent_free : Bev Unit := do
  onInput evbuffer_free
  onOutput evbuffer_free

/-! ### The callbacks of the event loop -/

/-- `bufferevent_readcb(fd, EV_READ, bufev)`; `retriable` is what `EVUTIL_ERR_RW_RETRIABLE` says about an error. -/
def bufferevent_readcb (fd : Readable) (retriable : Bool) : Bev Unit := do
  onInput (evbuffer_unfreeze false)
  let res ← onInput (evbuffer_read fd MAX_TO_READ_EVER)
  onInput (evbuffer_freeze false)
  setBev fun p => { p with received := p.received ++ (fd.waiting.getD []).take res.toNat }
  if res = -1 ∧ retriable = true then return
  if res ≤ 0 then
    bufferevent_disable EV_READ
    bufferevent_run (.eventcb (BEV_EVENT_READING ||| if res = -1 then BEV_EVENT_ERROR else BEV_EVENT_EOF))
  else
    bufferevent_run .readcb

/-- `if (evbuffer_get_length(bufev->output) == 0) event_del(&bufev->ev_write);` -/
def stopWriting : Bev Unit := do
  let bufev ← get
  if bufev.output.total_len = 0 then event_del EV_WRITE

/-- The end of `bufferevent_writecb` when nothing went wrong. -/
def finishWriting : Bev Unit := do
  stopWriting
  let bufev ← get
  if bufev.output.total_len = 0 then bufferevent_run .writecb

/-- `bufferevent_writecb(fd, EV_WRITE, bufev)` on a connected socket. -/
def bufferevent_writecb (room : Option Nat) (retriable : Bool) : Bev Unit := do
  let bufev ← get
  if bufev.output.total_len = 0 then
    finishWriting
  else
    onOutput (evbuffer_unfreeze true)
    let res ← onOutput (evbuffer_write_atmost room MAX_TO_WRITE_EVER)
    onOutput (evbuffer_freeze true)
    if res = -1 ∧ retriable = true then
      stopWriting
    else if res ≤ 0 then
      bufferevent_disable EV_WRITE
      bufferevent_run (.eventcb (BEV_EVENT_WRITING ||| if res = -1 then BEV_EVENT_ERROR else BEV_EVENT_EOF))
    else
      finishWriting

/-! ### Runs -/

/-- What happens to a bufferevent: its socket is ready for reading or writing, or the user does something. -/
inductive Action where
  | readable (fd : Readable) (retriable : Bool)
  | writable (room : Option Nat) (retriable : Bool)
  | read (size : Nat)
  | write (data : List UInt8)
  | enable (event : EvFlags)
  | disable (event : EvFlags)

/-- The event loop calls back for pending events only. -/
def act : Action → Bev Unit
  | .readable fd retriable => do
    if (← get).pending.EV_READ = true then bufferevent_readcb fd retriable
  | .writable room retriable => do
    if (← get).pending.EV_WRITE = true then bufferevent_writecb room retriable
  | .read size => do
    let _ ← bufferevent_read size
  | .write data => do
    let _ ← bufferevent_write data
  | .enable event => do
    let _ ← bufferevent_enable event
  | .disable event => bufferevent_disable event

/-- The actions one after the other. -/
def acts (l : List Action) : Bev Unit := l.forM act

end BuffereventPrivate

end LibeventServer

import LibeventServer.World

/-!
# The callbacks of `server.cpp`

`socket_read_cb` is a loop of `readIteration`s: one turn of the source's `while` body.  The loop carries fuel; it
hangs when the fuel is spent, and `readFuel` is shown to be enough wherever the loop is run.

A `Process` runs callbacks in the order libevent makes them until one comes to a fault.  `crashed` means that the
model stops there; what the real process does after an operation without a meaning is left open.
-/

namespace LibeventServer

variable {σ τ : Type} (S : Scripts σ τ)

/-- `a - b` on `size_t`: it wraps when `b` is the larger one. -/
def subSize (a b : Nat) : Nat := if b ≤ a then a - b else a + 2 ^ 64 - b

/-- `socket_event_cb`, called with the bufferevent and its callback argument. -/
def socket_event_cb (bev : Nat) (arg : UInt32) : Cpp σ Unit := do
  let vfd := arg
  eraseClient S vfd.toInt32
  bufferevent_free bev

/-- The two error paths of the read loop: the line printed, `eraseClient(vfd)`, `bufferevent_free(bev)`. -/
def kick (line : Event) (bev : Nat) (vfd : UInt32) : Cpp σ Unit := do
  emit line
  eraseClient S vfd.toInt32
  bufferevent_free bev

/-- The number the two header bytes in `read_msg` encode. -/
def decodeHeader (c : Client) : Nat :=
  (c.read_msg ⟨0, zero_lt_sizeof_msg⟩).toUInt8.toNat + (c.read_msg ⟨1, one_lt_sizeof_msg⟩).toUInt8.toNat * 256

/-- The branch `StatusReadHeader` of the loop body: the new `DataLen`, or nothing when the callback returns. -/
def readHeader (bev client : Nat) (vfd : UInt32) (DataLen : Nat) : Cpp σ (Option Nat) := do
  let len ← bufferevent_read bev client header_length
  if len ≠ header_length then
    kick S (.headKick vfd) bev vfd
    return none
  else
    setClient client fun c => { c with m_needByteCnt := decodeHeader c }
    setClient client fun c => { c with m_readStatus := StatusReadbody }
    return some (subSize DataLen len)

/-- The branch `StatusReadbody` of the loop body, for a client whose `m_needByteCnt` is `need`. -/
def readBody (bev client : Nat) (vfd : UInt32) (need DataLen : Nat) : Cpp σ (Option Nat) := do
  let len ← bufferevent_read bev client need
  -- the length is read again, after the copy to the buffer in front of it
  let c ← getClient client
  if len ≠ c.m_needByteCnt then
    kick S (.bodyKick vfd) bev vfd
    return none
  else
    setClient client fun c => { c with m_readStatus := StatusReadHeader }
    match c.read_msg.load len with
    | none => crash .overflow
    | some msg =>
      Lua_HandleEvent S vfd msg
      return some (subSize DataLen len)

/-- One turn of the `while` loop of `socket_read_cb`. -/
def readIteration (bev client : Nat) (vfd : UInt32) (DataLen : Nat) : Cpp σ (Option Nat) := do
  let c ← getClient client
  if c.m_readStatus = StatusReadHeader then
    readHeader S bev client vfd DataLen
  else if c.m_readStatus = StatusReadbody then
    readBody S bev client vfd c.m_needByteCnt DataLen
  else
    -- the turn changes nothing, and the loop goes on for ever
    return some DataLen

/-- `while (DataLen > 0)` -/
def readLoop (bev client : Nat) (vfd : UInt32) : Nat → Nat → Cpp σ Unit
  | 0, _ => crash .hang
  | fuel + 1, DataLen =>
    if DataLen > 0 then do
      match ← readIteration S bev client vfd DataLen with
      | some DataLen => readLoop bev client vfd fuel DataLen
      | none => pure ()
    else pure ()

/-- Turns enough for a buffer of `DataLen` bytes. -/
def readFuel (DataLen : Nat) : Nat := DataLen + 2

/-- `socket_read_cb`, called with the bufferevent and its callback argument. -/
def socket_read_cb (bev : Nat) (arg : UInt32) : Cpp σ Unit := do
  let vfd := arg
  match ← queryClient vfd.toInt32 with
  | some client =>
    let b ← getBev bev
    let DataLen := b.input.length
    readLoop S bev client vfd (readFuel DataLen) DataLen
  | none =>
    emit (.canNotFind vfd)
    bufferevent_free bev

/-- `listener_cb` for the accepted descriptor `fd`.  `std::map::insert` keeps an entry that is there. -/
def listener_cb (fd : Int32) : Cpp σ Unit := fun w =>
  let vfd := w.globalVfd
  let bev := w.bevs.next
  let client := w.clients.next
  Lua_HandleConnect S vfd
    { w with
      globalVfd := w.globalVfd + 1
      bevs := w.bevs.alloc { cbarg := vfd, input := [], output := [] }
      clients := w.clients.alloc (.new fd vfd bev)
      AllClients := if vfd ∈ w.AllClients then w.AllClients else w.AllClients.insert vfd client
      trace := w.trace ++ [.accept vfd client bev] }

/-- What libevent reports: a connection was accepted; `chunk` was read from a connection's socket into its input
buffer; a connection was closed or failed; the timer expired. -/
inductive Callback (τ : Type) where
  | accept (fd : Int32)
  | readable (bev : Nat) (chunk : List UInt8)
  | event (bev : Nat)
  | tick (choice : τ)

/-- One libevent callback.  libevent runs none for a bufferevent that was freed. -/
def callback : Callback τ → Cpp σ Unit
  | .accept fd => listener_cb S fd
  | .readable bev chunk => fun w =>
    match w.bevs.cell bev with
    | none => .ok () w
    | some b =>
      socket_read_cb S bev b.cbarg
        { w with bevs := w.bevs.update bev fun b => { b with input := b.input ++ chunk } }
  | .event bev => fun w =>
    match w.bevs.cell bev with
    | none => .ok () w
    | some b => socket_event_cb S bev b.cbarg w
  | .tick choice => Lua_Tick S choice

/-- The server between two callbacks, or stopped at a fault. -/
inductive Process (σ : Type) where
  | running (w : World σ)
  | crashed (f : Fault) (w : World σ)

/-- The world of a process. -/
def Process.world : Process σ → World σ
  | .running w => w
  | .crashed _ w => w

/-- The process a callback leaves. -/
def Process.ofResult : EStateM.Result Fault (World σ) Unit → Process σ
  | .ok _ w => .running w
  | .error f w => .crashed f w

/-- A process runs a callback unless it has stopped at a fault. -/
def Process.step : Process σ → Callback τ → Process σ
  | .running w, cb => .ofResult (callback S cb w)
  | .crashed f w, _ => .crashed f w

end LibeventServer

import LibeventServer.Lib.CharArray
import LibeventServer.Lib.Heap
import LibeventServer.Lib.Program
import Mathlib.Data.Finmap

/-!
# The state of the server process

`Client` is the class of `include/client.h`, `Bufferevent` the part of libevent's bufferevent the server uses, and
`World` the globals of `server.cpp` and `client.cpp` with the objects they point to.  Clients and bufferevents live on
heaps, so that a pointer may outlive its object.

Server code runs in `Cpp`: it changes the world and may stop at a `Fault`, that is at an operation C++ gives no
meaning to.  Nothing is said about what happens after a fault.

The Lua side is any `Scripts`: a handler runs from a Lua state, may call `NetLib.send` on the way, and returns or
raises; the world is polymorphic in the Lua state `σ`.
-/

namespace LibeventServer

/-! ### `include/client.h` -/

/-- `enum { header_length = 2 }` -/
abbrev header_length : Nat := 2

/-- `enum { max_body_length = 8192 }` -/
abbrev max_body_length : Nat := 8192

/-- `sizeof(read_msg)` and `sizeof(write_msg)`. -/
abbrev sizeof_msg : Nat := header_length + max_body_length

theorem zero_lt_sizeof_msg : 0 < sizeof_msg := by decide

theorem one_lt_sizeof_msg : 1 < sizeof_msg := by decide

/-- `const unsigned char StatusReadHeader = 1` -/
abbrev StatusReadHeader : UInt8 := 1

/-- `const unsigned char StatusReadbody = 2` -/
abbrev StatusReadbody : UInt8 := 2

/-- `class Client`; `bev` is the address of the bufferevent. -/
structure Client where
  write_msg : CharArray sizeof_msg
  read_msg : CharArray sizeof_msg
  m_needByteCnt : Nat
  bev : Nat
  vfd : UInt32
  fd : Int32
  m_readStatus : UInt8

/-- The constructor.  It leaves the two buffers unset; both are written before they are read. -/
def Client.new (fd : Int32) (vfd : UInt32) (bev : Nat) : Client where
  write_msg := .zero
  read_msg := .zero
  m_needByteCnt := header_length
  bev := bev
  vfd := vfd
  fd := fd
  m_readStatus := StatusReadHeader

/-- What the server uses of a `struct bufferevent`: the argument given to `bufferevent_setcb`, the bytes received and
not yet read, and the bytes queued for the peer. -/
structure Bufferevent where
  cbarg : UInt32
  input : List UInt8
  output : List UInt8

/-! ### The world -/

/-- What the server does that can be observed: the objects it creates and deletes, the functions of `lua_service` it
calls, and the lines it prints on its error paths. -/
inductive Event where
  | accept (vfd : UInt32) (client bev : Nat)
  | HandleConnect (vfd : UInt32)
  | HandleEvent (vfd : UInt32) (msg : List UInt8)
  | HandleDisConnect (vfd : UInt32)
  | Tick
  | delete (client : Nat)
  | free (bev : Nat)
  | headKick (vfd : UInt32)
  | bodyKick (vfd : UInt32)
  | canNotFind (vfd : UInt32)
  deriving DecidableEq

/-- The process state.  `asked` lists the lengths passed to `bufferevent_read`, `sends` the calls of `NetLib.send`
with their results, and `trace` the events, in the order in which they happened. -/
structure World (σ : Type) where
  globalVfd : UInt32
  AllClients : Finmap fun _ : UInt32 => Nat
  clients : Heap Client
  bevs : Heap Bufferevent
  lua : σ
  asked : List Nat
  sends : List (Int64 × Bool)
  trace : List Event

/-- `unsigned int globalVfd = 1`, no client, and the Lua state after `src/main.lua` ran. -/
def World.init {σ : Type} (lua : σ) : World σ where
  globalVfd := 1
  AllClients := ∅
  clients := .empty
  bevs := .empty
  lua := lua
  asked := []
  sends := []
  trace := []

/-- The operations without a meaning; `hang` is a loop that is still running when its fuel is spent. -/
inductive Fault where
  | overflow
  | useAfterDelete
  | doubleDelete
  | useAfterFree
  | doubleFree
  | hang
  deriving DecidableEq

/-- Server code. -/
abbrev Cpp (σ : Type) : Type → Type := EStateM Fault (World σ)

section

variable {σ α : Type}

/-- Stop at a fault. -/
def crash (f : Fault) : Cpp σ α := fun w => .error f w

/-- Change the world. -/
def change (f : World σ → World σ) : Cpp σ Unit := fun w => .ok () (f w)

/-- Record an event. -/
def emit (e : Event) : Cpp σ Unit := change fun w => { w with trace := w.trace ++ [e] }

/-- Read `*client`. -/
def getClient (client : Nat) : Cpp σ Client := fun w =>
  match w.clients.cell client with
  | some c => .ok c w
  | none => .error .useAfterDelete w

/-- Write `*client`. -/
def setClient (client : Nat) (f : Client → Client) : Cpp σ Unit := fun w =>
  match w.clients.cell client with
  | some _ => .ok () { w with clients := w.clients.update client f }
  | none => .error .useAfterDelete w

/-- `delete client` -/
def deleteClient (client : Nat) : Cpp σ Unit := fun w =>
  match w.clients.cell client with
  | some _ => .ok () { w with clients := w.clients.free client, trace := w.trace ++ [.delete client] }
  | none => .error .doubleDelete w

/-! ### libevent -/

/-- Read `*bev`. -/
def getBev (bev : Nat) : Cpp σ Bufferevent := fun w =>
  match w.bevs.cell bev with
  | some b => .ok b w
  | none => .error .useAfterFree w

/-- Write `*bev`. -/
def setBev (bev : Nat) (f : Bufferevent → Bufferevent) : Cpp σ Unit := fun w =>
  match w.bevs.cell bev with
  | some _ => .ok () { w with bevs := w.bevs.update bev f }
  | none => .error .useAfterFree w

/-- `bufferevent_free(bev)` -/
def bufferevent_free (bev : Nat) : Cpp σ Unit := fun w =>
  match w.bevs.cell bev with
  | some _ => .ok () { w with bevs := w.bevs.free bev, trace := w.trace ++ [.free bev] }
  | none => .error .doubleFree w

/-- `bufferevent_write(bev, data, size)`: queue `data` for the peer. -/
def bufferevent_write (bev : Nat) (data : List UInt8) : Cpp σ Unit :=
  setBev bev fun b => { b with output := b.output ++ data }

/-- `bufferevent_read(bev, client->read_msg, size)`: take up to `size` bytes from the front of the input and copy them
to `read_msg`; the result is how many there were. -/
def bufferevent_read (bev client size : Nat) : Cpp σ Nat := do
  change fun w => { w with asked := w.asked ++ [size] }
  let b ← getBev bev
  let c ← getClient client
  -- the source does not compare `size` with the size of `read_msg`
  match c.read_msg.store 0 (b.input.take size) with
  | none => crash .overflow
  | some m =>
    setClient client fun c => { c with read_msg := m }
    setBev bev fun b => { b with input := b.input.drop size }
    return (b.input.take size).length

/-! ### `client.cpp` and `Client::do_write` -/

/-- `queryClient(int vfd)`: the argument is converted to the key type of the map. -/
def queryClient (vfd : Int32) : Cpp σ (Option Nat) := fun w => .ok (w.AllClients.lookup vfd.toUInt32) w

theorem queryClient_toInt32 (vfd : UInt32) (w : World σ) :
    queryClient vfd.toInt32 w = .ok (w.AllClients.lookup vfd) w := by
  rw [queryClient, UInt32.toUInt32_toInt32]

/-- What `do_write` stores to `write_msg`: the message behind the header, then the two header bytes, which are
`unsigned char` values stored as `char`. -/
def encodeFrame (write_msg : CharArray sizeof_msg) (line : List UInt8) : Option (CharArray sizeof_msg) :=
  (write_msg.store header_length line).map fun m =>
    (m.put ⟨0, zero_lt_sizeof_msg⟩ (UInt8.ofNat (line.length % 256)).toInt8).put ⟨1, one_lt_sizeof_msg⟩
      (UInt8.ofNat (line.length / 256)).toInt8

/-- `Client::do_write(line, size)` -/
def do_write (this : Nat) (line : List UInt8) : Cpp σ Bool := do
  let c ← getClient this
  -- the source does not compare the length with the size of `write_msg`
  match encodeFrame c.write_msg line with
  | none => crash .overflow
  | some m =>
    setClient this fun c => { c with write_msg := m }
    match m.load (header_length + line.length) with
    | none => crash .overflow
    | some data =>
      bufferevent_write c.bev data
      return true

/-! ### `luaService.cpp` -/

/-- The branch of `send` on the result of `queryClient`. -/
def sendTo (msg : List UInt8) : Option Nat → Cpp σ Bool
  | some client => do_write client msg
  | none => pure false

/-- `NetLib.send(vfd, msg)`, for arguments that `luaL_checkinteger` and `luaL_checklstring` accept: the integer is
narrowed to `unsigned` and then passed as `int`. -/
def NetLib_send (n : Int64) (msg : List UInt8) : Cpp σ Bool := do
  let vfd : UInt32 := n.toUInt64.toUInt32
  let client ← queryClient vfd.toInt32
  let ok ← sendTo msg client
  change fun w => { w with sends := w.sends ++ [(n, ok)] }
  return ok

/-- The rest of a run of a Lua handler: it has returned or raised in a Lua state, or it calls `NetLib.send` and goes
on with the result. -/
inductive LuaRun (σ : Type) where
  | returned (lua : σ)
  | raised (lua : σ)
  | send (n : Int64) (msg : List UInt8) (k : Bool → LuaRun σ)

/-- The handler ends in a Lua state with `Q`, whatever its calls of `NetLib.send` return. -/
def LuaRun.Ends (Q : σ → Prop) : LuaRun σ → Prop
  | .returned lua => Q lua
  | .raised lua => Q lua
  | .send _ _ k => ∀ ok, (k ok).Ends Q

theorem LuaRun.Ends.mono {Q Q' : σ → Prop} {r : LuaRun σ} (h : r.Ends Q)
    (hQ : ∀ lua, Q lua → Q' lua) : r.Ends Q' := by
  induction r with
  | returned lua => exact hQ lua h
  | raised lua => exact hQ lua h
  | send n msg k ih => exact fun ok => ih ok (h ok)

/-- The global functions `src/main.lua` defines; `τ` is what Lua leaves open about a tick. -/
structure Scripts (σ τ : Type) where
  HandleConnect : UInt32 → σ → LuaRun σ
  HandleEvent : UInt32 → List UInt8 → σ → LuaRun σ
  HandleDisConnect : UInt32 → σ → LuaRun σ
  Tick : τ → σ → LuaRun σ

/-- `lua_pcall`: run a handler; an error is printed and dropped. -/
def lua_pcall : LuaRun σ → Cpp σ Unit
  | .returned lua => change fun w => { w with lua := lua }
  | .raised lua => change fun w => { w with lua := lua }
  | .send n msg k => do
    let ok ← NetLib_send n msg
    lua_pcall (k ok)

/-- Run a handler from the current Lua state. -/
def runHandler (handler : σ → LuaRun σ) : Cpp σ Unit := fun w => lua_pcall (handler w.lua) w

/-- The four functions that call Lua: record the call and run the handler. -/
def callLua (call : Event) (handler : σ → LuaRun σ) : Cpp σ Unit := do
  emit call
  runHandler handler

variable {τ : Type} (S : Scripts σ τ)

def Lua_Tick (choice : τ) : Cpp σ Unit := callLua .Tick (S.Tick choice)

def Lua_HandleEvent (vfd : UInt32) (msg : List UInt8) : Cpp σ Unit :=
  callLua (.HandleEvent vfd msg) (S.HandleEvent vfd msg)

def Lua_HandleConnect (vfd : UInt32) : Cpp σ Unit := callLua (.HandleConnect vfd) (S.HandleConnect vfd)

def Lua_HandleDisConnect (vfd : UInt32) : Cpp σ Unit :=
  callLua (.HandleDisConnect vfd) (S.HandleDisConnect vfd)

/-- `eraseClient(int vfd)` -/
def eraseClient (vfd : Int32) : Cpp σ Unit := do
  match ← queryClient vfd with
  | some client =>
    -- Lua runs when the entry is gone and the object still there
    change fun w => { w with AllClients := w.AllClients.erase vfd.toUInt32 }
    Lua_HandleDisConnect S vfd.toUInt32
    deleteClient client
  | none => pure ()

end

end LibeventServer

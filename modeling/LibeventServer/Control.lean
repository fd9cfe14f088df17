import LibeventServer.Frames
import LibeventServer.Server

/-!
# What Lua code cannot change

A Lua handler reaches the server only through `NetLib.send`, which writes `write_msg` and the output buffers.  The
`control` of a world leaves these out: the registry, the reader of each client, the input of each bufferevent and the
trace.  `callLua_control`: running a handler keeps the control, and it stops only at an overflow, and only if it
sends.

This needs that every registered client and its bufferevent are live (`Control.Sound`), which every callback keeps.
-/

namespace LibeventServer

variable {σ τ : Type}

/-- A `Client` without its buffers. -/
@[ext] structure ClientCtl where
  bev : Nat
  vfd : UInt32
  m_needByteCnt : Nat
  m_readStatus : UInt8

/-- A `Bufferevent` without its output. -/
@[ext] structure BevCtl where
  cbarg : UInt32
  input : List UInt8

def Client.ctl (c : Client) : ClientCtl := ⟨c.bev, c.vfd, c.m_needByteCnt, c.m_readStatus⟩

def Bufferevent.ctl (b : Bufferevent) : BevCtl := ⟨b.cbarg, b.input⟩

/-- The part of a world that Lua code cannot change. -/
@[ext] structure Control where
  globalVfd : UInt32
  AllClients : Finmap fun _ : UInt32 => Nat
  clients : Heap ClientCtl
  bevs : Heap BevCtl
  trace : List Event

def World.control (w : World σ) : Control :=
  ⟨w.globalVfd, w.AllClients, w.clients.map Client.ctl, w.bevs.map Bufferevent.ctl, w.trace⟩

/-- Every registered client is live, and so is the bufferevent it was created with, which calls back with the same
id. -/
def Control.Sound (k : Control) : Prop :=
  ∀ v p, k.AllClients.lookup v = some p →
    ∃ c b, k.clients.cell p = some c ∧ c.vfd = v ∧ k.bevs.cell c.bev = some b ∧ b.cbarg = v

/-- The same control and the same requests to `bufferevent_read`. -/
def Untouched (w w' : World σ) : Prop := w'.control = w.control ∧ w'.asked = w.asked

private theorem Untouched.refl (w : World σ) : Untouched w w := ⟨rfl, rfl⟩

private theorem Untouched.trans {w₁ w₂ w₃ : World σ} (h : Untouched w₁ w₂) (h' : Untouched w₂ w₃) : Untouched w₁ w₃ :=
  ⟨h'.1.trans h.1, h'.2.trans h.2⟩

/-- The handler returns or raises without calling `NetLib.send`. -/
def LuaRun.Quiet : LuaRun σ → Prop
  | .returned _ => True
  | .raised _ => True
  | .send _ _ _ => False

private theorem client_of_ctl {w : World σ} {p : Nat} {c : ClientCtl} (h : w.control.clients.cell p = some c) :
    ∃ c', w.clients.cell p = some c' ∧ c'.ctl = c :=
  Option.map_eq_some_iff.1 h

private theorem bev_of_ctl {w : World σ} {b : Nat} {e : BevCtl} (h : w.control.bevs.cell b = some e) :
    ∃ e', w.bevs.cell b = some e' ∧ e'.ctl = e :=
  Option.map_eq_some_iff.1 h

/-! ### `NetLib.send` and Lua handlers -/

theorem encodeFrame_of_le (a : CharArray sizeof_msg) {msg : List UInt8} (hmsg : msg.length ≤ max_body_length) :
    ∃ m, encodeFrame a msg = some m ∧ m.load (header_length + msg.length) = some (frame msg) := by
  have hle : header_length + msg.length ≤ sizeof_msg := by unfold sizeof_msg; omega
  rw [encodeFrame, CharArray.store_of_le a hle]
  exact ⟨_, rfl, CharArray.load_put_put_overwrite a hle _ _⟩

/-- A message that fits `write_msg` is queued as one frame. -/
theorem do_write_of_le {w : World σ} {p : Nat} {c : Client} {b : Bufferevent} {msg : List UInt8}
    (hc : w.clients.cell p = some c) (hb : w.bevs.cell c.bev = some b) (hmsg : msg.length ≤ max_body_length) :
    ∃ m, do_write p msg w = .ok true { w with
      clients := w.clients.update p fun c => { c with write_msg := m }
      bevs := w.bevs.update c.bev fun b => { b with output := b.output ++ frame msg } } := by
  obtain ⟨m, hm, hload⟩ := encodeFrame_of_le c.write_msg hmsg
  refine ⟨m, ?_⟩
  unfold do_write
  rw [EStateM.bind_ok (show getClient p w = .ok c w by simp [getClient, hc])]
  simp only [hm]
  rw [EStateM.bind_ok (by simp only [setClient, hc]; rfl)]
  simp only [hload, bufferevent_write]
  rw [EStateM.bind_ok (by simp only [setBev, hb]; rfl)]
  rfl

/-- A longer message is copied past the end of `write_msg`. -/
theorem do_write_of_lt {w : World σ} {p : Nat} {c : Client} {msg : List UInt8}
    (hc : w.clients.cell p = some c) (hmsg : max_body_length < msg.length) :
    do_write p msg w = .error .overflow w := by
  have hlt : sizeof_msg < header_length + msg.length := by unfold sizeof_msg; omega
  unfold do_write
  rw [EStateM.bind_ok (show getClient p w = .ok c w by simp [getClient, hc])]
  simp only [encodeFrame, CharArray.store_of_lt c.write_msg hlt]
  rfl

/-- `NetLib.send` keeps the control, whether or not it overflows; it returns `true` for registered ids. -/
theorem NetLib_send_control {w : World σ} (hw : w.control.Sound) (n : Int64) (msg : List UInt8) :
    (∃ ok w', NetLib_send n msg w = .ok ok w' ∧ Untouched w w' ∧ w'.sends = w.sends ++ [(n, ok)] ∧
        (ok = true ↔ n.toUInt64.toUInt32 ∈ w.AllClients)) ∨
      NetLib_send n msg w = .error .overflow w := by
  unfold NetLib_send
  rw [EStateM.bind_ok (queryClient_toInt32 _ w)]
  cases hv : w.AllClients.lookup n.toUInt64.toUInt32 with
  | none =>
    left
    rw [EStateM.bind_ok (show sendTo msg none w = .ok false w from rfl)]
    have hmem := Finmap.lookup_eq_none.1 hv
    exact ⟨false, _, rfl, ⟨rfl, rfl⟩, rfl, by simp [hmem]⟩
  | some p =>
    obtain ⟨c, b, hc, -, hb, -⟩ := hw _ p hv
    obtain ⟨c', hc', rfl⟩ := client_of_ctl hc
    obtain ⟨b', hb', -⟩ := bev_of_ctl hb
    have hmem := Finmap.mem_of_lookup_eq_some hv
    by_cases hmsg : msg.length ≤ max_body_length
    · left
      obtain ⟨m, hm⟩ := do_write_of_le hc' hb' hmsg
      rw [EStateM.bind_ok (show sendTo msg (some p) w = _ from hm)]
      refine ⟨true, _, rfl, ⟨?_, rfl⟩, rfl, by simp [hmem]⟩
      exact Control.ext rfl rfl (Heap.map_update_of_eq _ _ _ fun _ => rfl)
        (Heap.map_update_of_eq _ _ _ fun _ => rfl) rfl
    · right
      rw [EStateM.bind_error (show sendTo msg (some p) w = _ from do_write_of_lt hc' (by omega))]

/-- Running a handler keeps the control; it stops only at an overflow, and only if the handler sends. -/
theorem lua_pcall_control {w : World σ} (hw : w.control.Sound) (r : LuaRun σ) :
    (∃ w', lua_pcall r w = .ok () w' ∧ Untouched w w') ∨
      (∃ w', lua_pcall r w = .error .overflow w' ∧ Untouched w w' ∧ ¬ r.Quiet) := by
  induction r generalizing w with
  | returned lua => exact Or.inl ⟨_, rfl, rfl, rfl⟩
  | raised lua => exact Or.inl ⟨_, rfl, rfl, rfl⟩
  | send n msg k ih =>
    unfold lua_pcall
    rcases NetLib_send_control hw n msg with ⟨ok, w₁, h₁, ht, -⟩ | h₁
    · rw [EStateM.bind_ok h₁]
      rcases ih ok (w := w₁) (by rw [ht.1]; exact hw) with ⟨w₂, h₂, ht₂⟩ | ⟨w₂, h₂, ht₂, -⟩
      · exact Or.inl ⟨w₂, h₂, ht.trans ht₂⟩
      · exact Or.inr ⟨w₂, h₂, ht.trans ht₂, by simp [LuaRun.Quiet]⟩
    · rw [EStateM.bind_error h₁]
      exact Or.inr ⟨w, rfl, .refl w, by simp [LuaRun.Quiet]⟩

/-- The control after the events `es`. -/
def Control.emit (k : Control) (es : List Event) : Control := { k with trace := k.trace ++ es }

/-- Calling a function of `src/main.lua` records the call and changes the control in no other way. -/
theorem callLua_control {w : World σ} (hw : w.control.Sound) (call : Event) (handler : σ → LuaRun σ) :
    (∃ w', callLua call handler w = .ok () w' ∧ w'.control = w.control.emit [call] ∧ w'.asked = w.asked) ∨
      (∃ w', callLua call handler w = .error .overflow w' ∧ w'.control = w.control.emit [call] ∧
        w'.asked = w.asked ∧ ¬ (handler w.lua).Quiet) := by
  unfold callLua
  rw [EStateM.bind_ok (m := emit call) rfl]
  rcases lua_pcall_control (w := { w with trace := w.trace ++ [call] }) hw (handler w.lua) with
    ⟨w', h, ht, ha⟩ | ⟨w', h, ⟨ht, ha⟩, hq⟩
  · exact Or.inl ⟨w', h, ht, ha⟩
  · exact Or.inr ⟨w', h, ht, ha, hq⟩

end LibeventServer

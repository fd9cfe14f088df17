import LibeventServer.Connections

/-!
# The Lua state and the trace

A relation between the trace and the Lua state that each handler keeps when its call is recorded (`Scripts.Tracks`)
holds between any two callbacks (`Process.step_tracked`), whatever else the server code does around the calls.
-/

namespace LibeventServer

open EStateM Runs

variable {σ τ : Type}

/-- The event is a call of a Lua handler. -/
def Event.callsLua : Event → Bool
  | .HandleConnect _ => true
  | .HandleEvent _ _ => true
  | .HandleDisConnect _ => true
  | .Tick => true
  | _ => false

/-- A relation between the events so far and the Lua state that every call of a handler keeps and that does not depend
on other events. -/
structure Scripts.Tracks (S : Scripts σ τ) (R : List Event → σ → Prop) : Prop where
  other : ∀ t lua e, e.callsLua = false → R t lua → R (t ++ [e]) lua
  connect : ∀ t lua v, R t lua → (S.HandleConnect v lua).Ends (R (t ++ [.HandleConnect v]))
  event : ∀ t lua v msg, R t lua → (S.HandleEvent v msg lua).Ends (R (t ++ [.HandleEvent v msg]))
  disconnect : ∀ t lua v, R t lua → (S.HandleDisConnect v lua).Ends (R (t ++ [.HandleDisConnect v]))
  tick : ∀ t lua choice, R t lua → (S.Tick choice lua).Ends (R (t ++ [.Tick]))

/-- The relation holds of a world. -/
def World.Tracked (R : List Event → σ → Prop) (w : World σ) : Prop := R w.trace w.lua

/-! ### Code without events -/

section

variable {R : List Event → σ → Prop}

private theorem crash_keeps {α : Type} (f : Fault) : Keeps (World.Tracked R) (crash f : Cpp σ α) := by
  intro w a w' _ h
  cases h

private theorem change_keeps {f : World σ → World σ} (hf : ∀ w, (f w).trace = w.trace ∧ (f w).lua = w.lua) :
    Keeps (World.Tracked R) (change f) := by
  intro w a w' hw h
  cases h
  rw [World.Tracked, (hf w).1, (hf w).2]
  exact hw

private theorem queryClient_keeps (vfd : Int32) : Keeps (World.Tracked R) (queryClient vfd : Cpp σ (Option Nat)) := by
  intro w a w' hw h
  cases h
  exact hw

private theorem getClient_keeps (p : Nat) : Keeps (World.Tracked R) (getClient p : Cpp σ Client) := by
  intro w a w' hw h
  unfold getClient at h
  split at h
  · cases h
    exact hw
  · cases h

private theorem setClient_keeps (p : Nat) (f : Client → Client) :
    Keeps (World.Tracked R) (setClient p f : Cpp σ Unit) := by
  intro w a w' hw h
  unfold setClient at h
  split at h
  · cases h
    exact hw
  · cases h

private theorem getBev_keeps (b : Nat) : Keeps (World.Tracked R) (getBev b : Cpp σ Bufferevent) := by
  intro w a w' hw h
  unfold getBev at h
  split at h
  · cases h
    exact hw
  · cases h

private theorem setBev_keeps (b : Nat) (f : Bufferevent → Bufferevent) :
    Keeps (World.Tracked R) (setBev b f : Cpp σ Unit) := by
  intro w a w' hw h
  unfold setBev at h
  split at h
  · cases h
    exact hw
  · cases h

private theorem bufferevent_read_keeps (b p size : Nat) :
    Keeps (World.Tracked R) (bufferevent_read b p size : Cpp σ Nat) := by
  refine Keeps.bind (change_keeps fun _ => ⟨rfl, rfl⟩) fun _ => ?_
  refine Keeps.bind (getBev_keeps b) fun e => Keeps.bind (getClient_keeps p) fun c => ?_
  cases c.read_msg.store 0 (e.input.take size) with
  | none => exact crash_keeps _
  | some m => exact Keeps.bind (setClient_keeps _ _) fun _ => Keeps.bind (setBev_keeps _ _) fun _ => Keeps.pure _

private theorem do_write_keeps (p : Nat) (msg : List UInt8) :
    Keeps (World.Tracked R) (do_write p msg : Cpp σ Bool) := by
  refine Keeps.bind (getClient_keeps p) fun c => ?_
  cases encodeFrame c.write_msg msg with
  | none => exact crash_keeps _
  | some m =>
    refine Keeps.bind (setClient_keeps _ _) fun _ => ?_
    cases m.load (header_length + msg.length) with
    | none => exact crash_keeps _
    | some data => exact Keeps.bind (setBev_keeps _ _) fun _ => Keeps.pure _

private theorem NetLib_send_keeps (n : Int64) (msg : List UInt8) :
    Keeps (World.Tracked R) (NetLib_send n msg : Cpp σ Bool) := by
  refine Keeps.bind (queryClient_keeps _) fun client => Keeps.bind ?_ fun ok => ?_
  · cases client with
    | none => exact Keeps.pure _
    | some p => exact do_write_keeps p msg
  · exact Keeps.bind (change_keeps fun _ => ⟨rfl, rfl⟩) fun _ => Keeps.pure _

end

/-! ### Calls of handlers -/

/-- Running a handler leaves the trace and a Lua state in which the handler may end. -/
private theorem lua_pcall_ends {Q : σ → Prop} {r : LuaRun σ} (hr : r.Ends Q) {w w' : World σ}
    (h : lua_pcall r w = .ok () w') :
    w'.trace = w.trace ∧ Q w'.lua := by
  induction r generalizing w with
  | returned lua =>
    cases h
    exact ⟨rfl, hr⟩
  | raised lua =>
    cases h
    exact ⟨rfl, hr⟩
  | send n msg k ih =>
    unfold lua_pcall at h
    cases hsend : NetLib_send n msg w with
    | error f w₁ =>
      rw [bind_error hsend] at h
      cases h
    | ok ok w₁ =>
      rw [bind_ok hsend] at h
      -- `NetLib.send` records no event
      have hsame := NetLib_send_keeps (R := fun t _ => t = w.trace) n msg w ok w₁ rfl hsend
      obtain ⟨ht, hq⟩ := ih ok (hr ok) h
      exact ⟨ht.trans hsame, hq⟩

private theorem callLua_keeps {R : List Event → σ → Prop} {call : Event} {handler : σ → LuaRun σ}
    (hcall : ∀ t lua, R t lua → (handler lua).Ends (R (t ++ [call]))) :
    Keeps (World.Tracked R) (callLua call handler) := by
  intro w a w' hw h
  unfold callLua at h
  rw [bind_ok (m := emit call) rfl] at h
  obtain ⟨ht, hq⟩ := lua_pcall_ends (hcall w.trace w.lua hw) h
  rw [World.Tracked, ht]
  exact hq

/-! ### Callbacks -/

section

variable {S : Scripts σ τ} {R : List Event → σ → Prop} (hS : S.Tracks R)

include hS

private theorem emit_keeps {e : Event} (he : e.callsLua = false) : Keeps (World.Tracked R) (emit e : Cpp σ Unit) := by
  intro w a w' hw h
  cases h
  exact hS.other w.trace w.lua e he hw

private theorem deleteClient_keeps (p : Nat) : Keeps (World.Tracked R) (deleteClient p : Cpp σ Unit) := by
  intro w a w' hw h
  unfold deleteClient at h
  split at h
  · cases h
    exact hS.other w.trace w.lua _ rfl hw
  · cases h

private theorem bufferevent_free_keeps (b : Nat) : Keeps (World.Tracked R) (bufferevent_free b : Cpp σ Unit) := by
  intro w a w' hw h
  unfold bufferevent_free at h
  split at h
  · cases h
    exact hS.other w.trace w.lua _ rfl hw
  · cases h

private theorem eraseClient_keeps (vfd : Int32) : Keeps (World.Tracked R) (eraseClient S vfd) := by
  refine Keeps.bind (queryClient_keeps vfd) fun client => ?_
  cases client with
  | none => exact Keeps.pure _
  | some p =>
    refine Keeps.bind (change_keeps fun _ => ⟨rfl, rfl⟩) fun _ => ?_
    exact Keeps.bind (callLua_keeps fun t lua h => hS.disconnect t lua _ h) fun _ => deleteClient_keeps hS p

private theorem socket_event_cb_keeps (b : Nat) (v : UInt32) : Keeps (World.Tracked R) (socket_event_cb S b v) :=
  Keeps.bind (eraseClient_keeps hS _) fun _ => bufferevent_free_keeps hS b

private theorem kick_keeps {line : Event} (hline : line.callsLua = false) (b : Nat) (v : UInt32) :
    Keeps (World.Tracked R) (kick S line b v) :=
  Keeps.bind (emit_keeps hS hline) fun _ => socket_event_cb_keeps hS b v

private theorem readHeader_keeps (b p : Nat) (v : UInt32) (DataLen : Nat) :
    Keeps (World.Tracked R) (readHeader S b p v DataLen) := by
  refine Keeps.bind (bufferevent_read_keeps b p _) fun len => ?_
  split
  · exact Keeps.bind (kick_keeps hS rfl b v) fun _ => Keeps.pure _
  · exact Keeps.bind (setClient_keeps _ _) fun _ => Keeps.bind (setClient_keeps _ _) fun _ => Keeps.pure _

private theorem readBody_keeps (b p : Nat) (v : UInt32) (need DataLen : Nat) :
    Keeps (World.Tracked R) (readBody S b p v need DataLen) := by
  refine Keeps.bind (bufferevent_read_keeps b p need) fun len => Keeps.bind (getClient_keeps p) fun c => ?_
  split
  · exact Keeps.bind (kick_keeps hS rfl b v) fun _ => Keeps.pure _
  · refine Keeps.bind (setClient_keeps _ _) fun _ => ?_
    cases c.read_msg.load len with
    | none => exact crash_keeps _
    | some msg => exact Keeps.bind (callLua_keeps fun t lua h => hS.event t lua v msg h) fun _ => Keeps.pure _

private theorem readIteration_keeps (b p : Nat) (v : UInt32) (DataLen : Nat) :
    Keeps (World.Tracked R) (readIteration S b p v DataLen) := by
  refine Keeps.bind (getClient_keeps p) fun c => ?_
  split
  · exact readHeader_keeps hS b p v DataLen
  · split
    · exact readBody_keeps hS b p v _ DataLen
    · exact Keeps.pure _

private theorem readLoop_keeps (b p : Nat) (v : UInt32) (fuel DataLen : Nat) :
    Keeps (World.Tracked R) (readLoop S b p v fuel DataLen) := by
  induction fuel generalizing DataLen with
  | zero => exact crash_keeps _
  | succ fuel ih =>
    rw [readLoop]
    split
    · refine Keeps.bind (readIteration_keeps hS b p v DataLen) fun next => ?_
      cases next with
      | none => exact Keeps.pure _
      | some DataLen' => exact ih DataLen'
    · exact Keeps.pure _

private theorem socket_read_cb_keeps (b : Nat) (v : UInt32) : Keeps (World.Tracked R) (socket_read_cb S b v) := by
  refine Keeps.bind (queryClient_keeps _) fun client => ?_
  cases client with
  | none => exact Keeps.bind (emit_keeps hS rfl) fun _ => bufferevent_free_keeps hS b
  | some p => exact Keeps.bind (getBev_keeps b) fun e => readLoop_keeps hS b p v _ _

/-- A callback keeps the relation. -/
private theorem callback_keeps (cb : Callback τ) : Keeps (World.Tracked R) (callback S cb) := by
  intro w a w' hw h
  cases cb with
  | accept fd =>
    have haccept := hS.other w.trace w.lua (.accept w.globalVfd w.clients.next w.bevs.next) rfl hw
    refine callLua_keeps (fun t lua ht => hS.connect t lua w.globalVfd ht) _ a w' ?_ h
    exact haccept
  | tick choice => exact callLua_keeps (fun t lua ht => hS.tick t lua choice ht) w a w' hw h
  | event b =>
    simp only [callback] at h
    split at h
    · cases h
      exact hw
    · exact socket_event_cb_keeps hS b _ w a w' hw h
  | readable b chunk =>
    simp only [callback] at h
    split at h
    · cases h
      exact hw
    · refine socket_read_cb_keeps hS b _ _ a w' ?_ h
      exact hw

end

/-- The relation holds of a running process. -/
def Process.Tracked (R : List Event → σ → Prop) : Process σ → Prop
  | .running w => w.Tracked R
  | .crashed _ _ => True

theorem Process.step_tracked {S : Scripts σ τ} {R : List Event → σ → Prop} (hS : S.Tracks R) {s : Process σ}
    (hs : s.Tracked R) (cb : Callback τ) : (Process.step S s cb).Tracked R := by
  cases s with
  | crashed f w => trivial
  | running w =>
    rw [Process.step]
    cases h : callback S cb w with
    | ok u w' => exact callback_keeps hS cb w u w' hs h
    | error f w' => trivial

/-- What holds at the start holds wherever a run has got to. -/
theorem Process.tracked_of_run {S : Scripts σ τ} {R : List Event → σ → Prop} (hS : S.Tracks R) {lua : σ}
    (hinit : R [] lua) {cbs : List (Callback τ)} {w : World σ}
    (h : Runs.run (Process.step S) (.running (World.init lua)) cbs = .running w) : R w.trace w.lua := by
  have hall : Runs.Always (Process.step S) (Process.Tracked R) (.running (World.init lua)) cbs := by
    refine Runs.Always.of_invariant ?_ ?_ cbs
    · exact fun s cb hs => Process.step_tracked hS hs cb
    · exact hinit
  have hlast := hall.last
  rwa [h] at hlast

end LibeventServer

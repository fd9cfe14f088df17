import LibeventServer.Connections
import LibeventServer.Libevent.Buffer

/-!
# Code that does not overflow

`socket_read_cb` takes the length of a body from the peer and does not compare it with the size of `read_msg`, and
`do_write` does not compare the length of a message with the size of `write_msg`.  Nothing is written past the end of
`read_msg` all the same while the bytes waiting in a bufferevent fit it (`World.InputsFit`), and nothing past the end
of `write_msg` while Lua sends no message that is too long (`LuaRun.Fits`): `callback_noOverflow`.
-/

namespace LibeventServer

open EStateM

variable {σ τ α : Type}

/-- What waits in each bufferevent fits `read_msg`. -/
def World.InputsFit (w : World σ) : Prop := ∀ b e, w.bevs.cell b = some e → e.input.length ≤ sizeof_msg

/-- Every message the handler sends fits `write_msg`. -/
def LuaRun.Fits : LuaRun σ → Prop
  | .returned _ => True
  | .raised _ => True
  | .send _ msg k => msg.length ≤ max_body_length ∧ ∀ ok, (k ok).Fits

private theorem LuaRun.Quiet.fits {r : LuaRun σ} (h : r.Quiet) : r.Fits := by
  cases r with
  | returned lua => trivial
  | raised lua => trivial
  | send n msg k => exact h.elim

/-- From inputs that fit the code does not overflow, and leaves inputs that fit. -/
abbrev NoOverflow (m : Cpp σ α) : Prop := Avoids (· = Fault.overflow) World.InputsFit m

/-! ### Code without loops -/

private theorem crash_noOverflow {f : Fault} (h : f ≠ .overflow) : NoOverflow (crash f : Cpp σ α) := by
  intro w hw
  refine ⟨hw, fun e w' he => ?_⟩
  cases he
  exact h

private theorem change_noOverflow {f : World σ → World σ} (h : ∀ w, (f w).bevs = w.bevs) : NoOverflow (change f) := by
  intro w hw
  refine ⟨?_, fun e w' he => by cases he⟩
  show (f w).InputsFit
  unfold World.InputsFit
  rw [h]
  exact hw

private theorem queryClient_noOverflow (vfd : Int32) : NoOverflow (queryClient vfd : Cpp σ (Option Nat)) :=
  fun _ hw => ⟨hw, fun _ _ he => by cases he⟩

private theorem getClient_noOverflow (p : Nat) : NoOverflow (getClient p : Cpp σ Client) := by
  intro w hw
  unfold getClient
  split
  · exact ⟨hw, fun e w' he => by cases he⟩
  · refine ⟨hw, fun e w' he => ?_⟩
    cases he
    decide

private theorem setClient_noOverflow (p : Nat) (f : Client → Client) : NoOverflow (setClient p f : Cpp σ Unit) := by
  intro w hw
  unfold setClient
  split
  · exact ⟨hw, fun e w' he => by cases he⟩
  · refine ⟨hw, fun e w' he => ?_⟩
    cases he
    decide

private theorem deleteClient_noOverflow (p : Nat) : NoOverflow (deleteClient p : Cpp σ Unit) := by
  intro w hw
  unfold deleteClient
  split
  · exact ⟨hw, fun e w' he => by cases he⟩
  · refine ⟨hw, fun e w' he => ?_⟩
    cases he
    decide

private theorem getBev_noOverflow (b : Nat) : NoOverflow (getBev b : Cpp σ Bufferevent) := by
  intro w hw
  unfold getBev
  split
  · exact ⟨hw, fun e w' he => by cases he⟩
  · refine ⟨hw, fun e w' he => ?_⟩
    cases he
    decide

private theorem setBev_noOverflow (b : Nat) {f : Bufferevent → Bufferevent}
    (hf : ∀ e, (f e).input.length ≤ e.input.length) :
    NoOverflow (setBev b f : Cpp σ Unit) := by
  intro w hw
  unfold setBev
  split
  · refine ⟨fun b' e' he' => ?_, fun e w' he => by cases he⟩
    by_cases hb : b' = b
    · subst hb
      obtain ⟨e, he, rfl⟩ : ∃ e, w.bevs.cell b' = some e ∧ f e = e' := by simpa using he'
      exact (hf e).trans (hw b' e he)
    · exact hw b' e' ((Heap.update_cell_of_ne _ _ hb).symm.trans he')
  · refine ⟨hw, fun e w' he => ?_⟩
    cases he
    decide

private theorem bufferevent_free_noOverflow (b : Nat) : NoOverflow (bufferevent_free b : Cpp σ Unit) := by
  intro w hw
  unfold bufferevent_free
  split
  · exact ⟨fun b' e he => hw b' e (Heap.cell_of_free he).2, fun e w' he => by cases he⟩
  · refine ⟨hw, fun e w' he => ?_⟩
    cases he
    decide

private theorem emit_noOverflow (e : Event) : NoOverflow (emit e : Cpp σ Unit) := change_noOverflow fun _ => rfl

/-- What is read off a bufferevent fits `read_msg`. -/
private theorem getBev_input_le {w w' : World σ} {b : Nat} {e : Bufferevent} (hw : w.InputsFit)
    (h : getBev b w = .ok e w') : e.input.length ≤ sizeof_msg := by
  unfold getBev at h
  split at h
  · rename_i e' he
    cases h
    exact hw b e he
  · cases h

private theorem bufferevent_read_noOverflow (b p size : Nat) :
    NoOverflow (bufferevent_read b p size : Cpp σ Nat) := by
  refine Avoids.bind (change_noOverflow fun _ => rfl) fun _ => ?_
  refine Avoids.bind_of_returns (getBev_noOverflow b) (fun _ _ _ hw h => getBev_input_le hw h) fun e he => ?_
  refine Avoids.bind (getClient_noOverflow p) fun c => ?_
  have hle : 0 + (e.input.take size).length ≤ sizeof_msg := by
    rw [List.length_take]
    omega
  rw [CharArray.store_of_le c.read_msg hle]
  refine Avoids.bind (setClient_noOverflow p _) fun _ =>
    Avoids.bind (setBev_noOverflow b fun e => ?_) fun _ => Avoids.pure _
  rw [List.length_drop]
  exact Nat.sub_le _ _

private theorem bufferevent_read_le {w w' : World σ} {b p size len : Nat} (hw : w.InputsFit)
    (h : bufferevent_read b p size w = .ok len w') : len ≤ sizeof_msg := by
  obtain ⟨_, w₁, h₁, h⟩ := of_bind_ok h
  obtain ⟨e, w₂, h₂, h⟩ := of_bind_ok h
  obtain ⟨c, w₃, h₃, h⟩ := of_bind_ok h
  have hw₁ : w₁.InputsFit := by
    cases h₁
    exact hw
  have he := getBev_input_le hw₁ h₂
  have hle : 0 + (e.input.take size).length ≤ sizeof_msg := by
    rw [List.length_take]
    omega
  rw [CharArray.store_of_le c.read_msg hle] at h
  obtain ⟨_, w₄, h₄, h⟩ := of_bind_ok h
  have heq := eq_of_bind_pure h
  omega

/-! ### Handlers -/

private theorem do_write_noOverflow (p : Nat) {msg : List UInt8} (h : msg.length ≤ max_body_length) :
    NoOverflow (do_write p msg : Cpp σ Bool) := by
  refine Avoids.bind (getClient_noOverflow p) fun c => ?_
  obtain ⟨m, hm, hload⟩ := encodeFrame_of_le c.write_msg h
  rw [hm]
  refine Avoids.bind (setClient_noOverflow p _) fun _ => ?_
  rw [hload]
  exact Avoids.bind (setBev_noOverflow c.bev fun _ => le_rfl) fun _ => Avoids.pure _

private theorem NetLib_send_noOverflow (n : Int64) {msg : List UInt8} (h : msg.length ≤ max_body_length) :
    NoOverflow (NetLib_send n msg : Cpp σ Bool) := by
  refine Avoids.bind (queryClient_noOverflow _) fun client => Avoids.bind ?_ fun ok => ?_
  · cases client with
    | none => exact Avoids.pure _
    | some p => exact do_write_noOverflow p h
  · exact Avoids.bind (change_noOverflow fun _ => rfl) fun _ => Avoids.pure _

theorem lua_pcall_noOverflow {r : LuaRun σ} (h : r.Fits) : NoOverflow (lua_pcall r) := by
  induction r with
  | returned lua => exact change_noOverflow fun _ => rfl
  | raised lua => exact change_noOverflow fun _ => rfl
  | send n msg k ih => exact Avoids.bind (NetLib_send_noOverflow n h.1) fun ok => ih ok (h.2 ok)

private theorem callLua_noOverflow (call : Event) {handler : σ → LuaRun σ} (h : ∀ lua, (handler lua).Fits) :
    NoOverflow (callLua call handler) :=
  Avoids.bind (emit_noOverflow call) fun _ w hw => lua_pcall_noOverflow (h w.lua) w hw

/-! ### The read loop -/

section

variable {S : Scripts σ τ} (hS : S.QuietReads)

include hS

private theorem eraseClient_noOverflow (vfd : Int32) : NoOverflow (eraseClient S vfd) := by
  refine Avoids.bind (queryClient_noOverflow vfd) fun client => ?_
  cases client with
  | none => exact Avoids.pure _
  | some p =>
    refine Avoids.bind (change_noOverflow fun _ => rfl) fun _ => ?_
    exact Avoids.bind (callLua_noOverflow _ fun lua => (hS.disconnect _ lua).fits) fun _ => deleteClient_noOverflow p

private theorem socket_event_cb_noOverflow (b : Nat) (v : UInt32) : NoOverflow (socket_event_cb S b v) :=
  Avoids.bind (eraseClient_noOverflow hS _) fun _ => bufferevent_free_noOverflow b

private theorem kick_noOverflow (line : Event) (b : Nat) (v : UInt32) : NoOverflow (kick S line b v) :=
  Avoids.bind (emit_noOverflow line) fun _ => socket_event_cb_noOverflow hS b v

private theorem readHeader_noOverflow (b p : Nat) (v : UInt32) (DataLen : Nat) :
    NoOverflow (readHeader S b p v DataLen) := by
  refine Avoids.bind (bufferevent_read_noOverflow b p _) fun len => ?_
  split
  · exact Avoids.bind (kick_noOverflow hS _ b v) fun _ => Avoids.pure _
  · exact Avoids.bind (setClient_noOverflow p _) fun _ =>
      Avoids.bind (setClient_noOverflow p _) fun _ => Avoids.pure _

private theorem readBody_noOverflow (b p : Nat) (v : UInt32) (need DataLen : Nat) :
    NoOverflow (readBody S b p v need DataLen) := by
  refine Avoids.bind_of_returns (bufferevent_read_noOverflow b p need) (fun _ _ _ hw h => bufferevent_read_le hw h)
    fun len hlen => ?_
  refine Avoids.bind (getClient_noOverflow p) fun c => ?_
  split
  · exact Avoids.bind (kick_noOverflow hS _ b v) fun _ => Avoids.pure _
  · refine Avoids.bind (setClient_noOverflow p _) fun _ => ?_
    obtain ⟨msg, hload⟩ := CharArray.exists_load c.read_msg hlen
    rw [hload]
    exact Avoids.bind (callLua_noOverflow _ fun lua => (hS.event v msg lua).fits) fun _ => Avoids.pure _

private theorem readIteration_noOverflow (b p : Nat) (v : UInt32) (DataLen : Nat) :
    NoOverflow (readIteration S b p v DataLen) := by
  refine Avoids.bind (getClient_noOverflow p) fun c => ?_
  split
  · exact readHeader_noOverflow hS b p v DataLen
  · split
    · exact readBody_noOverflow hS b p v _ DataLen
    · exact Avoids.pure _

private theorem readLoop_noOverflow (b p : Nat) (v : UInt32) (fuel DataLen : Nat) :
    NoOverflow (readLoop S b p v fuel DataLen) := by
  induction fuel generalizing DataLen with
  | zero => exact crash_noOverflow (by decide)
  | succ fuel ih =>
    rw [readLoop]
    split
    · refine Avoids.bind (readIteration_noOverflow hS b p v DataLen) fun next => ?_
      cases next with
      | none => exact Avoids.pure _
      | some DataLen' => exact ih DataLen'
    · exact Avoids.pure _

private theorem socket_read_cb_noOverflow (b : Nat) (v : UInt32) : NoOverflow (socket_read_cb S b v) := by
  refine Avoids.bind (queryClient_noOverflow _) fun client => ?_
  cases client with
  | none => exact Avoids.bind (emit_noOverflow _) fun _ => bufferevent_free_noOverflow b
  | some p => exact Avoids.bind (getBev_noOverflow b) fun e => readLoop_noOverflow hS b p v _ _

/-! ### Callbacks -/

/-- A callback does not overflow when the chunk it reads leaves the input in bounds, and the messages of a connect or
a tick are not too long. -/
theorem callback_noOverflow {w : World σ} (hw : w.InputsFit) {cb : Callback τ}
    (hchunk : ∀ b chunk e, cb = .readable b chunk → w.bevs.cell b = some e → (e.input ++ chunk).length ≤ sizeof_msg)
    (hconnect : ∀ v lua, (S.HandleConnect v lua).Fits)
    (htick : ∀ choice, cb = .tick choice → (S.Tick choice w.lua).Fits)
    (w' : World σ) : callback S cb w ≠ .error .overflow w' := by
  intro herror
  cases cb with
  | accept fd =>
    refine (callLua_noOverflow (.HandleConnect w.globalVfd) (fun lua => hconnect w.globalVfd lua) _ ?_).2
      _ _ herror rfl
    intro b e he
    rcases Heap.cell_of_alloc he with ⟨-, rfl⟩ | he
    · exact Nat.zero_le _
    · exact hw b e he
  | tick choice =>
    exact (lua_pcall_noOverflow (htick choice rfl) { w with trace := w.trace ++ [.Tick] } hw).2 _ _ herror rfl
  | event b =>
    simp only [callback] at herror
    split at herror
    · cases herror
    · exact (socket_event_cb_noOverflow hS b _ w hw).2 _ _ herror rfl
  | readable b chunk =>
    simp only [callback] at herror
    split at herror
    · cases herror
    · rename_i e he
      refine (socket_read_cb_noOverflow hS b _ _ ?_).2 _ _ herror rfl
      intro b' e' he'
      by_cases hb : b' = b
      · subst hb
        obtain ⟨e₀, he₀, rfl⟩ : ∃ e₀, w.bevs.cell b' = some e₀ ∧ { e₀ with input := e₀.input ++ chunk } = e' := by
          simpa using he'
        exact hchunk b' chunk e₀ rfl he₀
      · exact hw b' e' ((Heap.update_cell_of_ne _ _ hb).symm.trans he')

end

/-! ### Nothing waits between two callbacks -/

/-- Every byte received has been read. -/
def Control.Drained (k : Control) : Prop := ∀ b e, k.bevs.cell b = some e → e.input = []

private theorem Control.Drained.afterRead {k : Control} (h : k.Drained) (v : UInt32) (p b : Nat) (P : Parser)
    (bs : List UInt8) :
    (k.afterRead v p b P bs).Drained := by
  intro b' e he
  unfold Control.afterRead at he
  split at he
  · by_cases hb : b' = b
    · subst hb
      obtain ⟨e₀, -, rfl⟩ : ∃ e₀, k.bevs.cell b' = some e₀ ∧ { e₀ with input := [] } = e := by
        simpa [Control.reader] using he
      rfl
    · exact h b' e ((Heap.update_cell_of_ne _ _ hb).symm.trans he)
  · exact h b' e (Heap.cell_of_free he).2

theorem Control.Drained.next {k : Control} (h : k.Drained) (cb : Callback τ) : (k.next cb).Drained := by
  cases cb with
  | accept fd =>
    intro b e he
    rcases Heap.cell_of_alloc he with ⟨-, rfl⟩ | he
    · rfl
    · exact h b e he
  | tick choice => exact h
  | event b =>
    simp only [Control.next]
    split
    · exact h
    · split <;> exact fun b' e he => h b' e (Heap.cell_of_free he).2
  | readable b chunk =>
    simp only [Control.next]
    split
    · exact h
    · split
      · exact fun b' e he => h b' e (Heap.cell_of_free he).2
      · split
        · exact h
        · exact h.afterRead _ _ _ _ _

/-- libevent reads no more at once. -/
def Callback.Read : Callback τ → Prop
  | .readable _ chunk => chunk.length ≤ EVBUFFER_MAX_READ
  | _ => True

/-- From a drained state a callback goes on unless it is a tick with a message that is too long. -/
theorem Process.step_drained {S : Scripts σ τ} (hS : S.QuietReads) (hconnect : ∀ v lua, (S.HandleConnect v lua).Fits)
    {w : World σ} (hw : w.control.Valid) (hdrained : w.control.Drained) {cb : Callback τ} (hread : cb.Read)
    (htick : ∀ choice, cb = .tick choice → (S.Tick choice w.lua).Fits) :
    ∃ w', Process.step S (.running w) cb = .running w' ∧ w'.control = w.control.next cb := by
  have hempty : ∀ b e, w.bevs.cell b = some e → e.input = [] := by
    intro b e he
    exact hdrained b e.ctl (by simp [World.control, he])
  have hfit : w.InputsFit := by
    intro b e he
    rw [hempty b e he]
    exact Nat.zero_le _
  have hchunk : ∀ b chunk e, cb = .readable b chunk → w.bevs.cell b = some e →
      (e.input ++ chunk).length ≤ sizeof_msg := by
    rintro b chunk e rfl he
    rw [hempty b e he]
    exact hread.trans (by decide)
  have hno := callback_noOverflow hS hfit hchunk hconnect htick
  have hstep := callback_outcome (S := S) hw cb
  cases hr : callback S cb w with
  | ok u w' => exact ⟨w', by simp [Process.step, hr, Process.ofResult], hstep.ok w' hr⟩
  | error f w' =>
    obtain ⟨rfl, -, -⟩ := hstep.error f w' hr
    exact absurd hr (hno w')

end LibeventServer

import LibeventServer.Connections
import LibeventServer.Lua.Calls

/-!
# The bound of the receive buffer

The length of a body is read off the peer's bytes and is not compared with the size of `read_msg` before it is passed
to `bufferevent_read`.  `reads_fit`: the requested lengths and the `m_needByteCnt`s stay within the buffer in every
run in which every length announced by a peer does; `announced_not_fit` is a run of three bytes in which they do not.
-/

namespace LibeventServer

open Runs

variable {σ τ : Type} {S : Scripts σ τ}

/-- Every `m_needByteCnt` fits `read_msg`. -/
def Control.NeedsFit (k : Control) : Prop := ∀ p c, k.clients.cell p = some c → c.m_needByteCnt ≤ sizeof_msg

/-- Every length passed to `bufferevent_read` so far fits `read_msg`, and so does every `m_needByteCnt` of a running
process. -/
def Process.ReadsFit (s : Process σ) : Prop :=
  (∀ k ∈ s.world.asked, k ≤ sizeof_msg) ∧ s.Running Control.NeedsFit

/-- Every length announced in the bytes a callback reads fits `read_msg`. -/
def Process.AnnouncedFit (s : Process σ) (cb : Callback τ) : Prop := s.Running fun k => k.Fits cb

private theorem LengthsFit.last {P : Parser} {bs : List UInt8} (h : LengthsFit P bs) :
    (decoder.feedAll P bs).1.need ≤ sizeof_msg :=
  h bs ((List.mem_inits _ _).2 List.prefix_rfl)

/-- A callback that announces lengths that fit leaves lengths that fit. -/
private theorem Control.NeedsFit.next {k : Control} (h : k.NeedsFit) {cb : Callback τ} (hfit : k.Fits cb) :
    (k.next cb).NeedsFit := by
  have hnew : header_length ≤ sizeof_msg := by decide
  refine Control.next_clients cb h (fun _ _ => hnew) ?_
  rintro b chunk e p c rfl hb hv hc -
  exact (hfit e p c hb hv hc).last

private theorem step_readsFit {s : Process σ} (hv : s.Valid) (h : s.ReadsFit) {cb : Callback τ}
    (hfit : s.AnnouncedFit cb) : (Process.step S s cb).ReadsFit := by
  cases s with
  | crashed f w => exact h
  | running w =>
    obtain ⟨hasked, hneeds⟩ := h
    have hout := callback_outcome (S := S) hv cb
    have hasked' : ∀ k ∈ (callback S cb w).state.asked, k ≤ sizeof_msg := by
      intro k hk
      rcases hout.asked hfit k hk with hk | hk
      · exact hasked k hk
      · exact hk
    cases hr : callback S cb w with
    | ok u w' =>
      rw [hr] at hasked'
      rw [Process.step, hr]
      refine ⟨hasked', ?_⟩
      show w'.control.NeedsFit
      rw [hout.ok w' hr]
      exact Control.NeedsFit.next hneeds hfit
    | error f w' =>
      rw [hr] at hasked'
      rw [Process.step, hr]
      exact ⟨hasked', trivial⟩

/-- Requested lengths fit the receive buffer in every state of a run in which the announced lengths do. -/
theorem reads_fit (S : Scripts σ τ) (lua : σ) (cbs : List (Callback τ))
    (h : Along (Process.step S) Process.AnnouncedFit (.running (World.init lua)) cbs) :
    Always (Process.step S) Process.ReadsFit (.running (World.init lua)) cbs := by
  have hinit : (Process.running (World.init lua)).ReadsFit := by
    refine ⟨?_, ?_⟩
    · intro k hk
      exact absurd hk List.not_mem_nil
    · intro p c hc
      exact absurd hc (by simp)
  have hall : Always (Process.step S) (fun s => s.Valid ∧ s.ReadsFit) (.running (World.init lua)) cbs := by
    refine Along.always ?_ ⟨World.init_valid lua, hinit⟩ h
    exact fun s cb hs hfit => ⟨Process.step_valid hs.1 cb, step_readsFit hs.1 hs.2 hfit⟩
  exact hall.mono fun s hs => hs.2

/-- A connection that sends a message of one byte. -/
theorem reads_fit_one_byte :
    Always (Process.step (Lua.mainScripts Lua.Host.raising)) Process.ReadsFit
      (.running (World.init (Lua.State.init : Lua.State ℝ))) [.accept 0, .readable 0 [1, 0, 65]] := by
  refine reads_fit _ _ _ ⟨trivial, ?_, trivial⟩
  obtain ⟨w, h, hk⟩ := Process.step_quiet (S := Lua.mainScripts Lua.Host.raising)
    (World.init_valid (Lua.State.init : Lua.State ℝ)) (.accept 0) (fun _ _ => trivial) trivial
  rw [h]
  intro e p c hb hv hc
  rw [hk] at hb hv hc
  have he : (⟨1, []⟩ : BevCtl) = e := Option.some.inj hb
  subst he
  have hp : 0 = p := by
    simpa [Control.next, Control.accept, World.init, World.control, Heap.empty, Finmap.notMem_empty] using hv
  subst hp
  have hc' : (⟨0, 1, 2, StatusReadHeader⟩ : ClientCtl) = c := Option.some.inj hc
  subst hc'
  decide

/-- A peer announces a body of 65535 bytes, and the server asks for as many. -/
theorem announced_not_fit :
    ¬ (run (Process.step (Lua.mainScripts Lua.Host.raising)) (.running (World.init (Lua.State.init : Lua.State ℝ)))
      [.accept 0, .readable 0 [0xff, 0xff, 0]]).ReadsFit := by
  intro h
  have hasked : (run (Process.step (Lua.mainScripts Lua.Host.raising))
      (.running (World.init (Lua.State.init : Lua.State ℝ)))
      [.accept 0, .readable 0 [0xff, 0xff, 0]]).world.asked = [2, 65535] := by decide +kernel
  have hle : 65535 ≤ sizeof_msg := h.1 65535 (by rw [hasked]; simp)
  exact absurd hle (by decide)

end LibeventServer

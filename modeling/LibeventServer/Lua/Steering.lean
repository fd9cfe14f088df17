import LibeventServer.Delivery
import LibeventServer.Lua.Crowds
import LibeventServer.Lua.Phases
import LibeventServer.Lua.Snapshot
import LibeventServer.Tracking

/-!
# Who steers a client

The button, the direction and the angle of a client are a small machine of their own: a connect starts it, the
messages of the client move it, and a tick turns it (`Steering`).  `steering_of_trace`: in every run of the server the
controls of every client are those of this machine after the calls made for it and the ticks.  So no other client, no
failed send and no kick of another connection ever turns it.

`steering_of_received`: the button and the direction of an open connection follow from the bytes received on it alone.
-/

namespace LibeventServer

namespace Lua

/-- What a client steers by. -/
structure Steering (N : Type) where
  press : Value N
  d : N
  angle : N

section

variable {N : Type} [Field N] [LinearOrder N]

def Client.steering (c : Client N) : Steering N := ⟨c.press, c.d, c.angle⟩

namespace Steering

/-- A new client. -/
def start : Steering N := ⟨.bool false, 1, 0⟩

/-- A command that says how its button is. -/
def pressed (x : Steering N) (press : Value N) : Steering N where
  press := match press with
    | .nil => x.press
    | press => press
  d := if press.truthy then x.d * -1 else x.d
  angle := x.angle

/-- A call of a method; nothing when it raises. -/
def invoke (x : Steering N) : Method → List (Value N) → Option (Steering N)
  | ._init, _ => some start
  | .cmd, args => ((args.head?.getD .nil).index (.str (literal "press"))).map x.pressed

/-- A tick. -/
def turned [LuaMath N] (x : Steering N) : Steering N :=
  if x.press.truthy then x else { x with angle := x.angle + ANGLE * x.d }

end Steering

/-- The call a message asks for. -/
def asked (H : Host N) (msg : List UInt8) : Option (Method × List (Value N)) := do
  let data ← H.msgpack_unpack msg
  let method ← Client.method (← data.index (.num 1))
  return (method, ← arguments H data)

/-- A message that asks for no call, or for one that raises, leaves the controls. -/
def Steering.receive (H : Host N) (x : Steering N) (msg : List UInt8) : Steering N :=
  ((asked H msg).bind fun call => x.invoke call.1 call.2).getD x

private theorem Client.steering_invoke (c : Client N) (m : Method) (args : List (Value N)) :
    (c.invoke m args).map Client.steering = c.steering.invoke m args := by
  cases m with
  | _init => rfl
  | cmd =>
    simp only [Client.invoke, Client.cmd, Steering.invoke]
    cases (args.head?.getD .nil).index (.str (literal "press")) with
    | none => rfl
    | some press =>
      -- the button first, and then the direction
      cases press <;> simp only [Option.bind_eq_bind, Option.bind_some, Option.map_some] <;> split <;>
        simp_all [Client.steering, Steering.pressed, Value.truthy]

/-- The controls of the client `v`. -/
def State.steered (s : State N) (v : UInt32) : Option (Steering N) := (s.clients.lookup v).map Client.steering

omit [Field N] [LinearOrder N] in
private theorem State.steered_insert (s : State N) (u v : UInt32) (c : Client N) :
    State.steered { s with clients := s.clients.insert u c } v = if u = v then some c.steering else s.steered v := by
  by_cases h : u = v
  · subst h
    simp [steered]
  · simp [steered, h, Finmap.lookup_insert_of_ne _ (Ne.symm h)]

omit [Field N] [LinearOrder N] in
private theorem State.steered_erase (s : State N) (u v : UInt32) :
    State.steered { s with clients := s.clients.erase u } v = if u = v then none else s.steered v := by
  by_cases h : u = v
  · subst h
    simp [steered]
  · simp [steered, h, Finmap.lookup_erase_ne (Ne.symm h)]

/-- A message, the object of its sender and its call; whatever raises leaves the state. -/
private theorem handleEvent_getD (H : Host N) (s : State N) (u : UInt32) (msg : List UInt8) :
    (handleEvent H u msg s).getD s = ((s.clients.lookup u).bind fun c =>
      ((asked H msg).bind fun call => c.invoke call.1 call.2).map fun c =>
        { s with clients := s.clients.insert u c }).getD s := by
  unfold handleEvent getClientByVfd asked
  cases H.msgpack_unpack msg with
  | none => cases s.clients.lookup u <;> rfl
  | some data =>
    simp only [Option.bind_eq_bind, Option.bind_some]
    cases data.index (.num 1) with
    | none => cases s.clients.lookup u <;> rfl
    | some name =>
      simp only [Option.bind_some]
      cases s.clients.lookup u with
      | none => rfl
      | some c =>
        cases Client.method name with
        | none => rfl
        | some m =>
          cases arguments H data with
          | none => rfl
          | some args => cases hc : c.invoke m args <;> simp [hc]

/-- What a message makes of the object of its sender. -/
private theorem Client.steering_receive (H : Host N) (c : Client N) (msg : List UInt8) :
    (((asked H msg).bind fun call => c.invoke call.1 call.2).map Client.steering).getD c.steering =
      c.steering.receive H msg := by
  unfold Steering.receive
  cases asked H msg with
  | none => rfl
  | some call => simp only [Option.bind_some, c.steering_invoke]

/-- A message moves the controls of its sender and no others. -/
private theorem State.steered_handleEvent (H : Host N) (s : State N) (u v : UInt32) (msg : List UInt8) :
    ((handleEvent H u msg s).getD s).steered v =
      if u = v then (s.steered v).map fun x => x.receive H msg else s.steered v := by
  rw [handleEvent_getD]
  cases hc : s.clients.lookup u with
  | none =>
    -- an unknown sender has no controls
    have hnone : s.steered u = none := by rw [steered, hc, Option.map_none]
    split
    · next h =>
      subst h
      simp [hnone]
    · rfl
  | some c =>
    have hsome : s.steered u = some c.steering := by rw [steered, hc, Option.map_some]
    have hreceive := c.steering_receive H msg
    cases hnext : (asked H msg).bind fun call => c.invoke call.1 call.2 with
    | none =>
      rw [hnext, Option.map_none, Option.getD_none] at hreceive
      rw [Option.bind_some, hnext, Option.map_none, Option.getD_none]
      split
      · next h =>
        subst h
        rw [hsome, Option.map_some, ← hreceive]
      · rfl
    | some c' =>
      rw [hnext, Option.map_some, Option.getD_some] at hreceive
      rw [Option.bind_some, hnext, Option.map_some, Option.getD_some, steered_insert]
      split
      · next h =>
        subst h
        rw [hsome, Option.map_some, hreceive]
      · rfl

end

/-! ### Ticks -/

/-- A move turns a client whose button is up, and changes no other control. -/
private theorem Client.steering_move (e : Enumeration ℝ) (c : Client ℝ) :
    (move e c).steering = c.steering.turned := by
  have hadvance : ∀ first (c : Client ℝ), (advance first c).steering = c.steering := by
    intro first c
    cases first <;> rfl
  have hturn : ∀ c : Client ℝ, (turn c).steering = c.steering.turned := by
    intro c
    unfold turn Steering.turned
    split <;> simp_all [Client.steering]
  have hslow : ∀ first (c : Client ℝ), (slow first c).steering = c.steering := by
    intro first c
    unfold slow
    split
    · split <;> rfl
    · rfl
  have hvTbl : ∀ (c : Client ℝ) vTbl, Client.steering { c with vTbl := vTbl } = c.steering := fun _ _ => rfl
  simp only [move, hslow, hturn, hadvance, hvTbl]

private theorem Client.steering_out (c : Client ℝ) : (out c).steering = c.steering := by
  unfold out
  split <;> rfl

/-- A tick turns every client, whether or not it raises. -/
private theorem steered_tick (H : Host ℝ) (T : Traversals ℝ) (s : State ℝ) :
    (Tick H T s).Ends fun s' => ∀ v, s'.steered v = (s.steered v).map Steering.turned := by
  have hmoved : ∀ v, State.steered ⟨(moveAll T s.clients).1⟩ v = (s.steered v).map Steering.turned := by
    intro v
    rw [State.steered, lookup_moveAll, Option.map_map, State.steered, Option.map_map]
    exact congrArg (fun f => (s.clients.lookup v).map f) (funext fun c => c.steering_move (T.vTbl v))
  have hdone : ∀ v, State.steered ⟨outAll T (hitAll T (moveAll T s.clients).1)⟩ v =
      (s.steered v).map Steering.turned := by
    intro v
    rw [← hmoved, State.steered, lookup_outAll, lookup_hitAll, Option.map_map, Option.map_map, State.steered]
    exact congrArg (fun f => ((moveAll T s.clients).1.lookup v).map f) (funext fun c => Client.steering_out _)
  refine syncAll_ends (Q := fun s' => ∀ v, s'.steered v = (s.steered v).map Steering.turned) hmoved ?_ _
  exact hdone

end Lua

open EStateM Runs Transducer Lua

/-! ### The controls and the trace -/

/-- What an event makes of the controls of `v`. -/
noncomputable def Event.steer (H : Host ℝ) (v : UInt32) (x : Option (Steering ℝ)) : Event → Option (Steering ℝ)
  | .HandleConnect u => if u = v then some Steering.start else x
  | .HandleDisConnect u => if u = v then none else x
  | .HandleEvent u msg => if u = v then x.map fun x => x.receive H msg else x
  | .Tick => x.map Steering.turned
  | _ => x

private theorem Event.steer_connect (H : Host ℝ) (v u : UInt32) (x : Option (Steering ℝ)) :
    Event.steer H v x (.HandleConnect u) = if u = v then some Steering.start else x := rfl

private theorem Event.steer_disconnect (H : Host ℝ) (v u : UInt32) (x : Option (Steering ℝ)) :
    Event.steer H v x (.HandleDisConnect u) = if u = v then none else x := rfl

private theorem Event.steer_event (H : Host ℝ) (v u : UInt32) (msg : List UInt8) (x : Option (Steering ℝ)) :
    Event.steer H v x (.HandleEvent u msg) = if u = v then x.map fun x => x.receive H msg else x := rfl

/-- Every client is steered by what the trace says. -/
def Steered (H : Host ℝ) (t : List Event) (s : State ℝ) : Prop := ∀ v, s.steered v = t.foldl (Event.steer H v) none

private theorem Steered.append {H : Host ℝ} {t : List Event} {s s' : State ℝ} (h : Steered H t s) {e : Event}
    (hs : ∀ v, s'.steered v = Event.steer H v (s.steered v) e) : Steered H (t ++ [e]) s' := by
  intro v
  rw [List.foldl_append, ← h v]
  exact hs v

private theorem mainScripts_steered (H : Host ℝ) : (mainScripts H).Tracks (Steered H) where
  other t s e he h := by
    refine h.append fun v => ?_
    cases e <;> first | rfl | cases he
  connect t s u h := h.append fun v => State.steered_insert s u v _
  disconnect t s u h := h.append fun v => State.steered_erase s u v
  event t s u msg h := by
    have hnext : Steered H (t ++ [.HandleEvent u msg]) ((handleEvent H u msg s).getD s) :=
      h.append fun v => State.steered_handleEvent H s u v msg
    simp only [mainScripts, HandleEvent]
    cases hs : handleEvent H u msg s with
    | none =>
      rw [hs] at hnext
      exact hnext
    | some s' =>
      rw [hs] at hnext
      exact hnext
  tick t s T h := (steered_tick H T s).mono fun s' hs => h.append hs

/-- In every run of the server the controls of every client are what the calls made for it and the ticks make of
them. -/
theorem steering_of_trace (H : Host ℝ) (cbs : List (Callback (Traversals ℝ))) :
    Always (Process.step (mainScripts H)) (Process.Tracked (Steered H)) (.running (World.init State.init)) cbs := by
  refine Always.of_invariant ?_ ?_ cbs
  · exact fun s cb hs => Process.step_tracked (mainScripts_steered H) hs cb
  · exact fun v => rfl

/-! ### The controls and the bytes -/

/-- What only messages move. -/
def Lua.Steering.buttons {N : Type} (x : Steering N) : Value N × N := (x.press, x.d)

private theorem Lua.Steering.buttons_turned (x : Steering ℝ) : x.turned.buttons = x.buttons := by
  unfold turned
  split <;> rfl

private theorem Lua.Steering.buttons_receive {H : Host ℝ} {x y : Steering ℝ} (h : x.buttons = y.buttons)
    (msg : List UInt8) :
    (x.receive H msg).buttons = (y.receive H msg).buttons := by
  obtain ⟨hpress, hd⟩ := Prod.mk.inj h
  unfold receive
  cases asked H msg with
  | none => exact h
  | some call =>
    obtain ⟨m, args⟩ := call
    cases m with
    | _init => rfl
    | cmd =>
      simp only [Option.bind_some, invoke]
      cases (args.head?.getD .nil).index (.str (literal "press")) with
      | none => exact h
      | some press => simp only [Option.map_some, Option.getD_some, buttons, pressed, hpress, hd]

/-- A call for `v` moves its buttons by what they were. -/
private theorem buttons_steer_call {H : Host ℝ} {v : UInt32} {e : Event}
    (he : e.isCall v = true) {x y : Option (Steering ℝ)} (h : x.map Steering.buttons = y.map Steering.buttons) :
    (Event.steer H v x e).map Steering.buttons = (Event.steer H v y e).map Steering.buttons := by
  cases e with
  | HandleConnect u =>
    rw [Event.steer_connect, Event.steer_connect, if_pos (eq_of_beq he), if_pos (eq_of_beq he)]
  | HandleDisConnect u =>
    rw [Event.steer_disconnect, Event.steer_disconnect, if_pos (eq_of_beq he), if_pos (eq_of_beq he)]
  | HandleEvent u msg =>
    rw [Event.steer_event, Event.steer_event, if_pos (eq_of_beq he), if_pos (eq_of_beq he)]
    cases x with
    | none => cases y <;> [rfl; cases h]
    | some x =>
      cases y with
      | none => cases h
      | some y => exact congrArg some (Steering.buttons_receive (Option.some.inj h) msg)
  | _ => cases he

/-- Every other event leaves them. -/
private theorem buttons_steer_other {H : Host ℝ} {v : UInt32} {e : Event} (he : e.isCall v = false)
    (x : Option (Steering ℝ)) :
    (Event.steer H v x e).map Steering.buttons = x.map Steering.buttons := by
  cases e with
  | HandleConnect u => rw [Event.steer_connect, if_neg (by simpa [Event.isCall] using he)]
  | HandleDisConnect u => rw [Event.steer_disconnect, if_neg (by simpa [Event.isCall] using he)]
  | HandleEvent u msg => rw [Event.steer_event, if_neg (by simpa [Event.isCall] using he)]
  | Tick =>
    cases x with
    | none => rfl
    | some x => exact congrArg some x.buttons_turned
  | _ => rfl

/-- Of the events of a run only the calls for `v` move the button and the direction of `v`. -/
private theorem buttons_foldl_steer (H : Host ℝ) (v : UInt32) (t : List Event) {x y : Option (Steering ℝ)}
    (h : x.map Steering.buttons = y.map Steering.buttons) :
    (t.foldl (Event.steer H v) x).map Steering.buttons =
      ((calls v t).foldl (Event.steer H v) y).map Steering.buttons := by
  induction t generalizing x y with
  | nil => exact h
  | cons e t ih =>
    rw [List.foldl_cons]
    cases he : e.isCall v with
    | true =>
      rw [calls, List.filter_cons_of_pos he, List.foldl_cons]
      exact ih (buttons_steer_call he h)
    | false =>
      rw [calls, List.filter_cons_of_neg (by simp [he])]
      exact ih ((buttons_steer_other he x).trans h)

/-- A session starts the controls anew. -/
private theorem foldl_steer_session (H : Host ℝ) (v : UInt32) (past : List UInt8) (x : Option (Steering ℝ)) :
    (session v past).foldl (Event.steer H v) x =
      some ((decoder.feedAll Parser.start past).2.foldl (Steering.receive H) Steering.start) := by
  have hmsgs : ∀ (msgs : List (List UInt8)) (x : Steering ℝ), (msgs.map (Event.HandleEvent v)).foldl
      (Event.steer H v) (some x) = some (msgs.foldl (Steering.receive H) x) := by
    intro msgs
    induction msgs with
    | nil => exact fun _ => rfl
    | cons msg msgs ih =>
      intro x
      rw [List.map_cons, List.foldl_cons, Event.steer_event, if_pos rfl]
      exact ih _
  rw [session, List.foldl_cons, Event.steer_connect, if_pos rfl]
  exact hmsgs _ _

/-- The button and the direction of an open connection follow from the bytes received on it.  `pre` are the callbacks
before it was accepted and `post` those after, of this and of all other connections. -/
theorem steering_of_received {H : Host ℝ} {pre post : List (Callback (Traversals ℝ))} {fd : Int32}
    {w w₁ : World (State ℝ)}
    (hfresh : Along (Process.step (mainScripts H)) Process.Fresh (.running (World.init State.init))
      (pre ++ .accept fd :: post))
    (hw : run (Process.step (mainScripts H)) (.running (World.init State.init)) pre = .running w)
    (hpost : run (Process.step (mainScripts H)) (.running w) (.accept fd :: post) = .running w₁)
    (hopen : w₁.bevs.cell w.bevs.next ≠ none) :
    (w₁.lua.steered w.globalVfd).map Steering.buttons =
      some ((decoder.feedAll Parser.start (received w.bevs.next post)).2.foldl (Steering.receive H)
        Steering.start).buttons := by
  have hrun : run (Process.step (mainScripts H)) (.running (World.init State.init)) (pre ++ .accept fd :: post) =
      .running w₁ := by
    rw [run_append, hw, hpost]
  have htracked : Steered H w₁.trace w₁.lua :=
    Process.tracked_of_run (mainScripts_steered H) (fun _ => rfl) hrun
  have htrace := (Process.session_of_run hfresh hw hpost hopen).trace
  rw [htracked, buttons_foldl_steer H _ _ rfl, show calls _ w₁.trace = _ from htrace, List.foldl_append,
    foldl_steer_session]
  rfl

/-! ### A run of two connections -/

/-- The first client sends its press in two pieces.  Meanwhile a second client connects and sends a release, and the
game ticks twice. -/
noncomputable def pressAndRelease : List (Callback (Traversals ℝ)) :=
  [.accept 0, .readable 0 [14, 0], .tick default, .readable 1 ([14, 0] ++ releaseMsg), .readable 0 pressMsg,
    .tick default]

private theorem asked_pressMsg :
    asked buttonHost pressMsg = some (.cmd, [.table [(.str (literal "press"), .bool true)]]) := by
  have hname : literal "cmd" ≠ literal "_init" := by decide
  simp [asked, arguments, cmdCall, buttonHost, Host.knowing, Value.index, Value.rawget, Value.rawequal, table_unpack,
    table_unpack.pushed, Client.method, hname]

/-- The messages of a tick are empty. -/
private theorem buttonHost_tick_fits (T : Traversals ℝ) (s : State ℝ) : (Tick buttonHost T s).Fits := by
  refine syncAll_fits ?_ ?_ _
  · exact Nat.zero_le _
  · trivial

/-- The bytes for the first client never end inside a header or a body. -/
private theorem pressAndRelease_lasts :
    Along (fun past cb => past ++ cb.bytes 0) (fun past cb => ¬ cb.Ends 0 past) [] pressAndRelease := by
  have hstart : Parser.start.clean = true := rfl
  have hheader : (decoder.feedAll Parser.start [14, 0]).1.clean = true := by decide
  have hframe : (decoder.feedAll Parser.start (14 :: 0 :: pressMsg)).1.clean = true := by decide
  simp [pressAndRelease, Along, Callback.Ends, Callback.bytes, hstart, hheader, hframe]

private theorem pressAndRelease_buttons : ((decoder.feedAll Parser.start (received 0 pressAndRelease)).2.foldl
    (Steering.receive buttonHost) Steering.start).buttons = (.bool true, -1) := by
  have hreceived : received 0 pressAndRelease = [14, 0] ++ pressMsg := rfl
  have hbodies : (decoder.feedAll Parser.start ([14, 0] ++ pressMsg)).2 = [pressMsg] := by decide
  rw [hreceived, hbodies]
  simp [Steering.receive, asked_pressMsg, Steering.invoke, Steering.start, Steering.pressed, Steering.buttons,
    Value.index, Value.rawget, Value.rawequal, Value.truthy]

/-- After the run the button of the first client is pressed and its direction has changed. -/
theorem steering_two_connections : ∃ w₁ : World (State ℝ),
    run (Process.step (mainScripts buttonHost)) (.running (World.init State.init)) (.accept 0 :: pressAndRelease) =
      .running w₁ ∧
    (w₁.lua.steered 1).map Steering.buttons = some (.bool true, -1) := by
  have hinit := World.init_serving (State.init : State ℝ)
  have hnothing : (World.init (State.init : State ℝ)).control.Drained := fun b e he => absurd he (by simp)
  obtain ⟨w₀, h₀, hk₀⟩ := Process.step_drained (S := mainScripts buttonHost) (mainScripts_quietReads _)
    (fun _ _ => trivial) hinit.valid hnothing (show (Callback.accept 0).Read from trivial)
    fun _ _ => buttonHost_tick_fits _ _
  have hs₀ : w₀.control.Session 1 0 [] [] := by
    rw [hk₀]
    exact hinit.accept_session (World.init_freshId _)
  have hdrained₀ : w₀.control.Drained := by
    rw [hk₀]
    exact hnothing.next _
  have hfresh₀ : w₀.control.FreshId := by
    rw [hk₀]
    intro b e he
    rcases Heap.cell_of_alloc he with ⟨-, rfl⟩ | he
    · decide
    · cases he
  have hread : ∀ cb ∈ pressAndRelease, cb.Read := by
    simp [pressAndRelease, Callback.Read, pressMsg, releaseMsg, EVBUFFER_MAX_READ]
  have hids : Along Control.next Control.Fresh w₀.control pressAndRelease :=
    ⟨hfresh₀, trivial, trivial, trivial, trivial, trivial, trivial⟩
  obtain ⟨hfresh, w₁, hrun, hopen⟩ := Process.run_open (S := mainScripts buttonHost) (mainScripts_quietReads _)
    (fun _ _ => trivial) (fun _ _ => buttonHost_tick_fits _ _) hread hs₀ hdrained₀ hids pressAndRelease_lasts
  have hpost : run (Process.step (mainScripts buttonHost)) (.running (World.init State.init))
      (.accept 0 :: pressAndRelease) = .running w₁ := by
    rw [run_cons, h₀, hrun]
  rw [← h₀] at hfresh
  have hall : Along (Process.step (mainScripts buttonHost)) Process.Fresh (.running (World.init State.init))
      ([] ++ .accept 0 :: pressAndRelease) := ⟨World.init_freshId _, hfresh⟩
  have hsteering := steering_of_received hall rfl hpost hopen
  exact ⟨w₁, hpost, hsteering.trans (congrArg some pressAndRelease_buttons)⟩

end LibeventServer

import LibeventServer.Framing
import LibeventServer.Lifecycle
import LibeventServer.Overflow

/-!
# What Lua sees of a connection

The callbacks of different connections come in any order.  `calls_of_received`: whatever the scripts do and whatever
happens on other connections, the calls Lua gets for a connection are `HandleConnect`, one `HandleEvent` for each body
in the bytes received on it, in order, and `HandleDisConnect` once it is closed; and it is closed exactly when the
peer is gone or a callback leaves the reader inside a header or a body.

This holds while no accept hands out the id of a connection that is still open.  When no message of a tick is too
long, a connection that nothing ends stays open (`Process.run_open`).
-/

namespace LibeventServer

open Runs Transducer

variable {σ τ : Type} {S : Scripts σ τ}

/-- The bytes a callback delivers on `b`. -/
def Callback.bytes (b : Nat) : Callback τ → List UInt8
  | .readable b' chunk => if b' = b then chunk else []
  | _ => []

@[simp] theorem Callback.bytes_accept (b : Nat) (fd : Int32) : (Callback.accept fd : Callback τ).bytes b = [] := rfl
@[simp] theorem Callback.bytes_tick (b : Nat) (choice : τ) : (Callback.tick choice).bytes b = [] := rfl
@[simp] theorem Callback.bytes_event (b b' : Nat) : (Callback.event b' : Callback τ).bytes b = [] := rfl

@[simp] theorem Callback.bytes_readable_self (b : Nat) (chunk : List UInt8) :
    (Callback.readable b chunk : Callback τ).bytes b = chunk := if_pos rfl

private theorem Callback.bytes_readable_of_ne {b b' : Nat} (h : b' ≠ b) (chunk : List UInt8) :
    (Callback.readable b' chunk : Callback τ).bytes b = [] := if_neg h

/-- The bytes the callbacks deliver on `b`, in order. -/
def received (b : Nat) (cbs : List (Callback τ)) : List UInt8 := cbs.flatMap (Callback.bytes b)

/-- The callback ends the connection `b`, on which `past` was received: the peer is gone, or the bytes end inside a
header or a body. -/
def Callback.Ends (cb : Callback τ) (b : Nat) (past : List UInt8) : Prop :=
  cb = .event b ∨ (decoder.feedAll Parser.start (past ++ cb.bytes b)).1.clean = false

/-- The calls of a session in which `past` was received. -/
def session (v : UInt32) (past : List UInt8) : List Event :=
  .HandleConnect v :: (decoder.feedAll Parser.start past).2.map (.HandleEvent v)

/-- The connection `v` is open, its bytes `past` have been read, and `t` are the calls made for earlier connections
with its id. -/
structure Control.Session (k : Control) (v : UInt32) (b : Nat) (t : List Event) (past : List UInt8) : Prop where
  serving : k.Serving
  reading : k.Reading v b b (decoder.feedAll Parser.start past).1
  trace : calls v k.trace = t ++ session v past

private theorem Control.Reading.clean {k : Control} {v : UInt32} {p b : Nat} {P : Parser} (h : k.Reading v p b P) :
    P.clean = true := by
  obtain ⟨c, -, rfl⟩ := h.client
  rfl

private theorem session_append {v : UInt32} {past bs : List UInt8} {P : Parser} {out : List (List UInt8)}
    (h : decoder.feedAll (decoder.feedAll Parser.start past).1 bs = (P, out)) :
    session v (past ++ bs) = session v past ++ out.map (.HandleEvent v) := by
  rw [session, session, feedAll_append, h, List.map_append, List.cons_append]

/-! ### The calls of one callback -/

private theorem calls_events (v : UInt32) (msgs : List (List UInt8)) :
    calls v (msgs.map (.HandleEvent v)) = msgs.map (.HandleEvent v) := by
  rw [calls, List.filter_eq_self]
  intro e he
  obtain ⟨msg, -, rfl⟩ := List.mem_map.1 he
  exact beq_self_eq_true v

private theorem calls_events_of_ne {u v : UInt32} (h : u ≠ v) (msgs : List (List UInt8)) :
    calls v (msgs.map (.HandleEvent u)) = [] := by
  rw [calls, List.filter_eq_nil_iff]
  intro e he
  obtain ⟨msg, -, rfl⟩ := List.mem_map.1 he
  simpa [Event.isCall] using h

private theorem calls_closing (u v : UInt32) (p b : Nat) :
    calls v (closing u p b) = if u = v then [.HandleDisConnect v] else [] := by
  by_cases h : u = v
  · subst h
    simp [calls, closing, Event.isCall]
  · simp [calls, closing, Event.isCall, h]

private theorem calls_kick (P : Parser) (u v : UInt32) (p b : Nat) :
    calls v (kickLine P u :: closing u p b) = calls v (closing u p b) := by
  unfold kickLine
  split <;> rfl

/-- The calls a read makes. -/
private theorem calls_afterRead (k : Control) (v : UInt32) (p b : Nat) (P : Parser) (bs : List UInt8) :
    calls v (k.afterRead v p b P bs).trace = calls v k.trace ++ (decoder.feedAll P bs).2.map (.HandleEvent v) ++
      if (decoder.feedAll P bs).1.clean = true then [] else [.HandleDisConnect v] := by
  unfold Control.afterRead
  split
  · rw [Control.reader, calls_append, calls_events, List.append_nil]
  · rw [Control.close, calls_append, calls_append, calls_events, calls_kick, calls_closing, if_pos rfl,
      List.append_assoc]

/-- A read of another connection. -/
private theorem calls_afterRead_of_ne {u v : UInt32} (h : u ≠ v) (k : Control) (p b : Nat) (P : Parser)
    (bs : List UInt8) :
    calls v (k.afterRead u p b P bs).trace = calls v k.trace := by
  unfold Control.afterRead
  split
  · rw [Control.reader, calls_append, calls_events_of_ne h, List.append_nil]
  · rw [Control.close, calls_append, calls_append, calls_events_of_ne h, calls_kick, calls_closing, if_neg h,
      List.append_nil, List.append_nil]

/-! ### One callback -/

variable {k : Control} {v : UInt32} {b : Nat} {t : List Event} {past : List UInt8}

theorem Control.Serving.accept_session (h : k.Serving) (hfresh : k.FreshId) :
    (k.accept [.HandleConnect k.globalVfd]).Session k.globalVfd k.bevs.next (calls k.globalVfd k.trace) [] where
  serving := h.accept hfresh _
  reading := by
    have hreading := h.accept_reading hfresh [.HandleConnect k.globalVfd]
    rwa [h.next_eq] at hreading
  trace := by
    rw [Control.accept, calls_append]
    simp [calls, session, Event.isCall]

/-- What leaves the connection and its calls alone leaves the session. -/
private theorem Control.Session.same {k' : Control} (h : k.Session v b t past) (hserving : k'.Serving)
    (hcalls : calls v k'.trace = calls v k.trace)
    (hbev : k'.bevs.cell b = k.bevs.cell b) (hclient : k'.clients.cell b = k.clients.cell b)
    (hregistered : k'.AllClients.lookup v = some b) : k'.Session v b t past where
  serving := hserving
  reading := by
    obtain ⟨c, hc, hP⟩ := h.reading.client
    exact ⟨hserving.valid, hregistered, ⟨c, hclient.trans hc, hP⟩, hbev.trans h.reading.bev⟩
  trace := hcalls.trans h.trace

/-- A callback for another connection. -/
private theorem Control.Session.other (h : k.Session v b t past) {cb : Callback τ} {b' : Nat} (hcb : cb.bev = some b')
    (hne : b' ≠ b) (hfresh : k.Fresh cb) : (k.next cb).Session v b t past := by
  -- a callback for a bufferevent that was freed does nothing
  cases hb' : k.bevs.cell b' with
  | none =>
    have hsame : k.next cb = k := by
      cases cb <;> cases hcb <;> simp only [Control.next, hb']
    rwa [hsame]
  | some e =>
    have hkeeps := h.serving.keeps_next hcb (by rw [hb']; simp) (Ne.symm hne)
    obtain ⟨hregistered, hclient⟩ := hkeeps.client _ b h.reading.bev h.reading.registered
    have hv : e.cbarg ≠ v := fun hv => hne (h.serving.distinct b' b e ⟨v, []⟩ hb' h.reading.bev hv)
    obtain ⟨c, hc⟩ := h.serving.served b' e hb'
    refine h.same (h.serving.next hfresh) ?_ hkeeps.bev hclient hregistered
    cases cb with
    | accept fd => cases hcb
    | tick choice => cases hcb
    | event b₀ =>
      cases hcb
      rw [hc.next_event hb', Control.close, calls_append, calls_closing, if_neg hv, List.append_nil]
    | readable b₀ chunk =>
      cases hcb
      rw [hc.next_readable hb']
      exact calls_afterRead_of_ne hv k b' b' _ chunk

/-- A callback that does not end the connection leads on in its session. -/
private theorem Control.Session.next (h : k.Session v b t past) {cb : Callback τ} (hfresh : k.Fresh cb)
    (hcb : ¬ cb.Ends b past) : (k.next cb).Session v b t (past ++ cb.bytes b) := by
  cases cb with
  | accept fd =>
    -- the id of the new connection is another one
    have hv : v ≠ k.globalVfd := hfresh b _ h.reading.bev
    obtain ⟨c, hc, -⟩ := h.reading.client
    rw [Callback.bytes_accept, List.append_nil]
    refine h.same (h.serving.next hfresh) ?_ ?_ ?_ ?_
    · rw [Control.next, Control.accept, calls_append]
      simp [calls, Event.isCall, Ne.symm hv]
    · rw [h.reading.bev]
      exact Heap.alloc_cell_of_some _ h.reading.bev
    · rw [hc]
      exact Heap.alloc_cell_of_some _ hc
    · rw [Control.next, Control.accept, if_neg (h.serving.notMem_AllClients hfresh), Finmap.lookup_insert_of_ne _ hv]
      exact h.reading.registered
  | tick choice =>
    rw [Callback.bytes_tick, List.append_nil]
    refine h.same (h.serving.next hfresh) ?_ rfl rfl h.reading.registered
    rw [Control.next, Control.emit, calls_append]
    exact List.append_nil _
  | event b' =>
    have hne : b' ≠ b := by
      rintro rfl
      exact hcb (Or.inl rfl)
    rw [Callback.bytes_event, List.append_nil]
    exact h.other rfl hne hfresh
  | readable b' chunk =>
    by_cases hne : b' = b
    · subst hne
      rw [Callback.Ends, Callback.bytes_readable_self, not_or, Bool.not_eq_false, feedAll_append] at hcb
      have hclean := hcb.2
      rw [Callback.bytes_readable_self]
      refine ⟨h.serving.next hfresh, ?_, ?_⟩
      · rw [h.reading.next, feedAll_append]
        exact h.reading.afterRead hclean
      · rw [h.reading.next, calls_afterRead, if_pos hclean, List.append_nil, h.trace, session_append rfl,
          List.append_assoc]
    · rw [Callback.bytes_readable_of_ne hne, List.append_nil]
      exact h.other rfl hne hfresh

/-- A callback that ends the connection closes its session. -/
private theorem Control.Session.ended (h : k.Session v b t past) {cb : Callback τ} (hcb : cb.Ends b past) :
    (k.next cb).bevs.deleted b = 1 ∧
      calls v (k.next cb).trace = t ++ session v (past ++ cb.bytes b) ++ [.HandleDisConnect v] := by
  have hevent : k.next (.event b : Callback τ) = k.close v b b (closing v b b) := by
    simp only [Control.next, h.reading.bev, h.reading.registered]
  have hreadable : ∀ chunk, (decoder.feedAll Parser.start (past ++ chunk)).1.clean = false →
      (k.next (.readable b chunk : Callback τ)).bevs.deleted b = 1 ∧
        calls v (k.next (.readable b chunk : Callback τ)).trace =
          t ++ session v (past ++ chunk) ++ [.HandleDisConnect v] := by
    intro chunk hclean
    rw [feedAll_append] at hclean
    rw [h.reading.next]
    constructor
    · rw [Control.afterRead, if_neg (by simp [hclean])]
      exact Heap.deleted_free_self h.reading.bev
    · rw [calls_afterRead, if_neg (by simp [hclean]), h.trace, session_append rfl, ← List.append_assoc]
  -- other callbacks leave the reader between two frames
  have hsame : (decoder.feedAll Parser.start (past ++ [])).1.clean ≠ false := by
    rw [List.append_nil, h.reading.clean]
    simp
  rcases hcb with rfl | hclean
  · rw [hevent, Callback.bytes_event, List.append_nil, Control.close, calls_append, calls_closing,
      if_pos rfl, h.trace]
    exact ⟨Heap.deleted_free_self h.reading.bev, rfl⟩
  · cases cb with
    | accept fd => exact absurd hclean hsame
    | tick choice => exact absurd hclean hsame
    | event b' => exact absurd hclean hsame
    | readable b' chunk =>
      by_cases hne : b' = b
      · subst hne
        rw [Callback.bytes_readable_self] at hclean ⊢
        exact hreadable chunk hclean
      · rw [Callback.bytes_readable_of_ne hne] at hclean
        exact absurd hclean hsame

/-! ### Runs -/

/-- A bufferevent that was freed stays freed. -/
private theorem Control.deleted_next (k : Control) (cb : Callback τ) (b : Nat) :
    k.bevs.deleted b ≤ (k.next cb).bevs.deleted b := by
  have hfree : ∀ {b' : Nat} {e : BevCtl}, k.bevs.cell b' = some e →
      k.bevs.deleted b ≤ (k.bevs.free b').deleted b := by
    intro b' e hb'
    rw [Heap.deleted_free hb']
    omega
  cases cb with
  | accept fd => exact (Heap.deleted_alloc _ _ b).ge
  | tick choice => exact le_rfl
  | event b' =>
    simp only [Control.next]
    split
    · exact le_rfl
    · split <;> exact hfree ‹_›
  | readable b' chunk =>
    simp only [Control.next]
    split
    · exact le_rfl
    · split
      · exact hfree ‹_›
      · split
        · exact le_rfl
        · unfold Control.afterRead
          split
          · exact (Heap.deleted_update _ _ _ b).ge
          · exact hfree ‹_›

private theorem Process.run_crashed {f : Fault} {w : World σ} (cbs : List (Callback τ)) :
    run (Process.step S) (.crashed f w) cbs = .crashed f w := by
  induction cbs with
  | nil => rfl
  | cons cb cbs ih => exact ih

/-- The state in which a run goes on is running. -/
private theorem Process.run_cons_running {w w' : World σ} (hw : w.control.Valid) {cb : Callback τ}
    {cbs : List (Callback τ)} (h : run (Process.step S) (.running w) (cb :: cbs) = .running w') :
    ∃ w₁, Process.step S (.running w) cb = .running w₁ ∧ w₁.control = w.control.next cb ∧
      run (Process.step S) (.running w₁) cbs = .running w' := by
  rw [run_cons] at h
  rcases Process.step_running (S := S) hw cb with ⟨w₁, h₁, hk⟩ | ⟨w₁, h₁, -⟩
  · rw [h₁] at h
    exact ⟨w₁, h₁, hk, h⟩
  · rw [h₁, Process.run_crashed] at h
    cases h

private theorem Process.run_deleted {b : Nat} {cbs : List (Callback τ)} {w w' : World σ} (hw : w.control.Valid)
    (h : run (Process.step S) (.running w) cbs = .running w') :
    w.control.bevs.deleted b ≤ w'.control.bevs.deleted b := by
  induction cbs generalizing w with
  | nil =>
    cases h
    exact le_rfl
  | cons cb cbs ih =>
    obtain ⟨w₁, -, hk, hrun⟩ := Process.run_cons_running hw h
    refine (Control.deleted_next w.control cb b).trans ?_
    rw [← hk]
    exact ih (by rw [hk]; exact hw.next cb) hrun

/-- A connection that is open at the end of a run has had one session.  By induction on the callbacks; one that ended
the session would have closed the connection for good. -/
private theorem Process.run_session {v : UInt32} {b : Nat} {t : List Event} {cbs : List (Callback τ)} {w w' : World σ}
    {past : List UInt8} (h : w.control.Session v b t past)
    (hfresh : Along (Process.step S) Process.Fresh (.running w) cbs)
    (hrun : run (Process.step S) (.running w) cbs = .running w') (hopen : w'.bevs.cell b ≠ none) :
    w'.control.Session v b t (past ++ received b cbs) := by
  induction cbs generalizing w past with
  | nil =>
    cases hrun
    rwa [received, List.flatMap_nil, List.append_nil]
  | cons cb cbs ih =>
    obtain ⟨w₁, h₁, hk, hrun₁⟩ := Process.run_cons_running h.serving.valid hrun
    by_cases hends : cb.Ends b past
    · -- the connection would be closed by now
      have hclosed : w₁.control.bevs.deleted b = 1 := by
        rw [hk]
        exact (h.ended hends).1
      have hvalid : w₁.control.Valid := by
        rw [hk]
        exact h.serving.valid.next cb
      have hle := Process.run_deleted (b := b) hvalid hrun₁
      have hone := w'.control.bevs.deleted_le_one b
      obtain ⟨-, hnone⟩ := Heap.deleted_eq_one_iff.1 (show w'.control.bevs.deleted b = 1 by omega)
      exact absurd (Option.map_eq_none_iff.1 hnone) hopen
    · have hnext : w₁.control.Session v b t (past ++ cb.bytes b) := by
        rw [hk]
        exact h.next hfresh.1 hends
      rw [received, List.flatMap_cons, ← List.append_assoc]
      refine ih hnext ?_ hrun₁
      rw [← h₁]
      exact hfresh.2

/-- A session that nothing ends goes on when no message of a tick is too long: the server comes to no fault and the
connection is open. -/
theorem Process.run_open (hS : S.QuietReads) (hconnect : ∀ v lua, (S.HandleConnect v lua).Fits)
    (htick : ∀ choice lua, (S.Tick choice lua).Fits) {v : UInt32} {b : Nat} {t : List Event} {cbs : List (Callback τ)}
    (hread : ∀ cb ∈ cbs, cb.Read) {w : World σ} {past : List UInt8} (h : w.control.Session v b t past)
    (hdrained : w.control.Drained) (hfresh : Along Control.next Control.Fresh w.control cbs)
    (hlasts : Along (fun past cb => past ++ cb.bytes b) (fun past cb => ¬ cb.Ends b past) past cbs) :
    Along (Process.step S) Process.Fresh (.running w) cbs ∧
      ∃ w', run (Process.step S) (.running w) cbs = .running w' ∧ w'.bevs.cell b ≠ none := by
  induction cbs generalizing w past with
  | nil =>
    refine ⟨trivial, w, rfl, fun hnone => ?_⟩
    have hbev := h.reading.bev
    simp [World.control, hnone] at hbev
  | cons cb cbs ih =>
    rw [List.forall_mem_cons] at hread
    obtain ⟨w₁, h₁, hk⟩ := Process.step_drained hS hconnect h.serving.valid hdrained hread.1
      fun choice _ => htick choice w.lua
    have hnext := h.next hfresh.1 hlasts.1
    have hdrained₁ := hdrained.next cb
    have hfresh₁ := hfresh.2
    rw [← hk] at hnext hdrained₁ hfresh₁
    obtain ⟨hall, w', hrun, hopen⟩ := ih hread.2 hnext hdrained₁ hfresh₁ hlasts.2
    refine ⟨⟨hfresh.1, ?_⟩, w', ?_, hopen⟩
    · rw [h₁]
      exact hall
    · rw [run_cons, h₁]
      exact hrun

/-- What holds at the end of a run from the start with fresh ids. -/
private theorem Process.run_serving {lua : σ} {cbs : List (Callback τ)}
    (hfresh : Along (Process.step S) Process.Fresh (.running (World.init lua)) cbs) :
    (run (Process.step S) (.running (World.init lua)) cbs).Serving := by
  have hall : Always (Process.step S) Process.Serving (.running (World.init lua)) cbs := by
    refine hfresh.always ?_ ?_
    · exact fun s cb hs hf => Process.step_serving hs hf
    · exact World.init_serving lua
  exact hall.last

/-- The session of a connection that is still open, for any scripts and whatever happens on other connections.  `pre`
are the callbacks before it was accepted and `post` those after. -/
theorem Process.session_of_run {lua : σ} {pre post : List (Callback τ)} {fd : Int32} {w w₁ : World σ}
    (hfresh : Along (Process.step S) Process.Fresh (.running (World.init lua)) (pre ++ .accept fd :: post))
    (hw : run (Process.step S) (.running (World.init lua)) pre = .running w)
    (hpost : run (Process.step S) (.running w) (.accept fd :: post) = .running w₁)
    (hopen : w₁.bevs.cell w.bevs.next ≠ none) :
    w₁.control.Session w.globalVfd w.bevs.next (calls w.globalVfd w.trace) (received w.bevs.next post) := by
  rw [along_append, hw] at hfresh
  obtain ⟨hpre, haccept, hfresh⟩ := hfresh
  have hserving : w.control.Serving := by
    have hrun := Process.run_serving hpre
    rwa [hw] at hrun
  obtain ⟨w₀, h₀, hk₀, hrun⟩ := Process.run_cons_running hserving.valid hpost
  rw [h₀] at hfresh
  have hsession : w₀.control.Session w.globalVfd w.bevs.next (calls w.globalVfd w.trace) [] := by
    rw [hk₀]
    exact hserving.accept_session haccept
  exact Process.run_session hsession hfresh hrun hopen

/-- The calls for a connection are those its bytes ask for, for any scripts and whatever happens on other connections.
`pre` are the callbacks before it was accepted, `post` those after, and `cb` is one more. -/
theorem calls_of_received {lua : σ} {pre post : List (Callback τ)} {fd : Int32} {cb : Callback τ} {w w₁ w₂ : World σ}
    (hfresh : Along (Process.step S) Process.Fresh (.running (World.init lua)) (pre ++ .accept fd :: (post ++ [cb])))
    (hw : run (Process.step S) (.running (World.init lua)) pre = .running w)
    (hpost : run (Process.step S) (.running w) (.accept fd :: post) = .running w₁)
    (hopen : w₁.bevs.cell w.bevs.next ≠ none) (hcb : Process.step S (.running w₁) cb = .running w₂) :
    (w₂.bevs.cell w.bevs.next = none ↔ cb.Ends w.bevs.next (received w.bevs.next post)) ∧
      calls w.globalVfd w₂.trace = calls w.globalVfd w.trace ++
        session w.globalVfd (received w.bevs.next (post ++ [cb])) ++
          if w₂.bevs.cell w.bevs.next = none then [.HandleDisConnect w.globalVfd] else [] := by
  have hsplit : pre ++ .accept fd :: (post ++ [cb]) = (pre ++ .accept fd :: post) ++ [cb] := by simp
  rw [hsplit, along_append, run_append, hw, hpost] at hfresh
  obtain ⟨hfresh, hfreshcb, -⟩ := hfresh
  have h₁ := Process.session_of_run hfresh hw hpost hopen
  -- the last callback
  have hlast : run (Process.step S) (.running w₁) [cb] = .running w₂ := hcb
  obtain ⟨w', -, hk₂, hw₂⟩ := Process.run_cons_running h₁.serving.valid hlast
  cases hw₂
  have hbytes : received w.bevs.next (post ++ [cb]) = received w.bevs.next post ++ cb.bytes w.bevs.next := by
    rw [received, received, List.flatMap_append, List.flatMap_singleton]
  have hclosed : w₂.bevs.cell w.bevs.next = none ↔ w₂.control.bevs.cell w.bevs.next = none :=
    Option.map_eq_none_iff.symm
  rw [hbytes]
  by_cases hends : cb.Ends w.bevs.next (received w.bevs.next post)
  · obtain ⟨hdeleted, htrace⟩ := h₁.ended hends
    rw [← hk₂] at hdeleted htrace
    have hnone := hclosed.2 (Heap.deleted_eq_one_iff.1 hdeleted).2
    rw [if_pos hnone]
    exact ⟨iff_of_true hnone hends, htrace⟩
  · have h₂ := h₁.next hfreshcb hends
    rw [← hk₂] at h₂
    have hsome : w₂.bevs.cell w.bevs.next ≠ none := by
      rw [Ne, hclosed, h₂.reading.bev]
      simp
    rw [if_neg hsome, List.append_nil]
    exact ⟨iff_of_false hsome hends, h₂.trace⟩

/-- A first message of one byte. -/
theorem calls_of_one_byte :
    ∃ w₂, Process.step (Lua.mainScripts Lua.Host.raising) (.running oneConnection) (.readable 0 [1, 0, 65]) =
        .running w₂ ∧
      (w₂.bevs.cell 0 = none ↔
        (Callback.readable 0 [1, 0, 65] : Callback (Lua.Traversals ℝ)).Ends 0
          (received 0 ([] : List (Callback (Lua.Traversals ℝ))))) ∧
      calls 1 w₂.trace = calls 1 (World.init (Lua.State.init : Lua.State ℝ)).trace ++
        session 1 (received 0 ([] ++ [(Callback.readable 0 [1, 0, 65] : Callback (Lua.Traversals ℝ))])) ++
          if w₂.bevs.cell 0 = none then [.HandleDisConnect 1] else [] := by
  obtain ⟨w₂, hstep, -⟩ := Process.step_quiet oneConnection_reading.valid (.readable 0 [1, 0, 65])
    (Lua.mainScripts_quietReads Lua.Host.raising) (oneConnection_reading.fits (by decide))
  have hfresh : Along (Process.step (Lua.mainScripts Lua.Host.raising)) Process.Fresh
      (.running (World.init (Lua.State.init : Lua.State ℝ)))
      ([] ++ .accept 0 :: ([] ++ [.readable 0 [1, 0, 65]])) := by
    refine ⟨World.init_freshId _, ?_, trivial⟩
    exact Process.step_of_next (World.init_valid _) trivial
  exact ⟨w₂, hstep, calls_of_received hfresh rfl run_oneConnection oneConnection_open hstep⟩

end LibeventServer

import LibeventServer.Ids

/-!
# Lifecycle of connections

The Lua calls made for an id fall into sessions: a `HandleConnect`, any number of `HandleEvent`s and a
`HandleDisConnect`; only the last session may still be open.  A client is deleted and a bufferevent freed at most
once, and always together.

`lifecycle_of_distinct`: this holds in every run in which no two live connections share an id, for any handlers.  The
server stops at no fault but an overflow, so it never uses a client after its deletion, not even when handlers send;
and it never fails to find a client.

An id may be handed out again once its connection is closed; `reused_not_one_session` is such a run.
-/

namespace LibeventServer

open Runs

variable {σ τ : Type} {S : Scripts σ τ}

/-- The event is a call of a Lua handler for `v`. -/
def Event.isCall (v : UInt32) : Event → Bool
  | .HandleConnect u => u == v
  | .HandleEvent u _ => u == v
  | .HandleDisConnect u => u == v
  | _ => false

/-- The event is an accept under the id `v`. -/
def Event.isAccept (v : UInt32) : Event → Bool
  | .accept u _ _ => u == v
  | _ => false

/-- The Lua calls made for `v`. -/
def calls (v : UInt32) (t : List Event) : List Event := t.filter (Event.isCall v)

/-- Calls that are a sequence of sessions of `v`; the flag says whether the last one is open. -/
inductive Sessions (v : UInt32) : Bool → List Event → Prop where
  | none : Sessions v false []
  | connect {l : List Event} : Sessions v false l → Sessions v true (l ++ [.HandleConnect v])
  | event {l : List Event} (msg : List UInt8) : Sessions v true l → Sessions v true (l ++ [.HandleEvent v msg])
  | disconnect {l : List Event} : Sessions v true l → Sessions v false (l ++ [.HandleDisConnect v])

/-- A session may be cut off anywhere. -/
private theorem Sessions.of_prefix {v : UInt32} {o : Bool} {l l' : List Event} (h : Sessions v o l) (hp : l' <+: l) :
    ∃ o', Sessions v o' l' := by
  induction h with
  | none =>
    rw [List.prefix_nil] at hp
    subst hp
    exact ⟨false, .none⟩
  | connect h ih =>
    rcases List.prefix_concat_iff.1 hp with rfl | hp
    · exact ⟨true, h.connect⟩
    · exact ih hp
  | event msg h ih =>
    rcases List.prefix_concat_iff.1 hp with rfl | hp
    · exact ⟨true, h.event msg⟩
    · exact ih hp
  | disconnect h ih =>
    rcases List.prefix_concat_iff.1 hp with rfl | hp
    · exact ⟨false, h.disconnect⟩
    · exact ih hp

/-- The law of the trace. -/
structure Lifecycle (t : List Event) : Prop where
  sessions : ∀ v, ∃ o, Sessions v o (calls v t)
  delete_once : ∀ p, t.count (.delete p) ≤ 1
  free_once : ∀ b, t.count (.free b) ≤ 1
  found : ∀ v, .canNotFind v ∉ t

private theorem Lifecycle.of_prefix {t t' : List Event} (h : Lifecycle t) (hp : t' <+: t) : Lifecycle t' where
  sessions v := by
    obtain ⟨o, ho⟩ := h.sessions v
    exact ho.of_prefix (hp.filter _)
  delete_once p := (hp.sublist.count_le _).trans (h.delete_once p)
  free_once b := (hp.sublist.count_le _).trans (h.free_once b)
  found v hv := h.found v (hp.subset hv)

/-! ### The trace and the control -/

/-- What the trace of a serving control says about it. -/
structure Control.Traced (k : Control) : Prop where
  sessions : ∀ v, Sessions v (decide (v ∈ k.AllClients)) (calls v k.trace)
  deletes : ∀ p, k.trace.count (.delete p) = k.bevs.deleted p
  frees : ∀ b, k.trace.count (.free b) = k.bevs.deleted b
  connects : ∀ v, k.trace.countP (Event.isAccept v) = k.trace.count (.HandleConnect v)
  accepts : ∀ v p b, .accept v p b ∈ k.trace → p = b
  found : ∀ v, .canNotFind v ∉ k.trace

private theorem Control.Traced.lifecycle {k : Control} (h : k.Traced) : Lifecycle k.trace where
  sessions v := ⟨_, h.sessions v⟩
  delete_once p := by
    rw [h.deletes]
    exact k.bevs.deleted_le_one p
  free_once b := by
    rw [h.frees]
    exact k.bevs.deleted_le_one b
  found := h.found

theorem World.init_traced (lua : σ) : (World.init lua).control.Traced :=
  ⟨fun _ => .none, fun _ => rfl, fun _ => rfl, fun _ => rfl, fun _ _ _ h => absurd h List.not_mem_nil,
    fun _ => List.not_mem_nil⟩

theorem calls_append (v : UInt32) (t es : List Event) : calls v (t ++ es) = calls v t ++ calls v es :=
  List.filter_append t es

/-- What the events `es` must be to account for the change from `k` to `k'`. -/
private theorem Control.Traced.append {k k' : Control} (h : k.Traced) {es : List Event}
    (ht : k'.trace = k.trace ++ es) (hcalls : ∀ v, Sessions v (decide (v ∈ k.AllClients)) (calls v k.trace) →
      Sessions v (decide (v ∈ k'.AllClients)) (calls v k.trace ++ calls v es))
    (hdeletes : ∀ p, k'.bevs.deleted p = k.bevs.deleted p + es.count (.delete p))
    (hfrees : ∀ b, k'.bevs.deleted b = k.bevs.deleted b + es.count (.free b))
    (hconnects : ∀ v, es.countP (Event.isAccept v) = es.count (.HandleConnect v))
    (haccepts : ∀ v p b, .accept v p b ∈ es → p = b) (hfound : ∀ v, .canNotFind v ∉ es) : k'.Traced where
  sessions v := by
    rw [ht, calls_append]
    exact hcalls v (h.sessions v)
  deletes p := by rw [ht, List.count_append, h.deletes, hdeletes]
  frees b := by rw [ht, List.count_append, h.frees, hfrees]
  connects v := by rw [ht, List.countP_append, List.count_append, h.connects, hconnects]
  accepts v p b hmem := by
    rw [ht, List.mem_append] at hmem
    rcases hmem with hmem | hmem
    · exact h.accepts v p b hmem
    · exact haccepts v p b hmem
  found v hmem := by
    rw [ht, List.mem_append] at hmem
    rcases hmem with hmem | hmem
    · exact h.found v hmem
    · exact hfound v hmem

/-- An event that neither makes nor ends a connection. -/
def Event.isPlain : Event → Bool
  | .HandleEvent _ _ => true
  | .Tick => true
  | .headKick _ => true
  | .bodyKick _ => true
  | _ => false

private theorem kickLine_isPlain (P : Parser) (v : UInt32) : (kickLine P v).isPlain = true := by
  unfold kickLine
  split <;> rfl

private theorem kickLine_ne_HandleEvent (P : Parser) (v u : UInt32) (msg : List UInt8) :
    kickLine P v ≠ .HandleEvent u msg := by
  unfold kickLine
  split <;> exact Event.noConfusion

private theorem count_plain {es : List Event} (hes : ∀ x ∈ es, x.isPlain = true) {x : Event}
    (hx : x.isPlain = false) :
    es.count x = 0 := by
  rw [List.count_eq_zero]
  intro hmem
  rw [hes x hmem] at hx
  cases hx

private theorem Event.eq_of_isPlain_isCall {x : Event} {v : UInt32} (hplain : x.isPlain = true)
    (hcall : x.isCall v = true) :
    ∃ msg, x = .HandleEvent v msg := by
  cases x with
  | HandleEvent u msg =>
    have hu : u = v := beq_iff_eq.1 hcall
    exact ⟨msg, by rw [hu]⟩
  | Tick => cases hcall
  | headKick u => cases hcall
  | bodyKick u => cases hcall
  | _ => cases hplain

private theorem Event.not_isAccept_of_isPlain {x : Event} (hplain : x.isPlain = true) (v : UInt32) :
    ¬ x.isAccept v = true := by
  cases x with
  | accept u p b => cases hplain
  | _ => exact Bool.false_ne_true

/-- Plain events go on with an open session. -/
private theorem Sessions.plain {v : UInt32} {es : List Event} (hes : ∀ x ∈ es, x.isPlain = true) {l : List Event}
    (h : Sessions v true l) : Sessions v true (l ++ calls v es) := by
  induction es generalizing l with
  | nil => simpa [calls] using h
  | cons x es ih =>
    have hes' : ∀ y ∈ es, y.isPlain = true := fun y hy => hes y (List.mem_cons_of_mem _ hy)
    by_cases hx : x.isCall v = true
    · obtain ⟨msg, rfl⟩ := Event.eq_of_isPlain_isCall (hes x List.mem_cons_self) hx
      rw [calls, List.filter_cons_of_pos hx]
      simpa [calls] using ih hes' (h.event msg)
    · rw [calls, List.filter_cons_of_neg hx]
      exact ih hes' h

/-- Plain events, messages being those of registered clients. -/
private theorem Control.Traced.plain {k k' : Control} (h : k.Traced) (es : List Event) (ht : k'.trace = k.trace ++ es)
    (hA : k'.AllClients = k.AllClients) (hd : ∀ p, k'.bevs.deleted p = k.bevs.deleted p)
    (hes : ∀ x ∈ es, x.isPlain = true) (hown : ∀ u msg, .HandleEvent u msg ∈ es → u ∈ k.AllClients) : k'.Traced := by
  refine h.append ht (fun v hs => ?_) (fun p => ?_) (fun b => ?_) (fun v => ?_)
    (fun v p b hmem => ?_) fun v hmem => ?_
  · rw [hA]
    by_cases hv : v ∈ k.AllClients
    · -- the session of `v` is open and goes on
      simp only [hv, decide_true] at hs ⊢
      exact hs.plain hes
    · -- no message can be of `v`
      have hnone : calls v es = [] := by
        rw [calls, List.filter_eq_nil_iff]
        intro x hx hcall
        obtain ⟨msg, rfl⟩ := Event.eq_of_isPlain_isCall (hes x hx) hcall
        exact hv (hown v msg hx)
      rw [hnone, List.append_nil]
      exact hs
  · rw [hd, count_plain hes rfl]
    rfl
  · rw [hd, count_plain hes rfl]
    rfl
  · rw [count_plain hes rfl, List.countP_eq_zero]
    exact fun x hx => Event.not_isAccept_of_isPlain (hes x hx) v
  · exact absurd (hes _ hmem) (by simp [Event.isPlain])
  · exact absurd (hes _ hmem) (by simp [Event.isPlain])

/-- The bodies handled for a registered client, and plain events behind them that are no messages. -/
private theorem Control.Traced.bodies {k k' : Control} (h : k.Traced) {v : UInt32} (hv : v ∈ k.AllClients)
    (msgs : List (List UInt8)) (es : List Event) (ht : k'.trace = k.trace ++ (msgs.map (.HandleEvent v) ++ es))
    (hA : k'.AllClients = k.AllClients) (hd : ∀ p, k'.bevs.deleted p = k.bevs.deleted p)
    (hes : ∀ x ∈ es, x.isPlain = true) (hno : ∀ u msg, .HandleEvent u msg ∉ es) : k'.Traced := by
  refine h.plain _ ht hA hd (fun x hx => ?_) fun u msg hmem => ?_
  · rcases List.mem_append.1 hx with hx | hx
    · obtain ⟨_, -, rfl⟩ := List.mem_map.1 hx
      rfl
    · exact hes x hx
  · rcases List.mem_append.1 hmem with hmem | hmem
    · obtain ⟨_, -, heq⟩ := List.mem_map.1 hmem
      cases heq
      exact hv
    · exact absurd hmem (hno u msg)

private theorem Control.Traced.accept {k : Control} (h : k.Traced) (hnext : k.clients.next = k.bevs.next)
    (hnew : k.globalVfd ∉ k.AllClients) : (k.accept [.HandleConnect k.globalVfd]).Traced := by
  refine h.append rfl (fun v hs => ?_) (fun p => ?_) (fun b => ?_) (fun v => ?_)
    (fun v p b hmem => ?_) fun v hmem => ?_
  · by_cases hv : v = k.globalVfd
    · subst hv
      simp only [hnew, decide_false] at hs
      simpa [calls, Event.isCall, Control.accept, hnew] using hs.connect
    · simpa [calls, Event.isCall, Control.accept, hnew, hv, Ne.symm hv] using hs
  · simp [Control.accept, Heap.deleted_alloc]
  · simp [Control.accept, Heap.deleted_alloc]
  · by_cases hv : k.globalVfd = v
    · simp [Event.isAccept, hv]
    · simp [Event.isAccept, hv]
  · simp only [List.mem_cons, Event.accept.injEq, List.mem_nil_iff, reduceCtorEq, or_false] at hmem
    rw [hmem.2.1, hmem.2.2, hnext]
  · simp at hmem

private theorem Control.Traced.close {k : Control} (h : k.Traced) {v : UInt32} {b : Nat} {e : BevCtl}
    (hv : v ∈ k.AllClients) (hb : k.bevs.cell b = some e) : (k.close v b b (closing v b b)).Traced := by
  refine h.append rfl (fun u hs => ?_) (fun p => ?_) (fun p => ?_) (fun u => ?_)
    (fun u p q hmem => ?_) fun u hmem => ?_
  · by_cases hu : u = v
    · subst hu
      simp only [hv, decide_true] at hs
      simpa [calls, closing, Event.isCall, Control.close] using hs.disconnect
    · simpa [calls, closing, Event.isCall, Control.close, hu, Ne.symm hu] using hs
  · by_cases hp : p = b
    · simp [Control.close, closing, Heap.deleted_free hb, hp]
    · simp [Control.close, closing, Heap.deleted_free hb, hp, Ne.symm hp]
  · by_cases hp : p = b
    · simp [Control.close, closing, Heap.deleted_free hb, hp]
    · simp [Control.close, closing, Heap.deleted_free hb, hp, Ne.symm hp]
  · simp [closing, Event.isAccept]
  · simp [closing] at hmem
  · simp [closing] at hmem

private theorem Control.Traced.next {k : Control} (h : k.Traced) (hk : k.Serving) {cb : Callback τ}
    (hfresh : k.Fresh cb) :
    (k.next cb).Traced := by
  cases cb with
  | accept fd => exact h.accept hk.next_eq (hk.notMem_AllClients hfresh)
  | tick choice => exact h.plain [.Tick] rfl rfl (fun _ => rfl) (by simp [Event.isPlain]) (by simp)
  | event b =>
    cases hb : k.bevs.cell b with
    | none => simpa only [Control.next, hb] using h
    | some e =>
      obtain ⟨c, hc⟩ := hk.served b e hb
      rw [hc.next_event hb]
      exact h.close (Finmap.mem_of_lookup_eq_some hc.registered) hb
  | readable b chunk =>
    cases hb : k.bevs.cell b with
    | none => simpa only [Control.next, hb] using h
    | some e =>
      obtain ⟨c, hc⟩ := hk.served b e hb
      have hv : e.cbarg ∈ k.AllClients := Finmap.mem_of_lookup_eq_some hc.registered
      rw [hc.next_readable hb, Control.afterRead]
      generalize decoder.feedAll c.parser chunk = r
      split
      · refine h.bodies hv r.2 [] ?_ rfl (fun p => Heap.deleted_update _ _ _ p) (by simp) (by simp)
        rw [List.append_nil]
        rfl
      · -- the bodies and the line of the error path, then the removal
        have hplain : (k.emit (r.2.map (.HandleEvent e.cbarg) ++ [kickLine r.1 e.cbarg])).Traced := by
          refine h.bodies hv r.2 [kickLine r.1 e.cbarg] rfl rfl (fun _ => rfl) (fun x hx => ?_) fun u msg hmem => ?_
          · rw [List.mem_singleton.1 hx]
            exact kickLine_isPlain _ _
          · exact kickLine_ne_HandleEvent _ _ _ _ (List.mem_singleton.1 hmem).symm
        have hclose := hplain.close hv hb
        simpa [Control.close, Control.emit] using hclose

/-! ### Runs -/

/-- The law of the trace; between two callbacks each accept has had its `HandleConnect`, and the client of a
connection is deleted if and only if its bufferevent is freed.  No fault but an overflow. -/
def Process.Lifecycle : Process σ → Prop
  | .running w => LibeventServer.Lifecycle w.trace ∧
      (∀ v, w.trace.countP (Event.isAccept v) = w.trace.count (.HandleConnect v)) ∧
      ∀ v p b, .accept v p b ∈ w.trace → w.trace.count (.delete p) = w.trace.count (.free b)
  | .crashed f w => f = .overflow ∧ LibeventServer.Lifecycle w.trace

/-- The invariant of runs whose live connections have distinct ids. -/
def Process.Traced : Process σ → Prop
  | .running w => w.control.Serving ∧ w.control.Traced
  | .crashed f w => f = .overflow ∧ LibeventServer.Lifecycle w.trace

private theorem Process.Traced.lifecycle {s : Process σ} (h : s.Traced) : s.Lifecycle := by
  cases s with
  | crashed f w => exact h
  | running w =>
    obtain ⟨-, ht⟩ := h
    refine ⟨ht.lifecycle, ht.connects, fun v p b hacc => ?_⟩
    rw [ht.accepts v p b hacc]
    exact (ht.deletes b).trans (ht.frees b).symm

theorem Process.step_traced {s : Process σ} (h : s.Traced) (cb : Callback τ) (hd : (Process.step S s cb).Distinct) :
    (Process.step S s cb).Traced := by
  cases s with
  | crashed f w => exact h
  | running w =>
    obtain ⟨hs, ht⟩ := h
    have hserving : (Process.running w).Serving := hs
    have hfresh : w.control.Fresh cb := Process.fresh_of_distinct hserving cb hd
    have hnext := ht.next hs hfresh
    rcases Process.step_running (S := S) hs.valid cb with ⟨w', h, hk⟩ | ⟨w', h, hp, -⟩
    · rw [h]
      refine ⟨?_, ?_⟩
      · rw [hk]
        exact hs.next hfresh
      · rw [hk]
        exact hnext
    · rw [h]
      exact ⟨rfl, hnext.lifecycle.of_prefix hp⟩

/-- In a run in which no two live connections share an id, connections live their lifecycle. -/
theorem lifecycle_of_distinct (S : Scripts σ τ) (lua : σ) (cbs : List (Callback τ))
    (h : Always (Process.step S) Process.Distinct (.running (World.init lua)) cbs) :
    (run (Process.step S) (.running (World.init lua)) cbs).Lifecycle := by
  have htraced : (Process.running (World.init lua)).Traced := ⟨World.init_serving lua, World.init_traced lua⟩
  have hrun : (run (Process.step S) (.running (World.init lua)) cbs).Traced := by
    refine Always.run_invariant (Q := Process.Traced) ?_ htraced h
    exact fun s cb hs hd => Process.step_traced hs cb hd
  exact hrun.lifecycle

private theorem Process.FirstLive.event {s : Process σ} {w : World σ} {i : Nat} {g : UInt32} (h : s.FirstLive w i g)
    (hreads : S.QuietReads) :
    ∃ w', Process.step S s (.event 0) = .running w' ∧ w'.control.Serving ∧ (∀ b, w'.control.bevs.cell b = none) ∧
      w'.globalVfd = g ∧ .HandleConnect 1 ∈ w'.trace := by
  obtain ⟨e, he, hv⟩ := h.first
  obtain ⟨c, hc⟩ := h.serving.served 0 e he
  obtain ⟨w', h', hk⟩ := Process.step_quiet (S := S) h.serving.valid (.event 0) hreads trivial
  rw [hc.next_event he] at hk
  rw [h.running]
  refine ⟨w', h', ?_, ?_, ?_, ?_⟩
  · rw [hk]
    exact h.serving.close he _
  · intro b
    rw [hk]
    by_cases hb : b = 0
    · subst hb
      simp [Control.close]
    · rw [Control.close, Heap.free_cell_of_ne _ hb]
      by_contra hne
      obtain ⟨e', he'⟩ := Option.ne_none_iff_exists'.1 hne
      exact hb (h.only b e' he')
  · exact (congrArg Control.globalVfd hk).trans h.globalVfd
  · rw [show w'.trace = _ from congrArg Control.trace hk]
    exact List.mem_append_left _ h.connected

/-- Two connections are accepted, and the second is closed. -/
theorem lifecycle_two_connections :
    (run (Process.step (Lua.mainScripts Lua.Host.raising)) (.running (World.init (Lua.State.init : Lua.State ℝ)))
      [.accept 0, .accept 0, .event 1]).Lifecycle := by
  obtain ⟨hdistinct, -⟩ := Process.firstLive_two (S := Lua.mainScripts Lua.Host.raising) (fun _ _ => trivial)
    (Lua.mainScripts_quietReads _) (Lua.State.init : Lua.State ℝ)
  exact lifecycle_of_distinct _ _ _ hdistinct

/-! ### An id that is used again -/

/-- No calls, or one session. -/
def OneSession (v : UInt32) (l : List Event) : Prop :=
  l = [] ∨ ∃ msgs : List (List UInt8), l = .HandleConnect v :: msgs.map (.HandleEvent v) ∨
    l = .HandleConnect v :: (msgs.map (.HandleEvent v) ++ [.HandleDisConnect v])

private theorem OneSession.count_le {v : UInt32} {l : List Event} (h : OneSession v l) :
    l.count (.HandleConnect v) ≤ 1 := by
  have hmsgs : ∀ msgs : List (List UInt8), (msgs.map (Event.HandleEvent v)).count (.HandleConnect v) = 0 := by
    intro msgs
    rw [List.count_eq_zero]
    simp
  rcases h with rfl | ⟨msgs, rfl | rfl⟩
  · simp
  · simp [hmsgs]
  · simp [hmsgs]

private theorem wrap_event_accept {n : Nat} (hn : n = 2 ^ 32 - 1) (hconnect : ∀ v lua, (S.HandleConnect v lua).Quiet)
    (hreads : S.QuietReads) (lua : σ) :
    Always (Process.step S) Process.Distinct (.running (World.init lua)) (wrap τ n ++ [.event 0, .accept 0]) ∧
      ¬ OneSession 1 (calls 1
        (run (Process.step S) (.running (World.init lua)) (wrap τ n ++ [.event 0, .accept 0])).world.trace) := by
  obtain ⟨hall, w, i, h⟩ := Process.firstLive_wrap (τ := τ) hn hconnect hreads lua
  obtain ⟨w₁, h₁, hs₁, hnone, hv₁, hmem⟩ := h.event hreads
  obtain ⟨w₂, h₂, hk₂⟩ := Process.step_quiet (S := S) hs₁.valid (.accept 0) hconnect trivial
  have hfresh : w₁.control.FreshId := by
    intro b e hb
    rw [hnone b] at hb
    cases hb
  have hs₂ : w₂.control.Serving := by
    rw [hk₂]
    exact hs₁.accept hfresh _
  refine ⟨hall.append ?_, ?_⟩
  · refine ⟨?_, ?_, ?_⟩
    · rw [h.running]
      exact h.serving.distinct
    · rw [h₁]
      exact hs₁.distinct
    · show Process.Distinct (Process.step S (Process.step S _ (.event 0)) (.accept 0))
      rw [h₁, h₂]
      exact hs₂.distinct
  · intro hone
    -- in one session there is one `HandleConnect`, and here there are two for the id
    have hle := hone.count_le
    rw [run_append, run_cons, h₁, run_cons, h₂, run_nil, calls, List.count_filter (by simp [Event.isCall])] at hle
    have ht₂ : w₂.trace = w₁.trace ++ [.accept w₁.globalVfd w₁.clients.next w₁.bevs.next,
        .HandleConnect w₁.globalVfd] := congrArg Control.trace hk₂
    have hpos := List.count_pos_iff.2 hmem
    simp only [Process.world, ht₂, List.count_append, hv₁] at hle
    simp at hle
    omega

/-- The first connection is closed when the counter has come round, and the next accept uses its id again. -/
theorem reused_not_one_session :
    Always (Process.step (Lua.mainScripts Lua.Host.raising)) Process.Distinct
        (.running (World.init (Lua.State.init : Lua.State ℝ))) (wrap _ (2 ^ 32 - 1) ++ [.event 0, .accept 0]) ∧
      ¬ OneSession 1 (calls 1 (run (Process.step (Lua.mainScripts Lua.Host.raising))
        (.running (World.init (Lua.State.init : Lua.State ℝ)))
        (wrap _ (2 ^ 32 - 1) ++ [.event 0, .accept 0])).world.trace) :=
  wrap_event_accept (S := Lua.mainScripts Lua.Host.raising) rfl (fun _ _ => trivial) (Lua.mainScripts_quietReads _)
    (Lua.State.init : Lua.State ℝ)

end LibeventServer

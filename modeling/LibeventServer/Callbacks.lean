import LibeventServer.ReadLoop

/-!
# Callbacks as steps of the control

`Control.next` is a callback without Lua code: a function from control to control.  `callback_outcome`: a callback of
the server leaves that control, whatever the Lua handlers do, or stops at an overflow on the way.

This holds in every `Valid` control; `Control.Valid.next`: every callback leads from a valid control to a valid one.
-/

namespace LibeventServer

variable {σ τ : Type} {S : Scripts σ τ}

/-- Registered clients are live with their bufferevents, and every live reader has a status the loop knows. -/
structure Control.Valid (k : Control) : Prop where
  sound : k.Sound
  status : ∀ p c, k.clients.cell p = some c → c.StatusOk

/-- A connection was accepted.  A taken id keeps its old entry. -/
def Control.accept (k : Control) (es : List Event) : Control where
  globalVfd := k.globalVfd + 1
  AllClients :=
    if k.globalVfd ∈ k.AllClients then k.AllClients else k.AllClients.insert k.globalVfd k.clients.next
  clients := k.clients.alloc ⟨k.bevs.next, k.globalVfd, header_length, StatusReadHeader⟩
  bevs := k.bevs.alloc ⟨k.globalVfd, []⟩
  trace := k.trace ++ .accept k.globalVfd k.clients.next k.bevs.next :: es

/-- A bufferevent without a registered client is freed. -/
def Control.drop (k : Control) (b : Nat) (es : List Event) : Control :=
  { k with bevs := k.bevs.free b, trace := k.trace ++ es }

/-- The control after a callback. -/
def Control.next (k : Control) : Callback τ → Control
  | .accept _ => k.accept [.HandleConnect k.globalVfd]
  | .readable b chunk =>
    match k.bevs.cell b with
    | none => k
    | some e =>
      match k.AllClients.lookup e.cbarg with
      | none => k.drop b [.canNotFind e.cbarg, .free b]
      | some p =>
        match k.clients.cell p with
        | none => k
        | some c => k.afterRead e.cbarg p b c.parser (e.input ++ chunk)
  | .event b =>
    match k.bevs.cell b with
    | none => k
    | some e =>
      match k.AllClients.lookup e.cbarg with
      | none => k.drop b [.free b]
      | some p => k.close e.cbarg p b (closing e.cbarg p b)
  | .tick _ => k.emit [.Tick]

/-- Every length a callback announces to the client that reads fits `read_msg`. -/
def Control.Fits (k : Control) : Callback τ → Prop
  | .readable b chunk => ∀ e p c, k.bevs.cell b = some e → k.AllClients.lookup e.cbarg = some p →
      k.clients.cell p = some c → LengthsFit c.parser (e.input ++ chunk)
  | _ => True

/-- The handlers a callback calls do not send. -/
def Scripts.QuietAt (S : Scripts σ τ) : Callback τ → Prop
  | .accept _ => ∀ v lua, (S.HandleConnect v lua).Quiet
  | .tick choice => ∀ lua, (S.Tick choice lua).Quiet
  | _ => S.QuietReads

/-! ### Soundness is kept -/

private theorem Control.Sound.accept {k : Control} (hk : k.Sound) (es : List Event) : (k.accept es).Sound := by
  intro v p hv
  by_cases hold : k.AllClients.lookup v = some p
  · obtain ⟨c, e, hc, hcv, he, hev⟩ := hk v p hold
    exact ⟨c, e, Heap.alloc_cell_of_some _ hc, hcv, Heap.alloc_cell_of_some _ he, hev⟩
  · -- the entry just made
    simp only [Control.accept] at hv
    split at hv
    · exact absurd hv hold
    · by_cases hne : v = k.globalVfd
      · subst hne
        rw [Finmap.lookup_insert, Option.some.injEq] at hv
        subst hv
        exact ⟨_, _, Heap.alloc_cell_self _ _, rfl, Heap.alloc_cell_self _ _, rfl⟩
      · rw [Finmap.lookup_insert_of_ne _ hne] at hv
        exact absurd hv hold

/-- Another id's client and bufferevent are not those of `v`. -/
private theorem Control.Sound.close {k : Control} (hk : k.Sound) {v : UInt32} {p b : Nat} {e : BevCtl}
    (hv : k.AllClients.lookup v = some p) (hb : k.bevs.cell b = some e) (he : e.cbarg = v) (es : List Event) :
    (k.close v p b es).Sound := by
  intro v' q hq
  have hne : v' ≠ v := by
    rintro rfl
    simp [Control.close] at hq
  obtain ⟨c', e', hc', hcv', he', hev'⟩ := hk v' q (by simpa [Control.close, Finmap.lookup_erase_ne hne] using hq)
  obtain ⟨c, -, hc, hcv, -⟩ := hk v p hv
  have hqp : q ≠ p := by
    rintro rfl
    rw [hc] at hc'
    cases hc'
    exact hne (hcv'.symm.trans hcv)
  have hbb : c'.bev ≠ b := by
    intro hbb
    rw [hbb, hb] at he'
    cases he'
    exact hne (hev'.symm.trans he)
  exact ⟨c', e', (Heap.free_cell_of_ne _ hqp).trans hc', hcv', (Heap.free_cell_of_ne _ hbb).trans he', hev'⟩

private theorem Control.Sound.drop {k : Control} (hk : k.Sound) {b : Nat} {e : BevCtl} (hb : k.bevs.cell b = some e)
    (hv : k.AllClients.lookup e.cbarg = none) (es : List Event) : (k.drop b es).Sound := by
  intro v q hq
  obtain ⟨c, e', hc, hcv, he', hev'⟩ := hk v q hq
  have hbb : c.bev ≠ b := by
    intro hbb
    rw [hbb, hb] at he'
    cases he'
    rw [hev'] at hv
    exact absurd (hq.symm.trans hv) (by simp)
  exact ⟨c, e', hc, hcv, (Heap.free_cell_of_ne _ hbb).trans he', hev'⟩

theorem Parser.status_ok (P : Parser) : P.status = StatusReadHeader ∨ P.status = StatusReadbody := by
  unfold status
  split
  · exact Or.inr rfl
  · exact Or.inl rfl

private theorem Control.Sound.afterRead {k : Control} (hk : k.Sound) {v : UInt32} {p b : Nat} {e : BevCtl}
    (hv : k.AllClients.lookup v = some p) (hb : k.bevs.cell b = some e) (he : e.cbarg = v) (P : Parser)
    (bs : List UInt8) : (k.afterRead v p b P bs).Sound := by
  unfold Control.afterRead
  split
  · exact hk.reader _ _ _ _ _
  · exact hk.close hv hb he _

private theorem Control.Sound.next {k : Control} (hk : k.Sound) (cb : Callback τ) : (k.next cb).Sound := by
  cases cb with
  | accept fd => exact hk.accept _
  | tick choice => exact hk
  | event b =>
    simp only [Control.next]
    split
    · exact hk
    · rename_i e hb
      split
      · rename_i hv
        exact hk.drop hb hv _
      · rename_i p hv
        exact hk.close hv hb rfl _
  | readable b chunk =>
    simp only [Control.next]
    split
    · exact hk
    · rename_i e hb
      split
      · rename_i hv
        exact hk.drop hb hv _
      · rename_i p hv
        split
        · exact hk
        · exact hk.afterRead hv hb rfl _ _

private theorem Control.afterRead_clients {k : Control} {Q : ClientCtl → Prop} {v : UInt32} {p b : Nat}
    {c₀ : ClientCtl}
    {P : Parser} {bs : List UInt8} (h : ∀ p c, k.clients.cell p = some c → Q c) (hc₀ : k.clients.cell p = some c₀)
    (hread : (decoder.feedAll P bs).1.clean = true → Q { c₀ with
      m_needByteCnt := (decoder.feedAll P bs).1.need
      m_readStatus := (decoder.feedAll P bs).1.status }) :
    ∀ q c, (k.afterRead v p b P bs).clients.cell q = some c → Q c := by
  intro q c hc
  unfold Control.afterRead at hc
  split at hc
  · rename_i hclean
    by_cases hq : q = p
    · subst hq
      simp only [Control.reader, Heap.update_cell_self, hc₀, Option.map_some, Option.some.injEq] at hc
      subst hc
      exact hread hclean
    · exact h q c ((Heap.update_cell_of_ne _ _ hq).symm.trans hc)
  · exact h q c (Heap.cell_of_free hc).2

/-- A property of all clients is kept by a callback if new clients have it and the client that reads keeps it. -/
theorem Control.next_clients {k : Control} {Q : ClientCtl → Prop} (cb : Callback τ)
    (h : ∀ p c, k.clients.cell p = some c → Q c) (hnew : ∀ b v, Q ⟨b, v, header_length, StatusReadHeader⟩)
    (hread : ∀ b chunk e p c, cb = .readable b chunk → k.bevs.cell b = some e → k.AllClients.lookup e.cbarg = some p →
      k.clients.cell p = some c → (decoder.feedAll c.parser (e.input ++ chunk)).1.clean = true →
      Q { c with
        m_needByteCnt := (decoder.feedAll c.parser (e.input ++ chunk)).1.need
        m_readStatus := (decoder.feedAll c.parser (e.input ++ chunk)).1.status }) :
    ∀ p c, (k.next cb).clients.cell p = some c → Q c := by
  intro q c hc
  cases cb with
  | tick choice => exact h q c hc
  | accept fd =>
    rcases Heap.cell_of_alloc hc with ⟨-, rfl⟩ | hc
    · exact hnew _ _
    · exact h q c hc
  | event b =>
    simp only [Control.next] at hc
    split at hc
    · exact h q c hc
    · split at hc
      · exact h q c hc
      · exact h q c (Heap.cell_of_free hc).2
  | readable b chunk =>
    simp only [Control.next] at hc
    split at hc
    · exact h q c hc
    · rename_i e hb
      split at hc
      · exact h q c hc
      · rename_i p hv
        split at hc
        · exact h q c hc
        · rename_i c₀ hc₀
          exact Control.afterRead_clients h hc₀ (hread b chunk e p c₀ rfl hb hv hc₀) q c hc

theorem Control.Valid.next {k : Control} (hk : k.Valid) (cb : Callback τ) : (k.next cb).Valid where
  sound := hk.sound.next cb
  status := Control.next_clients cb hk.status (fun _ _ => Or.inl rfl) fun _ _ _ _ _ _ _ _ _ _ => Parser.status_ok _

/-! ### Callbacks of the server -/

private theorem Control.afterRead_setInput (k : Control) (v : UInt32) (p b : Nat) (P : Parser) (i bs : List UInt8) :
    (k.setInput b i).afterRead v p b P bs = k.afterRead v p b P bs := by
  unfold afterRead
  split
  · simp only [setInput, reader, Heap.update_update]
    rfl
  · rw [close_setInput]

theorem control_readable (w : World σ) {b : Nat} {e : Bufferevent} (he : w.bevs.cell b = some e)
    (chunk : List UInt8) :
    World.control { w with bevs := w.bevs.update b fun e => { e with input := e.input ++ chunk } } =
      w.control.setInput b (e.input ++ chunk) := by
  refine Control.ext rfl rfl rfl (Heap.map_update _ _ _ ?_) rfl
  intro e' he'
  rw [he] at he'
  cases he'
  rfl

private theorem mem_of_asked_eq {w w' : World σ} (h : w'.asked = w.asked) :
    ∀ k ∈ w'.asked, k ∈ w.asked ∨ k ≤ sizeof_msg := fun _ hk => Or.inl (h ▸ hk)

/-- `listener_cb` leaves the accepted connection registered, unless its id was taken, also when `HandleConnect`
overflows. -/
theorem listener_cb_control {w : World σ} (hw : w.control.Sound) (fd : Int32) :
    (∃ w', listener_cb S fd w = .ok () w' ∧ w'.asked = w.asked ∧
      w'.control = w.control.accept [.HandleConnect w.globalVfd]) ∨
    (∃ w', listener_cb S fd w = .error .overflow w' ∧ w'.asked = w.asked ∧
      w'.control = w.control.accept [.HandleConnect w.globalVfd] ∧
      ¬ ∀ v lua, (S.HandleConnect v lua).Quiet) := by
  obtain ⟨w₁, hw₁⟩ : ∃ w₁ : World σ, w₁ = { w with
      globalVfd := w.globalVfd + 1
      bevs := w.bevs.alloc { cbarg := w.globalVfd, input := [], output := [] }
      clients := w.clients.alloc (.new fd w.globalVfd w.bevs.next)
      AllClients := if w.globalVfd ∈ w.AllClients then w.AllClients
        else w.AllClients.insert w.globalVfd w.clients.next
      trace := w.trace ++ [.accept w.globalVfd w.clients.next w.bevs.next] } := ⟨_, rfl⟩
  have hk₁ : w₁.control = w.control.accept [] := by
    subst hw₁
    exact Control.ext rfl rfl (Heap.map_alloc _ _ _) (Heap.map_alloc _ _ _) rfl
  have hs₁ : w₁.control.Sound := by
    rw [hk₁]
    exact hw.accept []
  have hemit : (w.control.accept []).emit [.HandleConnect w.globalVfd] =
      w.control.accept [.HandleConnect w.globalVfd] := by
    simp [Control.emit, Control.accept]
  have hcb : listener_cb S fd w = callLua (.HandleConnect w.globalVfd) (S.HandleConnect w.globalVfd) w₁ := by
    rw [hw₁]
    rfl
  have ha₁ : w₁.asked = w.asked := by rw [hw₁]
  rcases callLua_control hs₁ (.HandleConnect w.globalVfd) (S.HandleConnect w.globalVfd) with
    ⟨w', h, hk, ha⟩ | ⟨w', h, hk, ha, hq⟩
  · exact Or.inl ⟨w', hcb.trans h, ha.trans ha₁, by rw [hk, hk₁, hemit]⟩
  · exact Or.inr ⟨w', hcb.trans h, ha.trans ha₁, by rw [hk, hk₁, hemit], fun hall => hq (hall _ _)⟩

private theorem event_outcome {w : World σ} (hw : w.control.Valid) {b : Nat} {e : Bufferevent}
    (hb : w.bevs.cell b = some e) :
    Outcome w (w.control.next (.event b : Callback τ)) S.QuietReads True (socket_event_cb S b e.cbarg w) := by
  have hb' : w.control.bevs.cell b = some e.ctl := by simp [World.control, hb]
  simp only [Control.next, hb']
  cases hv : w.AllClients.lookup e.cbarg with
  | none =>
    -- `eraseClient` finds nothing to erase
    have hv' : w.control.AllClients.lookup e.ctl.cbarg = none := hv
    have herase : eraseClient S e.cbarg.toInt32 w = .ok () w := by
      unfold eraseClient
      rw [EStateM.bind_ok (queryClient_toInt32 _ w), hv]
      rfl
    simp only [hv']
    unfold socket_event_cb
    rw [EStateM.bind_ok herase]
    simp only [bufferevent_free, hb]
    exact .of_ok (Control.ext rfl rfl rfl (Heap.map_free _ _ _) rfl) fun _ => mem_of_asked_eq rfl
  | some p =>
    have hv' : w.control.AllClients.lookup e.ctl.cbarg = some p := hv
    simp only [hv']
    exact socket_event_cb_outcome hw.sound hv hb'

/-- `socket_read_cb` of a bufferevent whose client is not registered. -/
private theorem readable_outcome_of_none {w w₁ : World σ} {b : Nat} {e e₁ : Bufferevent} {i : List UInt8}
    (hb : w.bevs.cell b = some e) (hv : w.AllClients.lookup e.cbarg = none) (ha₁ : w₁.asked = w.asked)
    (hk₁ : w₁.control = w.control.setInput b i) (hb₁ : w₁.bevs.cell b = some e₁) (chunk : List UInt8)
    (safe fits : Prop) :
    Outcome w (w.control.next (.readable b chunk : Callback τ)) safe fits (socket_read_cb S b e.cbarg w₁) := by
  have hb' : w.control.bevs.cell b = some e.ctl := by simp [World.control, hb]
  have hv' : w.control.AllClients.lookup e.ctl.cbarg = none := hv
  have hv₁ : w₁.AllClients.lookup e.cbarg = none := (congrArg (fun k => k.AllClients.lookup e.cbarg) hk₁).trans hv
  have hdrop : w₁.control.drop b [.canNotFind e.cbarg, .free b] =
      w.control.drop b [.canNotFind e.cbarg, .free b] := by
    rw [hk₁]
    simp only [Control.drop, Control.setInput, Heap.free_update]
  simp only [Control.next, hb', hv']
  unfold socket_read_cb
  rw [EStateM.bind_ok (queryClient_toInt32 _ w₁), hv₁]
  simp only
  rw [EStateM.bind_ok (m := emit _) rfl]
  simp only [bufferevent_free, hb₁]
  refine .of_ok ?_ fun _ => mem_of_asked_eq ha₁
  rw [show e.ctl.cbarg = e.cbarg from rfl, ← hdrop]
  exact Control.ext rfl rfl rfl (Heap.map_free _ _ _) (by simp [World.control, Control.drop])

private theorem readable_outcome {w : World σ} (hw : w.control.Valid) {b : Nat} {e : Bufferevent}
    (hb : w.bevs.cell b = some e) (chunk : List UInt8) :
    Outcome w (w.control.next (.readable b chunk : Callback τ))
      (S.QuietReads ∧ w.control.Fits (.readable b chunk : Callback τ))
      (w.control.Fits (.readable b chunk : Callback τ))
      (socket_read_cb S b e.cbarg
        { w with bevs := w.bevs.update b fun e => { e with input := e.input ++ chunk } }) := by
  obtain ⟨w₁, hw₁⟩ : ∃ w₁ : World σ, w₁ =
    { w with bevs := w.bevs.update b fun e => { e with input := e.input ++ chunk } } := ⟨_, rfl⟩
  have hb' : w.control.bevs.cell b = some e.ctl := by simp [World.control, hb]
  have hk₁ : w₁.control = w.control.setInput b (e.input ++ chunk) := by
    rw [hw₁]
    exact control_readable w hb chunk
  have ha₁ : w₁.asked = w.asked := by rw [hw₁]
  rw [← hw₁]
  cases hv : w.AllClients.lookup e.cbarg with
  | none =>
    have hb₁ : w₁.bevs.cell b = some { e with input := e.input ++ chunk } := by
      rw [hw₁]
      simp [hb]
    exact readable_outcome_of_none hb hv ha₁ hk₁ hb₁ chunk _ _
  | some p =>
    have hv' : w.control.AllClients.lookup e.ctl.cbarg = some p := hv
    obtain ⟨c, -, hc, -⟩ := hw.sound _ _ hv'
    have hattached : Attached w₁ e.cbarg p b c { e.ctl with input := e.input ++ chunk } := by
      refine ⟨?_, ?_, ?_, ?_⟩
      · rw [hk₁]
        exact hw.sound.setInput b _
      · rw [hw₁]
        exact hv
      · rw [hk₁]
        exact hc
      · rw [hk₁]
        simp [Control.setInput, hb']
    -- the read callback starts with the bytes in the input already
    have h := socket_read_cb_outcome (S := S) hattached (hw.status p c hc)
    rw [hk₁, Control.afterRead_setInput] at h
    simp only [Control.next, hb', hv', hc]
    refine h.after ?_ ?_ fun _ => mem_of_asked_eq ha₁
    · intro hs
      exact ⟨hs.1, hs.2 e.ctl p c hb' hv' hc⟩
    · intro hf
      exact hf e.ctl p c hb' hv' hc

/-- A callback from a valid control leaves the next control. -/
theorem callback_outcome {w : World σ} (hw : w.control.Valid) (cb : Callback τ) :
    Outcome w (w.control.next cb) (S.QuietAt cb ∧ w.control.Fits cb) (w.control.Fits cb) (callback S cb w) := by
  cases cb with
  | accept fd =>
    rcases listener_cb_control (S := S) hw.sound fd with ⟨w', h, ha, hk⟩ | ⟨w', h, ha, hk, hq⟩
    · rw [show callback S (.accept fd) w = _ from h]
      exact .of_ok hk fun _ => mem_of_asked_eq ha
    · rw [show callback S (.accept fd) w = _ from h]
      refine .of_overflow ?_ (fun hs => hq hs.1) fun _ => mem_of_asked_eq ha
      rw [show w'.trace = _ from congrArg Control.trace hk]
      exact List.prefix_rfl
  | tick choice =>
    rcases callLua_control hw.sound .Tick (S.Tick choice) with ⟨w', h, hk, ha⟩ | ⟨w', h, hk, ha, hq⟩
    · rw [show callback S (.tick choice) w = _ from h]
      exact .of_ok hk fun _ => mem_of_asked_eq ha
    · rw [show callback S (.tick choice) w = _ from h]
      refine .of_overflow ?_ (fun hs => hq (hs.1 _)) fun _ => mem_of_asked_eq ha
      rw [show w'.trace = _ from congrArg Control.trace hk]
      exact List.prefix_rfl
  | event b =>
    simp only [callback]
    cases hb : w.bevs.cell b with
    | none =>
      have hb' : w.control.bevs.cell b = none := by simp [World.control, hb]
      exact .of_ok (by simp only [Control.next, hb']) fun _ => mem_of_asked_eq rfl
    | some e =>
      exact (event_outcome hw hb).after (fun hs => hs.1) (fun _ => trivial) fun _ => mem_of_asked_eq rfl
  | readable b chunk =>
    simp only [callback]
    cases hb : w.bevs.cell b with
    | none =>
      have hb' : w.control.bevs.cell b = none := by simp [World.control, hb]
      exact .of_ok (by simp only [Control.next, hb']) fun _ => mem_of_asked_eq rfl
    | some e => exact readable_outcome hw hb chunk

/-! ### Runs -/

/-- A running process has a valid control. -/
def Process.Valid : Process σ → Prop
  | .running w => w.control.Valid
  | .crashed _ _ => True

@[simp] theorem World.init_bevs (lua : σ) (b : Nat) : (World.init lua).control.bevs.cell b = none := rfl

@[simp] theorem World.init_clients (lua : σ) (p : Nat) : (World.init lua).control.clients.cell p = none := rfl

theorem World.init_valid (lua : σ) : (World.init lua).control.Valid where
  sound := by
    intro v p hv
    exact absurd hv (by simp [World.init, World.control])
  status := by
    intro p c hc
    exact absurd hc (by simp)

/-- One step of a process: it leaves the next control or crashes at an overflow. -/
theorem Process.step_running {w : World σ} (hw : w.control.Valid) (cb : Callback τ) :
    (∃ w', Process.step S (.running w) cb = .running w' ∧ w'.control = w.control.next cb) ∨
    (∃ w', Process.step S (.running w) cb = .crashed .overflow w' ∧ w'.trace <+: (w.control.next cb).trace ∧
      ¬ (S.QuietAt cb ∧ w.control.Fits cb)) := by
  have h := callback_outcome (S := S) hw cb
  cases hr : callback S cb w with
  | ok u w' => exact Or.inl ⟨w', by simp [Process.step, hr, Process.ofResult], h.ok w' hr⟩
  | error f w' =>
    obtain ⟨rfl, ht, hs⟩ := h.error f w' hr
    exact Or.inr ⟨w', by simp [Process.step, hr, Process.ofResult], ht, hs⟩

/-- A process that calls only handlers that do not send, on lengths that fit, goes on. -/
theorem Process.step_quiet {w : World σ} (hw : w.control.Valid) (cb : Callback τ) (hq : S.QuietAt cb)
    (hf : w.control.Fits cb) :
    ∃ w', Process.step S (.running w) cb = .running w' ∧ w'.control = w.control.next cb := by
  rcases Process.step_running (S := S) hw cb with h | ⟨w', -, -, hbad⟩
  · exact h
  · exact absurd ⟨hq, hf⟩ hbad

/-- A condition on the control of a running process. -/
def Process.Running (P : Control → Prop) : Process σ → Prop
  | .running w => P w.control
  | .crashed _ _ => True

/-- What holds of the next control holds after the step, if the process goes on. -/
theorem Process.step_of_next {P : Control → Prop} {w : World σ} (hw : w.control.Valid) {cb : Callback τ}
    (hnext : P (w.control.next cb)) : (Process.step S (.running w) cb).Running P := by
  rcases Process.step_running (S := S) hw cb with ⟨w', h, hk⟩ | ⟨w', h, -⟩
  · rw [h]
    show P w'.control
    rw [hk]
    exact hnext
  · rw [h]
    trivial

theorem Process.step_valid {s : Process σ} (hs : s.Valid) (cb : Callback τ) : (Process.step S s cb).Valid := by
  cases s with
  | crashed f w => trivial
  | running w =>
    have hnext := Process.step_of_next (S := S) hs (Control.Valid.next hs cb)
    cases h : Process.step S (.running w) cb with
    | crashed f w' => trivial
    | running w' =>
      rw [h] at hnext
      exact hnext

end LibeventServer

import LibeventServer.Control

/-!
# The read loop decodes

`socket_read_cb_outcome`: called for a registered client, the callback feeds the buffered bytes to the decoder of the
frame format, dispatches the bodies the decoder emits, and keeps the connection exactly when the decoder ends clean;
otherwise it removes the client and frees the bufferevent (`Control.afterRead`).  The loop does not hang, and it stops
at no fault but an overflow: of `read_msg`, when a length that does not fit was announced, or of a `write_msg`, in a
handler that sends.
-/

namespace LibeventServer

variable {σ τ : Type} {S : Scripts σ τ}

/-! ### Readers as decoders -/

/-- The reader status for a state of the decoder. -/
def Parser.status (P : Parser) : UInt8 := if P.inBody then StatusReadbody else StatusReadHeader

/-- The state of the decoder in which a reader is between two turns of the loop. -/
def ClientCtl.parser (c : ClientCtl) : Parser := ⟨c.m_readStatus == StatusReadbody, c.m_needByteCnt, []⟩

/-- The status is one of the two the loop knows. -/
def ClientCtl.StatusOk (c : ClientCtl) : Prop :=
  c.m_readStatus = StatusReadHeader ∨ c.m_readStatus = StatusReadbody

/-- Every length announced to the decoder, from the one it holds to the last in `bs`, fits `read_msg`. -/
def LengthsFit (P : Parser) (bs : List UInt8) : Prop :=
  ∀ pre ∈ bs.inits, (decoder.feedAll P pre).1.need ≤ sizeof_msg

instance (P : Parser) (bs : List UInt8) : Decidable (LengthsFit P bs) :=
  inferInstanceAs (Decidable (∀ pre ∈ bs.inits, (decoder.feedAll P pre).1.need ≤ sizeof_msg))

/-- The handlers the read loop calls do not send. -/
structure Scripts.QuietReads (S : Scripts σ τ) : Prop where
  event : ∀ v msg lua, (S.HandleEvent v msg lua).Quiet
  disconnect : ∀ v lua, (S.HandleDisConnect v lua).Quiet

/-- The reader of client `p` reaches `P`, the input of `b` is now `input`, and `es` happened. -/
def Control.reader (k : Control) (p b : Nat) (P : Parser) (input : List UInt8) (es : List Event) : Control :=
  { k with
    clients := k.clients.update p fun c => { c with m_needByteCnt := P.need, m_readStatus := P.status }
    bevs := k.bevs.update b fun e => { e with input := input }
    trace := k.trace ++ es }

/-- The connection `v` with client `p` and bufferevent `b` is gone, and `es` happened. -/
def Control.close (k : Control) (v : UInt32) (p b : Nat) (es : List Event) : Control :=
  { k with
    AllClients := k.AllClients.erase v
    clients := k.clients.free p
    bevs := k.bevs.free b
    trace := k.trace ++ es }

/-- What `eraseClient` and `bufferevent_free` leave in the trace. -/
def closing (v : UInt32) (p b : Nat) : List Event := [.HandleDisConnect v, .delete p, .free b]

/-- The line printed when the bytes end in the middle of a header or of a body. -/
def kickLine (P : Parser) (v : UInt32) : Event := if P.inBody then .bodyKick v else .headKick v

/-- The control after the callback read `bs` from state `P`. -/
def Control.afterRead (k : Control) (v : UInt32) (p b : Nat) (P : Parser) (bs : List UInt8) : Control :=
  if (decoder.feedAll P bs).1.clean then
    k.reader p b (decoder.feedAll P bs).1 [] ((decoder.feedAll P bs).2.map (.HandleEvent v))
  else
    k.close v p b ((decoder.feedAll P bs).2.map (.HandleEvent v) ++
      kickLine (decoder.feedAll P bs).1 v :: closing v p b)

private theorem Control.reader_reader (k : Control) (p b : Nat) (P P' : Parser) (i i' : List UInt8)
    (es es' : List Event) :
    (k.reader p b P i es).reader p b P' i' es' = k.reader p b P' i' (es ++ es') := by
  simp only [reader, Heap.update_update, List.append_assoc]
  rfl

private theorem Control.close_reader (k : Control) (v : UInt32) (p b : Nat) (P : Parser) (i : List UInt8)
    (es es' : List Event) : (k.reader p b P i es).close v p b es' = k.close v p b (es ++ es') := by
  simp only [reader, close, Heap.free_update, List.append_assoc]

/-- Reading goes on from where a turn of the loop has brought the reader. -/
private theorem Control.afterRead_reader (k : Control) (v : UInt32) (p b : Nat) {P P₁ : Parser} {bs bs₁ : List UInt8}
    {out : List (List UInt8)}
    (h : decoder.feedAll P bs = ((decoder.feedAll P₁ bs₁).1, out ++ (decoder.feedAll P₁ bs₁).2)) :
    (k.reader p b P₁ bs₁ (out.map (.HandleEvent v))).afterRead v p b P₁ bs₁ = k.afterRead v p b P bs := by
  unfold afterRead
  rw [h]
  split
  · rw [reader_reader, List.map_append]
  · rw [close_reader, List.map_append, List.append_assoc]

private theorem ClientCtl.parser_header {c : ClientCtl} (h : c.m_readStatus = StatusReadHeader) :
    c.parser = ⟨false, c.m_needByteCnt, []⟩ := by
  rw [parser, h]
  rfl

private theorem ClientCtl.parser_body {c : ClientCtl} (h : c.m_readStatus = StatusReadbody) :
    c.parser = ⟨true, c.m_needByteCnt, []⟩ := by
  rw [parser, h]
  rfl

/-! ### How a piece of server code may end -/

/-- The code returns with control `K`, or stops at an overflow on the way to `K`, which it does not when it is `safe`;
when the lengths `fit`, it requests none from `bufferevent_read` that does not. -/
structure Outcome (w : World σ) (K : Control) (safe fits : Prop) (r : EStateM.Result Fault (World σ) Unit) :
    Prop where
  ok : ∀ w', r = .ok () w' → w'.control = K
  error : ∀ f w', r = .error f w' → f = .overflow ∧ w'.trace <+: K.trace ∧ ¬ safe
  asked : fits → ∀ k ∈ r.state.asked, k ∈ w.asked ∨ k ≤ sizeof_msg

theorem Outcome.of_ok {w w' : World σ} {K : Control} {safe fits : Prop} (h : w'.control = K)
    (ha : fits → ∀ k ∈ w'.asked, k ∈ w.asked ∨ k ≤ sizeof_msg) : Outcome w K safe fits (.ok () w') where
  ok := by
    rintro _ ⟨⟩
    exact h
  error := by rintro _ _ ⟨⟩
  asked := ha

theorem Outcome.of_overflow {w w' : World σ} {K : Control} {safe fits : Prop} (h : w'.trace <+: K.trace)
    (hs : ¬ safe) (ha : fits → ∀ k ∈ w'.asked, k ∈ w.asked ∨ k ≤ sizeof_msg) :
    Outcome w K safe fits (.error .overflow w') where
  ok := by rintro _ ⟨⟩
  error := by
    rintro _ _ ⟨⟩
    exact ⟨rfl, h, hs⟩
  asked := ha

/-- The outcome of a first part that left `w₁` and of the rest. -/
theorem Outcome.after {w w₁ : World σ} {K : Control} {safe safe₁ fits fits₁ : Prop}
    {r : EStateM.Result Fault (World σ) Unit} (h : Outcome w₁ K safe₁ fits₁ r) (hs : safe → safe₁)
    (hf : fits → fits₁) (ha : fits → ∀ k ∈ w₁.asked, k ∈ w.asked ∨ k ≤ sizeof_msg) :
    Outcome w K safe fits r where
  ok := h.ok
  error f w' hr := by
    obtain ⟨he, ht, hn⟩ := h.error f w' hr
    exact ⟨he, ht, fun hsafe => hn (hs hsafe)⟩
  asked hfit k hk := by
    rcases h.asked (hf hfit) k hk with h₁ | h₁
    · exact ha hfit k h₁
    · exact Or.inr h₁

/-! ### Removing a client -/

private theorem Control.Sound.erase {k : Control} (hk : k.Sound) (v : UInt32) :
    ({ k with AllClients := k.AllClients.erase v } : Control).Sound := by
  intro v' p hv'
  have hne : v' ≠ v := by
    rintro rfl
    simp at hv'
  exact hk v' p (by simpa [Finmap.lookup_erase_ne hne] using hv')

private theorem control_delete (w : World σ) (p : Nat) (es : List Event) :
    World.control { w with clients := w.clients.free p, trace := w.trace ++ es } =
      { w.control with clients := w.control.clients.free p, trace := w.control.trace ++ es } :=
  Control.ext rfl rfl (Heap.map_free _ _ _) rfl rfl

private theorem control_free (w : World σ) (b : Nat) (es : List Event) :
    World.control { w with bevs := w.bevs.free b, trace := w.trace ++ es } =
      { w.control with bevs := w.control.bevs.free b, trace := w.control.trace ++ es } :=
  Control.ext rfl rfl rfl (Heap.map_free _ _ _) rfl

private theorem eraseClient_registered {w : World σ} (hw : w.control.Sound) {v : UInt32} {p : Nat}
    (hv : w.AllClients.lookup v = some p) :
    (∃ w', eraseClient S v.toInt32 w = .ok () w' ∧ w'.asked = w.asked ∧
      w'.control = { w.control with
        AllClients := w.AllClients.erase v
        clients := w.control.clients.free p
        trace := w.trace ++ [.HandleDisConnect v, .delete p] }) ∨
    (∃ w', eraseClient S v.toInt32 w = .error .overflow w' ∧ w'.asked = w.asked ∧
      w'.trace = w.trace ++ [.HandleDisConnect v] ∧ ¬ S.QuietReads) := by
  obtain ⟨c, -, hc, -⟩ := hw v p hv
  unfold eraseClient
  rw [EStateM.bind_ok (queryClient_toInt32 v w), hv]
  simp only [UInt32.toUInt32_toInt32]
  rw [EStateM.bind_ok (m := change _) rfl]
  rcases callLua_control (w := { w with AllClients := w.AllClients.erase v }) (hw.erase v) (.HandleDisConnect v)
    (S.HandleDisConnect v) with ⟨w', h, hk, ha⟩ | ⟨w', h, hk, ha, hq⟩
  · left
    have hlive : w'.control.clients.cell p = some c := by rw [hk]; exact hc
    obtain ⟨c', hc', -⟩ := Option.map_eq_some_iff.1 hlive
    rw [EStateM.bind_ok (show Lua_HandleDisConnect S v _ = _ from h)]
    simp only [deleteClient, hc']
    refine ⟨_, rfl, ha, ?_⟩
    rw [control_delete, hk]
    simp [Control.emit, World.control]
  · right
    rw [EStateM.bind_error (show Lua_HandleDisConnect S v _ = _ from h)]
    exact ⟨w', rfl, ha, congrArg Control.trace hk, fun hS => hq (hS.disconnect v _)⟩

theorem socket_event_cb_outcome {w : World σ} (hw : w.control.Sound) {v : UInt32} {p b : Nat} {e : BevCtl}
    (hv : w.AllClients.lookup v = some p) (hb : w.control.bevs.cell b = some e) :
    Outcome w (w.control.close v p b (closing v p b)) S.QuietReads True (socket_event_cb S b v w) := by
  unfold socket_event_cb
  rcases eraseClient_registered (S := S) hw hv with ⟨w', h, ha, hk⟩ | ⟨w', h, ha, ht, hq⟩
  · have hlive : w'.control.bevs.cell b = some e := by rw [hk]; exact hb
    obtain ⟨e', he', -⟩ := Option.map_eq_some_iff.1 hlive
    rw [EStateM.bind_ok h]
    simp only [bufferevent_free, he']
    refine .of_ok ?_ fun _ k hkk => Or.inl (by simpa [ha] using hkk)
    rw [control_free, hk]
    simp [Control.close, closing, World.control]
  · rw [EStateM.bind_error h]
    refine .of_overflow ?_ hq fun _ k hkk => Or.inl (by simpa [ha] using hkk)
    rw [ht]
    exact ⟨[.delete p, .free b], by simp [Control.close, closing, World.control]⟩

/-- The error paths of the read loop, for a registered client. -/
theorem kick_outcome {w : World σ} (hw : w.control.Sound) {v : UInt32} {p b : Nat} {e : BevCtl} (line : Event)
    (hv : w.AllClients.lookup v = some p) (hb : w.control.bevs.cell b = some e) :
    Outcome w (w.control.close v p b (line :: closing v p b)) S.QuietReads True (kick S line b v w) := by
  have h := socket_event_cb_outcome (S := S) (w := { w with trace := w.trace ++ [line] }) hw hv hb
  have hK : Control.close (World.control { w with trace := w.trace ++ [line] }) v p b (closing v p b) =
      w.control.close v p b (line :: closing v p b) := by
    simp [Control.close, World.control]
  rw [hK] at h
  exact h.after id id fun _ k hk => Or.inl hk

/-! ### One turn of the loop -/

/-- The world after `bufferevent_read(bev, client->read_msg, size)` took bytes that fit. -/
private def afterBuffereventRead (w : World σ) (b p size : Nat) (c : Client) (e : Bufferevent) : World σ :=
  { w with
    asked := w.asked ++ [size]
    clients := w.clients.update p fun c' => { c' with read_msg := c.read_msg.overwrite 0 (e.input.take size) }
    bevs := w.bevs.update b fun e => { e with input := e.input.drop size } }

private theorem bufferevent_read_of_le {w : World σ} {b p : Nat} {c : Client} {e : Bufferevent} (size : Nat)
    (hc : w.clients.cell p = some c) (hb : w.bevs.cell b = some e)
    (hle : (e.input.take size).length ≤ sizeof_msg) :
    bufferevent_read b p size w = .ok (e.input.take size).length (afterBuffereventRead w b p size c e) := by
  unfold bufferevent_read
  rw [EStateM.bind_ok (m := change _) rfl, EStateM.bind_ok (show getBev b _ = .ok e _ by simp only [getBev, hb]; rfl),
    EStateM.bind_ok (show getClient p _ = .ok c _ by simp only [getClient, hc]; rfl)]
  simp only [CharArray.store_of_le c.read_msg (show 0 + (e.input.take size).length ≤ sizeof_msg by omega)]
  rw [EStateM.bind_ok (show setClient p _ _ = .ok () _ by simp only [setClient, hc]; rfl),
    EStateM.bind_ok (show setBev b _ _ = .ok () _ by simp only [setBev, hb]; rfl)]
  rfl

private theorem bufferevent_read_of_lt {w : World σ} {b p size : Nat} {c : Client} {e : Bufferevent}
    (hc : w.clients.cell p = some c) (hb : w.bevs.cell b = some e)
    (hlt : sizeof_msg < (e.input.take size).length) :
    bufferevent_read b p size w = .error .overflow { w with asked := w.asked ++ [size] } := by
  unfold bufferevent_read
  rw [EStateM.bind_ok (m := change _) rfl, EStateM.bind_ok (show getBev b _ = .ok e _ by simp only [getBev, hb]; rfl),
    EStateM.bind_ok (show getClient p _ = .ok c _ by simp only [getClient, hc]; rfl)]
  simp only [CharArray.store_of_lt c.read_msg (show sizeof_msg < 0 + (e.input.take size).length by omega)]
  rfl

/-- The callback runs for the registered client `p` of `v`, with bufferevent `b`. -/
structure Attached (w : World σ) (v : UInt32) (p b : Nat) (c : ClientCtl) (e : BevCtl) : Prop where
  sound : w.control.Sound
  registered : w.AllClients.lookup v = some p
  client : w.control.clients.cell p = some c
  bev : w.control.bevs.cell b = some e

/-- The control with the input of `b` replaced. -/
def Control.setInput (k : Control) (b : Nat) (input : List UInt8) : Control :=
  { k with bevs := k.bevs.update b fun e => { e with input := input } }

theorem Control.Sound.setInput {k : Control} (hk : k.Sound) (b : Nat) (input : List UInt8) :
    (k.setInput b input).Sound := by
  intro v p hv
  obtain ⟨c, e, hc, hcv, he, hev⟩ := hk v p hv
  refine ⟨c, _, hc, hcv, Heap.update_cell_of_some he, ?_⟩
  split <;> exact hev

theorem Control.Sound.reader {k : Control} (hk : k.Sound) (p b : Nat) (P : Parser) (input : List UInt8)
    (es : List Event) : (k.reader p b P input es).Sound := by
  intro v q hv
  obtain ⟨c, e, hc, hcv, he, hev⟩ := hk v q hv
  have he₁ := Heap.update_cell_of_some (p := b) (f := fun e => { e with input := input }) he
  have hev₁ : (if c.bev = b then { e with input := input } else e : BevCtl).cbarg = v := by
    split <;> exact hev
  by_cases hq : q = p
  · subst hq
    exact ⟨{ c with m_needByteCnt := P.need, m_readStatus := P.status }, _, by simp [Control.reader, hc], hcv, he₁,
      hev₁⟩
  · exact ⟨c, _, by simpa [Control.reader, Heap.update_cell_of_ne _ _ hq] using hc, hcv, he₁, hev₁⟩

theorem Attached.reader {w w₁ : World σ} {v : UInt32} {p b : Nat} {c : ClientCtl} {e : BevCtl}
    (h : Attached w v p b c e) {P : Parser} {input : List UInt8} {es : List Event}
    (hk : w₁.control = w.control.reader p b P input es) :
    Attached w₁ v p b { c with m_needByteCnt := P.need, m_readStatus := P.status } { e with input := input } where
  sound := by
    rw [hk]
    exact h.sound.reader p b P input es
  registered := (congrArg (fun k => k.AllClients.lookup v) hk).trans h.registered
  client := by
    rw [hk]
    simp [Control.reader, h.client]
  bev := by
    rw [hk]
    simp [Control.reader, h.bev]

theorem Attached.setInput {w w₁ : World σ} {v : UInt32} {p b : Nat} {c : ClientCtl} {e : BevCtl}
    (h : Attached w v p b c e) {input : List UInt8} (hk : w₁.control = w.control.setInput b input) :
    Attached w₁ v p b c { e with input := input } where
  sound := by
    rw [hk]
    exact h.sound.setInput b input
  registered := (congrArg (fun k => k.AllClients.lookup v) hk).trans h.registered
  client := by
    rw [hk]
    exact h.client
  bev := by
    rw [hk]
    simp [Control.setInput, h.bev]

/-- What `bufferevent_read` returns is what it takes from the input. -/
theorem Attached.bufferevent_read_ok {w w₁ : World σ} {v : UInt32} {p b size len : Nat} {c : ClientCtl} {e : BevCtl}
    (h : Attached w v p b c e) (hread : bufferevent_read b p size w = .ok len w₁) :
    len = min size e.input.length := by
  obtain ⟨c', hc', rfl⟩ := Option.map_eq_some_iff.1 h.client
  obtain ⟨e', he', rfl⟩ := Option.map_eq_some_iff.1 h.bev
  by_cases hle : (e'.input.take size).length ≤ sizeof_msg
  · rw [bufferevent_read_of_le size hc' he' hle] at hread
    cases hread
    exact List.length_take
  · rw [bufferevent_read_of_lt hc' he' (by omega)] at hread
    cases hread

theorem Control.close_setInput (k : Control) (v : UInt32) (p b : Nat) (input : List UInt8) (es : List Event) :
    (k.setInput b input).close v p b es = k.close v p b es := by
  simp only [setInput, close, Heap.free_update]

private theorem control_afterBuffereventRead (w : World σ) (b p size : Nat) (c : Client) {e : Bufferevent}
    (he : w.bevs.cell b = some e) :
    (afterBuffereventRead w b p size c e).control = w.control.setInput b (e.input.drop size) := by
  refine Control.ext rfl rfl (Heap.map_update_of_eq _ _ _ fun _ => rfl) (Heap.map_update _ _ _ ?_) rfl
  intro e' he'
  rw [he] at he'
  cases he'
  rfl

private theorem decodeHeader_overwrite {c : Client} {a : CharArray sizeof_msg} {lo hi : UInt8}
    (h : c.read_msg = a.overwrite 0 [lo, hi]) : decodeHeader c = lo.toNat + hi.toNat * 256 := by
  rw [decodeHeader, h, CharArray.overwrite_zero_apply _ (by simp), CharArray.overwrite_zero_apply _ (by simp)]
  simp

variable {w : World σ} {v : UInt32} {p b : Nat} {c : ClientCtl} {e : BevCtl}

theorem readHeader_full (h : Attached w v p b c e) {lo hi : UInt8} {rest : List UInt8}
    (he : e.input = lo :: hi :: rest) (DataLen : Nat) :
    ∃ w₁, readHeader S b p v DataLen w = .ok (some (subSize DataLen 2)) w₁ ∧ w₁.asked = w.asked ++ [2] ∧
      w₁.control = w.control.reader p b ⟨true, lo.toNat + hi.toNat * 256, []⟩ rest [] := by
  obtain ⟨c', hc', rfl⟩ := Option.map_eq_some_iff.1 h.client
  obtain ⟨e', he', rfl⟩ := Option.map_eq_some_iff.1 h.bev
  replace he : e'.input = lo :: hi :: rest := he
  have hread := bufferevent_read_of_le header_length hc' he' (by simp [he])
  unfold readHeader
  rw [EStateM.bind_ok hread]
  simp only [he, List.take_succ_cons, List.take_zero, List.length_cons, List.length_nil, ne_eq,
    not_true_eq_false, ↓reduceIte]
  have hc₁ : (afterBuffereventRead w b p 2 c' e').clients.cell p =
      some { c' with read_msg := c'.read_msg.overwrite 0 [lo, hi] } := by
    simp [afterBuffereventRead, hc', he]
  rw [EStateM.bind_ok (show setClient p _ (afterBuffereventRead w b p 2 c' e') = .ok () _ by
    simp only [setClient, hc₁]; rfl)]
  rw [EStateM.bind_ok (show setClient p _ _ = .ok () _ by
    simp only [setClient, Heap.update_cell_self, hc₁, Option.map_some]; rfl)]
  refine ⟨_, rfl, rfl, ?_⟩
  refine Control.ext rfl rfl ?_ ?_ (by simp [Control.reader, World.control, afterBuffereventRead])
  · simp only [afterBuffereventRead, Heap.update_update, World.control]
    refine Heap.map_update _ _ _ ?_
    intro a ha
    rw [hc'] at ha
    cases ha
    have hdec := decodeHeader_overwrite (c := { c' with read_msg := c'.read_msg.overwrite 0 [lo, hi] }) rfl
    simp only [he, List.take_succ_cons, List.take_zero, Function.comp_apply, Client.ctl, Parser.status, ↓reduceIte]
    rw [hdec]
  · have hbevs := congrArg Control.bevs (control_afterBuffereventRead w b p 2 c' he')
    rw [he] at hbevs
    exact hbevs

theorem readHeader_half (h : Attached w v p b c e) {x : UInt8} (he : e.input = [x]) (DataLen : Nat) :
    ∃ w₁, readHeader S b p v DataLen w = (kick S (.headKick v) b v >>= fun _ => pure none) w₁ ∧
      w₁.asked = w.asked ++ [2] ∧ w₁.control = w.control.setInput b [] := by
  obtain ⟨c', hc', rfl⟩ := Option.map_eq_some_iff.1 h.client
  obtain ⟨e', he', rfl⟩ := Option.map_eq_some_iff.1 h.bev
  replace he : e'.input = [x] := he
  have hread := bufferevent_read_of_le header_length hc' he' (by rw [he]; show 1 ≤ 8194; decide)
  refine ⟨afterBuffereventRead w b p 2 c' e', ?_, rfl, ?_⟩
  · unfold readHeader
    have hshort : (List.take header_length [x]).length ≠ header_length := by simp [header_length]
    rw [EStateM.bind_ok hread, he, if_pos hshort]
  · rw [control_afterBuffereventRead w b p 2 c' he', he]
    rfl

/-- A body that is all there, up to the call of the handler. -/
private theorem readBody_call (h : Attached w v p b c e) {n : Nat} (hn : c.m_needByteCnt = n) (hfit : n ≤ sizeof_msg)
    (hlen : n ≤ e.input.length) (DataLen : Nat) :
    ∃ w₂, readBody S b p v n DataLen w =
        (Lua_HandleEvent S v (e.input.take n) >>= fun _ => pure (some (subSize DataLen n))) w₂ ∧
      w₂.asked = w.asked ++ [n] ∧
      w₂.control = w.control.reader p b ⟨false, n, []⟩ (e.input.drop n) [] := by
  obtain ⟨c', hc', rfl⟩ := Option.map_eq_some_iff.1 h.client
  obtain ⟨e', he', rfl⟩ := Option.map_eq_some_iff.1 h.bev
  replace hn : c'.m_needByteCnt = n := hn
  replace hlen : n ≤ e'.input.length := hlen
  have htake : (e'.input.take n).length = n := by simp [hlen]
  have hread := bufferevent_read_of_le n hc' he' (by omega)
  have hload : (c'.read_msg.overwrite 0 (e'.input.take n)).load n = some (e'.input.take n) := by
    have := CharArray.load_overwrite c'.read_msg (e'.input.take n) (by omega)
    rwa [htake] at this
  have hc₁ : (afterBuffereventRead w b p n c' e').clients.cell p =
      some { c' with read_msg := c'.read_msg.overwrite 0 (e'.input.take n) } := by
    simp [afterBuffereventRead, hc']
  unfold readBody
  rw [EStateM.bind_ok hread, htake]
  rw [EStateM.bind_ok (show getClient p (afterBuffereventRead w b p n c' e') = .ok _ _ by
    simp only [getClient, hc₁]; rfl)]
  simp only [hn, ne_eq, not_true_eq_false, ↓reduceIte, hload]
  rw [EStateM.bind_ok (show setClient p _ (afterBuffereventRead w b p n c' e') = .ok () _ by
    simp only [setClient, hc₁]; rfl)]
  refine ⟨_, rfl, rfl, ?_⟩
  refine Control.ext rfl rfl ?_ ?_ (by simp [Control.reader, World.control, afterBuffereventRead])
  · simp only [afterBuffereventRead, Heap.update_update, World.control]
    refine Heap.map_update _ _ _ ?_
    intro a ha
    rw [hc'] at ha
    cases ha
    simp [Client.ctl, Parser.status, hn]
  · have hbevs := congrArg Control.bevs (control_afterBuffereventRead w b p n c' he')
    exact hbevs

theorem readBody_full (h : Attached w v p b c e) {n : Nat} (hn : c.m_needByteCnt = n) (hfit : n ≤ sizeof_msg)
    (hlen : n ≤ e.input.length) (DataLen : Nat) :
    (∃ w₁, readBody S b p v n DataLen w = .ok (some (subSize DataLen n)) w₁ ∧ w₁.asked = w.asked ++ [n] ∧
      w₁.control = w.control.reader p b ⟨false, n, []⟩ (e.input.drop n) [.HandleEvent v (e.input.take n)]) ∨
    (∃ w₁, readBody S b p v n DataLen w = .error .overflow w₁ ∧ w₁.asked = w.asked ++ [n] ∧
      w₁.trace = w.trace ++ [.HandleEvent v (e.input.take n)] ∧ ¬ S.QuietReads) := by
  obtain ⟨w₂, hbody, ha₂, hk₂⟩ := readBody_call (S := S) h hn hfit hlen DataLen
  have hs₂ : w₂.control.Sound := (h.reader hk₂).sound
  rw [hbody]
  rcases callLua_control hs₂ (.HandleEvent v (e.input.take n)) (S.HandleEvent v (e.input.take n)) with
    ⟨w₃, h₃, hk₃, ha₃⟩ | ⟨w₃, h₃, hk₃, ha₃, hq⟩
  · left
    rw [EStateM.bind_ok (show Lua_HandleEvent S v (e.input.take n) w₂ = _ from h₃)]
    refine ⟨w₃, rfl, ha₃.trans ha₂, ?_⟩
    rw [hk₃, hk₂]
    simp [Control.emit, Control.reader]
  · right
    rw [EStateM.bind_error (show Lua_HandleEvent S v (e.input.take n) w₂ = _ from h₃)]
    refine ⟨w₃, rfl, ha₃.trans ha₂, ?_, fun hS => hq (hS.event v _ _)⟩
    rw [show w₃.trace = _ from congrArg Control.trace (hk₃.trans (congrArg (Control.emit · _) hk₂))]
    simp [Control.emit, Control.reader, World.control]

theorem readBody_short (h : Attached w v p b c e) {n : Nat} (hn : c.m_needByteCnt = n)
    (hfit : e.input.length ≤ sizeof_msg) (hlen : e.input.length < n) (DataLen : Nat) :
    ∃ w₁, readBody S b p v n DataLen w = (kick S (.bodyKick v) b v >>= fun _ => pure none) w₁ ∧
      w₁.asked = w.asked ++ [n] ∧ w₁.control = w.control.setInput b [] := by
  obtain ⟨c', hc', rfl⟩ := Option.map_eq_some_iff.1 h.client
  obtain ⟨e', he', rfl⟩ := Option.map_eq_some_iff.1 h.bev
  replace hn : c'.m_needByteCnt = n := hn
  replace hlen : e'.input.length < n := hlen
  replace hfit : e'.input.length ≤ sizeof_msg := hfit
  have htake : e'.input.take n = e'.input := List.take_of_length_le (by omega)
  have hread := bufferevent_read_of_le n hc' he' (by rw [htake]; exact hfit)
  have hc₁ : (afterBuffereventRead w b p n c' e').clients.cell p =
      some { c' with read_msg := c'.read_msg.overwrite 0 (e'.input.take n) } := by
    simp [afterBuffereventRead, hc']
  refine ⟨afterBuffereventRead w b p n c' e', ?_, rfl, ?_⟩
  · unfold readBody
    rw [EStateM.bind_ok hread, htake]
    rw [EStateM.bind_ok (show getClient p (afterBuffereventRead w b p n c' e') = .ok _ _ by
      simp only [getClient, hc₁]; rfl)]
    simp only [hn, ne_eq, show e'.input.length ≠ n by omega, not_false_eq_true, ↓reduceIte]
  · rw [control_afterBuffereventRead w b p n c' he', List.drop_of_length_le (by omega)]

theorem readBody_overflow (h : Attached w v p b c e) {n : Nat} (hlt : sizeof_msg < (e.input.take n).length)
    (DataLen : Nat) :
    readBody S b p v n DataLen w = .error .overflow { w with asked := w.asked ++ [n] } := by
  obtain ⟨c', hc', rfl⟩ := Option.map_eq_some_iff.1 h.client
  obtain ⟨e', he', rfl⟩ := Option.map_eq_some_iff.1 h.bev
  unfold readBody
  rw [EStateM.bind_error (bufferevent_read_of_lt hc' he' hlt)]

/-! ### The loop -/

private theorem LengthsFit.need_le {P : Parser} {bs : List UInt8} (h : LengthsFit P bs) : P.need ≤ sizeof_msg :=
  h [] (by simp)

private theorem LengthsFit.header {n : Nat} {lo hi : UInt8} {bs : List UInt8}
    (h : LengthsFit ⟨false, n, []⟩ (lo :: hi :: bs)) : LengthsFit ⟨true, lo.toNat + hi.toNat * 256, []⟩ bs := by
  intro pre hpre
  rw [← feedAll_header n lo hi pre]
  refine h _ ?_
  rw [List.mem_inits] at hpre ⊢
  simpa using hpre

private theorem LengthsFit.body {n : Nat} {bs : List UInt8} (h : LengthsFit ⟨true, n, []⟩ bs) (hn : n ≤ bs.length) :
    LengthsFit ⟨false, n, []⟩ (bs.drop n) := by
  intro pre hpre
  rw [List.mem_inits] at hpre
  by_cases hnil : pre = []
  · subst hnil
    exact h.need_le
  · have htake : (bs.take n).length = n := by simp [hn]
    have hmem : bs.take n ++ pre ∈ bs.inits := by
      rw [List.mem_inits]
      conv => rhs; rw [← List.take_append_drop n bs]
      exact (List.prefix_append_right_inj _).2 hpre
    have hfeed := h _ hmem
    rw [feedAll_body (by simp [htake]) (by simp [hnil]), List.drop_left' htake] at hfeed
    exact hfeed

private theorem Attached.reader_self (h : Attached w v p b c e) (hs : c.StatusOk) :
    w.control.reader p b c.parser e.input [] = w.control := by
  have hstatus : c.parser.status = c.m_readStatus := by
    rcases hs with hs | hs
    · rw [ClientCtl.parser_header hs, hs]
      rfl
    · rw [ClientCtl.parser_body hs, hs]
      rfl
  refine Control.ext rfl rfl (Heap.ext rfl ?_) (Heap.ext rfl ?_) (by simp [Control.reader])
  · funext q
    by_cases hq : q = p
    · subst hq
      simp only [Control.reader, Heap.update_cell_self, h.client, Option.map_some, hstatus]
      rfl
    · simp [Control.reader, Heap.update_cell_of_ne _ _ hq]
  · funext q
    by_cases hq : q = b
    · subst hq
      simp [Control.reader, h.bev]
    · simp [Control.reader, Heap.update_cell_of_ne _ _ hq]

private theorem Outcome.step {w₁ : World σ} {es : List Event} {P P₁ : Parser} {bs bs₁ : List UInt8}
    {k : Nat} {r : EStateM.Result Fault (World σ) Unit} (out : List (List UInt8))
    (hk : w₁.control = w.control.reader p b P₁ bs₁ es) (hes : es = out.map (.HandleEvent v))
    (ha : w₁.asked = w.asked ++ [k]) (hk' : LengthsFit P bs → k ≤ sizeof_msg)
    (hfeed : decoder.feedAll P bs = ((decoder.feedAll P₁ bs₁).1, out ++ (decoder.feedAll P₁ bs₁).2))
    (hfit : LengthsFit P bs → LengthsFit P₁ bs₁)
    (h : Outcome w₁ (w₁.control.afterRead v p b P₁ bs₁) (S.QuietReads ∧ LengthsFit P₁ bs₁) (LengthsFit P₁ bs₁) r) :
    Outcome w (w.control.afterRead v p b P bs) (S.QuietReads ∧ LengthsFit P bs) (LengthsFit P bs) r := by
  subst hes
  rw [hk, Control.afterRead_reader w.control v p b hfeed] at h
  refine h.after (fun hs => ⟨hs.1, hfit hs.2⟩) hfit fun hf j hj => ?_
  rw [ha, List.mem_append, List.mem_singleton] at hj
  rcases hj with hj | rfl
  · exact Or.inl hj
  · exact Or.inr (hk' hf)

/-- An error path taken in the middle of a header or body. -/
private theorem Outcome.kicked {w₁ : World σ} {P : Parser} {bs : List UInt8} {k : Nat} (P' : Parser)
    (h : Attached w v p b c e) (hk : w₁.control = w.control.setInput b [])
    (ha : w₁.asked = w.asked ++ [k]) (hk' : LengthsFit P bs → k ≤ sizeof_msg)
    (hfeed : decoder.feedAll P bs = (P', [])) (hclean : P'.clean = false) :
    Outcome w (w.control.afterRead v p b P bs) (S.QuietReads ∧ LengthsFit P bs) (LengthsFit P bs)
      (kick S (kickLine P' v) b v w₁) := by
  have h₁ := h.setInput hk
  have hkick := kick_outcome (S := S) h₁.sound (kickLine P' v) h₁.registered h₁.bev
  have hK : w₁.control.close v p b (kickLine P' v :: closing v p b) = w.control.afterRead v p b P bs := by
    rw [hk, Control.close_setInput, Control.afterRead, hfeed]
    simp [hclean]
  rw [hK] at hkick
  refine hkick.after (fun hs => hs.1) (fun _ => trivial) fun hf j hj => ?_
  rw [ha, List.mem_append, List.mem_singleton] at hj
  rcases hj with hj | rfl
  · exact Or.inl hj
  · exact Or.inr (hk' hf)

private theorem readLoop_some {fuel DataLen DataLen' : Nat} {w₁ : World σ} (hD : 0 < DataLen)
    (h : readIteration S b p v DataLen w = .ok (some DataLen') w₁) :
    readLoop S b p v (fuel + 1) DataLen w = readLoop S b p v fuel DataLen' w₁ := by
  rw [readLoop, if_pos hD, EStateM.bind_ok h]

private theorem readLoop_kick {fuel DataLen : Nat} {line : Event} {w₁ : World σ} (hD : 0 < DataLen)
    (h : readIteration S b p v DataLen w = (kick S line b v >>= fun _ => pure none) w₁) :
    readLoop S b p v (fuel + 1) DataLen w = kick S line b v w₁ := by
  rw [readLoop, if_pos hD]
  cases hkick : kick S line b v w₁ with
  | ok u w₂ =>
    rw [EStateM.bind_ok hkick] at h
    rw [EStateM.bind_ok h]
    rfl
  | error f w₂ =>
    rw [EStateM.bind_error hkick] at h
    rw [EStateM.bind_error h]

private theorem readLoop_error {fuel DataLen : Nat} {f : Fault} {w₁ : World σ} (hD : 0 < DataLen)
    (h : readIteration S b p v DataLen w = .error f w₁) :
    readLoop S b p v (fuel + 1) DataLen w = .error f w₁ := by
  rw [readLoop, if_pos hD, EStateM.bind_error h]

theorem readIteration_header (h : Attached w v p b c e) (hs : c.m_readStatus = StatusReadHeader)
    (DataLen : Nat) : readIteration S b p v DataLen w = readHeader S b p v DataLen w := by
  obtain ⟨c', hc', rfl⟩ := Option.map_eq_some_iff.1 h.client
  unfold readIteration
  rw [EStateM.bind_ok (show getClient p w = .ok c' w by simp [getClient, hc'])]
  rw [if_pos (show c'.m_readStatus = StatusReadHeader from hs)]

theorem readIteration_body (h : Attached w v p b c e) (hs : c.m_readStatus = StatusReadbody)
    (DataLen : Nat) : readIteration S b p v DataLen w = readBody S b p v c.m_needByteCnt DataLen w := by
  obtain ⟨c', hc', rfl⟩ := Option.map_eq_some_iff.1 h.client
  replace hs : c'.m_readStatus = StatusReadbody := hs
  unfold readIteration
  rw [EStateM.bind_ok (show getClient p w = .ok c' w by simp [getClient, hc'])]
  rw [if_neg (show c'.m_readStatus ≠ StatusReadHeader by rw [hs]; decide), if_pos hs]
  rfl

theorem subSize_of_le {a b : Nat} (h : b ≤ a) : subSize a b = a - b := by simp [subSize, h]

private theorem Control.trace_prefix_afterRead (k : Control) (v : UInt32) (p b : Nat) (P : Parser) (bs : List UInt8) :
    k.trace ++ (decoder.feedAll P bs).2.map (.HandleEvent v) <+: (k.afterRead v p b P bs).trace := by
  unfold afterRead
  split
  · exact List.prefix_rfl
  · rw [close, ← List.append_assoc]
    exact List.prefix_append _ _

/-- An overflow of `read_msg`. -/
private theorem Outcome.unfit {P : Parser} {bs : List UInt8} (k : Nat) (hbad : ¬ LengthsFit P bs) :
    Outcome w (w.control.afterRead v p b P bs) (S.QuietReads ∧ LengthsFit P bs) (LengthsFit P bs)
      (.error .overflow { w with asked := w.asked ++ [k] }) := by
  refine .of_overflow ?_ (fun hsafe => hbad hsafe.2) fun hf => absurd hf hbad
  exact (List.prefix_append w.trace _).trans (w.control.trace_prefix_afterRead v p b P bs)

/-- The read loop with `fuel` is a run of the decoder over the buffered bytes; the fuel allows a turn for each byte
and one for a pending empty body. -/
private def LoopDecodes (S : Scripts σ τ) (v : UInt32) (p b fuel : Nat) : Prop :=
  ∀ {w : World σ} {c : ClientCtl} {e : BevCtl}, Attached w v p b c e → c.StatusOk →
    e.input.length + (if c.m_readStatus = StatusReadbody then 2 else 1) ≤ fuel →
    Outcome w (w.control.afterRead v p b c.parser e.input) (S.QuietReads ∧ LengthsFit c.parser e.input)
      (LengthsFit c.parser e.input) (readLoop S b p v fuel e.input.length w)

/-- A turn that starts with bytes buffered and waits for a header: it takes two of them. -/
private theorem readLoop_header {fuel : Nat} (ih : LoopDecodes S v p b fuel) (h : Attached w v p b c e)
    (hs : c.m_readStatus = StatusReadHeader) (hnil : e.input ≠ []) (hfuel : e.input.length + 1 ≤ fuel + 1) :
    Outcome w (w.control.afterRead v p b c.parser e.input) (S.QuietReads ∧ LengthsFit c.parser e.input)
      (LengthsFit c.parser e.input) (readLoop S b p v (fuel + 1) e.input.length w) := by
  have hD : 0 < e.input.length := List.length_pos_iff.2 hnil
  rw [ClientCtl.parser_header hs]
  rcases hinput : e.input with _ | ⟨lo, _ | ⟨hi, rest⟩⟩
  · exact absurd hinput hnil
  · -- one byte is buffered, and the client is kicked
    obtain ⟨w₁, h₁, ha, hk⟩ := readHeader_half (S := S) h hinput e.input.length
    rw [← hinput, readLoop_kick hD ((readIteration_header h hs _).trans h₁), hinput]
    exact .kicked _ h hk ha (fun _ => by decide) (feedAll_halfHeader _ lo) rfl
  · obtain ⟨w₁, h₁, ha, hk⟩ := readHeader_full (S := S) h hinput e.input.length
    rw [← hinput, readLoop_some hD ((readIteration_header h hs _).trans h₁), hinput]
    rw [hinput] at hfuel
    simp only [List.length_cons] at hfuel
    have hrest := ih (h.reader hk) (Or.inr rfl) (by simp [Parser.status]; omega)
    rw [show subSize (lo :: hi :: rest).length 2 = rest.length by simp [subSize]]
    refine Outcome.step [] hk rfl ha (fun _ => by decide) ?_ LengthsFit.header hrest
    rw [feedAll_header, List.nil_append]

/-- A turn that waits for a body that is all buffered. -/
private theorem readLoop_body {fuel : Nat} (ih : LoopDecodes S v p b fuel) (h : Attached w v p b c e)
    (hs : c.m_readStatus = StatusReadbody) (hnil : e.input ≠ []) (hfuel : e.input.length + 2 ≤ fuel + 1)
    (hlen : c.m_needByteCnt ≤ e.input.length) :
    Outcome w (w.control.afterRead v p b c.parser e.input) (S.QuietReads ∧ LengthsFit c.parser e.input)
      (LengthsFit c.parser e.input) (readLoop S b p v (fuel + 1) e.input.length w) := by
  have hD : 0 < e.input.length := List.length_pos_iff.2 hnil
  rw [ClientCtl.parser_body hs]
  by_cases hfit : c.m_needByteCnt ≤ sizeof_msg
  · have hfeed := feedAll_body hlen hnil
    rcases readBody_full (S := S) h rfl hfit hlen e.input.length with ⟨w₁, h₁, ha, hk⟩ | ⟨w₁, h₁, ha, ht, hq⟩
    · rw [readLoop_some hD ((readIteration_body h hs _).trans h₁), subSize_of_le hlen]
      have hrest := ih (h.reader hk) (Or.inl rfl) (by
        show (e.input.drop c.m_needByteCnt).length + 1 ≤ fuel
        rw [List.length_drop]
        omega)
      simp only [List.length_drop] at hrest
      exact Outcome.step [e.input.take c.m_needByteCnt] hk rfl ha (fun _ => hfit) hfeed (fun hf => hf.body hlen) hrest
    · -- the handler overflows a `write_msg`
      rw [readLoop_error hD ((readIteration_body h hs _).trans h₁)]
      refine .of_overflow ?_ (fun hsafe => hq hsafe.1) fun _ k hk => ?_
      · have hpre := w.control.trace_prefix_afterRead v p b ⟨true, c.m_needByteCnt, []⟩ e.input
        refine .trans ?_ hpre
        rw [ht, hfeed]
        exact ⟨_, by simp [World.control]; rfl⟩
      · rw [ha, List.mem_append, List.mem_singleton] at hk
        rcases hk with hk | rfl
        · exact Or.inl hk
        · exact Or.inr hfit
  · -- it is longer than `read_msg`
    have hover := readBody_overflow (S := S) h (n := c.m_needByteCnt) (by simp; omega) e.input.length
    rw [readLoop_error hD ((readIteration_body h hs _).trans hover)]
    exact .unfit _ fun hf => hfit hf.need_le

/-- A turn that waits for a body of which part is buffered. -/
private theorem readLoop_shortBody {fuel : Nat} (h : Attached w v p b c e) (hs : c.m_readStatus = StatusReadbody)
    (hnil : e.input ≠ []) (hlen : e.input.length < c.m_needByteCnt) :
    Outcome w (w.control.afterRead v p b c.parser e.input) (S.QuietReads ∧ LengthsFit c.parser e.input)
      (LengthsFit c.parser e.input) (readLoop S b p v (fuel + 1) e.input.length w) := by
  have hD : 0 < e.input.length := List.length_pos_iff.2 hnil
  have hfeed := feedAll_shortBody hlen
  rw [ClientCtl.parser_body hs]
  by_cases hfit : e.input.length ≤ sizeof_msg
  · obtain ⟨w₁, h₁, ha, hk⟩ := readBody_short (S := S) h rfl hfit hlen e.input.length
    rw [readLoop_kick hD ((readIteration_body h hs _).trans h₁)]
    exact .kicked ⟨true, c.m_needByteCnt, e.input⟩ h hk ha (fun hf => hf.need_le) hfeed
      (by simpa [Parser.clean] using hnil)
  · -- the part alone is longer than `read_msg`
    have htake : sizeof_msg < (e.input.take c.m_needByteCnt).length := by
      rw [List.take_of_length_le (by omega)]
      omega
    rw [readLoop_error hD ((readIteration_body h hs _).trans (readBody_overflow h htake _))]
    refine .unfit _ fun hf => ?_
    have hneed : c.m_needByteCnt ≤ sizeof_msg := hf.need_le
    omega

/-- By induction on the fuel: a header turn takes two bytes, a body turn leaves the body state. -/
private theorem loopDecodes (fuel : Nat) : LoopDecodes S v p b fuel := by
  induction fuel with
  | zero =>
    intro w c e _ _ hfuel
    split at hfuel <;> omega
  | succ fuel ih =>
    intro w c e h hs hfuel
    by_cases hnil : e.input = []
    · rw [readLoop, hnil, if_neg (by simp)]
      refine .of_ok ?_ fun _ k hk => Or.inl hk
      have hself := h.reader_self hs
      rw [hnil] at hself
      rw [Control.afterRead, Transducer.feedAll_nil]
      exact (if_pos rfl).trans hself |>.symm
    rcases hs with hs | hs
    · rw [hs, if_neg (by decide)] at hfuel
      exact readLoop_header ih h hs hnil hfuel
    · rw [hs, if_pos rfl] at hfuel
      by_cases hlen : c.m_needByteCnt ≤ e.input.length
      · exact readLoop_body ih h hs hnil hfuel hlen
      · exact readLoop_shortBody h hs hnil (by omega)

theorem Attached.socket_read_cb_eq (h : Attached w v p b c e) :
    socket_read_cb S b v w = readLoop S b p v (readFuel e.input.length) e.input.length w := by
  obtain ⟨e', he', rfl⟩ := Option.map_eq_some_iff.1 h.bev
  unfold socket_read_cb
  rw [EStateM.bind_ok (queryClient_toInt32 v w), h.registered]
  simp only
  rw [EStateM.bind_ok (show getBev b w = .ok e' w by simp [getBev, he'])]
  rfl

theorem socket_read_cb_outcome (h : Attached w v p b c e) (hs : c.StatusOk) :
    Outcome w (w.control.afterRead v p b c.parser e.input) (S.QuietReads ∧ LengthsFit c.parser e.input)
      (LengthsFit c.parser e.input) (socket_read_cb S b v w) := by
  rw [h.socket_read_cb_eq]
  refine loopDecodes _ h hs ?_
  simp only [readFuel]
  split <;> omega

end LibeventServer

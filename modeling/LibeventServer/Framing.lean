import LibeventServer.Sending

/-!
# Framing over callbacks

A reader is kept between callbacks at the end of a header or of a body only: a callback whose bytes end elsewhere
kicks the client.

* `socket_read_cb_exact`: what one callback does.
* `delivered_iff`: the bodies of a stream of frames reach `HandleEvent` and the connection stays open exactly when
  every chunk ends at the end of a header or of a body, and the last body is not empty.
* `conversation`: messages queued by `do_write` and cut at such places are received as they were sent.
-/

namespace LibeventServer

open Runs Transducer

variable {σ τ : Type} {S : Scripts σ τ}

/-- The connection `v` with client `p` and bufferevent `b` is open, its reader is in state `P`, and no byte waits to
be read. -/
structure Control.Reading (k : Control) (v : UInt32) (p b : Nat) (P : Parser) : Prop where
  valid : k.Valid
  registered : k.AllClients.lookup v = some p
  client : ∃ c, k.clients.cell p = some c ∧ c.parser = P
  bev : k.bevs.cell b = some ⟨v, []⟩

/-- The bodies passed to `HandleEvent` for `v`. -/
def handled (v : UInt32) (t : List Event) : List (List UInt8) :=
  t.filterMap fun
    | .HandleEvent u msg => if u = v then some msg else none
    | _ => none

private theorem handled_append (v : UInt32) (t t' : List Event) : handled v (t ++ t') = handled v t ++ handled v t' :=
  List.filterMap_append

private theorem handled_events (v : UInt32) (msgs : List (List UInt8)) :
    handled v (msgs.map (.HandleEvent v)) = msgs := by
  simp [handled]

private theorem handled_kick (P : Parser) (v : UInt32) (p b : Nat) :
    handled v (kickLine P v :: closing v p b) = [] := by
  unfold kickLine
  split <;> rfl

/-- A clean decoder is the state of a reader between two callbacks. -/
private theorem Parser.eq_of_clean {P : Parser} (h : P.clean = true) (c : ClientCtl) :
    ClientCtl.parser { c with m_needByteCnt := P.need, m_readStatus := P.status } = P := by
  obtain ⟨inBody, need, got⟩ := P
  have hgot : got = [] := List.isEmpty_iff.1 h
  subst hgot
  cases inBody <;> rfl

/-! ### Freshly accepted connections -/

theorem Control.Serving.accept_reading {k : Control} (h : k.Serving) (hfresh : k.FreshId) (es : List Event) :
    (k.accept es).Reading k.globalVfd k.clients.next k.bevs.next Parser.start where
  valid := (h.accept hfresh es).valid
  registered := by simp [Control.accept, h.notMem_AllClients hfresh]
  client := ⟨_, Heap.alloc_cell_self _ _, rfl⟩
  bev := Heap.alloc_cell_self _ _

/-! ### One chunk -/

theorem Control.Reading.next {k : Control} {v : UInt32} {p b : Nat} {P : Parser} (h : k.Reading v p b P)
    (chunk : List UInt8) : k.next (.readable b chunk : Callback τ) = k.afterRead v p b P chunk := by
  obtain ⟨c, hc, rfl⟩ := h.client
  simp only [Control.next, h.bev, h.registered, hc, List.nil_append]

private theorem Control.Reading.valid_afterRead {k : Control} {v : UInt32} {p b : Nat} {P : Parser}
    (h : k.Reading v p b P) (chunk : List UInt8) : (k.afterRead v p b P chunk).Valid := by
  have hnext : k.next (.readable b chunk : Callback Unit) = k.afterRead v p b P chunk := h.next chunk
  rw [← hnext]
  exact h.valid.next _

theorem Control.Reading.fits {k : Control} {v : UInt32} {p b : Nat} {P : Parser} (h : k.Reading v p b P)
    {chunk : List UInt8} (hfit : LengthsFit P chunk) : k.Fits (.readable b chunk : Callback τ) := by
  intro e q c he hq hc
  obtain ⟨c', hc', rfl⟩ := h.client
  rw [h.bev, Option.some.injEq] at he
  subst he
  rw [h.registered, Option.some.injEq] at hq
  subst hq
  rw [hc', Option.some.injEq] at hc
  subst hc
  exact hfit

theorem Control.Reading.afterRead {k : Control} {v : UInt32} {p b : Nat} {P : Parser} (h : k.Reading v p b P)
    {chunk : List UInt8} (hclean : (decoder.feedAll P chunk).1.clean = true) :
    (k.afterRead v p b P chunk).Reading v p b (decoder.feedAll P chunk).1 := by
  have hvalid := h.valid_afterRead chunk
  obtain ⟨c, hc, -⟩ := h.client
  rw [Control.afterRead, if_pos hclean] at hvalid ⊢
  refine ⟨hvalid, h.registered, ⟨_, by simp [Control.reader, hc], Parser.eq_of_clean hclean c⟩, ?_⟩
  simp [Control.reader, h.bev]

private theorem handled_afterRead (k : Control) (v : UInt32) (p b : Nat) (P : Parser) (bs : List UInt8) :
    handled v (k.afterRead v p b P bs).trace = handled v k.trace ++ (decoder.feedAll P bs).2 := by
  unfold Control.afterRead
  split
  · simp only [Control.reader, handled_append, handled_events]
  · simp only [Control.close, handled_append, handled_events, handled_kick, List.append_nil]

/-! ### Chunk after chunk -/

private theorem LengthsFit.append {P : Parser} {bs bs' : List UInt8} (h : LengthsFit P (bs ++ bs')) :
    LengthsFit P bs ∧ LengthsFit (decoder.feedAll P bs).1 bs' := by
  constructor
  · intro pre hpre
    rw [List.mem_inits] at hpre
    exact h pre ((List.mem_inits _ _).2 (hpre.trans (List.prefix_append bs bs')))
  · intro pre hpre
    rw [List.mem_inits] at hpre
    have hmem : bs ++ pre ∈ (bs ++ bs').inits := (List.mem_inits _ _).2 ((List.prefix_append_right_inj bs).2 hpre)
    have hneed := h _ hmem
    rwa [feedAll_append] at hneed

/-- The process goes on, has passed the bodies `out` to `HandleEvent` for `v` since `w`, and the connection is open
with its reader in state `P`, or closed. -/
def Process.Received (s : Process σ) (w : World σ) (v : UInt32) (p b : Nat) (P : Option Parser)
    (out : List (List UInt8)) : Prop :=
  ∃ w', s = .running w' ∧ handled v w'.trace = handled v w.trace ++ out ∧
    match P with
    | some P => w'.control.Reading v p b P
    | none => w'.control.Valid ∧ w'.control.bevs.cell b = none

/-- Chunks for a freed bufferevent are not delivered. -/
private theorem run_chunks_freed (hreads : S.QuietReads) {b : Nat} (chunks : List (List UInt8)) : ∀ {w : World σ},
    w.control.Valid → w.control.bevs.cell b = none →
      ∃ w', run (Process.step S) (.running w) (chunks.map (.readable b)) = .running w' ∧
        w'.control = w.control := by
  induction chunks with
  | nil =>
    intro w _ _
    exact ⟨w, rfl, rfl⟩
  | cons chunk chunks ih =>
    intro w hw hb
    have hfits : w.control.Fits (.readable b chunk : Callback τ) := by
      intro e p c he
      rw [hb] at he
      cases he
    obtain ⟨w₁, h₁, hk₁⟩ := Process.step_quiet (S := S) hw (.readable b chunk) hreads hfits
    have hsame : w₁.control = w.control := by simpa only [Control.next, hb] using hk₁
    obtain ⟨w₂, h₂, hk₂⟩ := ih (w := w₁) (by rw [hsame]; exact hw) (by rw [hsame]; exact hb)
    refine ⟨w₂, ?_, hk₂.trans hsame⟩
    rw [List.map_cons, run_cons, h₁, h₂]

/-- A run of chunks on one connection is a chunked run of the decoder.  By induction on the chunks; the reader is
clean before each. -/
private theorem run_chunks (hreads : S.QuietReads) {v : UInt32} {p b : Nat} (chunks : List (List UInt8)) :
    ∀ {w : World σ} {P : Parser}, w.control.Reading v p b P → LengthsFit P chunks.flatten →
      (run (Process.step S) (.running w) (chunks.map (.readable b))).Received w v p b
        (decoder.feedChunks Parser.clean P chunks).1 (decoder.feedChunks Parser.clean P chunks).2 := by
  induction chunks with
  | nil =>
    intro w P h _
    exact ⟨w, rfl, by simp [feedChunks], h⟩
  | cons chunk chunks ih =>
    intro w P h hfit
    obtain ⟨hfit₁, hfit₂⟩ := LengthsFit.append hfit
    obtain ⟨w₁, h₁, hk₁⟩ := Process.step_quiet (S := S) h.valid (.readable b chunk) hreads (h.fits hfit₁)
    rw [h.next] at hk₁
    -- each chunk adds the bodies it completes
    have hhandled : handled v w₁.trace = handled v w.trace ++ (decoder.feedAll P chunk).2 := by
      rw [show w₁.trace = _ from congrArg Control.trace hk₁, handled_afterRead]
      rfl
    rw [List.map_cons, run_cons, h₁, feedChunks]
    by_cases hclean : (decoder.feedAll P chunk).1.clean = true
    · -- the reader is ready for the next chunk
      have hreading : w₁.control.Reading v p b (decoder.feedAll P chunk).1 := by
        rw [hk₁]
        exact h.afterRead hclean
      obtain ⟨w₂, h₂, hhandled₂, hrest⟩ := ih hreading hfit₂
      rw [if_pos hclean]
      exact ⟨w₂, h₂, by rw [hhandled₂, hhandled, List.append_assoc], hrest⟩
    · -- the client was kicked, and what follows is lost
      have hvalid : w₁.control.Valid := by
        rw [hk₁]
        exact h.valid_afterRead chunk
      have hfreed : w₁.control.bevs.cell b = none := by
        rw [hk₁, Control.afterRead, if_neg hclean]
        simp [Control.close]
      obtain ⟨w₂, h₂, hk₂⟩ := run_chunks_freed hreads chunks hvalid hfreed
      rw [if_neg hclean]
      refine ⟨w₂, h₂, ?_, ?_⟩
      · rw [show w₂.trace = w₁.trace from congrArg Control.trace hk₂, hhandled]
      · rw [hk₂]
        exact ⟨hvalid, hfreed⟩

/-! ### Streams of frames -/

/-- On a part of a stream of frames that fit, the decoder holds lengths that fit. -/
private theorem need_le_of_prefix_stream {bodies : List (List UInt8)}
    (hb : ∀ body ∈ bodies, body.length ≤ max_body_length)
    {n : Nat} (hn : n ≤ sizeof_msg) {pre : List UInt8} (hpre : pre <+: stream bodies) :
    (decoder.feedAll ⟨false, n, []⟩ pre).1.need ≤ sizeof_msg := by
  induction bodies generalizing n pre with
  | nil =>
    have hnil : pre = [] := List.prefix_nil.1 hpre
    subst hnil
    exact hn
  | cons body bodies ih =>
    have hbody : body.length ≤ max_body_length := hb body (by simp)
    have hlen : body.length ≤ sizeof_msg := by unfold sizeof_msg; omega
    rw [stream_cons] at hpre
    rcases pre with _ | ⟨lo, _ | ⟨hi, l⟩⟩
    · exact hn
    · rw [feedAll_halfHeader]
      exact hn
    · obtain ⟨hlo, hpre⟩ := List.cons_prefix_cons.1 hpre
      obtain ⟨hhi, hpre⟩ := List.cons_prefix_cons.1 hpre
      rw [hlo, hhi, feedAll_frame (by unfold max_body_length at hbody; omega)]
      -- the part ends in the body, with an empty body, or after it
      by_cases hshort : l.length < body.length
      · rw [feedAll_shortBody hshort]
        exact hlen
      by_cases hnil : l = []
      · subst hnil
        exact hlen
      · have hrest : l.drop body.length <+: stream bodies := by
          have hdrop := hpre.drop body.length
          rwa [List.drop_left] at hdrop
        rw [feedAll_body (by omega) hnil]
        exact ih (fun c hc => hb c (by simp [hc])) hlen hrest

private theorem lengthsFit_stream {bodies : List (List UInt8)} (hb : ∀ body ∈ bodies, body.length ≤ max_body_length) :
    LengthsFit Parser.start (stream bodies) :=
  fun _ hpre => need_le_of_prefix_stream hb (by decide) ((List.mem_inits _ _).1 hpre)

private theorem length_lt_of_le {bodies : List (List UInt8)} (hb : ∀ body ∈ bodies, body.length ≤ max_body_length) :
    ∀ body ∈ bodies, body.length < 65536 := by
  intro body hbody
  have hle := hb body hbody
  unfold max_body_length at hle
  omega

/-- A stream of frames without an empty body at its end, in chunks that end at the ends of headers and bodies. -/
private theorem received_stream (hreads : S.QuietReads) {w : World σ} {v : UInt32} {p b : Nat}
    (hw : w.control.Reading v p b Parser.start) {bodies chunks : List (List UInt8)}
    (hb : ∀ body ∈ bodies, body.length ≤ max_body_length) (hc : chunks.flatten = stream bodies)
    (hcut : ∀ i, IsCut bodies (chunks.take i).flatten.length) (hlast : bodies.getLast? ≠ some []) :
    ∃ n, (run (Process.step S) (.running w) (chunks.map (.readable b))).Received w v p b
      (some ⟨false, n, []⟩) bodies := by
  have hfit : LengthsFit Parser.start chunks.flatten := by
    rw [hc]
    exact lengthsFit_stream hb
  have hclean : ∀ i, (decoder.feedAll Parser.start (chunks.take i).flatten).1.clean = true :=
    (clean_chunks_iff (length_lt_of_le hb) hc 2).2 hcut
  have hfeed : decoder.feedAll Parser.start chunks.flatten = _ :=
    (congrArg _ hc).trans (feedAll_stream (length_lt_of_le hb) 2)
  rw [if_neg hlast] at hfeed
  have hrun := run_chunks hreads chunks hw hfit
  rw [feedChunks_of_clean rfl hclean, hfeed] at hrun
  exact ⟨_, hrun⟩

/-- The bodies were passed to `HandleEvent` for `v` since `w`, no others were, and the connection is open. -/
def Process.Delivered (s : Process σ) (w : World σ) (v : UInt32) (p b : Nat) (bodies : List (List UInt8)) : Prop :=
  ∃ P, s.Received w v p b (some P) bodies

/-- What became of a connection is determined. -/
private theorem Process.Received.unique {s : Process σ} {w : World σ} {v : UInt32} {p b : Nat} {P : Option Parser}
    {out bodies : List (List UInt8)} (h : s.Received w v p b P out) (hd : s.Delivered w v p b bodies) :
    P.isSome ∧ out = bodies := by
  obtain ⟨w', rfl, hout, hstate⟩ := h
  obtain ⟨P', w'', hw, hbodies, hreading⟩ := hd
  cases hw
  refine ⟨?_, List.append_cancel_left (hout.symm.trans hbodies)⟩
  cases P with
  | some P => rfl
  | none =>
    have hopen := hreading.bev
    rw [hstate.2] at hopen
    cases hopen

/-- The bodies of a stream of frames reach `HandleEvent` and the connection stays open exactly when every chunk ends
at the end of a header or of a body and the last body is not empty. -/
theorem delivered_iff {N : Type} [Field N] [LinearOrder N] [FloorRing N] [Lua.LuaMath N] (H : Lua.Host N)
    {w : World (Lua.State N)} {v : UInt32} {p b : Nat} (hw : w.control.Reading v p b Parser.start)
    {bodies chunks : List (List UInt8)} (hb : ∀ body ∈ bodies, body.length ≤ max_body_length)
    (hc : chunks.flatten = stream bodies) :
    (run (Process.step (Lua.mainScripts H)) (.running w) (chunks.map (.readable b))).Delivered w v p b bodies ↔
      (∀ i, IsCut bodies (chunks.take i).flatten.length) ∧ bodies.getLast? ≠ some [] := by
  have hreads := Lua.mainScripts_quietReads H
  constructor
  · intro hd
    have hfit : LengthsFit Parser.start chunks.flatten := by
      rw [hc]
      exact lengthsFit_stream hb
    obtain ⟨hsome, hout⟩ := (run_chunks hreads chunks hw hfit).unique hd
    refine ⟨?_, fun hlast => ?_⟩
    · exact (clean_chunks_iff (length_lt_of_le hb) hc 2).1 ((feedChunks_isSome_iff rfl chunks).1 hsome)
    · -- the empty body at the end is still pending
      obtain ⟨P, hP⟩ := Option.isSome_iff_exists.1 hsome
      have hfeed := feedAll_of_feedChunks hP
      rw [hc, hout, Parser.start, feedAll_stream (length_lt_of_le hb), if_pos hlast, Prod.mk.injEq] at hfeed
      have hlen := congrArg List.length hfeed.2
      have hpos : 0 < bodies.length := List.length_pos_of_mem (List.mem_of_getLast? hlast)
      rw [List.length_dropLast] at hlen
      omega
  · rintro ⟨hcut, hlast⟩
    obtain ⟨n, hrun⟩ := received_stream hreads hw hb hc hcut hlast
    exact ⟨_, hrun⟩

/-! ### Cuts that work and cuts that do not -/

theorem oneConnection_reading : oneConnection.control.Reading 1 0 0 Parser.start := by
  have hinit := World.init_serving (Lua.State.init : Lua.State ℝ)
  obtain ⟨w, hw, hk⟩ := Process.step_quiet (S := Lua.mainScripts Lua.Host.raising) hinit.valid (.accept 0)
    (fun _ _ => trivial) trivial
  have hone : oneConnection = w := by
    unfold oneConnection
    rw [run_cons, run_nil, hw]
    rfl
  rw [hone, hk]
  exact hinit.accept_reading (World.init_freshId _) _

/-- A header and its body may come in two chunks. -/
theorem delivered_header_body :
    (run (Process.step (Lua.mainScripts Lua.Host.raising)) (.running oneConnection)
      ([[1, 0], [65]].map (.readable 0))).Delivered oneConnection 1 0 0 [[65]] := by
  have hle : ∀ body ∈ [[(65 : UInt8)]], body.length ≤ max_body_length := by decide
  have hcut : [[1, 0], [65]].flatten = stream [[65]] := rfl
  refine (delivered_iff Lua.Host.raising oneConnection_reading hle hcut).2 ⟨?_, by decide⟩
  intro i
  rcases i with _ | _ | i
  · exact Or.inl rfl
  · exact Or.inr (Or.inl rfl)
  · simp [IsCut]

/-- The two bytes of a header may not. -/
theorem halved_header_not_delivered :
    [[1], [0, 65]].flatten = stream [[65]] ∧
    ¬ (run (Process.step (Lua.mainScripts Lua.Host.raising)) (.running oneConnection)
      ([[1], [0, 65]].map (.readable 0))).Delivered oneConnection 1 0 0 [[65]] := by
  refine ⟨rfl, fun hd => ?_⟩
  have hrun :=
    run_chunks (Lua.mainScripts_quietReads Lua.Host.raising) [[1], [0, 65]] oneConnection_reading (by decide)
  exact absurd (hrun.unique hd).1 (by decide)

/-! ### One callback -/

/-- What the server has read of each live connection's bytes explains the state of its reader. -/
def Control.Decoded (k : Control) : Prop :=
  ∀ p c, k.clients.cell p = some c → ∃ past, (decoder.feedAll Parser.start past).1 = c.parser

private theorem Control.Decoded.next {k : Control} (h : k.Decoded) (cb : Callback τ) : (k.next cb).Decoded := by
  refine Control.next_clients cb h (fun _ _ => ⟨[], rfl⟩) ?_
  intro b chunk e p c _ _ _ hc hclean
  obtain ⟨past, hpast⟩ := h p c hc
  refine ⟨past ++ (e.input ++ chunk), ?_⟩
  rw [feedAll_append, hpast, Parser.eq_of_clean hclean]

/-- In every run the readers have decoded what they have read. -/
theorem Process.decoded (S : Scripts σ τ) (lua : σ) (cbs : List (Callback τ)) :
    Always (Process.step S) (fun s => s.Valid ∧ s.Running Control.Decoded) (.running (World.init lua)) cbs := by
  have hinit : (World.init lua).control.Decoded := by
    intro p c hc
    exact absurd hc (by simp)
  refine Always.of_invariant ?_ ⟨World.init_valid lua, hinit⟩ cbs
  rintro s cb ⟨hv, hd⟩
  refine ⟨Process.step_valid hv cb, ?_⟩
  cases s with
  | crashed f w => trivial
  | running w => exact Process.step_of_next hv (Control.Decoded.next hd cb)

/-- One read callback.  The bytes read so far are `past`, and `out` are the bodies completed by the bytes in the
buffer: they are dispatched in order.  If the bytes end at the end of a header or of a body, they are consumed and the
reader is left as the whole stream says; otherwise the client is removed. -/
theorem socket_read_cb_exact {N : Type} [Field N] [LinearOrder N] [FloorRing N] [Lua.LuaMath N] (H : Lua.Host N)
    {w : World (Lua.State N)} {v : UInt32} {p b : Nat} {c : ClientCtl} {e : BevCtl} (h : Attached w v p b c e)
    (hs : c.StatusOk) {past : List UInt8} (hpast : (decoder.feedAll Parser.start past).1 = c.parser)
    (hfit : LengthsFit c.parser e.input) :
    ∃ w' P out, socket_read_cb (Lua.mainScripts H) b v w = .ok () w' ∧
      decoder.feedAll Parser.start (past ++ e.input) = (P, (decoder.feedAll Parser.start past).2 ++ out) ∧
      (P.clean = true ∧ w'.control = w.control.reader p b P [] (out.map (.HandleEvent v)) ∨
        P.clean = false ∧ w'.control = w.control.close v p b (out.map (.HandleEvent v) ++
          kickLine P v :: [.HandleDisConnect v, .delete p, .free b])) := by
  have hout := socket_read_cb_outcome (S := Lua.mainScripts H) h hs
  cases hr : socket_read_cb (Lua.mainScripts H) b v w with
  | error f w' => exact absurd ⟨Lua.mainScripts_quietReads H, hfit⟩ (hout.error f w' hr).2.2
  | ok u w' =>
    have hk := hout.ok w' hr
    refine ⟨w', (decoder.feedAll c.parser e.input).1, (decoder.feedAll c.parser e.input).2, rfl, ?_, ?_⟩
    · rw [feedAll_append, hpast]
    · rw [Control.afterRead] at hk
      cases hclean : (decoder.feedAll c.parser e.input).1.clean with
      | true =>
        rw [if_pos hclean] at hk
        exact Or.inl ⟨rfl, hk⟩
      | false =>
        rw [if_neg (by simp [hclean])] at hk
        exact Or.inr ⟨rfl, hk⟩

private theorem Control.Reading.attached {w : World σ} {v : UInt32} {p b : Nat} {P : Parser}
    (h : w.control.Reading v p b P) (chunk : List UInt8) :
    ∃ c, Attached { w with bevs := w.bevs.update b fun e => { e with input := e.input ++ chunk } } v p b c
      ⟨v, chunk⟩ ∧ c.StatusOk ∧ c.parser = P := by
  obtain ⟨c, hc, hP⟩ := h.client
  obtain ⟨e, he, hctl⟩ := Option.map_eq_some_iff.1 h.bev
  have hinput : e.input = [] := congrArg BevCtl.input hctl
  have hk := control_readable w he chunk
  rw [hinput, List.nil_append] at hk
  refine ⟨c, ⟨?_, h.registered, ?_, ?_⟩, h.valid.status p c hc, hP⟩
  · rw [hk]
    exact h.valid.sound.setInput b chunk
  · rw [hk]
    exact hc
  · rw [hk]
    simp [Control.setInput, h.bev]

/-- A first message of one byte, whose handler raises. -/
theorem socket_read_cb_one_byte :
    ∃ w' P out, socket_read_cb (Lua.mainScripts Lua.Host.raising) 0 1
        { oneConnection with
          bevs := oneConnection.bevs.update 0 fun e => { e with input := e.input ++ [1, 0, 65] } } = .ok () w' ∧
      decoder.feedAll Parser.start ([] ++ [1, 0, 65]) = (P, (decoder.feedAll Parser.start []).2 ++ out) ∧
      (P.clean = true ∧ w'.control = (World.control { oneConnection with
          bevs := oneConnection.bevs.update 0 fun e => { e with input := e.input ++ [1, 0, 65] } }).reader 0 0 P []
            (out.map (.HandleEvent 1)) ∨
        P.clean = false ∧ w'.control = (World.control { oneConnection with
          bevs := oneConnection.bevs.update 0 fun e => { e with input := e.input ++ [1, 0, 65] } }).close 1 0 0
            (out.map (.HandleEvent 1) ++ kickLine P 1 :: [.HandleDisConnect 1, .delete 0, .free 0])) := by
  obtain ⟨c, h, hs, hP⟩ := oneConnection_reading.attached [1, 0, 65]
  have hfit : LengthsFit c.parser [1, 0, 65] := by
    rw [hP]
    decide
  exact socket_read_cb_exact Lua.Host.raising h hs hP.symm hfit

/-! ### Conversations -/

/-- `do_write` queues the frames of the messages.  Delivered in chunks that end between a header and its body or
between frames, they are passed to `HandleEvent` as they were sent, and the reader waits for a header. -/
theorem conversation {N : Type} [Field N] [LinearOrder N] [FloorRing N] [Lua.LuaMath N] (H : Lua.Host N)
    {ws : World σ} {q : Nat} {c : Client} {e : Bufferevent} (hc : ws.clients.cell q = some c)
    (he : ws.bevs.cell c.bev = some e) {w : World (Lua.State N)} {v : UInt32} {p b : Nat}
    (hw : w.control.Reading v p b Parser.start) {msgs : List (List UInt8)}
    (hmsgs : ∀ msg ∈ msgs, 1 ≤ msg.length ∧ msg.length ≤ max_body_length) :
    ∃ ws' bytes, writeAll q msgs ws = .ok () ws' ∧ ws'.output c.bev = some (e.output ++ bytes) ∧
      bytes = stream msgs ∧
      ∀ chunks : List (List UInt8), chunks.flatten = bytes → (∀ i, IsCut msgs (chunks.take i).flatten.length) →
        ∃ n, (run (Process.step (Lua.mainScripts H)) (.running w) (chunks.map (.readable b))).Received w v p b
          (some ⟨false, n, []⟩) msgs := by
  have hle : ∀ msg ∈ msgs, msg.length ≤ max_body_length := fun msg hmsg => (hmsgs msg hmsg).2
  have hlast : msgs.getLast? ≠ some [] := by
    intro hlast
    have hpos := (hmsgs [] (List.mem_of_getLast? hlast)).1
    simp at hpos
  obtain ⟨ws', hws', hout⟩ := writeAll_output hle hc he
  refine ⟨ws', stream msgs, hws', hout, rfl, fun chunks hbytes hcut => ?_⟩
  exact received_stream (Lua.mainScripts_quietReads H) hw hle hbytes hcut hlast

/-- Two messages, cut behind the first header and behind the first body. -/
theorem conversation_two_messages :
    ∃ ws', writeAll 0 [[0x80, 0], [65]] oneConnection = .ok () ws' ∧
      ws'.output 0 = some [2, 0, 0x80, 0, 1, 0, 65] ∧
      ∃ n, (run (Process.step (Lua.mainScripts Lua.Host.raising)) (.running oneConnection)
        ([[2, 0], [0x80, 0], [1, 0, 65]].map (.readable 0))).Received oneConnection 1 0 0 (some ⟨false, n, []⟩)
          [[0x80, 0], [65]] := by
  have hmsgs : ∀ msg ∈ [[(0x80 : UInt8), 0], [65]], 1 ≤ msg.length ∧ msg.length ≤ max_body_length := by decide
  obtain ⟨ws', bytes, hws', hout, rfl, hreceived⟩ := conversation Lua.Host.raising oneConnection_connected.client
    oneConnection_connected.bev oneConnection_reading hmsgs
  refine ⟨ws', hws', hout, hreceived [[2, 0], [0x80, 0], [1, 0, 65]] (by decide) fun i => ?_⟩
  rcases i with _ | _ | _ | i
  · exact Or.inl rfl
  · decide
  · decide
  · simp [IsCut]

end LibeventServer

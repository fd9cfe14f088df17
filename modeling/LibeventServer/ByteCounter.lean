import LibeventServer.Callbacks
import LibeventServer.Lib.Loop
import LibeventServer.Lib.Runs
import Mathlib.Order.WellFounded

/-!
# The byte counter of the read loop

`socket_read_cb` takes `DataLen` from the input buffer once and then counts it down itself.  A `Counter` is what the
loop goes by at a test of `DataLen`, and `Counter.Turn` a turn after which it tests again.  Turns keep an exact
counter exact (`Counter.Turn.exact`).  While there is something to count, they come to an end if and only if the
status is one the loop knows (`Counter.acc_iff`): a header takes two bytes, and an empty body takes none but leaves
the body status.

The turns of the server are such turns (`Attached.turnEnds`).  `read_loop_counts`: in every run, whatever bytes a
callback reads, the counter is exact at each test, and the loop ends.
-/

namespace LibeventServer

open Loop Relation Runs

variable {σ τ : Type} {S : Scripts σ τ}

/-! ### Counters -/

/-- What the loop goes by when it tests `DataLen`; `buffered` is the number of bytes in the input buffer. -/
structure Counter where
  DataLen : Nat
  m_readStatus : UInt8
  m_needByteCnt : Nat
  buffered : Nat

/-- The status is one of the two the loop knows. -/
def Counter.StatusOk (u : Counter) : Prop := u.m_readStatus = StatusReadHeader ∨ u.m_readStatus = StatusReadbody

/-- A turn after which the loop tests again.  A header announces any length.  A body longer than `read_msg` is copied
over what lies behind `read_msg` and may leave any number in `m_needByteCnt`, with which its length is compared. -/
inductive Counter.Turn : Counter → Counter → Prop
  | header {D k n : Nat} (k' : Nat) (hD : 0 < D) (hn : header_length ≤ n) :
      Turn ⟨D, StatusReadHeader, k, n⟩ ⟨subSize D header_length, StatusReadbody, k', n - header_length⟩
  | body {D k n : Nat} (k' : Nat) (hD : 0 < D) (hcopy : min k n ≤ sizeof_msg → k' = k) (hlen : min k n = k') :
      Turn ⟨D, StatusReadbody, k, n⟩ ⟨subSize D (min k n), StatusReadHeader, k', n - min k n⟩
  | other {D k n : Nat} {s : UInt8} (hD : 0 < D) (hs : s ≠ StatusReadHeader) (hs' : s ≠ StatusReadbody) :
      Turn ⟨D, s, k, n⟩ ⟨D, s, k, n⟩

/-- The counter is the number of buffered bytes, and the status is one the loop knows. -/
structure Counter.Exact (u : Counter) : Prop where
  counts : u.DataLen = u.buffered
  status : u.StatusOk

/-- A bound of the turns to come. -/
def Counter.rank (u : Counter) : Nat := u.buffered + if u.m_readStatus = StatusReadbody then 1 else 0

namespace Counter

variable {u u' : Counter}

private theorem Turn.statusOk (h : Turn u u') (hu : u.StatusOk) : u'.StatusOk := by
  cases h with
  | header k' hD hn => exact Or.inr rfl
  | body k' hD hcopy hlen => exact Or.inl rfl
  | other hD hs hs' => exact hu

theorem Turn.exact (h : Turn u u') (hu : u.Exact) : u'.Exact := by
  refine ⟨?_, h.statusOk hu.status⟩
  have hcounts := hu.counts
  cases h with
  | header k' hD hn =>
    simp only at hcounts ⊢
    rw [hcounts, subSize_of_le hn]
  | body k' hD hcopy hlen =>
    simp only at hcounts ⊢
    rw [hcounts, subSize_of_le (Nat.min_le_right _ _)]
  | other hD hs hs' => exact hcounts

private theorem Turn.rank_lt (h : Turn u u') (hu : u.StatusOk) : u'.rank < u.rank := by
  cases h with
  | header k' hD hn =>
    have hne : StatusReadHeader ≠ StatusReadbody := by decide
    have hlen : header_length = 2 := rfl
    simp only [rank, if_neg hne, ↓reduceIte]
    omega
  | body k' hD hcopy hlen =>
    have hne : StatusReadHeader ≠ StatusReadbody := by decide
    simp only [rank, if_neg hne, ↓reduceIte]
    omega
  | other hD hs hs' =>
    rcases hu with hu | hu
    · exact absurd hu hs
    · exact absurd hu hs'

private theorem rank_le (u : Counter) : u.rank ≤ u.buffered + 1 := by
  unfold rank
  split <;> omega

private theorem Turn.buffered_le (h : Turn u u') : u'.buffered ≤ u.buffered := by
  cases h with
  | header k' hD hn => exact Nat.sub_le _ _
  | body k' hD hcopy hlen => exact Nat.sub_le _ _
  | other hD hs hs' => exact Nat.le_refl _

/-- No run of turns goes on for ever, exactly if there is nothing to count or the status is one the loop knows. -/
theorem acc_iff : Acc (fun u' u => Turn u u') u ↔ u.DataLen = 0 ∨ u.StatusOk := by
  constructor
  · intro h
    by_contra hnot
    rw [not_or, StatusOk, not_or] at hnot
    obtain ⟨hD, hs, hs'⟩ := hnot
    have hself : Turn u u := .other (Nat.pos_of_ne_zero hD) hs hs'
    have hchain : ∃ f : Nat → Counter, f 0 = u ∧ ∀ n, Turn (f n) (f (n + 1)) := ⟨fun _ => u, rfl, fun _ => hself⟩
    exact not_acc_iff_exists_descending_chain.2 hchain h
  · rintro (hD | hs)
    · refine Acc.intro u fun u' h => ?_
      cases h with
      | header k' hD' hn => exact absurd hD (Nat.ne_of_gt hD')
      | body k' hD' hcopy hlen => exact absurd hD (Nat.ne_of_gt hD')
      | other hD' hs hs' => exact absurd hD (Nat.ne_of_gt hD')
    · exact acc_of_rank (I := StatusOk) (fun u u' hu h => ⟨h.statusOk hu, h.rank_lt hu⟩) hs

private theorem Exact.chain (hu : u.Exact) (h : ReflTransGen Turn u u') : u'.Exact :=
  keeps_of_reflTransGen (I := Exact) (fun _ _ hu hturn => Turn.exact hturn hu) hu h

end Counter

/-! ### The turns of the server -/

/-- What the loop goes by for a client and its bufferevent, when `DataLen` is `D`. -/
def ClientCtl.counter (c : ClientCtl) (D : Nat) (e : BevCtl) : Counter :=
  ⟨D, c.m_readStatus, c.m_needByteCnt, e.input.length⟩

private theorem readLoop_eq_loop (b p : Nat) (v : UInt32) (fuel D : Nat) :
    readLoop S b p v fuel D = loop (0 < ·) (readIteration S b p v) .hang fuel D := by
  induction fuel generalizing D with
  | zero => rfl
  | succ fuel ih =>
    rw [readLoop, loop]
    by_cases hD : 0 < D
    · rw [if_pos hD, if_pos hD]
      funext w
      cases hr : readIteration S b p v D w with
      | error f w' => rw [EStateM.bind_error hr, EStateM.bind_error hr]
      | ok o w' =>
        rw [EStateM.bind_ok hr, EStateM.bind_ok hr]
        cases o with
        | none => rfl
        | some D' => exact congrFun (ih D') w'
    · rw [if_neg hD, if_neg hD]

variable {w w' : World σ} {v : UInt32} {p b D D' : Nat} {c : ClientCtl} {e : BevCtl}

/-- A turn subtracts what `bufferevent_read` returned. -/
private theorem Attached.readIteration_subtracts (h : Attached w v p b c e) (hs : c.StatusOk)
    (hr : readIteration S b p v D w = .ok (some D') w') :
    ∃ size len w₁, bufferevent_read b p size w = .ok len w₁ ∧ D' = subSize D len := by
  rcases hs with hs | hs
  · rw [readIteration_header h hs] at hr
    unfold readHeader at hr
    obtain ⟨len, w₁, hread, hr⟩ := EStateM.of_bind_ok hr
    refine ⟨_, len, w₁, hread, ?_⟩
    split at hr
    · exact absurd (EStateM.eq_of_bind_pure hr) (by simp)
    · obtain ⟨_, w₂, -, hr⟩ := EStateM.of_bind_ok hr
      exact Option.some.inj (EStateM.eq_of_bind_pure hr)
  · rw [readIteration_body h hs] at hr
    unfold readBody at hr
    obtain ⟨len, w₁, hread, hr⟩ := EStateM.of_bind_ok hr
    refine ⟨_, len, w₁, hread, ?_⟩
    obtain ⟨c₁, w₂, -, hr⟩ := EStateM.of_bind_ok hr
    split at hr
    · exact absurd (EStateM.eq_of_bind_pure hr) (by simp)
    · obtain ⟨_, w₃, -, hr⟩ := EStateM.of_bind_ok hr
      cases hload : c₁.read_msg.load len with
      | none =>
        simp only [hload] at hr
        cases hr
      | some msg =>
        simp only [hload] at hr
        exact Option.some.inj (EStateM.eq_of_bind_pure hr)

private theorem kick_ends (h : Attached w v p b c e) (line : Event) :
    (∃ w', (kick S line b v >>= fun _ => pure none) w = .ok (none : Option Nat) w') ∨
    ∃ w', (kick S line b v >>= fun _ => pure (none : Option Nat)) w = .error .overflow w' ∧ ¬ S.QuietReads := by
  have hout := kick_outcome (S := S) h.sound line h.registered h.bev
  cases hr : kick S line b v w with
  | ok u w' => exact Or.inl ⟨w', EStateM.bind_ok hr⟩
  | error f w' =>
    obtain ⟨rfl, -, hq⟩ := hout.error f w' hr
    exact Or.inr ⟨w', EStateM.bind_error hr, hq⟩

/-- A turn goes on to the next test, leaves the callback or stops at an overflow; where the handlers do not send, that
takes more bytes than `read_msg` has. -/
def TurnEnds (S : Scripts σ τ) (v : UInt32) (p b : Nat) (w : World σ) (c : ClientCtl) (e : BevCtl) : Prop :=
  (∃ D' w' c' e', readIteration S b p v e.input.length w = .ok (some D') w' ∧ Attached w' v p b c' e' ∧
    (c.counter e.input.length e).Turn (c'.counter D' e')) ∨
  (∃ w', readIteration S b p v e.input.length w = .ok none w') ∨
  ∃ w', readIteration S b p v e.input.length w = .error .overflow w' ∧
    ¬ (S.QuietReads ∧ e.input.length ≤ sizeof_msg)

private theorem readHeader_ends (h : Attached w v p b c e) (hs : c.m_readStatus = StatusReadHeader)
    (hnil : e.input ≠ []) : TurnEnds S v p b w c e := by
  have hD : 0 < e.input.length := List.length_pos_iff.2 hnil
  have hiter := readIteration_header (S := S) h hs e.input.length
  rcases hinput : e.input with _ | ⟨lo, _ | ⟨hi, rest⟩⟩
  · exact absurd hinput hnil
  · -- one byte is buffered, and the client is kicked
    obtain ⟨w₁, h₁, -, hk⟩ := readHeader_half (S := S) h hinput e.input.length
    rcases kick_ends (S := S) (h.setInput hk) (.headKick v) with ⟨w', hkick⟩ | ⟨w', hkick, hq⟩
    · exact Or.inr (Or.inl ⟨w', hiter.trans (h₁.trans hkick)⟩)
    · exact Or.inr (Or.inr ⟨w', hiter.trans (h₁.trans hkick), fun hsafe => hq hsafe.1⟩)
  · obtain ⟨w₁, h₁, -, hk⟩ := readHeader_full (S := S) h hinput e.input.length
    refine Or.inl ⟨_, w₁, _, _, hiter.trans h₁, h.reader hk, ?_⟩
    have hrest : rest.length = e.input.length - header_length := by rw [hinput]; rfl
    have hn : header_length ≤ e.input.length := by
      rw [hinput]
      exact Nat.le_add_left 2 rest.length
    simp only [ClientCtl.counter, hs, hrest]
    exact .header _ hD hn

private theorem readBody_ends (h : Attached w v p b c e) (hs : c.m_readStatus = StatusReadbody)
    (hnil : e.input ≠ []) : TurnEnds S v p b w c e := by
  have hD : 0 < e.input.length := List.length_pos_iff.2 hnil
  have hiter := readIteration_body (S := S) h hs e.input.length
  by_cases hcopy : (e.input.take c.m_needByteCnt).length ≤ sizeof_msg
  · rw [List.length_take] at hcopy
    by_cases hlen : c.m_needByteCnt ≤ e.input.length
    · have hmin : min c.m_needByteCnt e.input.length = c.m_needByteCnt := Nat.min_eq_left hlen
      rcases readBody_full (S := S) h rfl (by omega) hlen e.input.length with ⟨w₁, h₁, -, hk⟩ | ⟨w₁, h₁, -, -, hq⟩
      · refine Or.inl ⟨_, w₁, _, _, hiter.trans h₁, h.reader hk, ?_⟩
        have hturn := Counter.Turn.body c.m_needByteCnt hD (fun _ => rfl) hmin
        rw [hmin, ← List.length_drop] at hturn
        rw [ClientCtl.counter, hs]
        exact hturn
      · exact Or.inr (Or.inr ⟨w₁, hiter.trans h₁, fun hsafe => hq hsafe.1⟩)
    · -- part of the body is buffered, and the client is kicked
      obtain ⟨w₁, h₁, -, hk⟩ := readBody_short (S := S) h rfl (by omega) (by omega) e.input.length
      rcases kick_ends (S := S) (h.setInput hk) (.bodyKick v) with ⟨w', hkick⟩ | ⟨w', hkick, hq⟩
      · exact Or.inr (Or.inl ⟨w', hiter.trans (h₁.trans hkick)⟩)
      · exact Or.inr (Or.inr ⟨w', hiter.trans (h₁.trans hkick), fun hsafe => hq hsafe.1⟩)
  · have hover := readBody_overflow (S := S) h (Nat.lt_of_not_le hcopy) e.input.length
    refine Or.inr (Or.inr ⟨_, hiter.trans hover, fun hsafe => hcopy ?_⟩)
    exact (List.length_take_le' _ _).trans hsafe.2

theorem Attached.turnEnds (h : Attached w v p b c e) (hs : c.StatusOk) (hnil : e.input ≠ []) :
    TurnEnds S v p b w c e := by
  rcases hs with hs | hs
  · exact readHeader_ends h hs hnil
  · exact readBody_ends h hs hnil

/-! ### The loop of the server -/

/-- The loop that began in `w₀` with `D₀` tests `D` in the world `w`. -/
def AtTest (S : Scripts σ τ) (v : UInt32) (p b : Nat) (w₀ : World σ) (D₀ D : Nat) (w : World σ) : Prop :=
  Reaches (0 < ·) (readIteration S b p v) (D₀, w₀) (D, w)

/-- At the test `x` the client is registered, and the loop goes by the exact counter `u`. -/
private def Counted (v : UInt32) (p b : Nat) (x : Nat × World σ) (u : Counter) : Prop :=
  ∃ c e, Attached x.2 v p b c e ∧ u = c.counter x.1 e ∧ u.Exact

private theorem Counted.turn {x y : Nat × World σ} {u : Counter} (hx : Counted v p b x u)
    (h : Loop.Turn (0 < ·) (readIteration S b p v) x y) : ∃ u', u.Turn u' ∧ Counted v p b y u' := by
  obtain ⟨D, w⟩ := x
  obtain ⟨D₁, w₁⟩ := y
  obtain ⟨c, e, ha, rfl, hu⟩ := hx
  obtain ⟨hD, hr⟩ := h
  have hcounts : D = e.input.length := hu.counts
  subst hcounts
  rcases ha.turnEnds (S := S) hu.status (List.length_pos_iff.1 hD) with
    ⟨D', w', c', e', hr', ha', hturn⟩ | ⟨w', hr'⟩ | ⟨w', hr', -⟩
  · cases hr.symm.trans hr'
    exact ⟨_, hturn, c', e', ha', rfl, hturn.exact hu⟩
  · cases hr.symm.trans hr'
  · cases hr.symm.trans hr'

/-- The read loop of client `p`, begun in `w₀` with `DataLen = D₀`.  At each test `DataLen` is the number of bytes
still in the input buffer and the status is one of the two; no read of the turn returns more than `DataLen`, and the
turn subtracts what it returned; the turns to come end and keep the counter exact, also after a body longer than
`read_msg`.  More fuel changes nothing: the loop returns, or it stops at an overflow, which takes more bytes than
`read_msg` has or a handler that sends. -/
structure LoopCounts (S : Scripts σ τ) (v : UInt32) (p b : Nat) (w₀ : World σ) (D₀ : Nat) : Prop where
  exact : ∀ D w, AtTest S v p b w₀ D₀ D w →
    ∃ c e, w.clients.cell p = some c ∧ w.bevs.cell b = some e ∧ D = e.input.length ∧
      (c.m_readStatus = StatusReadHeader ∨ c.m_readStatus = StatusReadbody)
  no_wrap : ∀ D w size len w₁, AtTest S v p b w₀ D₀ D w → bufferevent_read b p size w = .ok len w₁ → len ≤ D
  subtracts : ∀ D w D' w', AtTest S v p b w₀ D₀ D w → readIteration S b p v D w = .ok (some D') w' →
    ∃ size len w₁, bufferevent_read b p size w = .ok len w₁ ∧ D' = D - len
  turns_end : ∀ D w c e, AtTest S v p b w₀ D₀ D w → w.clients.cell p = some c → w.bevs.cell b = some e →
    Acc (fun u' u => Counter.Turn u u') (c.ctl.counter D e.ctl) ∧
      ∀ u, ReflTransGen Counter.Turn (c.ctl.counter D e.ctl) u → u.Exact
  ends : ∃ r, (∀ fuel, readFuel D₀ ≤ fuel → readLoop S b p v fuel D₀ w₀ = r) ∧
    ((∃ w', r = .ok () w') ∨ ∃ w', r = .error .overflow w' ∧ ¬ (S.QuietReads ∧ D₀ ≤ sizeof_msg))

/-- At each test the client is registered, the counter is exact, and no bytes were added. -/
private theorem Attached.atTest {w₁ : World σ} (h : Attached w v p b c e) (hs : c.StatusOk)
    (ht : AtTest S v p b w e.input.length D w₁) :
    ∃ c₁ e₁, Attached w₁ v p b c₁ e₁ ∧ (c₁.counter D e₁).Exact ∧ e₁.input.length ≤ e.input.length := by
  have hstart : Counted v p b (e.input.length, w) (c.counter e.input.length e) := ⟨c, e, h, rfl, rfl, hs⟩
  obtain ⟨u, hchain, c₁, e₁, h₁, rfl, hu⟩ := ht.simulated (fun _ _ _ hx hturn => hx.turn hturn) hstart
  refine ⟨c₁, e₁, h₁, hu, ?_⟩
  exact keeps_of_reflTransGen (I := fun u => u.buffered ≤ e.input.length)
    (fun _ _ hle hturn => (Counter.Turn.buffered_le hturn).trans hle) (Nat.le_refl _) hchain

private theorem Attached.loop_ends (h : Attached w v p b c e) (hs : c.StatusOk) :
    ∃ r, (∀ fuel, readFuel e.input.length ≤ fuel → readLoop S b p v fuel e.input.length w = r) ∧
      ((∃ w', r = .ok () w') ∨
        ∃ w', r = .error .overflow w' ∧ ¬ (S.QuietReads ∧ e.input.length ≤ sizeof_msg)) := by
  have hstart : Counted v p b (e.input.length, w) (c.counter e.input.length e) := ⟨c, e, h, rfl, rfl, hs⟩
  have hrank : (c.counter e.input.length e).rank ≤ e.input.length + 1 := Counter.rank_le _
  have hsim : ∀ x y u, Counted v p b x u → Loop.Turn (0 < ·) (readIteration S b p v) x y →
      ∃ u', Counted v p b y u' ∧ u'.rank < u.rank := by
    intro x y u hx hturn
    obtain ⟨u', hT, hy⟩ := hx.turn hturn
    obtain ⟨-, -, -, -, hu⟩ := hx
    exact ⟨u', hy, hT.rank_lt hu.status⟩
  obtain ⟨⟨D, w₁⟩, r, hreach, hleaves, hloop⟩ := Loop.loop_ends .hang Counter.rank hsim hstart
  refine ⟨r, fun fuel hfuel => ?_, ?_⟩
  · rw [readLoop_eq_loop]
    have hfuel' : e.input.length + 2 ≤ fuel := hfuel
    exact hloop fuel (by omega)
  · obtain ⟨c₁, e₁, h₁, hu, hle⟩ := h.atTest hs hreach
    have hcounts : D = e₁.input.length := hu.counts
    subst hcounts
    cases hleaves with
    | done hD => exact Or.inl ⟨w₁, rfl⟩
    | returned hD hr => exact Or.inl ⟨_, rfl⟩
    | fault hD hr =>
      right
      rcases h₁.turnEnds (S := S) hu.status (List.length_pos_iff.1 hD) with
        ⟨D', w', c', e', hr', -⟩ | ⟨w', hr'⟩ | ⟨w', hr', hbad⟩
      · cases hr.symm.trans hr'
      · cases hr.symm.trans hr'
      · cases hr.symm.trans hr'
        exact ⟨_, rfl, fun hsafe => hbad ⟨hsafe.1, hle.trans hsafe.2⟩⟩

private theorem Attached.loopCounts (h : Attached w v p b c e) (hs : c.StatusOk) :
    LoopCounts S v p b w e.input.length where
  exact := by
    intro D w₁ ht
    obtain ⟨c₁, e₁, h₁, hu, -⟩ := h.atTest hs ht
    obtain ⟨c', hc', rfl⟩ := Option.map_eq_some_iff.1 h₁.client
    obtain ⟨e', he', rfl⟩ := Option.map_eq_some_iff.1 h₁.bev
    exact ⟨c', e', hc', he', hu.counts, hu.status⟩
  no_wrap := by
    intro D w₁ size len w₂ ht hread
    obtain ⟨c₁, e₁, h₁, hu, -⟩ := h.atTest hs ht
    have hcounts : D = e₁.input.length := hu.counts
    have hlen := h₁.bufferevent_read_ok hread
    omega
  subtracts := by
    intro D w₁ D' w' ht hr
    obtain ⟨c₁, e₁, h₁, hu, -⟩ := h.atTest hs ht
    obtain ⟨size, len, w₂, hread, hD'⟩ := h₁.readIteration_subtracts hu.status hr
    have hcounts : D = e₁.input.length := hu.counts
    have hlen := h₁.bufferevent_read_ok hread
    exact ⟨size, len, w₂, hread, hD'.trans (subSize_of_le (by omega))⟩
  turns_end := by
    intro D w₁ c' e' ht hc' he'
    obtain ⟨c₁, e₁, h₁, hu, -⟩ := h.atTest hs ht
    have hc₁ : c'.ctl = c₁ := by simpa [World.control, hc'] using h₁.client
    have he₁ : e'.ctl = e₁ := by simpa [World.control, he'] using h₁.bev
    rw [hc₁, he₁]
    exact ⟨Counter.acc_iff.2 (Or.inr hu.status), fun u => hu.chain⟩
  ends := h.loop_ends hs

/-- The world in which `socket_read_cb` is called: libevent has put `chunk` behind the input of `b`. -/
def World.received (w : World σ) (b : Nat) (chunk : List UInt8) : World σ :=
  { w with bevs := w.bevs.update b fun b => { b with input := b.input ++ chunk } }

/-- Whatever bytes are read for a connection with a registered client: the callback is the read loop, with `DataLen`
the length of the input, and the loop counts. -/
def Process.LoopsCount (S : Scripts σ τ) : Process σ → Prop
  | .running w => ∀ b e p chunk, w.bevs.cell b = some e → w.AllClients.lookup e.cbarg = some p →
      callback S (.readable b chunk) w = readLoop S b p e.cbarg (readFuel (e.input ++ chunk).length)
        (e.input ++ chunk).length (w.received b chunk) ∧
      LoopCounts S e.cbarg p b (w.received b chunk) (e.input ++ chunk).length
  | .crashed _ _ => True

private theorem Process.loopsCount_of_valid {s : Process σ} (hs : s.Valid) : s.LoopsCount S := by
  cases s with
  | crashed f w => trivial
  | running w =>
    intro b e p chunk hb hv
    obtain ⟨c, -, hc, -⟩ := hs.sound e.cbarg p hv
    have hbev : w.control.bevs.cell b = some e.ctl := by simp [World.control, hb]
    have hstart : Attached w e.cbarg p b c e.ctl := ⟨hs.sound, hv, hc, hbev⟩
    have h : Attached (w.received b chunk) e.cbarg p b c { e.ctl with input := e.input ++ chunk } :=
      hstart.setInput (control_readable w hb chunk)
    refine ⟨?_, h.loopCounts (hs.status p c hc)⟩
    simp only [callback, hb]
    exact h.socket_read_cb_eq

/-- The read loop in every run of the server: its counter is exact, no subtraction wraps, its status is one of the
two, and it ends. -/
theorem read_loop_counts (S : Scripts σ τ) (lua : σ) (cbs : List (Callback τ)) :
    Always (Process.step S) (Process.LoopsCount S) (.running (World.init lua)) cbs := by
  have hvalid : Always (Process.step S) Process.Valid (.running (World.init lua)) cbs := by
    refine Always.of_invariant (fun s cb hs => Process.step_valid hs cb) ?_ cbs
    exact World.init_valid lua
  exact hvalid.mono fun s hs => Process.loopsCount_of_valid hs

end LibeventServer

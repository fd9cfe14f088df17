import LibeventServer.Callbacks
import LibeventServer.Lib.Runs
import LibeventServer.Lua.Main

/-!
# Connections and their clients

While no accept hands out the id of a live connection, the connections are `Serving`: the `i`-th accepted connection
has the client and the bufferevent at address `i`, both are live or neither is, and `AllClients` holds the live ones
under their ids.  A run stays in such states as long as the ids it hands out are fresh (`Process.step_serving`), and
they are fresh if the ids of the live connections stay distinct (`Process.fresh_of_distinct`).
-/

namespace LibeventServer

open Runs

variable {σ τ : Type} {S : Scripts σ τ}

/-- The ids of the live connections are distinct. -/
def Control.Distinct (k : Control) : Prop :=
  ∀ b b' e e', k.bevs.cell b = some e → k.bevs.cell b' = some e' → e.cbarg = e'.cbarg → b = b'

/-- The live connection with bufferevent `b` is served by the client made at its accept. -/
structure Control.Served (k : Control) (b : Nat) (e : BevCtl) (c : ClientCtl) : Prop where
  client : k.clients.cell b = some c
  bev : c.bev = b
  vfd : c.vfd = e.cbarg
  status : c.StatusOk
  registered : k.AllClients.lookup e.cbarg = some b
  input : e.input = []
  accepted : .accept e.cbarg b b ∈ k.trace

/-- Every live connection is served, and there are no other clients. -/
structure Control.Serving (k : Control) : Prop where
  next_eq : k.clients.next = k.bevs.next
  served : ∀ b e, k.bevs.cell b = some e → ∃ c, k.Served b e c
  client : ∀ p c, k.clients.cell p = some c → ∃ e, k.bevs.cell p = some e
  registered : ∀ v p, k.AllClients.lookup v = some p → ∃ e, k.bevs.cell p = some e ∧ e.cbarg = v

theorem Control.Serving.distinct {k : Control} (h : k.Serving) : k.Distinct := by
  intro b b' e e' hb hb' he
  obtain ⟨c, hc⟩ := h.served b e hb
  obtain ⟨c', hc'⟩ := h.served b' e' hb'
  have hreg := hc.registered
  rw [he, hc'.registered] at hreg
  exact (Option.some.inj hreg).symm

theorem Control.Serving.valid {k : Control} (h : k.Serving) : k.Valid where
  sound := by
    intro v p hv
    obtain ⟨e, he, hev⟩ := h.registered v p hv
    obtain ⟨c, hc⟩ := h.served p e he
    exact ⟨c, e, hc.client, hc.vfd.trans hev, by rw [hc.bev]; exact he, hev⟩
  status := by
    intro p c hc
    obtain ⟨e, he⟩ := h.client p c hc
    obtain ⟨c', hc'⟩ := h.served p e he
    rw [hc'.client] at hc
    cases hc
    exact hc'.status

theorem World.init_serving (lua : σ) : (World.init lua).control.Serving where
  next_eq := rfl
  served := by
    intro b e he
    exact absurd he (by simp)
  client := by
    intro p c hc
    exact absurd hc (by simp)
  registered := by
    intro v p hv
    exact absurd hv (by simp [World.init, World.control])

/-! ### Callbacks keep connections served -/

/-- The id about to be handed out belongs to no live connection. -/
def Control.FreshId (k : Control) : Prop := ∀ b e, k.bevs.cell b = some e → e.cbarg ≠ k.globalVfd

theorem World.init_freshId (lua : σ) : (World.init lua).control.FreshId := by
  intro b e hb
  exact absurd hb (by simp)

theorem Control.Serving.notMem_AllClients {k : Control} (h : k.Serving) (hfresh : k.FreshId) :
    k.globalVfd ∉ k.AllClients := by
  intro hmem
  obtain ⟨p, hp⟩ := Finmap.mem_iff.1 hmem
  obtain ⟨e, he, hev⟩ := h.registered _ p hp
  exact hfresh p e he hev

theorem Control.Serving.accept {k : Control} (h : k.Serving) (hfresh : k.FreshId) (es : List Event) :
    (k.accept es).Serving where
  next_eq := by
    show k.clients.next + 1 = k.bevs.next + 1
    rw [h.next_eq]
  served := by
    intro b e hb
    have hnot := h.notMem_AllClients hfresh
    rcases Heap.cell_of_alloc hb with ⟨rfl, rfl⟩ | hb₀
    · -- the connection just accepted
      have hclient := Heap.alloc_cell_self k.clients ⟨k.bevs.next, k.globalVfd, header_length, StatusReadHeader⟩
      rw [h.next_eq] at hclient
      refine ⟨_, hclient, rfl, rfl, Or.inl rfl, ?_, rfl, ?_⟩
      · simp [Control.accept, hnot, h.next_eq]
      · simp [Control.accept, h.next_eq]
    · obtain ⟨c, hc⟩ := h.served b e hb₀
      refine ⟨c, Heap.alloc_cell_of_some _ hc.client, hc.bev, hc.vfd, hc.status, ?_, hc.input, ?_⟩
      · rw [← hc.registered]
        simp [Control.accept, hnot, Finmap.lookup_insert_of_ne _ (hfresh b e hb₀)]
      · exact List.mem_append_left _ hc.accepted
  client := by
    intro p c hc
    rcases Heap.cell_of_alloc hc with ⟨rfl, -⟩ | hc₀
    · rw [h.next_eq]
      exact ⟨_, Heap.alloc_cell_self _ _⟩
    · obtain ⟨e, he⟩ := h.client p c hc₀
      exact ⟨e, Heap.alloc_cell_of_some _ he⟩
  registered := by
    intro v p hv
    simp only [Control.accept, h.notMem_AllClients hfresh, ↓reduceIte] at hv
    -- the new entry is for the new connection; the others are as before
    by_cases hvn : v = k.globalVfd
    · subst hvn
      rw [Finmap.lookup_insert, Option.some.injEq, h.next_eq] at hv
      subst hv
      exact ⟨_, Heap.alloc_cell_self _ _, rfl⟩
    · rw [Finmap.lookup_insert_of_ne _ hvn] at hv
      obtain ⟨e, he, hev⟩ := h.registered v p hv
      exact ⟨e, Heap.alloc_cell_of_some _ he, hev⟩

theorem Control.Serving.close {k : Control} (h : k.Serving) {b : Nat} {e : BevCtl} (hb : k.bevs.cell b = some e)
    (es : List Event) : (k.close e.cbarg b b es).Serving where
  next_eq := h.next_eq
  served := by
    intro b' e' hb'
    obtain ⟨hne, hb₀⟩ := Heap.cell_of_free hb'
    obtain ⟨c, hc⟩ := h.served b' e' hb₀
    have hv : e'.cbarg ≠ e.cbarg := fun hv => hne (h.distinct b' b e' e hb₀ hb hv)
    exact ⟨c, (Heap.free_cell_of_ne _ hne).trans hc.client, hc.bev, hc.vfd, hc.status,
      (Finmap.lookup_erase_ne hv).trans hc.registered, hc.input, List.mem_append_left _ hc.accepted⟩
  client := by
    intro p c hc
    obtain ⟨hne, hc₀⟩ := Heap.cell_of_free hc
    obtain ⟨e', he'⟩ := h.client p c hc₀
    exact ⟨e', (Heap.free_cell_of_ne _ hne).trans he'⟩
  registered := by
    intro v p hv
    have hne : v ≠ e.cbarg := by
      rintro rfl
      simp [Control.close] at hv
    obtain ⟨e', he', hev⟩ := h.registered v p ((Finmap.lookup_erase_ne hne).symm.trans hv)
    have hp : p ≠ b := by
      rintro rfl
      rw [hb] at he'
      cases he'
      exact hne hev.symm
    exact ⟨e', (Heap.free_cell_of_ne _ hp).trans he', hev⟩

private theorem Control.Serving.reader {k : Control} (h : k.Serving) (b : Nat) (P : Parser) (es : List Event) :
    (k.reader b b P [] es).Serving where
  next_eq := h.next_eq
  served := by
    intro b' e' hb'
    by_cases hne : b' = b
    · subst hne
      simp only [Control.reader, Heap.update_cell_self, Option.map_eq_some_iff] at hb'
      obtain ⟨e, he, rfl⟩ := hb'
      obtain ⟨c, hc⟩ := h.served b' e he
      exact ⟨{ c with m_needByteCnt := P.need, m_readStatus := P.status },
        by simp [Control.reader, hc.client], hc.bev,
        hc.vfd, Parser.status_ok P, hc.registered, rfl, List.mem_append_left _ hc.accepted⟩
    · obtain ⟨c, hc⟩ := h.served b' e' ((Heap.update_cell_of_ne _ _ hne).symm.trans hb')
      exact ⟨c, (Heap.update_cell_of_ne _ _ hne).trans hc.client, hc.bev, hc.vfd, hc.status, hc.registered, hc.input,
        List.mem_append_left _ hc.accepted⟩
  client := by
    intro p c hc
    -- the reader was there before, whether or not it is the one that moved
    have hlive : ∃ c₀, k.clients.cell p = some c₀ := by
      by_cases hp : p = b
      · subst hp
        simp only [Control.reader, Heap.update_cell_self, Option.map_eq_some_iff] at hc
        obtain ⟨c₀, hc₀, -⟩ := hc
        exact ⟨c₀, hc₀⟩
      · exact ⟨c, (Heap.update_cell_of_ne _ _ hp).symm.trans hc⟩
    obtain ⟨c₀, hc₀⟩ := hlive
    obtain ⟨e, he⟩ := h.client p c₀ hc₀
    exact ⟨_, Heap.update_cell_of_some he⟩
  registered := by
    intro v p hv
    obtain ⟨e, he, hev⟩ := h.registered v p hv
    refine ⟨_, Heap.update_cell_of_some he, ?_⟩
    split <;> exact hev

/-- An accept hands out an id that no live connection has. -/
def Control.Fresh (k : Control) : Callback τ → Prop
  | .accept _ => k.FreshId
  | _ => True

/-- A callback for a served connection runs for its own client. -/
theorem Control.Served.next_readable {k : Control} {b : Nat} {e : BevCtl} {c : ClientCtl} (h : k.Served b e c)
    (hb : k.bevs.cell b = some e) (chunk : List UInt8) :
    k.next (.readable b chunk : Callback τ) = k.afterRead e.cbarg b b c.parser chunk := by
  simp only [Control.next, hb, h.registered, h.client, h.input, List.nil_append]

theorem Control.Served.next_event {k : Control} {b : Nat} {e : BevCtl} {c : ClientCtl} (h : k.Served b e c)
    (hb : k.bevs.cell b = some e) :
    k.next (.event b : Callback τ) = k.close e.cbarg b b (closing e.cbarg b b) := by
  simp only [Control.next, hb, h.registered]

theorem Control.Serving.next {k : Control} (h : k.Serving) {cb : Callback τ} (hfresh : k.Fresh cb) :
    (k.next cb).Serving := by
  cases cb with
  | accept fd => exact h.accept hfresh _
  | tick choice =>
    refine ⟨h.next_eq, fun b e hb => ?_, h.client, h.registered⟩
    obtain ⟨c, hc⟩ := h.served b e hb
    exact ⟨c, hc.client, hc.bev, hc.vfd, hc.status, hc.registered, hc.input, List.mem_append_left _ hc.accepted⟩
  | event b =>
    cases hb : k.bevs.cell b with
    | none => simpa only [Control.next, hb] using h
    | some e =>
      obtain ⟨c, hc⟩ := h.served b e hb
      rw [hc.next_event hb]
      exact h.close hb _
  | readable b chunk =>
    cases hb : k.bevs.cell b with
    | none => simpa only [Control.next, hb] using h
    | some e =>
      obtain ⟨c, hc⟩ := h.served b e hb
      rw [hc.next_readable hb, Control.afterRead]
      split
      · exact h.reader b _ _
      · exact h.close hb _

/-- Handing out the id of a live connection makes two connections with that id. -/
theorem Control.not_distinct_accept {k : Control} (hfresh : ¬ k.FreshId) (es : List Event) :
    ¬ (k.accept es).Distinct := by
  intro hd
  refine hfresh fun b e hb he => ?_
  have hlt : b < k.bevs.next := Heap.lt_next hb
  have hb' : (k.accept es).bevs.cell b = some e := Heap.alloc_cell_of_some _ hb
  have hnew : (k.accept es).bevs.cell k.bevs.next = some ⟨k.globalVfd, []⟩ := Heap.alloc_cell_self _ _
  have heq := hd b k.bevs.next e _ hb' hnew he
  omega

/-! ### Runs -/

/-- The ids of the live connections are distinct, also where the process has crashed. -/
def Process.Distinct (s : Process σ) : Prop := s.world.control.Distinct

def Process.Serving : Process σ → Prop := Process.Running Control.Serving

/-- The process does not accept a connection under the id of a live one. -/
def Process.Fresh (s : Process σ) (cb : Callback τ) : Prop := s.Running fun k => k.Fresh cb

theorem Process.step_serving {s : Process σ} (hs : s.Serving) {cb : Callback τ} (hfresh : s.Fresh cb) :
    (Process.step S s cb).Serving := by
  cases s with
  | crashed f w => trivial
  | running w => exact Process.step_of_next (S := S) hs.valid (hs.next hfresh)

/-- A step after which the ids are distinct has handed out no id of a live connection. -/
theorem Process.fresh_of_distinct {s : Process σ} (hs : s.Serving) (cb : Callback τ)
    (hd : (Process.step S s cb).Distinct) : s.Fresh cb := by
  cases s with
  | crashed f w => trivial
  | running w =>
    cases cb with
    | tick choice => trivial
    | event b => trivial
    | readable b chunk => trivial
    | accept fd =>
      by_contra hfresh
      have haccept : (Process.step S (.running w) (.accept fd)).world.control =
          w.control.accept [.HandleConnect w.globalVfd] := by
        rcases listener_cb_control (S := S) hs.valid.sound fd with ⟨w', h, -, hk⟩ | ⟨w', h, -, hk, -⟩
        · rw [Process.step, show callback S (.accept fd) w = _ from h]
          exact hk
        · rw [Process.step, show callback S (.accept fd) w = _ from h]
          exact hk
      rw [Process.Distinct, haccept] at hd
      exact Control.not_distinct_accept hfresh _ hd

/-- The scripts of the server send only in a tick. -/
theorem Lua.mainScripts_quietReads {N : Type} [Field N] [LinearOrder N] [FloorRing N] [LuaMath N] (H : Host N) :
    (mainScripts H).QuietReads where
  event := by
    intro v msg lua
    simp only [mainScripts, HandleEvent]
    cases handleEvent H v msg lua <;> trivial
  disconnect _ _ := trivial

end LibeventServer

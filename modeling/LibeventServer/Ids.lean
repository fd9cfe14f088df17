import LibeventServer.Connections
import LibeventServer.Lua.Calls

/-!
# Ids of connections

`globalVfd` is a 32-bit counter and `std::map::insert` keeps an entry that is there.  `ids_own_iff`: the ids of live
connections stay distinct, and a read or a close reaches the connection's own client and no other, exactly as long as
no accept hands out the id of a connection that is still open.  `wrapped_not_own` is a run in which the counter has
come round.
-/

namespace LibeventServer

open Runs

variable {σ τ : Type} {S : Scripts σ τ}

/-- The ids of the live connections are distinct, and `AllClients` holds for each of them the client made at its
accept. -/
structure Control.Own (k : Control) : Prop where
  distinct : k.Distinct
  registered : ∀ b e, k.bevs.cell b = some e →
    ∃ p, k.AllClients.lookup e.cbarg = some p ∧ .accept e.cbarg p b ∈ k.trace

/-- The bufferevent a callback is for. -/
def Callback.bev : Callback τ → Option Nat
  | .readable b _ => some b
  | .event b => some b
  | _ => none

/-- The live connection `b` has the same bufferevent, entry in `AllClients` and client in `k'` as in `k`. -/
structure Control.Keeps (k k' : Control) (b : Nat) : Prop where
  bev : k'.bevs.cell b = k.bevs.cell b
  client : ∀ e p, k.bevs.cell b = some e → k.AllClients.lookup e.cbarg = some p →
    k'.AllClients.lookup e.cbarg = some p ∧ k'.clients.cell p = k.clients.cell p

/-- Connections own their ids and clients, and a read or a close touches no other connection. -/
def Process.IdsOwn (S : Scripts σ τ) : Process σ → Prop
  | .running w => w.control.Own ∧ ∀ cb b w', cb.bev = some b → w.control.bevs.cell b ≠ none →
      Process.step S (.running w) cb = .running w' →
      ∀ b' e', b' ≠ b → w.control.bevs.cell b' = some e' → w.control.Keeps w'.control b'
  | .crashed _ _ => True

private theorem Control.Serving.own {k : Control} (h : k.Serving) : k.Own where
  distinct := h.distinct
  registered := by
    intro b e hb
    obtain ⟨c, hc⟩ := h.served b e hb
    exact ⟨b, hc.registered, hc.accepted⟩

/-- What happens to `b` does not touch `b'`. -/
private theorem Control.Serving.keeps_close {k : Control} (h : k.Serving) {b b' : Nat} {e : BevCtl} (hne : b' ≠ b)
    (hb : k.bevs.cell b = some e) (es : List Event) : k.Keeps (k.close e.cbarg b b es) b' where
  bev := Heap.free_cell_of_ne _ hne
  client := by
    intro e' p hb' hp
    obtain ⟨c', hc'⟩ := h.served b' e' hb'
    have hpb : p = b' := Option.some.inj (hp.symm.trans hc'.registered)
    subst hpb
    have hv : e'.cbarg ≠ e.cbarg := fun hv => hne (h.distinct p b e' e hb' hb hv)
    exact ⟨(Finmap.lookup_erase_ne hv).trans hp, Heap.free_cell_of_ne _ hne⟩

private theorem Control.Serving.keeps_reader {k : Control} (h : k.Serving) {b b' : Nat} (hne : b' ≠ b) (P : Parser)
    (i : List UInt8) (es : List Event) : k.Keeps (k.reader b b P i es) b' where
  bev := Heap.update_cell_of_ne _ _ hne
  client := by
    intro e' p hb' hp
    obtain ⟨c', hc'⟩ := h.served b' e' hb'
    have hpb : p = b' := Option.some.inj (hp.symm.trans hc'.registered)
    subst hpb
    exact ⟨hp, Heap.update_cell_of_ne _ _ hne⟩

theorem Control.Serving.keeps_next {k : Control} (h : k.Serving) {cb : Callback τ} {b b' : Nat}
    (hcb : cb.bev = some b) (hlive : k.bevs.cell b ≠ none) (hne : b' ≠ b) : k.Keeps (k.next cb) b' := by
  obtain ⟨e, hb⟩ := Option.ne_none_iff_exists'.1 hlive
  obtain ⟨c, hc⟩ := h.served b e hb
  cases cb with
  | accept fd => cases hcb
  | tick choice => cases hcb
  | event b₀ =>
    cases hcb
    rw [hc.next_event hb]
    exact h.keeps_close hne hb _
  | readable b₀ chunk =>
    cases hcb
    rw [hc.next_readable hb, Control.afterRead]
    split
    · exact h.keeps_reader hne _ _ _
    · exact h.keeps_close hne hb _

private theorem Process.Serving.idsOwn {s : Process σ} (hs : s.Serving) : s.IdsOwn S := by
  cases s with
  | crashed f w => trivial
  | running w =>
    refine ⟨Control.Serving.own hs, fun cb b w' hcb hlive hstep b' e' hne hb' => ?_⟩
    rcases Process.step_running (S := S) hs.valid cb with ⟨w₁, h, hk⟩ | ⟨w₁, h, -⟩
    · rw [h] at hstep
      cases hstep
      rw [hk]
      exact hs.keeps_next hcb hlive hne
    · rw [h] at hstep
      cases hstep

section

variable {N : Type} [Field N] [LinearOrder N] [FloorRing N] [Lua.LuaMath N]

/-- Ids and clients are own in a run exactly when no accept hands out the id of a live connection. -/
theorem ids_own_iff (H : Lua.Host N) (lua : Lua.State N) (cbs : List (Callback (Lua.Traversals N))) :
    Always (Process.step (Lua.mainScripts H)) (Process.IdsOwn (Lua.mainScripts H)) (.running (World.init lua)) cbs ↔
      Along (Process.step (Lua.mainScripts H)) Process.Fresh (.running (World.init lua)) cbs := by
  have hinit : (Process.running (World.init lua)).Serving := World.init_serving lua
  refine always_iff_along_of_invariant (I := Process.Serving) ?_ (fun s cb hs => Process.step_serving hs) hinit
    hinit.idsOwn cbs
  intro s cb hs
  refine ⟨fun hown => ?_, fun hfresh => (Process.step_serving hs hfresh).idsOwn⟩
  by_contra hfresh
  cases s with
  | crashed f w => exact hfresh trivial
  | running w =>
    -- only an accept hands out an id
    cases cb with
    | tick choice => exact hfresh trivial
    | event b => exact hfresh trivial
    | readable b chunk => exact hfresh trivial
    | accept fd =>
      rcases Process.step_running (S := Lua.mainScripts H) hs.valid (.accept fd) with ⟨w', h, hk⟩ | ⟨w', h, -, hbad⟩
      · rw [h] at hown
        have hd : w'.control.Distinct := hown.1.distinct
        rw [hk] at hd
        exact Control.not_distinct_accept hfresh _ hd
      · exact hbad ⟨fun _ _ => trivial, trivial⟩

end

/-! ### The counter comes round -/

/-- `n` connections, the first with bufferevent `i`, each of them closed before the next is accepted. -/
def churn (τ : Type) : Nat → Nat → List (Callback τ)
  | _, 0 => []
  | i, n + 1 => .accept 0 :: .event i :: churn τ (i + 1) n

/-- The process serves connections of which only the first is live, and the next one will be the `i`-th, with id `g`.
-/
structure Process.FirstLive (s : Process σ) (w : World σ) (i : Nat) (g : UInt32) : Prop where
  running : s = .running w
  serving : w.control.Serving
  first : ∃ e, w.control.bevs.cell 0 = some e ∧ e.cbarg = 1
  only : ∀ b e, w.control.bevs.cell b = some e → b = 0
  next : w.control.bevs.next = i
  globalVfd : w.globalVfd = g
  connected : .HandleConnect 1 ∈ w.trace

private theorem Process.FirstLive.freshId {s : Process σ} {w : World σ} {i : Nat} {g : UInt32} (h : s.FirstLive w i g)
    (hg : g ≠ 1) : w.control.FreshId := by
  intro b e hb he
  have hb0 := h.only b e hb
  subst hb0
  obtain ⟨e', he', hv⟩ := h.first
  rw [hb] at he'
  cases he'
  exact hg (h.globalVfd.symm.trans (he.symm.trans hv))

/-- One connection comes and goes. -/
private theorem Process.FirstLive.step {s : Process σ} {w : World σ} {i : Nat} {g : UInt32} (h : s.FirstLive w i g)
    (hg : g ≠ 1) (hconnect : ∀ v lua, (S.HandleConnect v lua).Quiet) (hreads : S.QuietReads) :
    (Process.step S s (.accept 0)).Distinct ∧
      ∃ w', (Process.step S (Process.step S s (.accept 0)) (.event i)).FirstLive w' (i + 1) (g + 1) := by
  have hk := h.serving
  obtain ⟨w₁, h₁, hk₁⟩ := Process.step_quiet (S := S) hk.valid (.accept 0) hconnect trivial
  have hs₁ : w₁.control.Serving := by
    rw [hk₁]
    exact hk.accept (h.freshId hg) _
  rw [h.running, h₁]
  refine ⟨hs₁.distinct, ?_⟩
  have hb₁ : w₁.control.bevs.cell i = some ⟨w.globalVfd, []⟩ := by
    rw [hk₁, ← h.next]
    exact Heap.alloc_cell_self _ _
  obtain ⟨c, hc⟩ := hs₁.served i _ hb₁
  obtain ⟨w₂, h₂, hk₂⟩ := Process.step_quiet (S := S) hs₁.valid (.event i) hreads trivial
  rw [hc.next_event hb₁] at hk₂
  have hi : 0 ≠ i := by
    obtain ⟨e, he, -⟩ := h.first
    have := Heap.lt_next he
    rw [h.next] at this
    omega
  -- off the address `i` the heap is as it was
  have hcell : ∀ b, b ≠ i → w₂.control.bevs.cell b = w.control.bevs.cell b := by
    intro b hb
    rw [hk₂, Control.close, Heap.free_cell_of_ne _ hb, hk₁]
    exact Heap.alloc_cell_of_ne _ _ (by rw [h.next]; exact hb)
  have htrace : w₂.trace = w₁.trace ++ closing w.globalVfd i i := congrArg Control.trace hk₂
  have htrace₁ : w₁.trace = w.trace ++ _ := congrArg Control.trace hk₁
  refine ⟨w₂, h₂, ?_, ?_, ?_, ?_, ?_, ?_⟩
  · rw [hk₂]
    exact hs₁.close hb₁ _
  · obtain ⟨e, he, hv⟩ := h.first
    exact ⟨e, (hcell 0 hi).trans he, hv⟩
  · intro b e hb
    by_cases hbi : b = i
    · subst hbi
      rw [hk₂] at hb
      simp [Control.close] at hb
    · exact h.only b e ((hcell b hbi).symm.trans hb)
  · have hn : w₂.control.bevs.next = w₁.control.bevs.next := congrArg (fun k => k.bevs.next) hk₂
    have hn₁ : w₁.control.bevs.next = w.control.bevs.next + 1 := congrArg (fun k => k.bevs.next) hk₁
    rw [hn, hn₁, h.next]
  · have hv : w₂.globalVfd = w₁.globalVfd := congrArg Control.globalVfd hk₂
    have hv₁ : w₁.globalVfd = w.globalVfd + 1 := congrArg Control.globalVfd hk₁
    rw [hv, hv₁, h.globalVfd]
  · rw [htrace, htrace₁]
    exact List.mem_append_left _ (List.mem_append_left _ h.connected)

/-- Connections come and go as long as the counter stays off the id of the first one. -/
private theorem Process.FirstLive.churn (hconnect : ∀ v lua, (S.HandleConnect v lua).Quiet)
    (hreads : S.QuietReads) (n : Nat) :
    ∀ {s : Process σ} {w : World σ} {i : Nat} {g : UInt32}, s.FirstLive w i g →
      (∀ j < n, g + UInt32.ofNat j ≠ 1) →
      Always (Process.step S) Process.Distinct s (churn τ i n) ∧
        ∃ w', (run (Process.step S) s (LibeventServer.churn τ i n)).FirstLive w' (i + n) (g + UInt32.ofNat n) := by
  induction n with
  | zero =>
    intro s w i g h _
    refine ⟨?_, w, ?_⟩
    · show s.Distinct
      rw [h.running]
      exact h.serving.distinct
    · simpa [LibeventServer.churn] using h
  | succ n ih =>
    intro s w i g h hg
    have hg0 : g ≠ 1 := by simpa using hg 0 (by omega)
    obtain ⟨hd, w₂, h₂⟩ := h.step hg0 hconnect hreads
    have hsucc : ∀ j, g + 1 + UInt32.ofNat j = g + UInt32.ofNat (j + 1) := by
      intro j
      rw [UInt32.ofNat_add, UInt32.add_assoc, UInt32.add_comm 1]
      rfl
    obtain ⟨hall, w', h'⟩ := ih h₂ fun j hj => by
      rw [hsucc]
      exact hg (j + 1) (by omega)
    refine ⟨⟨?_, hd, hall⟩, w', ?_⟩
    · rw [h.running]
      exact h.serving.distinct
    · rw [hsucc, show i + 1 + n = i + (n + 1) by omega] at h'
      exact h'

private theorem Process.firstLive_init (hconnect : ∀ v lua, (S.HandleConnect v lua).Quiet) (lua : σ) :
    ∃ w, (Process.step S (.running (World.init lua)) (.accept 0)).FirstLive w 1 2 := by
  obtain ⟨w, h, hk⟩ := Process.step_quiet (S := S) (World.init_valid lua) (.accept 0) hconnect trivial
  have hcell : ∀ b, w.control.bevs.cell b = if b = 0 then some ⟨1, []⟩ else none := by
    intro b
    rw [hk]
    rfl
  refine ⟨w, h, ?_, ⟨⟨1, []⟩, by rw [hcell]; rfl, rfl⟩, ?_, congrArg (fun k => k.bevs.next) hk,
    congrArg Control.globalVfd hk, ?_⟩
  · rw [hk]
    exact (World.init_serving lua).accept (World.init_freshId lua) _
  · intro b e hb
    rw [hcell] at hb
    by_contra hne
    rw [if_neg hne] at hb
    cases hb
  · rw [show w.trace = _ from congrArg Control.trace hk]
    simp [Control.next, Control.accept, World.init, World.control]

/-- From `2` on, the counter takes 2^32 - 1 steps to reach `1`. -/
private theorem two_add_ofNat_ne_one {j : Nat} (hj : j < 2 ^ 32 - 1) : (2 : UInt32) + UInt32.ofNat j ≠ 1 := by
  intro h
  have := congrArg UInt32.toNat h
  rw [UInt32.toNat_add, UInt32.toNat_ofNat', show UInt32.toNat 2 = 2 from rfl,
    show UInt32.toNat 1 = 1 from rfl] at this
  omega

/-- The first connection stays open while `n` others come and go. -/
def wrap (τ : Type) (n : Nat) : List (Callback τ) := .accept 0 :: churn τ 1 n

private theorem Process.firstLive_wrap_of {n : Nat} (hg : ∀ j < n, (2 : UInt32) + UInt32.ofNat j ≠ 1)
    (hconnect : ∀ v lua, (S.HandleConnect v lua).Quiet) (hreads : S.QuietReads) (lua : σ) :
    Always (Process.step S) Process.Distinct (.running (World.init lua)) (wrap τ n) ∧
      ∃ w, (run (Process.step S) (.running (World.init lua)) (wrap τ n)).FirstLive w (1 + n)
      (2 + UInt32.ofNat n) := by
  obtain ⟨w₁, h₁⟩ := Process.firstLive_init (S := S) hconnect lua
  obtain ⟨hall, w, h⟩ := h₁.churn hconnect hreads n hg
  exact ⟨⟨(World.init_serving lua).distinct, hall⟩, w, h⟩

/-- Two connections are accepted, and the second is closed. -/
theorem Process.firstLive_two (hconnect : ∀ v lua, (S.HandleConnect v lua).Quiet) (hreads : S.QuietReads) (lua : σ) :
    Always (Process.step S) Process.Distinct (.running (World.init lua)) [.accept 0, .accept 0, .event 1] ∧
      ∃ w, (run (Process.step S) (.running (World.init lua)) [.accept 0, .accept 0, .event 1]).FirstLive w 2 3 :=
  Process.firstLive_wrap_of (n := 1) (by decide) hconnect hreads lua

/-- When 2^32 - 1 connections have come and gone, the next id is that of the first. -/
theorem Process.firstLive_wrap {n : Nat} (hn : n = 2 ^ 32 - 1) (hconnect : ∀ v lua, (S.HandleConnect v lua).Quiet)
    (hreads : S.QuietReads) (lua : σ) :
    Always (Process.step S) Process.Distinct (.running (World.init lua)) (wrap τ n) ∧
      ∃ w i, (run (Process.step S) (.running (World.init lua)) (wrap τ n)).FirstLive w i 1 := by
  obtain ⟨hall, w, h⟩ :=
    Process.firstLive_wrap_of (S := S) (n := n) (fun j hj => two_add_ofNat_ne_one (by omega)) hconnect hreads lua
  have hwrap : (2 : UInt32) + UInt32.ofNat n = 1 := by
    rw [hn]
    decide
  rw [hwrap] at h
  exact ⟨hall, w, _, h⟩

/-- The next accept hands out the id of the first connection. -/
private theorem wrap_accept_not_own {n : Nat} (hn : n = 2 ^ 32 - 1)
    (hconnect : ∀ v lua, (S.HandleConnect v lua).Quiet) (hreads : S.QuietReads) (lua : σ) :
    ¬ Always (Process.step S) (Process.IdsOwn S) (.running (World.init lua)) (wrap τ n ++ [.accept 0]) := by
  intro hall
  obtain ⟨-, w, i, h⟩ := Process.firstLive_wrap (τ := τ) hn hconnect hreads lua
  obtain ⟨w', h', hk⟩ := Process.step_quiet (S := S) h.serving.valid (.accept 0) hconnect trivial
  obtain ⟨e, he, hv⟩ := h.first
  have hlast := hall.last
  rw [run_append, h.running, run_cons, run_nil, h'] at hlast
  have hd : w'.control.Distinct := hlast.1.distinct
  rw [hk] at hd
  exact Control.not_distinct_accept (fun hfresh => hfresh 0 e he (hv.trans h.globalVfd.symm)) _ hd

/-- A run after which two live connections have the id 1. -/
theorem wrapped_not_own :
    ¬ Always (Process.step (Lua.mainScripts Lua.Host.raising)) (Process.IdsOwn (Lua.mainScripts Lua.Host.raising))
      (.running (World.init (Lua.State.init : Lua.State ℝ))) (wrap _ (2 ^ 32 - 1) ++ [.accept 0]) :=
  wrap_accept_not_own (S := Lua.mainScripts Lua.Host.raising) rfl (fun _ _ => trivial) (Lua.mainScripts_quietReads _)
    (Lua.State.init : Lua.State ℝ)

end LibeventServer

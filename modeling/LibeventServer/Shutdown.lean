import LibeventServer.Lifecycle
import LibeventServer.Overflow
import Mathlib.Data.Finset.Sort

/-!
# Shutdown

On an interrupt `signal_cb` calls Lua, frees the bufferevent of every entry of `AllClients` and exits.  In whatever
state the signal comes, this frees each of them once and nothing that was freed before (`shutdown`).  What is left
over is the bufferevents that are in no entry: those that were accepted under an id that was taken.
-/

namespace LibeventServer

open EStateM Runs

variable {σ τ : Type}

/-- `HandleShutDown` of `src/main.lua`, which prints a line. -/
def Lua.HandleShutDown (s : σ) : LuaRun σ := .returned s

def Lua_HandleShutDown (HandleShutDown : σ → LuaRun σ) : Cpp σ Unit := runHandler HandleShutDown

/-- `bufferevent_free(it->second->get_bev())`, for the iterator at the key `vfd`. -/
def freeEntry (vfd : UInt32) : Cpp σ Unit := do
  match ← queryClient vfd.toInt32 with
  | some client =>
    let c ← getClient client
    bufferevent_free c.bev
  | none => pure ()

/-- The keys of `AllClients` from the first to the last. -/
def World.ids (w : World σ) : List UInt32 := ((w.AllClients.keys.image UInt32.toNat).sort).map UInt32.ofNat

/-- The loop of `signal_cb` over `AllClients`. -/
def freeEntries : Cpp σ Unit := fun w => w.ids.forM freeEntry w

/-- `signal_cb`, up to `exit(101)`. -/
def signal_cb (HandleShutDown : σ → LuaRun σ) : Cpp σ Unit := do
  Lua_HandleShutDown HandleShutDown
  freeEntries

/-! ### The entries -/

private theorem World.mem_ids {w : World σ} {v : UInt32} : v ∈ w.ids ↔ v ∈ w.AllClients := by
  rw [ids, List.mem_map, ← Finmap.mem_keys]
  constructor
  · rintro ⟨n, hn, rfl⟩
    obtain ⟨u, hu, rfl⟩ := Finset.mem_image.1 ((Finset.mem_sort _).1 hn)
    rwa [UInt32.ofNat_toNat]
  · intro hv
    exact ⟨v.toNat, (Finset.mem_sort _).2 (Finset.mem_image_of_mem _ hv), UInt32.ofNat_toNat⟩

private theorem World.nodup_ids (w : World σ) : w.ids.Nodup := by
  refine List.Nodup.map_on ?_ (Finset.sort_nodup _ _)
  intro m hm n hn heq
  obtain ⟨u, -, rfl⟩ := Finset.mem_image.1 ((Finset.mem_sort _).1 hm)
  obtain ⟨v, -, rfl⟩ := Finset.mem_image.1 ((Finset.mem_sort _).1 hn)
  rw [UInt32.ofNat_toNat, UInt32.ofNat_toNat] at heq
  rw [heq]

/-- The bufferevent of the client registered under `v`. -/
def Control.entry (k : Control) (v : UInt32) : Option Nat :=
  (k.AllClients.lookup v).bind fun p => (k.clients.cell p).map ClientCtl.bev

/-- The bufferevents of the entries `l` are live and call back with the ids of the entries. -/
def Control.Entries (k : Control) (l : List UInt32) : Prop :=
  ∀ v ∈ l, ∃ p c e, k.AllClients.lookup v = some p ∧ k.clients.cell p = some c ∧ k.bevs.cell c.bev = some e ∧
    e.cbarg = v

private theorem Control.Sound.entries {k : Control} (h : k.Sound) {l : List UInt32} (hl : ∀ v ∈ l, v ∈ k.AllClients) :
    k.Entries l := by
  intro v hv
  obtain ⟨p, hp⟩ := Finmap.mem_iff.1 (hl v hv)
  obtain ⟨c, e, hc, -, he, hev⟩ := h v p hp
  exact ⟨p, c, e, hp, hc, he, hev⟩

private theorem Control.Served.entry {k : Control} {b : Nat} {e : BevCtl} {c : ClientCtl} (h : k.Served b e c) :
    k.entry e.cbarg = some b := by
  rw [Control.entry, h.registered, Option.bind_some, h.client, Option.map_some, h.bev]

/-! ### The loop -/

/-- The world after the bufferevents `bs` were freed. -/
def World.freeAll (w : World σ) (bs : List Nat) : World σ :=
  { w with bevs := bs.foldl Heap.free w.bevs, trace := w.trace ++ bs.map .free }

/-- One turn of the loop. -/
private theorem freeEntry_ok {w : World σ} {v : UInt32} {l : List UInt32}
    (h : w.control.Entries (v :: l)) (hv : v ∉ l) :
    ∃ b, freeEntry v w = .ok () (w.freeAll [b]) ∧ w.control.entry v = some b ∧ (w.freeAll [b]).control.Entries l := by
  obtain ⟨p, c, e, hp, hc, he, hev⟩ := h v List.mem_cons_self
  obtain ⟨c', hc', rfl⟩ := Option.map_eq_some_iff.1 hc
  obtain ⟨e', he', rfl⟩ := Option.map_eq_some_iff.1 he
  refine ⟨c'.bev, ?_, ?_, ?_⟩
  · unfold freeEntry
    rw [bind_ok (queryClient_toInt32 v w), show w.AllClients.lookup v = some p from hp]
    simp only
    rw [bind_ok (show getClient p w = .ok c' w by simp [getClient, hc'])]
    have hbev : w.bevs.cell c'.bev = some e' := he'
    simp [bufferevent_free, hbev, World.freeAll]
  · simp only [Control.entry, hp, Option.bind_some, hc, Option.map_some]
    rfl
  · intro u hu
    obtain ⟨q, d, f, hq, hd, hf, hfu⟩ := h u (List.mem_cons_of_mem v hu)
    refine ⟨q, d, f, hq, hd, ?_, hfu⟩
    have hne : d.bev ≠ c'.bev := by
      intro heq
      rw [heq] at hf
      cases he.symm.trans hf
      exact hv (hev ▸ hfu ▸ hu)
    obtain ⟨f', hf', rfl⟩ := Option.map_eq_some_iff.1 hf
    show ((w.bevs.free c'.bev).cell d.bev).map Bufferevent.ctl = _
    rw [Heap.free_cell_of_ne _ hne, hf']
    rfl

/-- The loop frees the bufferevents of the entries. -/
private theorem forM_freeEntry {w : World σ} {l : List UInt32} (h : w.control.Entries l) (hl : l.Nodup) :
    ∃ bs, l.forM freeEntry w = .ok () (w.freeAll bs) ∧ l.map w.control.entry = bs.map some := by
  induction l generalizing w with
  | nil => exact ⟨[], by simp [World.freeAll], rfl⟩
  | cons v l ih =>
    rw [List.nodup_cons] at hl
    obtain ⟨b, hb, hentry, hrest⟩ := freeEntry_ok h hl.1
    obtain ⟨bs, hbs, hmap⟩ := ih hrest hl.2
    refine ⟨b :: bs, ?_, ?_⟩
    · rw [forM_cons, bind_ok hb, hbs]
      simp [World.freeAll]
    · rw [List.map_cons, List.map_cons, hentry, ← hmap]
      rfl

/-! ### The signal -/

/-- Between two callbacks of a run the control is valid and nothing received waits. -/
private theorem drained_of_run {S : Scripts σ τ} {lua : σ} {cbs : List (Callback τ)} {w : World σ}
    (hrun : run (Process.step S) (.running (World.init lua)) cbs = .running w) :
    w.control.Valid ∧ w.control.Drained := by
  have hinit : (Process.running (World.init lua)).Valid ∧
    (Process.running (World.init lua)).Running Control.Drained :=
    ⟨World.init_valid lua, fun b e he => absurd he (by simp)⟩
  have hall : Always (Process.step S) (fun s => s.Valid ∧ s.Running Control.Drained)
    (.running (World.init lua)) cbs := by
    refine Always.of_invariant (P := fun s : Process σ => s.Valid ∧ s.Running Control.Drained) ?_ hinit cbs
    rintro s cb ⟨hv, hd⟩
    refine ⟨Process.step_valid hv cb, ?_⟩
    cases s with
    | crashed f w => trivial
    | running w => exact Process.step_of_next hv (Control.Drained.next hd cb)
  have hlast := hall.last
  rw [hrun] at hlast
  exact hlast

/-- The bufferevent of an entry is live and calls back with its id. -/
private theorem Control.Sound.entry_bev {k : Control} (h : k.Sound) {v : UInt32} {b : Nat} (hv : k.entry v = some b) :
    ∃ e, k.bevs.cell b = some e ∧ e.cbarg = v := by
  obtain ⟨p, hp, hv⟩ := Option.bind_eq_some_iff.1 hv
  obtain ⟨c, e, hc, -, he, hev⟩ := h v p hp
  rw [hc] at hv
  cases hv
  exact ⟨e, he, hev⟩

/-- Distinct entries have distinct bufferevents. -/
private theorem Control.Sound.entry_inj {k : Control} (h : k.Sound) {u v : UInt32} {b : Nat} (hu : k.entry u = some b)
    (hv : k.entry v = some b) : u = v := by
  obtain ⟨e, he, rfl⟩ := h.entry_bev hu
  obtain ⟨e', he', rfl⟩ := h.entry_bev hv
  rw [Option.some.inj (he.symm.trans he')]

/-- `signal_cb` between two callbacks of a run. -/
private theorem signal_cb_ok {S : Scripts σ τ} {lua : σ} {cbs : List (Callback τ)} {w : World σ}
    (hrun : run (Process.step S) (.running (World.init lua)) cbs = .running w) {HandleShutDown : σ → LuaRun σ}
    (hfits : (HandleShutDown w.lua).Fits) :
    ∃ (w₁ : World σ) (bs : List Nat), signal_cb HandleShutDown w = .ok () (w₁.freeAll bs) ∧ w₁.control = w.control ∧
      bs.Nodup ∧ ∀ b, b ∈ bs ↔ ∃ v, w.control.entry v = some b := by
  obtain ⟨hvalid, hdrained⟩ := drained_of_run hrun
  have hfit : w.InputsFit := by
    intro b e he
    rw [show e.input = [] from hdrained b e.ctl (by simp [World.control, he])]
    exact Nat.zero_le _
  -- Lua cannot make the server fail, since nothing it sends is too long
  obtain ⟨w₁, h₁, ht⟩ : ∃ w₁, lua_pcall (HandleShutDown w.lua) w = .ok () w₁ ∧ Untouched w w₁ := by
    rcases lua_pcall_control hvalid.sound (HandleShutDown w.lua) with h | ⟨w₁, h₁, -⟩
    · exact h
    · exact absurd rfl ((lua_pcall_noOverflow hfits w hfit).2 _ _ h₁)
  have hsound : w₁.control.Sound := by
    rw [ht.1]
    exact hvalid.sound
  obtain ⟨bs, hbs, hmap⟩ := forM_freeEntry (hsound.entries fun v hv => World.mem_ids.1 hv) w₁.nodup_ids
  -- the freed bufferevents are the entries of `AllClients`
  have hentry : ∀ b, b ∈ bs ↔ ∃ v, w.control.entry v = some b := by
    intro b
    have hmem : b ∈ bs ↔ some b ∈ w₁.ids.map w₁.control.entry := by
      rw [hmap]
      simp
    rw [hmem, List.mem_map, ht.1]
    constructor
    · rintro ⟨v, -, hv⟩
      exact ⟨v, hv⟩
    · rintro ⟨v, hv⟩
      refine ⟨v, World.mem_ids.2 ?_, hv⟩
      obtain ⟨p, hp, -⟩ := Option.bind_eq_some_iff.1 hv
      rw [show w₁.AllClients = w.AllClients from congrArg Control.AllClients ht.1]
      exact Finmap.mem_of_lookup_eq_some hp
  -- and distinct, since a bufferevent belongs to one id
  have hnodup : bs.Nodup := by
    refine List.Nodup.of_map some ?_
    rw [← hmap]
    refine w₁.nodup_ids.map_on ?_
    intro u hu v hv heq
    have hb : ∃ b, w₁.control.entry u = some b := by
      have hmem : w₁.control.entry u ∈ bs.map some := hmap ▸ List.mem_map_of_mem hu
      obtain ⟨b, -, hb⟩ := List.mem_map.1 hmem
      exact ⟨b, hb.symm⟩
    obtain ⟨b, hb⟩ := hb
    exact hsound.entry_inj hb (heq ▸ hb)
  refine ⟨w₁, bs, ?_, ht.1, hnodup, hentry⟩
  unfold signal_cb
  rw [bind_ok (show Lua_HandleShutDown HandleShutDown w = .ok () w₁ from h₁)]
  exact hbs

private theorem World.freeAll_cell (w : World σ) (bs : List Nat) (b : Nat) :
    (w.freeAll bs).bevs.cell b = none ↔ w.control.bevs.cell b = none ∨ b ∈ bs := by
  show (bs.foldl Heap.free w.bevs).cell b = none ↔ _
  rw [Heap.cell_foldl_free]
  by_cases hb : b ∈ bs
  · simp [hb]
  · simp [hb, World.control]

private theorem World.freeAll_next (w : World σ) (bs : List Nat) : (w.freeAll bs).bevs.next = w.control.bevs.next :=
  Heap.next_foldl_free w.bevs bs

/-- A signal that comes between two callbacks of a run frees the bufferevent of each entry of `AllClients` once, and
no other, for any `HandleShutDown` that sends no message that is too long. -/
theorem shutdown {S : Scripts σ τ} {lua : σ} {cbs : List (Callback τ)} {w : World σ}
    (hrun : run (Process.step S) (.running (World.init lua)) cbs = .running w) {HandleShutDown : σ → LuaRun σ}
    (hfits : (HandleShutDown w.lua).Fits) :
    ∃ (w' : World σ) (bs : List Nat), signal_cb HandleShutDown w = .ok () w' ∧
      w'.trace = w.trace ++ bs.map .free ∧ bs.Nodup ∧ (∀ b, b ∈ bs ↔ ∃ v, w.control.entry v = some b) ∧
      ∀ b, w'.bevs.cell b = none ↔ w.bevs.cell b = none ∨ b ∈ bs := by
  obtain ⟨w₁, bs, h, hk, hnodup, hentry⟩ := signal_cb_ok hrun hfits
  refine ⟨_, bs, h, ?_, hnodup, hentry, ?_⟩
  · rw [← show w₁.trace = w.trace from congrArg Control.trace hk]
    rfl
  · intro b
    rw [World.freeAll_cell, hk]
    simp [World.control]

/-- The signal after two connections were accepted and the second was closed: only the first is left to free. -/
theorem shutdown_two_connections : ∃ (w w' : World (Lua.State ℝ)) (bs : List Nat),
    run (Process.step (Lua.mainScripts Lua.Host.raising)) (.running (World.init Lua.State.init))
      [.accept 0, .accept 0, .event 1] = .running w ∧
    signal_cb Lua.HandleShutDown w = .ok () w' ∧ w'.trace = w.trace ++ bs.map .free ∧ bs.Nodup ∧ 0 ∈ bs ∧ 1 ∉ bs ∧
      w'.bevs.cell 0 = none := by
  obtain ⟨-, w, h⟩ := Process.firstLive_two (S := Lua.mainScripts Lua.Host.raising) (fun _ _ => trivial)
    (Lua.mainScripts_quietReads _) (Lua.State.init : Lua.State ℝ)
  have hfits : (Lua.HandleShutDown w.lua).Fits := trivial
  obtain ⟨w', bs, hsignal, htrace, hnodup, hentry, hcell⟩ := shutdown h.running hfits
  obtain ⟨e, he, -⟩ := h.first
  obtain ⟨c, hc⟩ := h.serving.served 0 e he
  have hfirst : 0 ∈ bs := (hentry 0).2 ⟨e.cbarg, hc.entry⟩
  have hsecond : 1 ∉ bs := by
    intro hmem
    obtain ⟨v, hv⟩ := (hentry 1).1 hmem
    obtain ⟨e', he', -⟩ := Control.Sound.entry_bev h.serving.valid.sound hv
    exact absurd (h.only 1 e' he') one_ne_zero
  exact ⟨w, w', bs, h.running, hsignal, htrace, hnodup, hfirst, hsecond, (hcell 0).2 (Or.inr hfirst)⟩

/-- If no two live connections shared an id, then after the signal every bufferevent that was ever made has been freed
exactly once. -/
theorem shutdown_complete {S : Scripts σ τ} {lua : σ} {cbs : List (Callback τ)} {w : World σ}
    (hrun : run (Process.step S) (.running (World.init lua)) cbs = .running w)
    (hdistinct : Always (Process.step S) Process.Distinct (.running (World.init lua)) cbs)
    {HandleShutDown : σ → LuaRun σ} (hfits : (HandleShutDown w.lua).Fits) :
    ∃ w', signal_cb HandleShutDown w = .ok () w' ∧ (∀ b, w'.bevs.cell b = none) ∧
      ∀ b, b < w'.bevs.next ↔ w'.trace.count (.free b) = 1 := by
  obtain ⟨w₁, bs, h, hk, hnodup, hentry⟩ := signal_cb_ok hrun hfits
  have hinit : (Process.running (World.init lua)).Traced := ⟨World.init_serving lua, World.init_traced lua⟩
  have htraced : (run (Process.step S) (.running (World.init lua)) cbs).Traced :=
    Always.run_invariant (Q := Process.Traced) (fun s cb hs hd => Process.step_traced hs cb hd) hinit hdistinct
  rw [hrun] at htraced
  obtain ⟨hserving, ht⟩ := htraced
  -- with distinct ids every open connection is an entry
  have hmem : ∀ b, b ∈ bs ↔ ∃ e, w.control.bevs.cell b = some e := by
    intro b
    rw [hentry]
    constructor
    · rintro ⟨v, hv⟩
      obtain ⟨e, he, -⟩ := Control.Sound.entry_bev hserving.valid.sound hv
      exact ⟨e, he⟩
    · rintro ⟨e, he⟩
      obtain ⟨c, hc⟩ := hserving.served b e he
      exact ⟨e.cbarg, hc.entry⟩
  refine ⟨_, h, ?_, ?_⟩
  · intro b
    rw [World.freeAll_cell, hk, hmem]
    cases hb : w.control.bevs.cell b <;> simp
  · intro b
    have hcount : (w₁.freeAll bs).trace.count (.free b) = w.control.bevs.deleted b + bs.count b := by
      rw [World.freeAll, List.count_append, ← ht.frees b, show w₁.trace = w.trace from congrArg Control.trace hk]
      congr 1
      exact List.count_map_of_injective bs _ (fun _ _ heq => by cases heq; rfl) b
    have hnext : (w₁.freeAll bs).bevs.next = w.control.bevs.next := by rw [World.freeAll_next, hk]
    rw [hcount, hnext, Heap.deleted]
    by_cases hb : b ∈ bs
    · obtain ⟨e, he⟩ := (hmem b).1 hb
      simp [List.count_eq_one_of_mem hnodup hb, he, Heap.lt_next he]
    · have hcell : w.control.bevs.cell b = none := by
        cases he : w.control.bevs.cell b with
        | none => rfl
        | some e => exact absurd ((hmem b).2 ⟨e, he⟩) hb
      simp [List.count_eq_zero_of_not_mem hb, hcell]

/-- Two connections were accepted and the second was closed: it was freed then, and the first by the signal. -/
theorem shutdown_complete_two_connections : ∃ w w' : World (Lua.State ℝ),
    run (Process.step (Lua.mainScripts Lua.Host.raising)) (.running (World.init Lua.State.init))
      [.accept 0, .accept 0, .event 1] = .running w ∧
    signal_cb Lua.HandleShutDown w = .ok () w' ∧ (∀ b, w'.bevs.cell b = none) ∧
      w'.trace.count (.free 0) = 1 ∧ w'.trace.count (.free 1) = 1 := by
  obtain ⟨hdistinct, w, h⟩ := Process.firstLive_two (S := Lua.mainScripts Lua.Host.raising) (fun _ _ => trivial)
    (Lua.mainScripts_quietReads _) (Lua.State.init : Lua.State ℝ)
  have hfits : (Lua.HandleShutDown w.lua).Fits := trivial
  obtain ⟨w', hsignal, hfree, hcount⟩ := shutdown_complete h.running hdistinct hfits
  have hnext : w'.bevs.next = 2 := by
    obtain ⟨w₁, bs, h₁, hk, -⟩ := signal_cb_ok h.running hfits
    cases hsignal.symm.trans h₁
    rw [World.freeAll_next, hk]
    exact h.next
  exact ⟨w, w', h.running, hsignal, hfree, (hcount 0).1 (by rw [hnext]; decide), (hcount 1).1 (by rw [hnext]; decide)⟩

end LibeventServer

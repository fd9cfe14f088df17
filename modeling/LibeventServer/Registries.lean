import LibeventServer.Lua.Traffic
import LibeventServer.Tracking

/-!
# The two registries

`AllClients` and the Lua table `clients` are filled and emptied in different places.  `registries_agree`: between any
two callbacks both have as keys the ids that were connected and not yet disconnected (`connected`), so the proxy of
a connected client finds its connection.
-/

namespace LibeventServer

open Runs

/-- The ids that are connected after an event. -/
def Event.connect (ids : Finset UInt32) : Event → Finset UInt32
  | .HandleConnect v => insert v ids
  | .HandleDisConnect v => ids.erase v
  | _ => ids

/-- The ids that are connected after the events `t`. -/
def connected (t : List Event) : Finset UInt32 := t.foldl Event.connect ∅

private theorem connected_append (t es : List Event) : connected (t ++ es) = es.foldl Event.connect (connected t) :=
  List.foldl_append

/-! ### The registry of the server -/

/-- The keys of `AllClients` are the connected ids. -/
def Control.Registered (k : Control) : Prop := k.AllClients.keys = connected k.trace

private theorem foldl_connect_events (ids : Finset UInt32) (v : UInt32) (msgs : List (List UInt8)) :
    (msgs.map (Event.HandleEvent v)).foldl Event.connect ids = ids := by
  induction msgs with
  | nil => rfl
  | cons msg msgs ih => exact ih

private theorem foldl_connect_closing (ids : Finset UInt32) (v : UInt32) (p b : Nat) :
    (closing v p b).foldl Event.connect ids = ids.erase v := rfl

private theorem foldl_connect_kick (ids : Finset UInt32) (P : Parser) (v : UInt32) (p b : Nat) :
    (kickLine P v :: closing v p b).foldl Event.connect ids = ids.erase v := by
  unfold kickLine
  split <;> rfl

private theorem Control.Registered.accept {k : Control} (h : k.Registered) :
    (k.accept [.HandleConnect k.globalVfd]).Registered := by
  have hids : connected (k.accept [.HandleConnect k.globalVfd]).trace = insert k.globalVfd (connected k.trace) := by
    rw [Control.accept, connected_append]
    rfl
  rw [Control.Registered, hids, ← h]
  simp only [Control.accept]
  split
  · -- the id was taken, and the old entry stays
    rename_i hmem
    rw [Finset.insert_eq_of_mem (Finmap.mem_keys.2 hmem)]
  · exact Table.keys_insert _ _ _

private theorem Control.Registered.close {k : Control} (h : k.Registered) {v : UInt32} {p b : Nat} {es : List Event}
    (hes : ∀ ids, es.foldl Event.connect ids = ids.erase v) : (k.close v p b es).Registered := by
  have hids : connected (k.close v p b es).trace = (connected k.trace).erase v := by
    rw [Control.close, connected_append, hes]
  rw [Control.Registered, hids, ← h]
  exact Finmap.keys_erase v k.AllClients

/-- Events that connect and disconnect nobody. -/
private theorem Control.Registered.same {k k' : Control} (h : k.Registered) {es : List Event}
    (hk : k'.AllClients = k.AllClients) (ht : k'.trace = k.trace ++ es)
    (hes : ∀ ids, es.foldl Event.connect ids = ids) : k'.Registered := by
  rw [Control.Registered, hk, ht, connected_append, hes]
  exact h

private theorem Control.Registered.afterRead {k : Control} (h : k.Registered) (v : UInt32) (p b : Nat) (P : Parser)
    (bs : List UInt8) : (k.afterRead v p b P bs).Registered := by
  unfold Control.afterRead
  split
  · exact h.same rfl rfl fun ids => foldl_connect_events ids v _
  · refine h.close fun ids => ?_
    rw [List.foldl_append, foldl_connect_events, foldl_connect_kick]

private theorem Control.Registered.next {τ : Type} {k : Control} (h : k.Registered) (cb : Callback τ) :
    (k.next cb).Registered := by
  cases cb with
  | accept fd => exact h.accept
  | tick choice => exact h.same rfl rfl fun _ => rfl
  | event b =>
    simp only [Control.next]
    split
    · exact h
    · split
      · exact h.same rfl rfl fun _ => rfl
      · exact h.close fun ids => foldl_connect_closing ids _ _ _
  | readable b chunk =>
    simp only [Control.next]
    split
    · exact h
    · split
      · exact h.same rfl rfl fun _ => rfl
      · split
        · exact h
        · exact h.afterRead _ _ _ _ _

/-! ### Sending to registered ids -/

/-- The calls of `NetLib.send` of a handler return `true` exactly for the registered ids. -/
private theorem lua_pcall_sends {σ : Type} (r : LuaRun σ) : ∀ {w : World σ}, w.control.Sound →
    ∃ new, (lua_pcall r w).state.sends = w.sends ++ new ∧
      ∀ n ok, (n, ok) ∈ new → (ok = true ↔ Lua.receiver n ∈ w.AllClients) := by
  induction r with
  | returned lua => exact fun _ => ⟨[], by simp [lua_pcall, change], by simp⟩
  | raised lua => exact fun _ => ⟨[], by simp [lua_pcall, change], by simp⟩
  | send n msg k ih =>
    intro w hw
    unfold lua_pcall
    rcases NetLib_send_control hw n msg with ⟨ok, w₁, h₁, hsame, hsends, hok⟩ | h₁
    · have hregistry : w₁.AllClients = w.AllClients := congrArg Control.AllClients hsame.1
      obtain ⟨new, hnew, hall⟩ := ih ok (w := w₁) (by rw [hsame.1]; exact hw)
      rw [EStateM.bind_ok h₁]
      refine ⟨(n, ok) :: new, by rw [hnew, hsends, List.append_assoc]; rfl, ?_⟩
      intro n' ok' hmem
      rcases List.mem_cons.1 hmem with heq | hmem
      · cases heq
        exact hok
      · rw [← hregistry]
        exact hall n' ok' hmem
    · rw [EStateM.bind_error h₁]
      exact ⟨[], by simp, by simp⟩

namespace Lua

/-! ### The registry of Lua -/

variable {N : Type} [Field N] [LinearOrder N]

private theorem handleEvent_keys {H : Host N} {v : UInt32} {msg : List UInt8} {s s' : State N}
    (h : handleEvent H v msg s = some s') : s'.clients.keys = s.clients.keys := by
  rcases handleEvent_cases H v msg s with ⟨hsame, -⟩ | ⟨c, c', hc, hs, -⟩
  · rcases hsame with hs | hs
    · rw [hs] at h
      cases h
    · rw [hs] at h
      cases h
      rfl
  · rw [hs] at h
    cases h
    have hmem : v ∈ s.clients.keys := Finmap.mem_keys.2 (Finmap.mem_of_lookup_eq_some hc)
    rw [Table.keys_insert, Finset.insert_eq_of_mem hmem]

/-- Every handler leaves in `clients` the ids that are connected after its call. -/
theorem mainScripts_tracks [FloorRing N] [LuaMath N] (H : Host N) :
    (mainScripts H).Tracks fun t s => s.clients.keys = connected t where
  other t s e he h := by
    rw [connected_append, h]
    cases e <;> first | rfl | cases he
  connect t s v h := by
    show (s.clients.insert v _).keys = connected (t ++ [.HandleConnect v])
    rw [Table.keys_insert, h, connected_append]
    rfl
  event t s v msg h := by
    have hids : connected (t ++ [.HandleEvent v msg]) = s.clients.keys := by
      rw [connected_append, h]
      rfl
    rw [hids]
    simp only [mainScripts, HandleEvent]
    cases hs : handleEvent H v msg s with
    | none => rfl
    | some s' => exact handleEvent_keys hs
  disconnect t s v h := by
    show (s.clients.erase v).keys = connected (t ++ [.HandleDisConnect v])
    rw [Finmap.keys_erase, h, connected_append]
    rfl
  tick t s T h := by
    have hids : connected (t ++ [.Tick]) = s.clients.keys := by
      rw [connected_append, h]
      rfl
    rw [hids]
    exact (tick_ends T s).mono fun s' hs => keys_eq_of_proxies hs

end Lua

/-! ### Runs of the server -/

/-- The two registries have the same keys, and what a tick sends through an unmodified proxy finds its connection. -/
structure World.RegistriesAgree (H : Lua.Host ℝ) (w : World (Lua.State ℝ)) : Prop where
  keys : w.AllClients.keys = w.lua.clients.keys
  sends : ∀ T, ∃ new, (callback (Lua.mainScripts H) (.tick T) w).state.sends = w.sends ++ new ∧
    ∀ v c n ok, w.lua.clients.lookup v = some c → c.call = .num (Lua.number v) →
      Lua.luaL_checkinteger H c.call = some n → (n, ok) ∈ new → ok = true

private theorem World.registriesAgree_of_keys {H : Lua.Host ℝ} {w : World (Lua.State ℝ)} (hw : w.control.Sound)
    (hkeys : w.AllClients.keys = w.lua.clients.keys) : w.RegistriesAgree H where
  keys := hkeys
  sends T := by
    have hcb : callback (Lua.mainScripts H) (.tick T) w =
        lua_pcall (Lua.Tick H T w.lua) { w with trace := w.trace ++ [.Tick] } := rfl
    obtain ⟨new, hnew, hall⟩ := lua_pcall_sends (Lua.Tick H T w.lua) (w := { w with trace := w.trace ++ [.Tick] }) hw
    refine ⟨new, by rw [hcb, hnew], fun v c n ok hc hcall hn hmem => ?_⟩
    rw [hcall, Lua.luaL_checkinteger_number, Option.some.injEq] at hn
    have hv : v ∈ w.AllClients.keys := by
      rw [hkeys]
      exact Finmap.mem_keys.2 (Finmap.mem_of_lookup_eq_some hc)
    rw [hall n ok hmem, ← hn, Lua.receiver_ofInt]
    exact Finmap.mem_keys.1 hv

theorem Process.step_registered {σ τ : Type} {S : Scripts σ τ} {s : Process σ} (hs : s.Valid)
    (hr : s.Running Control.Registered) (cb : Callback τ) : (Process.step S s cb).Running Control.Registered := by
  cases s with
  | crashed f w => trivial
  | running w => exact Process.step_of_next hs (Control.Registered.next hr cb)

/-- The registries of a running process agree. -/
def Process.RegistriesAgree (H : Lua.Host ℝ) : Process (Lua.State ℝ) → Prop
  | .running w => w.RegistriesAgree H
  | .crashed _ _ => True

/-- Between any two callbacks of a run the registries agree. -/
theorem registries_agree (H : Lua.Host ℝ) (cbs : List (Callback (Lua.Traversals ℝ))) :
    Always (Process.step (Lua.mainScripts H)) (Process.RegistriesAgree H)
      (.running (World.init Lua.State.init)) cbs := by
  have htracks := Lua.mainScripts_tracks H
  have hall : Always (Process.step (Lua.mainScripts H))
      (fun s => s.Valid ∧ s.Running Control.Registered ∧ s.Tracked fun t lua => lua.clients.keys = connected t)
      (.running (World.init Lua.State.init)) cbs := by
    refine Always.of_invariant ?_ ⟨World.init_valid _, rfl, rfl⟩ cbs
    rintro s cb ⟨hv, hr, ht⟩
    exact ⟨Process.step_valid hv cb, Process.step_registered hv hr cb, Process.step_tracked htracks ht cb⟩
  refine hall.mono ?_
  rintro s ⟨hv, hr, ht⟩
  cases s with
  | crashed f w => trivial
  | running w =>
    have hconnected : w.AllClients.keys = connected w.trace := hr
    have hlua : w.lua.clients.keys = connected w.trace := ht
    exact World.registriesAgree_of_keys hv.sound (hconnected.trans hlua.symm)

end LibeventServer

import LibeventServer.Lua.Main
import Mathlib.Analysis.SpecialFunctions.Trigonometric.Arctan

/-!
# Runs of the Lua side

A run of a handler against a network that answers `reply`: what it sends, whether it returns, and the Lua state it
ends in.  `State.step` is one call of a handler by the server, whose errors are dropped.

A tick sends to the targets of the proxies, in the order of the sync loop, as long as they are integers
(`tick_sent`), and it returns exactly when all of them are (`tick_returns_iff`).
-/

namespace LibeventServer

/-- Lua numbers read as exact reals. -/
noncomputable instance : Lua.LuaMath ℝ where
  pi := Real.pi
  sin := Real.sin
  cos := Real.cos
  atan := Real.arctan
  sqrt := Real.sqrt

section

variable {σ : Type} (reply : Int64 → List UInt8 → Bool)

/-- The calls of `NetLib.send` of a run. -/
def LuaRun.sent : LuaRun σ → List (Int64 × List UInt8)
  | .returned _ => []
  | .raised _ => []
  | .send n msg k => (n, msg) :: (k (reply n msg)).sent

/-- The Lua state in which a run ends. -/
def LuaRun.final : LuaRun σ → σ
  | .returned lua => lua
  | .raised lua => lua
  | .send n msg k => (k (reply n msg)).final

private theorem LuaRun.Ends.final {Q : σ → Prop} {r : LuaRun σ} (h : r.Ends Q) : Q (r.final reply) := by
  induction r with
  | returned lua => exact h
  | raised lua => exact h
  | send n msg k ih => exact ih _ (h _)

/-- The run ends without an error. -/
def LuaRun.Returns : LuaRun σ → Prop
  | .returned _ => True
  | .raised _ => False
  | .send n msg k => (k (reply n msg)).Returns

end

namespace Lua

variable {N : Type} [Field N] [LinearOrder N] [FloorRing N] (H : Host N)

/-- The integer the proxy of `clients[vfd]` passes to `NetLib.send`. -/
def target (t : Finmap fun _ : UInt32 => Client N) (vfd : UInt32) : Option Int64 :=
  (proxies t vfd).bind fun p => luaL_checkinteger H p.2

/-- The ids the server hands out are integers. -/
theorem luaL_checkinteger_number {H : Host ℝ} (v : UInt32) :
    luaL_checkinteger H (.num (number v)) = some (Int64.ofInt (v.toNat : ℤ)) := by
  have hlt := v.toNat_lt
  rw [luaL_checkinteger, lua_numbertointeger, number, Int.floor_natCast, if_pos]
  exact ⟨by simp, by omega, by omega⟩

section

variable {reply : Int64 → List UInt8 → Bool} {H : Host N} {msg : List UInt8}
  {t : Finmap fun _ : UInt32 => Client N} {rest : LuaRun (State N)} {order : List UInt32}

theorem syncAll_cons {vfd : UInt32} {n : Int64} (h : target H t vfd = some n) :
    syncAll H msg t rest (vfd :: order) = .send n msg fun _ => syncAll H msg t rest order := by
  rw [target, Option.bind_eq_some_iff] at h
  obtain ⟨p, hp, hn⟩ := h
  obtain ⟨c, hc, rfl⟩ := Option.map_eq_some_iff.1 hp
  simp only [syncAll, hc]
  rw [show luaL_checkinteger H c.call = some n from hn]

private theorem syncAll_raise {vfd : UInt32} (hv : vfd ∈ t) (h : target H t vfd = none) :
    syncAll H msg t rest (vfd :: order) = .raised ⟨t⟩ := by
  obtain ⟨c, hc⟩ := Finmap.mem_iff.1 hv
  simp only [target, proxies, hc, Option.map_some, Option.bind_some] at h
  simp only [syncAll, hc, h]

/-- The sync loop when all targets are integers. -/
private theorem syncAll_sent {f : UInt32 → Int64} (h : ∀ vfd ∈ order, target H t vfd = some (f vfd)) :
    (syncAll H msg t rest order).sent reply = order.map (fun vfd => (f vfd, msg)) ++ rest.sent reply := by
  induction order with
  | nil => rfl
  | cons vfd order ih =>
    rw [syncAll_cons (h vfd (by simp)), LuaRun.sent, ih fun v hv => h v (by simp [hv])]
    rfl

theorem syncAll_ends {Q : State N → Prop} (ht : Q ⟨t⟩) (hrest : rest.Ends Q) (order : List UInt32) :
    (syncAll H msg t rest order).Ends Q := by
  induction order with
  | nil => exact hrest
  | cons vfd order ih =>
    simp only [syncAll]
    split
    · exact ih
    · split
      · exact ht
      · exact fun _ => ih

/-- The sync loop goes on to the next phase, or it raises at a target that is no integer. -/
private theorem syncAll_cases (reply : Int64 → List UInt8 → Bool) (H : Host N) (msg : List UInt8)
    (rest : LuaRun (State N)) (hmem : ∀ vfd ∈ order, vfd ∈ t) :
    ((∀ vfd ∈ order, (target H t vfd).isSome) ∧ (syncAll H msg t rest order).final reply = rest.final reply ∧
        ((syncAll H msg t rest order).Returns reply ↔ rest.Returns reply)) ∨
      ((∃ vfd ∈ order, target H t vfd = none) ∧ (syncAll H msg t rest order).final reply = ⟨t⟩ ∧
        ¬ (syncAll H msg t rest order).Returns reply) := by
  induction order with
  | nil => exact Or.inl ⟨by simp, rfl, Iff.rfl⟩
  | cons vfd order ih =>
    cases hn : target H t vfd with
    | none =>
      -- the loop stops here, and so does the tick
      right
      rw [syncAll_raise (hmem vfd (by simp)) hn]
      exact ⟨⟨vfd, by simp, hn⟩, rfl, id⟩
    | some n =>
      rw [syncAll_cons hn]
      rcases ih fun v hv => hmem v (by simp [hv]) with ⟨hall, hrest⟩ | ⟨⟨v, hv, hbad⟩, hrest⟩
      · refine Or.inl ⟨?_, hrest⟩
        intro v hv
        rcases List.mem_cons.1 hv with rfl | hv
        · rw [hn]
          rfl
        · exact hall v hv
      · exact Or.inr ⟨⟨v, by simp [hv], hbad⟩, hrest⟩

end

/-! ### A tick -/

section

variable [LuaMath N] {H : Host N} (reply : Int64 → List UInt8 → Bool) (T : Traversals N) (s : State N)

theorem target_moveAll (vfd : UInt32) : target H (moveAll T s.clients).1 vfd = target H s.clients vfd := by
  rw [target, moveAll_proxies, target]

omit [FloorRing N] in
private theorem mem_sync_order (vfd : UInt32) :
    vfd ∈ T.sync.order (moveAll T s.clients).1.keys ↔ vfd ∈ s.clients := by
  rw [T.sync.mem_order, keys_eq_of_proxies (moveAll_proxies T s.clients), Finmap.mem_keys]

/-- A tick whose targets are integers sends the same message to each of them once. -/
theorem tick_sent {f : UInt32 → Int64} (h : ∀ vfd ∈ s.clients, target H s.clients vfd = some (f vfd)) :
    (tick H T s).sent reply = (T.sync.order (moveAll T s.clients).1.keys).map fun vfd =>
      (f vfd, H.msgpack_pack (syncCall T (moveAll T s.clients).2)) := by
  rw [tick, syncAll_sent fun vfd hv => (target_moveAll T s vfd).trans (h vfd ((mem_sync_order T s vfd).1 hv))]
  exact List.append_nil _

/-- Either all targets are integers, and the tick goes through all phases, or it stops in the sync loop. -/
theorem tick_cases :
    ((∀ vfd ∈ s.clients, (target H s.clients vfd).isSome) ∧ (tick H T s).Returns reply ∧
        (tick H T s).final reply = ⟨outAll T (hitAll T (moveAll T s.clients).1)⟩) ∨
      ((∃ vfd ∈ s.clients, target H s.clients vfd = none) ∧ ¬ (tick H T s).Returns reply ∧
        (tick H T s).final reply = ⟨(moveAll T s.clients).1⟩) := by
  have hmem : ∀ vfd ∈ T.sync.order (moveAll T s.clients).1.keys, vfd ∈ (moveAll T s.clients).1 := by
    intro vfd hv
    exact Finmap.mem_keys.1 ((T.sync.mem_order _ _).1 hv)
  rcases syncAll_cases reply H (H.msgpack_pack (syncCall T (moveAll T s.clients).2))
    (.returned ⟨outAll T (hitAll T (moveAll T s.clients).1)⟩) hmem with
    ⟨hall, hfinal, hret⟩ | ⟨⟨vfd, hv, hbad⟩, hfinal, hret⟩
  · refine Or.inl ⟨fun vfd hv => ?_, hret.2 trivial, hfinal⟩
    rw [← target_moveAll T s vfd]
    exact hall vfd ((mem_sync_order T s vfd).2 hv)
  · refine Or.inr ⟨⟨vfd, (mem_sync_order T s vfd).1 hv, ?_⟩, hret, hfinal⟩
    rw [← target_moveAll T s vfd]
    exact hbad

theorem tick_returns_iff :
    (tick H T s).Returns reply ↔ ∀ vfd ∈ s.clients, (target H s.clients vfd).isSome := by
  rcases tick_cases (H := H) reply T s with ⟨hall, hret, -⟩ | ⟨⟨vfd, hv, hbad⟩, hret, -⟩
  · exact ⟨fun _ => hall, fun _ => hret⟩
  · refine ⟨fun h => absurd h hret, fun h => ?_⟩
    have := h vfd hv
    rw [hbad] at this
    cases this

/-- A tick leaves the ids and the proxies, whether or not it raises. -/
theorem tick_ends : (tick H T s).Ends fun s' => proxies s'.clients = proxies s.clients := by
  refine syncAll_ends (moveAll_proxies T s.clients) ?_ _
  show proxies (outAll T (hitAll T (moveAll T s.clients).1)) = proxies s.clients
  rw [outAll_proxies, hitAll_proxies, moveAll_proxies]

end

/-! ### Calls of the server -/

/-- A call of a handler by the server; in a tick, what Lua leaves open and what the network answers. -/
inductive Call (N : Type) where
  | HandleConnect (vfd : UInt32)
  | HandleDisConnect (vfd : UInt32)
  | HandleEvent (vfd : UInt32) (msg : List UInt8)
  | Tick (T : Traversals N) (reply : Int64 → List UInt8 → Bool)

/-- The Lua state after a call; `HandleConnect`, `HandleDisConnect` and `HandleEvent` send nothing. -/
def State.step [LuaMath N] (s : State N) : Call N → State N
  | .HandleConnect vfd => (Lua.HandleConnect vfd s).final fun _ _ => true
  | .HandleDisConnect vfd => (Lua.HandleDisConnect vfd s).final fun _ _ => true
  | .HandleEvent vfd msg => (Lua.HandleEvent H vfd msg s).final fun _ _ => true
  | .Tick T reply => (Lua.Tick H T s).final reply

/-- What a call does to the ids and proxies: a connect and a message of a connected client that calls `_init` create
an object, a disconnect drops one, and everything else leaves them. -/
def nextProxies (p : UInt32 → Option (Value N × Value N)) : Call N → UInt32 → Option (Value N × Value N)
  | .HandleConnect vfd => Function.update p vfd (some (.num (number vfd), .num (number vfd)))
  | .HandleDisConnect vfd => Function.update p vfd none
  | .HandleEvent vfd msg =>
    match p vfd, initArgument H msg with
    | some _, some arg => Function.update p vfd (some (arg, arg))
    | _, _ => p
  | .Tick _ _ => p

variable [LuaMath N] {H : Host N} {s : State N}

theorem step_handleEvent_cases (vfd : UInt32) (msg : List UInt8) :
    s.step H (.HandleEvent vfd msg) = s ∧ (vfd ∈ s.clients → initArgument H msg = none) ∨
      ∃ c c', s.clients.lookup vfd = some c ∧
        s.step H (.HandleEvent vfd msg) = { s with clients := s.clients.insert vfd c' } ∧
        ((∃ arg, initArgument H msg = some arg ∧ c' = Client._init arg) ∨
          initArgument H msg = none ∧ ∃ arg, c.cmd arg = some c') := by
  rcases handleEvent_cases H vfd msg s with ⟨hsame, hinit⟩ | ⟨c, c', hc, hs, hcase⟩
  · refine Or.inl ⟨?_, hinit⟩
    simp only [State.step, Lua.HandleEvent]
    rcases hsame with h | h <;> rw [h] <;> rfl
  · refine Or.inr ⟨c, c', hc, ?_, hcase⟩
    simp only [State.step, Lua.HandleEvent, hs, LuaRun.final]

theorem step_proxies (call : Call N) :
    proxies (s.step H call).clients = nextProxies H (proxies s.clients) call := by
  cases call with
  | HandleConnect vfd => exact proxies_insert s.clients vfd _
  | HandleDisConnect vfd => exact proxies_erase s.clients vfd
  | Tick T reply => exact (tick_ends T s).final reply
  | HandleEvent vfd msg =>
    rcases step_handleEvent_cases (H := H) (s := s) vfd msg with ⟨hstep, hinit⟩ | ⟨c, c', hc, hstep, hcase⟩
    · rw [hstep, nextProxies]
      cases hp : proxies s.clients vfd with
      | none => rfl
      | some p =>
        have hmem : vfd ∈ s.clients := mem_iff_proxies.2 (Option.isSome_of_eq_some hp)
        rw [hinit hmem]
    · have hp : proxies s.clients vfd = some (c.vfd, c.call) := by
        rw [proxies, hc]
        rfl
      rw [hstep, nextProxies, hp]
      rcases hcase with ⟨arg, harg, rfl⟩ | ⟨harg, _, hcmd⟩
      · rw [harg]
        exact proxies_insert s.clients vfd _
      · rw [harg]
        exact proxies_insert_of_ids hc (Client.cmd_eq_some hcmd)

/-- If the message is one by which a connected client calls `_init`, its argument meets `C`. -/
def InitMeets (H : Host N) (C : UInt32 → Value N → Prop) (s : State N) : Call N → Prop
  | .HandleEvent vfd msg => vfd ∈ s.clients → ∀ arg, initArgument H msg = some arg → C vfd arg
  | _ => True

/-- A law for ids and proxies that new clients meet is kept by a call exactly when the object made by an `_init`, if
the call makes one, meets it. -/
theorem step_all_proxies_iff {Good : UInt32 → Value N × Value N → Prop}
    (hnew : ∀ v, Good v (.num (number v), .num (number v))) (h : ∀ v p, proxies s.clients v = some p → Good v p)
    (call : Call N) :
    (∀ v p, proxies (s.step H call).clients v = some p → Good v p) ↔
      InitMeets H (fun v arg => Good v (arg, arg)) s call := by
  -- a call changes the proxies of one client at most
  have hupdate : ∀ (v : UInt32) (q : Value N × Value N), Good v q →
      ∀ u p, Function.update (proxies s.clients) v (some q) u = some p → Good u p := by
    intro v q hq u p hp
    by_cases hu : u = v
    · subst hu
      rw [Function.update_self, Option.some.injEq] at hp
      rwa [← hp]
    · rw [Function.update_of_ne hu] at hp
      exact h u p hp
  rw [step_proxies]
  cases call with
  | HandleConnect v => exact ⟨fun _ => trivial, fun _ => hupdate v _ (hnew v)⟩
  | HandleDisConnect v =>
    refine ⟨fun _ => trivial, fun _ u p hp => ?_⟩
    by_cases hu : u = v
    · subst hu
      simp [nextProxies] at hp
    · rw [nextProxies, Function.update_of_ne hu] at hp
      exact h u p hp
  | Tick T reply => exact ⟨fun _ => trivial, fun _ => h⟩
  | HandleEvent v msg =>
    simp only [nextProxies, InitMeets, mem_iff_proxies]
    cases hp : proxies s.clients v with
    | none => simpa [hp] using h
    | some p₀ =>
      cases harg : initArgument H msg with
      | none => simpa using h
      | some arg =>
        constructor
        · rintro hall - _ ⟨⟩
          exact hall v (arg, arg) (by simp)
        · intro hall
          exact hupdate v (arg, arg) (hall rfl arg rfl)

end Lua

end LibeventServer

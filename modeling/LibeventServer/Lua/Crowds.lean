import LibeventServer.Lua.SyncSize
import LibeventServer.Overflow
import LibeventServer.Registries

/-!
# How many clients the server bears

A sync message grows with the number of clients, and `do_write` copies it to `write_msg` whatever its length.  With
the scripts and the `msgpack.pack` of the repository the server never comes to a fault as long as no tick finds more
than 177 clients (`never_crashes`); a tick that finds 482 or more writes past the end of `write_msg`
(`crowd_overflows`).  What the store does to the objects behind the array is not said: the model goes no further,
while the real server may live on.
-/

namespace LibeventServer

namespace Lua

/-! ### The radius of a client -/

/-- All clients have the radius `_init` gives them. -/
def Radii (t : Finmap fun _ : UInt32 => Client ℝ) : Prop := ∀ v c, t.lookup v = some c → c.r = 50

variable {t : Finmap fun _ : UInt32 => Client ℝ}

private theorem radii_insert (h : Radii t) {v : UInt32} {c : Client ℝ} (hc : c.r = 50) : Radii (t.insert v c) := by
  intro u c' hu
  by_cases huv : u = v
  · subst huv
    rw [Finmap.lookup_insert, Option.some.injEq] at hu
    exact hu ▸ hc
  · exact h u c' ((Finmap.lookup_insert_of_ne _ huv).symm.trans hu)

private theorem radii_erase (h : Radii t) (v : UInt32) : Radii (t.erase v) := by
  intro u c hu
  by_cases huv : u = v
  · subst huv
    simp at hu
  · exact h u c ((Finmap.lookup_erase_ne huv).symm.trans hu)

private theorem radii_forEach (h : Radii t) {l : List UInt32} (hl : l.Nodup) {f : UInt32 → Client ℝ → Client ℝ}
    (hf : ∀ v c, (f v c).r = c.r) : Radii (Table.forEach l f t) := by
  intro v c hc
  rw [Table.lookup_forEach hl] at hc
  split at hc
  · obtain ⟨c₀, hc₀, rfl⟩ := Option.map_eq_some_iff.1 hc
    rw [hf]
    exact h v c₀ hc₀
  · exact h v c hc

private theorem move_r (order : Enumeration ℝ) (c : Client ℝ) : (move order c).r = c.r := by
  have hadvance : ∀ first (c : Client ℝ), (advance first c).r = c.r := by
    intro first c
    cases first <;> rfl
  have hturn : ∀ c : Client ℝ, (turn c).r = c.r := by
    intro c
    unfold turn
    split <;> rfl
  have hslow : ∀ first (c : Client ℝ), (slow first c).r = c.r := by
    intro first c
    unfold slow
    split
    · split <;> rfl
    · rfl
  simp only [move, hslow, hturn, hadvance]

private theorem radii_moveAll (h : Radii t) (T : Traversals ℝ) : Radii (moveAll T t).1 := by
  rw [moveAll, Table.foldl_visit_fst]
  exact radii_forEach h (T.move.nodup _) fun v c => move_r (T.vTbl v) c

private theorem hitPair_r (c1 c2 : Client ℝ) : (hitPair c1 c2).1.r = c1.r ∧ (hitPair c1 c2).2.r = c2.r := by
  unfold hitPair
  simp only
  split
  · split <;> exact ⟨rfl, rfl⟩
  · exact ⟨rfl, rfl⟩

private theorem radii_hitStep {flag : Finmap fun _ : UInt32 => Finset UInt32} (h : Radii t) (vfd _vfd : UInt32) :
    Radii (hitStep vfd (flag, t) _vfd).2 := by
  unfold hitStep
  split
  · simp only
    split
    · rename_i c1 c2 h1 h2
      exact radii_insert (radii_insert h ((hitPair_r c1 c2).1.trans (h _ _ h1)))
        ((hitPair_r c1 c2).2.trans (h _ _ h2))
    · exact h
  · exact h

private theorem radii_hitAll (h : Radii t) (T : Traversals ℝ) : Radii (hitAll T t) := by
  have hinner : ∀ (vfd : UInt32) (l : List UInt32)
      (s : (Finmap fun _ : UInt32 => Finset UInt32) × (Finmap fun _ : UInt32 => Client ℝ)),
      Radii s.2 → Radii (l.foldl (hitStep vfd) s).2 := by
    intro vfd l
    induction l with
    | nil => exact fun _ hs => hs
    | cons _vfd l ih => exact fun s hs => ih _ (radii_hitStep hs vfd _vfd)
  have houter : ∀ (l : List UInt32)
      (s : (Finmap fun _ : UInt32 => Finset UInt32) × (Finmap fun _ : UInt32 => Client ℝ)), Radii s.2 →
      Radii (l.foldl (fun s vfd => ((T.hitInner vfd).order t.keys).foldl (hitStep vfd) s) s).2 := by
    intro l
    induction l with
    | nil => exact fun _ hs => hs
    | cons vfd l ih => exact fun s hs => ih _ (hinner vfd _ s hs)
  exact houter _ _ h

private theorem radii_outAll (h : Radii t) (T : Traversals ℝ) : Radii (outAll T t) := by
  refine radii_forEach h (T.out.nodup _) fun _ c => ?_
  unfold out
  split <;> rfl

private theorem radii_handleEvent {H : Host ℝ} {v : UInt32} {msg : List UInt8} {s s' : State ℝ} (hs : Radii s.clients)
    (h : handleEvent H v msg s = some s') : Radii s'.clients := by
  rcases handleEvent_cases H v msg s with ⟨hsame | hsame, -⟩ | ⟨c, c', hc, hsame, hcase⟩
  · rw [hsame] at h
    cases h
  · rw [hsame] at h
    cases h
    exact hs
  · rw [hsame] at h
    cases h
    refine radii_insert hs ?_
    rcases hcase with ⟨arg, -, rfl⟩ | ⟨-, arg, harg⟩
    · rfl
    · obtain ⟨press, d, rfl, -⟩ := Client.cmd_eq harg
      exact hs v c hc

/-- Every handler leaves clients with the radius they had. -/
private theorem radii_tracks (H : Host ℝ) : (mainScripts H).Tracks fun _ s => Radii s.clients where
  other _ _ _ _ h := h
  connect t s v h := radii_insert h rfl
  event t s v msg h := by
    simp only [mainScripts, HandleEvent]
    cases hs : handleEvent H v msg s with
    | none => exact h
    | some s' => exact radii_handleEvent h hs
  disconnect t s v h := radii_erase h v
  tick t s T h := by
    refine syncAll_ends (Q := fun s => Radii s.clients) (radii_moveAll h T) ?_ _
    exact radii_outAll (radii_hitAll (radii_moveAll h T) T) T

/-! ### The message of a tick -/

/-- The message of a tick has a length between these bounds, for as many clients as there are. -/
private theorem length_syncCall {s : State ℝ} (H : Host ℝ) (T : Traversals ℝ) (h : Radii s.clients)
    (hn : s.clients.keys.card ≤ 4294967295) :
    7 + MessagePack.headerSize s.clients.keys.card + s.clients.keys.card * 17 ≤
        (H.withMessagePack.msgpack_pack (syncCall T (moveAll T s.clients).2)).length ∧
      (H.withMessagePack.msgpack_pack (syncCall T (moveAll T s.clients).2)).length ≤
        7 + MessagePack.headerSize s.clients.keys.card + s.clients.keys.card * 46 := by
  have hr : ∀ v p, (moveAll T s.clients).2.lookup v = some p → p.r = 50 := by
    intro v p hp
    rw [moveAll_data, Option.map_eq_some_iff] at hp
    obtain ⟨c, hc, rfl⟩ := hp
    exact radii_moveAll h T v c hc
  have hkeys : (moveAll T s.clients).2.keys = s.clients.keys := moveAll_data_keys T s.clients
  obtain ⟨bytes, hbytes, hle, hge⟩ := between_syncCall (T := T) hr (hkeys.symm ▸ hn)
  rw [hkeys] at hle hge
  have hpack : H.withMessagePack.msgpack_pack (syncCall T (moveAll T s.clients).2) = bytes := by
    show (MessagePack.pack _).toOption.getD [] = bytes
    rw [hbytes]
    rfl
  rw [hpack]
  exact ⟨hle, hge⟩

theorem syncAll_fits {H : Host ℝ} {msg : List UInt8} {rest : LuaRun (State ℝ)} (hmsg : msg.length ≤ max_body_length)
    (hrest : rest.Fits) (order : List UInt32) : (syncAll H msg t rest order).Fits := by
  induction order with
  | nil => exact hrest
  | cons vfd order ih =>
    simp only [syncAll]
    split
    · exact ih
    · split
      · trivial
      · exact ⟨hmsg, fun _ => ih⟩

end Lua

open EStateM Runs

/-! ### Between two callbacks -/

/-- What holds between two callbacks: every byte received has been read, the two registries have the same keys, and
all clients have one radius. -/
structure World.Settled (w : World (Lua.State ℝ)) : Prop where
  valid : w.control.Valid
  drained : w.control.Drained
  registered : w.control.Registered
  keys : w.lua.clients.keys = connected w.trace
  radii : Lua.Radii w.lua.clients

private theorem World.Settled.keys_eq {w : World (Lua.State ℝ)} (h : w.Settled) :
    w.AllClients.keys = w.lua.clients.keys :=
  h.registered.trans h.keys.symm

def Process.Settled : Process (Lua.State ℝ) → Prop
  | .running w => w.Settled
  | .crashed _ _ => True

private theorem Process.init_settled : (Process.running (World.init (Lua.State.init : Lua.State ℝ))).Settled where
  valid := World.init_valid _
  drained b e he := absurd he (by simp)
  registered := rfl
  keys := rfl
  radii v c hc := absurd hc (by simp [World.init, Lua.State.init])

private theorem Process.step_settled {H : Lua.Host ℝ} {s : Process (Lua.State ℝ)} (hs : s.Settled)
    (cb : Callback (Lua.Traversals ℝ)) : (Process.step (Lua.mainScripts H) s cb).Settled := by
  cases s with
  | crashed f w => trivial
  | running w =>
    have hvalid := Process.step_valid (S := Lua.mainScripts H) (s := .running w) hs.valid cb
    have hdrained := Process.step_of_next (S := Lua.mainScripts H) hs.valid (hs.drained.next cb)
    have hregistered := Process.step_registered (S := Lua.mainScripts H) (s := .running w) hs.valid hs.registered cb
    have hkeys := Process.step_tracked (Lua.mainScripts_tracks H) (s := .running w) hs.keys cb
    have hradii := Process.step_tracked (Lua.radii_tracks H) (s := .running w) hs.radii cb
    generalize Process.step (Lua.mainScripts H) (.running w) cb = s at hvalid hdrained hregistered hkeys hradii ⊢
    cases s with
    | crashed f w' => trivial
    | running w' => exact ⟨hvalid, hdrained, hregistered, hkeys, hradii⟩

private theorem settled_of_run {H : Lua.Host ℝ} {cbs : List (Callback (Lua.Traversals ℝ))} {w : World (Lua.State ℝ)}
    (h : run (Process.step (Lua.mainScripts H)) (.running (World.init Lua.State.init)) cbs = .running w) :
    w.Settled := by
  have hall :
    Always (Process.step (Lua.mainScripts H)) Process.Settled (.running (World.init Lua.State.init)) cbs := by
    refine Always.of_invariant ?_ ?_ cbs
    · exact fun s cb hs => Process.step_settled hs cb
    · exact Process.init_settled
  have hlast := hall.last
  rw [h] at hlast
  exact hlast

/-! ### Few clients -/

/-- The process has come to no fault. -/
def Process.IsRunning {σ : Type} (s : Process σ) : Prop := ∃ w, s = .running w

/-- libevent reads no more at once than it does, and no tick finds more than `n` clients. -/
structure Process.Moderate {σ τ : Type} (n : ℕ) (s : Process σ) (cb : Callback τ) : Prop where
  read : cb.Read
  few : ∀ choice, cb = .tick choice → s.Running fun k => k.AllClients.keys.card ≤ n

/-- The message of a tick for at most 177 clients fits `write_msg`. -/
private theorem tick_fits {H : Lua.Host ℝ} {s : Lua.State ℝ} (h : Lua.Radii s.clients)
    (hn : s.clients.keys.card ≤ 177) (T : Lua.Traversals ℝ) : (Lua.Tick H.withMessagePack T s).Fits := by
  have hlen := (Lua.length_syncCall H T h (by omega)).2
  have hheader : Lua.MessagePack.headerSize s.clients.keys.card ≤ 3 := by
    unfold Lua.MessagePack.headerSize
    split_ifs <;> omega
  refine Lua.syncAll_fits ?_ ?_ _
  · show _ ≤ 8192
    omega
  · trivial

/-- With at most 177 clients at every tick the server comes to no fault. -/
theorem never_crashes (H : Lua.Host ℝ) (cbs : List (Callback (Lua.Traversals ℝ)))
    (h : Along (Process.step (Lua.mainScripts H.withMessagePack)) (Process.Moderate 177)
      (.running (World.init Lua.State.init)) cbs) :
    Always (Process.step (Lua.mainScripts H.withMessagePack)) Process.IsRunning
      (.running (World.init Lua.State.init)) cbs := by
  have hall : Always (Process.step (Lua.mainScripts H.withMessagePack)) (fun s => s.Settled ∧ s.IsRunning)
      (.running (World.init Lua.State.init)) cbs := by
    refine h.always ?_ ⟨Process.init_settled, _, rfl⟩
    rintro s cb ⟨hs, w, rfl⟩ hmod
    refine ⟨Process.step_settled hs cb, ?_⟩
    obtain ⟨w', hw', -⟩ := Process.step_drained (S := Lua.mainScripts H.withMessagePack)
      (Lua.mainScripts_quietReads _) (fun _ _ => trivial) hs.valid hs.drained hmod.read fun T hT => by
        have hfew : w.AllClients.keys.card ≤ 177 := hmod.few T hT
        rw [hs.keys_eq] at hfew
        exact tick_fits hs.radii hfew T
    exact ⟨w', hw'⟩
  exact hall.mono fun s hs => hs.2

/-- A connection is accepted, and a tick follows. -/
theorem never_crashes_tick : Always (Process.step (Lua.mainScripts (Lua.Host.raising : Lua.Host ℝ).withMessagePack))
    Process.IsRunning (.running (World.init Lua.State.init)) [.accept 0, .tick default] := by
  refine never_crashes Lua.Host.raising _ ⟨⟨trivial, fun T hT => ?_⟩, ⟨trivial, fun T hT => ?_⟩, trivial⟩
  · cases hT
  refine Process.step_of_next (World.init_valid _) ?_
  show (if (1 : UInt32) ∈ (∅ : Finmap fun _ : UInt32 => Nat) then ∅ else Finmap.insert 1 0 ∅ :
    Finmap fun _ : UInt32 => Nat).keys.card ≤ 177
  rw [if_neg Finmap.notMem_empty, Table.keys_insert, Finmap.keys_empty]
  decide

/-! ### Many clients -/

/-- Sending a message that is too long writes past `write_msg` when the receiver is registered. -/
private theorem NetLib_send_long {σ : Type} {w : World σ} (hw : w.control.Sound) {n : Int64} {msg : List UInt8}
    (hmsg : max_body_length < msg.length) :
    (Lua.receiver n ∉ w.AllClients ∧ ∃ w', NetLib_send n msg w = .ok false w' ∧ Untouched w w') ∨
      NetLib_send n msg w = .error .overflow w := by
  unfold NetLib_send
  rw [bind_ok (queryClient_toInt32 _ w)]
  cases hv : w.AllClients.lookup n.toUInt64.toUInt32 with
  | none =>
    left
    rw [bind_ok (show sendTo msg none w = .ok false w from rfl)]
    exact ⟨Finmap.lookup_eq_none.1 hv, _, rfl, rfl, rfl⟩
  | some p =>
    right
    obtain ⟨c, b, hc, -, hb, -⟩ := hw _ p hv
    obtain ⟨c', hc', -⟩ := Option.map_eq_some_iff.1 hc
    rw [bind_error (show sendTo msg (some p) w = _ from do_write_of_lt hc' hmsg)]

/-- A sync loop with a message that is too long writes past `write_msg` at the first receiver that is registered. -/
private theorem syncAll_long {H : Lua.Host ℝ} {msg : List UInt8} {t : Finmap fun _ : UInt32 => Lua.Client ℝ}
    {rest : LuaRun (Lua.State ℝ)} {order : List UInt32} (hmsg : max_body_length < msg.length)
    (hinteger : ∀ v ∈ order, (Lua.target H t v).isSome) {w : World (Lua.State ℝ)} (hw : w.control.Sound)
    (hregistered : ∃ v ∈ order, ∃ n, Lua.target H t v = some n ∧ Lua.receiver n ∈ w.AllClients) :
    ∃ w', lua_pcall (Lua.syncAll H msg t rest order) w = .error .overflow w' := by
  induction order generalizing w with
  | nil =>
    obtain ⟨v, hv, -⟩ := hregistered
    cases hv
  | cons v order ih =>
    obtain ⟨n, hn⟩ := Option.isSome_iff_exists.1 (hinteger v (by simp))
    rw [Lua.syncAll_cons hn, lua_pcall]
    rcases NetLib_send_long hw hmsg with ⟨hmem, w₁, h₁, hsame⟩ | h₁
    · -- nobody is there, and the loop goes on
      rw [bind_ok h₁]
      refine ih (fun u hu => hinteger u (by simp [hu])) (by rw [hsame.1]; exact hw) ?_
      obtain ⟨u, hu, m, hm, hr⟩ := hregistered
      have hAll : w₁.AllClients = w.AllClients := congrArg Control.AllClients hsame.1
      rcases List.mem_cons.1 hu with rfl | hu
      · rw [hn, Option.some.injEq] at hm
        exact absurd (hm ▸ hr) hmem
      · exact ⟨u, hu, m, hm, hAll ▸ hr⟩
    · rw [bind_error h₁]
      exact ⟨w, rfl⟩

/-- A tick that finds 482 clients or more writes past the end of `write_msg`, when the proxies send to integers and
that of some client to the client itself. -/
theorem crowd_overflows {H : Lua.Host ℝ} {cbs : List (Callback (Lua.Traversals ℝ))} {w : World (Lua.State ℝ)}
    (hrun : run (Process.step (Lua.mainScripts H.withMessagePack)) (.running (World.init Lua.State.init)) cbs =
      .running w)
    (hmany : 482 ≤ w.AllClients.keys.card) (hmax : w.AllClients.keys.card ≤ 4294967295)
    (hinteger : ∀ v c, w.lua.clients.lookup v = some c → (Lua.luaL_checkinteger H.withMessagePack c.call).isSome)
    (hown : ∃ v c, w.lua.clients.lookup v = some c ∧ c.call = .num (Lua.number v)) (T : Lua.Traversals ℝ) :
    ∃ w', Process.step (Lua.mainScripts H.withMessagePack) (.running w) (.tick T) = .crashed .overflow w' := by
  have hs := settled_of_run hrun
  rw [hs.keys_eq] at hmany hmax
  have hlen := (Lua.length_syncCall H T hs.radii hmax).1
  have hheader : 3 ≤ Lua.MessagePack.headerSize w.lua.clients.keys.card := by
    unfold Lua.MessagePack.headerSize
    split_ifs <;> omega
  have hmem : ∀ v, v ∈ T.sync.order (Lua.moveAll T w.lua.clients).1.keys ↔ v ∈ w.lua.clients := by
    intro v
    rw [T.sync.mem_order, Lua.keys_eq_of_proxies (Lua.moveAll_proxies T w.lua.clients), Finmap.mem_keys]
  have htarget : ∀ v c, w.lua.clients.lookup v = some c →
      Lua.target H.withMessagePack (Lua.moveAll T w.lua.clients).1 v =
      Lua.luaL_checkinteger H.withMessagePack c.call := by
    intro v c hc
    rw [Lua.target_moveAll T w.lua, Lua.target, Lua.proxies, hc]
    rfl
  -- 482 entries of at least 17 bytes each make a message that is longer than a body may be
  have hlong : max_body_length <
      (H.withMessagePack.msgpack_pack (Lua.syncCall T (Lua.moveAll T w.lua.clients).2)).length := by
    show 8192 < _
    omega
  have hall : ∀ v ∈ T.sync.order (Lua.moveAll T w.lua.clients).1.keys,
      (Lua.target H.withMessagePack (Lua.moveAll T w.lua.clients).1 v).isSome := by
    intro v hv
    obtain ⟨c, hc⟩ := Finmap.mem_iff.1 ((hmem v).1 hv)
    rw [htarget v c hc]
    exact hinteger v c hc
  have hregistered : ∃ v ∈ T.sync.order (Lua.moveAll T w.lua.clients).1.keys, ∃ n,
      Lua.target H.withMessagePack (Lua.moveAll T w.lua.clients).1 v = some n ∧ Lua.receiver n ∈ w.AllClients := by
    obtain ⟨v, c, hc, hcall⟩ := hown
    have hv := Finmap.mem_of_lookup_eq_some hc
    refine ⟨v, (hmem v).2 hv, Int64.ofInt (v.toNat : ℤ), ?_, ?_⟩
    · rw [htarget v c hc, hcall, Lua.luaL_checkinteger_number]
    · rwa [Lua.receiver_ofInt, ← Finmap.mem_keys, hs.keys_eq, Finmap.mem_keys]
  obtain ⟨w', hw'⟩ : ∃ w', callback (Lua.mainScripts H.withMessagePack) (.tick T) w = .error .overflow w' :=
    syncAll_long (w := { w with trace := w.trace ++ [.Tick] }) hlong hall hs.valid.sound hregistered
  exact ⟨w', by rw [Process.step, hw', Process.ofResult]⟩

/-- `n` connections have been accepted. -/
structure World.Crowd (n : ℕ) (w : World (Lua.State ℝ)) : Prop where
  globalVfd : w.globalVfd.toNat = n + 1
  ids : ∀ v ∈ w.AllClients.keys, v.toNat ≤ n
  card : w.AllClients.keys.card = n
  own : ∀ v c, w.lua.clients.lookup v = some c → c.call = .num (Lua.number v)

private theorem World.Crowd.accept {H : Lua.Host ℝ} {n : ℕ} {w : World (Lua.State ℝ)} (h : w.Crowd n)
    (hn : n + 2 < 2 ^ 32) :
    ∃ w', Process.step (Lua.mainScripts H) (.running w) (.accept 0) = .running w' ∧ w'.Crowd (n + 1) := by
  have hnew : w.globalVfd ∉ w.AllClients := by
    intro hmem
    have := h.ids _ (Finmap.mem_keys.2 hmem)
    have := h.globalVfd
    omega
  have hkeys : (if w.globalVfd ∈ w.AllClients then w.AllClients
      else w.AllClients.insert w.globalVfd w.clients.next).keys = insert w.globalVfd w.AllClients.keys := by
    rw [if_neg hnew, Table.keys_insert]
  refine ⟨_, rfl, ?_, ?_, ?_, ?_⟩
  · show (w.globalVfd + 1).toNat = n + 1 + 1
    rw [UInt32.toNat_add, h.globalVfd]
    exact Nat.mod_eq_of_lt hn
  · intro v hv
    rw [show _ = _ from hkeys, Finset.mem_insert] at hv
    have := h.globalVfd
    rcases hv with rfl | hv
    · omega
    · have := h.ids v hv
      omega
  · rw [show _ = _ from hkeys, Finset.card_insert_of_notMem (by rwa [Finmap.mem_keys]), h.card]
  · intro v c hc
    by_cases hv : v = w.globalVfd
    · subst hv
      have hc' : c = Lua.Client._init (.num (Lua.number w.globalVfd)) := by
        simpa using hc.symm
      rw [hc']
      rfl
    · exact h.own v c ((Finmap.lookup_insert_of_ne _ hv).symm.trans hc)

private theorem exists_crowd (H : Lua.Host ℝ) {n : ℕ} (hn : n + 1 < 2 ^ 32) : ∃ cbs w,
    run (Process.step (Lua.mainScripts H)) (.running (World.init Lua.State.init)) cbs = .running w ∧ w.Crowd n := by
  induction n with
  | zero =>
    exact ⟨[], _, rfl, rfl, fun v hv => absurd hv (Finset.notMem_empty v), rfl,
      fun v c hc => absurd hc (by simp [World.init, Lua.State.init])⟩
  | succ n ih =>
    obtain ⟨cbs, w, hrun, hw⟩ := ih (by omega)
    obtain ⟨w', hstep, hw'⟩ := hw.accept (H := H) (by omega)
    exact ⟨cbs ++ [.accept 0], w', by rw [run_append, hrun, run_cons, run_nil, hstep], hw'⟩

/-- The server accepts 482 connections and writes past `write_msg` at the next tick. -/
theorem crowd_overflows_482 : ∃ cbs w w',
    run (Process.step (Lua.mainScripts (Lua.Host.raising : Lua.Host ℝ).withMessagePack))
      (.running (World.init Lua.State.init)) cbs = .running w ∧ w.AllClients.keys.card = 482 ∧
      Process.step (Lua.mainScripts (Lua.Host.raising : Lua.Host ℝ).withMessagePack) (.running w) (.tick default) =
        .crashed .overflow w' := by
  obtain ⟨cbs, w, hrun, hw⟩ := exists_crowd (Lua.Host.raising : Lua.Host ℝ).withMessagePack (n := 482) (by norm_num)
  have hown : ∃ v c, w.lua.clients.lookup v = some c ∧ c.call = .num (Lua.number v) := by
    have hpos : 0 < w.lua.clients.keys.card := by
      rw [← (settled_of_run hrun).keys_eq, hw.card]
      norm_num
    obtain ⟨v, hv⟩ := Finset.card_pos.1 hpos
    obtain ⟨c, hc⟩ := Finmap.mem_iff.1 (Finmap.mem_keys.1 hv)
    exact ⟨v, c, hc, hw.own v c hc⟩
  obtain ⟨w', hw'⟩ := crowd_overflows hrun (by rw [hw.card]) (by rw [hw.card]; norm_num)
    (fun v c hc => by rw [hw.own v c hc, Lua.luaL_checkinteger_number]; rfl) hown default
  exact ⟨cbs, w, w', hrun, hw.card, hw'⟩

end LibeventServer

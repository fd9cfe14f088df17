import LibeventServer.Lib.Runs
import LibeventServer.Lua.Calls

/-!
# Where the sync messages go

A proxy is made for the id of the client it belongs to, and a tick sends one sync message to each connected client.  A
message that calls `_init` makes a new proxy for any id it names: from then on the sender's sync messages go to that
connection.  `directed_iff`: in a run the messages go where they belong exactly as long as no client calls `_init`
with an id that is not its own.
-/

namespace LibeventServer.Lua

open Runs

variable {H : Host ℝ} {s : State ℝ}

/-- The connection a call of `NetLib.send` is for. -/
def receiver (n : Int64) : UInt32 := n.toUInt64.toUInt32

theorem receiver_ofInt (v : UInt32) : receiver (Int64.ofInt (v.toNat : ℤ)) = v := by
  have hlt := v.toNat_lt
  have h64 : (Int64.ofInt (v.toNat : ℤ)).toUInt64.toNat = v.toNat := by
    show (BitVec.ofNat 64 v.toNat).toNat = v.toNat
    rw [BitVec.toNat_ofNat]
    omega
  apply UInt32.toNat_inj.1
  rw [receiver, UInt64.toNat_toUInt32, h64]
  omega

/-- The object of `v` has the id `v`, and its proxy sends to `v`. -/
structure Client.Own (H : Host ℝ) (v : UInt32) (c : Client ℝ) : Prop where
  vfd : c.vfd = .num (number v)
  call : ∃ n, luaL_checkinteger H c.call = some n ∧ receiver n = v

/-- Every record is its client's own, and every tick sends exactly one sync message to each connected client, none to
any other connection, and all with the same snapshot, which has one entry for each connected client. -/
structure State.Directed (H : Host ℝ) (s : State ℝ) : Prop where
  records : ∀ v c, s.clients.lookup v = some c → c.Own H v
  ticks : ∀ T reply, ∃ (order : List UInt32) (data : Finmap fun _ : UInt32 => Packed ℝ),
    order.Nodup ∧ (∀ v, v ∈ order ↔ v ∈ s.clients) ∧ data.keys = s.clients.keys ∧
      ((Tick H T s).sent reply).map (fun m => (receiver m.1, m.2)) =
        order.map fun v => (v, H.msgpack_pack (syncCall T data))

private theorem State.directed_of_records (h : ∀ v c, s.clients.lookup v = some c → c.Own H v) : s.Directed H where
  records := h
  ticks T reply := by
    have htarget : ∀ v ∈ s.clients, ∃ n, target H s.clients v = some n ∧ receiver n = v := by
      intro v hv
      obtain ⟨c, hc⟩ := Finmap.mem_iff.1 hv
      obtain ⟨n, hn, hr⟩ := (h v c hc).call
      exact ⟨n, by simp [target, proxies, hc, hn], hr⟩
    obtain ⟨f, hf⟩ : ∃ f : UInt32 → Int64, ∀ v ∈ s.clients, target H s.clients v = some (f v) ∧
      receiver (f v) = v := by
      refine ⟨fun v => (target H s.clients v).getD 0, fun v hv => ?_⟩
      obtain ⟨n, hn, hr⟩ := htarget v hv
      simp [hn, hr]
    have hkeys : (moveAll T s.clients).1.keys = s.clients.keys := keys_eq_of_proxies (moveAll_proxies T s.clients)
    have hmem : ∀ v, v ∈ T.sync.order (moveAll T s.clients).1.keys ↔ v ∈ s.clients := by
      intro v
      rw [T.sync.mem_order, hkeys, Finmap.mem_keys]
    refine ⟨T.sync.order (moveAll T s.clients).1.keys, (moveAll T s.clients).2, T.sync.nodup _, hmem,
      moveAll_data_keys T s.clients, ?_⟩
    rw [Tick, tick_sent reply T s fun v hv => (hf v hv).1, List.map_map]
    refine List.map_congr_left fun v hv => ?_
    simp [(hf v ((hmem v).1 hv)).2]

/-- The message is not one by which a connected client calls `_init` with an id that is not its own. -/
def OwnInit (H : Host ℝ) : State ℝ → Call ℝ → Prop := InitMeets H fun v arg => arg = .num (number v)

/-- Own records, said of the ids and proxies. -/
private theorem directed_iff_proxies :
    s.Directed H ↔ ∀ v p, proxies s.clients v = some p →
      p.1 = .num (number v) ∧ ∃ n, luaL_checkinteger H p.2 = some n ∧ receiver n = v := by
  constructor
  · intro h v p hp
    obtain ⟨c, hc, rfl⟩ := Option.map_eq_some_iff.1 hp
    exact ⟨(h.records v c hc).vfd, (h.records v c hc).call⟩
  · intro h
    refine State.directed_of_records fun v c hc => ?_
    obtain ⟨hvfd, hcall⟩ := h v (c.vfd, c.call) (by rw [proxies, hc]; rfl)
    exact ⟨hvfd, hcall⟩

/-- One call: the records stay their clients' own exactly when it is no `_init` with another's id. -/
private theorem State.directed_step_iff (h : s.Directed H) (call : Call ℝ) :
    (s.step H call).Directed H ↔ OwnInit H s call := by
  have hnew : ∀ v : UInt32, (Value.num (number v) : Value ℝ) = .num (number v) ∧
      ∃ n, luaL_checkinteger H (.num (number v)) = some n ∧ receiver n = v :=
    fun v => ⟨rfl, _, luaL_checkinteger_number v, receiver_ofInt v⟩
  rw [directed_iff_proxies, step_all_proxies_iff hnew (directed_iff_proxies.1 h)]
  cases call with
  | HandleEvent v msg =>
    refine forall₃_congr fun _ arg _ => ⟨fun hgood => hgood.1, ?_⟩
    rintro rfl
    exact hnew v
  | HandleConnect v => exact Iff.rfl
  | HandleDisConnect v => exact Iff.rfl
  | Tick T reply => exact Iff.rfl

/-- The sync messages of a run go where they belong exactly when no client calls `_init` with an id that is not its
own. -/
theorem directed_iff (H : Host ℝ) (calls : List (Call ℝ)) :
    Always (State.step H) (State.Directed H) State.init calls ↔
    Along (State.step H) (OwnInit H) State.init calls := by
  refine always_iff_along (fun s call h => State.directed_step_iff h call) ?_ calls
  exact State.directed_of_records fun v c hc => absurd hc (by simp [State.init])

/-! ### A redirected client -/

/-- The MessagePack bytes of `{"_init", {2}}`. -/
def redirectMsg : List UInt8 := [0x92, 0xa5, 0x5f, 0x69, 0x6e, 0x69, 0x74, 0x91, 0x02]

/-- Libraries that know `redirectMsg` and no other message. -/
noncomputable def redirectHost : Host ℝ :=
  .knowing [(redirectMsg, .table [(.num 1, .str (literal "_init")), (.num 2, .table [(.num 1, .num 2)])])]

private theorem initArgument_redirectMsg : initArgument redirectHost redirectMsg = some (.num 2) := by
  simp [initArgument, arguments, redirectHost, Host.knowing, Value.index, Value.rawget, Value.rawequal, Client.method,
    table_unpack, table_unpack.pushed]

/-- After client 1 has sent `{"_init", {2}}` its record is that of client 2. -/
theorem redirectMsg_not_directed :
    ¬ (run (State.step redirectHost) State.init
      [.HandleConnect 1, .HandleConnect 2, .HandleEvent 1 redirectMsg]).Directed redirectHost := by
  intro h
  have hp : proxies (run (State.step redirectHost) State.init
      [.HandleConnect 1, .HandleConnect 2, .HandleEvent 1 redirectMsg]).clients 1 = some (.num 2, .num 2) := by
    simp only [run_cons, run_nil, step_proxies, nextProxies]
    rw [Function.update_of_ne (by decide), Function.update_self, initArgument_redirectMsg]
    simp
  have hvfd := (directed_iff_proxies.1 h 1 _ hp).1
  rw [Value.num.injEq, number, show UInt32.toNat 1 = 1 from rfl] at hvfd
  norm_num at hvfd

end LibeventServer.Lua

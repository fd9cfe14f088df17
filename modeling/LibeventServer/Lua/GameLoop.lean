import LibeventServer.Lib.Runs
import LibeventServer.Lua.Calls

/-!
# Ticks complete and keep the clients in the arena

The sync loop of a tick raises at the first proxy whose id is no integer, and then the last two phases do not run.
Such a proxy is made by a message that calls `_init` with an argument `luaL_checkinteger` does not accept.
`playable_iff`: in a run every tick completes, and leaves every client in the arena, exactly as long as no connected
client sends such a message.
-/

namespace LibeventServer.Lua

open Runs

variable {H : Host ℝ} {s : State ℝ}

/-- `x^0.5` is taken of no negative number: of two speeds at an angle `a`. -/
theorem synthesis_radicand_nonneg (value _value a : ℝ) :
    0 ≤ value ^ 2 + _value ^ 2 + 2 * value * _value * Real.cos a := by
  have hcos := Real.cos_sq_le_one a
  have hsum : value ^ 2 + _value ^ 2 + 2 * value * _value * Real.cos a =
      (value + _value * Real.cos a) ^ 2 + _value ^ 2 * (1 - Real.cos a ^ 2) := by ring
  rw [hsum]
  exact add_nonneg (sq_nonneg _) (mul_nonneg (sq_nonneg _) (by linarith))

/-- The arena. -/
structure Client.InArena (c : Client ℝ) : Prop where
  x_ge : -480 ≤ c.x
  x_le : c.x ≤ 480
  y_ge : -320 ≤ c.y
  y_le : c.y ≤ 320

private theorem out_inArena (c : Client ℝ) : (out c).InArena := by
  unfold out
  split
  · constructor <;> norm_num
  · rename_i h
    push Not at h
    obtain ⟨h1, h2, h3, h4⟩ := h
    constructor <;> linarith

/-- Every tick completes, and after it every connected client is in the arena. -/
def State.Playable (H : Host ℝ) (s : State ℝ) : Prop :=
  ∀ T reply, (Tick H T s).Returns reply ∧
    ∀ v c, ((Tick H T s).final reply).clients.lookup v = some c → c.InArena

private theorem State.playable_iff_proxies :
    s.Playable H ↔ ∀ v p, proxies s.clients v = some p → (luaL_checkinteger H p.2).isSome := by
  have htargets : (∀ v ∈ s.clients, (target H s.clients v).isSome) ↔
      ∀ v p, proxies s.clients v = some p → (luaL_checkinteger H p.2).isSome := by
    refine forall_congr' fun v => ?_
    rw [mem_iff_proxies, target]
    cases proxies s.clients v <;> simp
  rw [← htargets]
  constructor
  · intro h
    exact (tick_returns_iff (fun _ _ => true) default s).1 (h default fun _ _ => true).1
  · intro h T reply
    refine ⟨(tick_returns_iff reply T s).2 h, fun v c hc => ?_⟩
    rcases tick_cases (H := H) reply T s with ⟨-, -, hfinal⟩ | ⟨⟨u, hu, hbad⟩, -⟩
    · rw [Tick, hfinal, lookup_outAll, Option.map_eq_some_iff] at hc
      obtain ⟨c₀, -, rfl⟩ := hc
      exact out_inArena c₀
    · have hu' := h u hu
      rw [hbad] at hu'
      cases hu'

/-- The message is not one by which a connected client calls `_init` with an argument that is no integer. -/
def IntegerInit (H : Host ℝ) : State ℝ → Call ℝ → Prop := InitMeets H fun _ arg => (luaL_checkinteger H arg).isSome

/-- The ticks of a run complete and keep the clients in the arena exactly when no connected client calls `_init` with
an argument that is no integer. -/
theorem playable_iff (H : Host ℝ) (calls : List (Call ℝ)) :
    Always (State.step H) (State.Playable H) State.init calls ↔
      Along (State.step H) (IntegerInit H) State.init calls := by
  refine always_iff_along (fun s call h => ?_) ?_ calls
  · rw [State.playable_iff_proxies]
    refine step_all_proxies_iff (fun v => ?_) (State.playable_iff_proxies.1 h) call
    rw [luaL_checkinteger_number]
    rfl
  · exact State.playable_iff_proxies.2 fun v p hp => absurd hp (by simp [State.init, proxies])

/-! ### A stopped loop -/

/-- The MessagePack bytes of `{"_init", {}}`. -/
def stopMsg : List UInt8 := [0x92, 0xa5, 0x5f, 0x69, 0x6e, 0x69, 0x74, 0x90]

/-- Libraries that know `stopMsg` and no other message. -/
noncomputable def stopHost : Host ℝ :=
  .knowing [(stopMsg, .table [(.num 1, .str (literal "_init")), (.num 2, .table [])])]

private theorem initArgument_stopMsg : initArgument stopHost stopMsg = some .nil := by
  simp [initArgument, arguments, stopHost, Host.knowing, Value.index, Value.rawget, Value.rawequal, Client.method,
    table_unpack, table_unpack.pushed]

/-- After client 1 has sent `{"_init", {}}` no tick completes. -/
theorem stopMsg_not_playable :
    ¬ (run (State.step stopHost) State.init [.HandleConnect 1, .HandleEvent 1 stopMsg]).Playable stopHost := by
  intro h
  have hp : proxies (run (State.step stopHost) State.init [.HandleConnect 1, .HandleEvent 1 stopMsg]).clients 1 =
      some (.nil, .nil) := by
    simp only [run_cons, run_nil, step_proxies, nextProxies]
    rw [Function.update_self, initArgument_stopMsg]
    simp
  have hcall := State.playable_iff_proxies.1 h 1 _ hp
  simp [luaL_checkinteger] at hcall

end LibeventServer.Lua

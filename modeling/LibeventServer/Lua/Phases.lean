import LibeventServer.Lua.GameLoop
import LibeventServer.Lua.Hit
import LibeventServer.Lua.Movement

/-!
# The phases of a tick together

A tick that completes moves each client, adds what it gets in the hit phase, and takes it back if it is outside the
arena (`lookup_final_tick`); one that raises has only moved the clients (`final_tick_of_raises`).

So a property of a single client is kept by all calls when new clients have it and `cmd`, the movement, the hits and
the way back to the middle keep it (`step_all_clients`).
-/

namespace LibeventServer.Lua

/-! ### The arena -/

section

variable {c : Client ℝ}

theorem out_of_inArena (h : c.InArena) : out c = c := by
  obtain ⟨h1, h2, h3, h4⟩ := h
  unfold out
  rw [if_neg]
  push Not
  refine ⟨?_, ?_, ?_, ?_⟩ <;> linarith

theorem out_of_not_inArena (h : ¬ c.InArena) : out c = { c with x := 0, y := 0, vTbl := ∅ } := by
  unfold out
  rw [if_pos]
  by_contra hnot
  push Not at hnot
  obtain ⟨h1, h2, h3, h4⟩ := hnot
  exact h ⟨by linarith, by linarith, by linarith, by linarith⟩

theorem inArena_move (e : Enumeration ℝ) (c : Client ℝ) : (move e c).InArena ↔ (c.landed e).InArena := by
  obtain ⟨hx, hy, -⟩ := move_place e c
  constructor <;> rintro ⟨h1, h2, h3, h4⟩
  · exact ⟨hx ▸ h1, hx ▸ h2, hy ▸ h3, hy ▸ h4⟩
  · exact ⟨hx ▸ h1, hx ▸ h2, hy ▸ h3, hy ▸ h4⟩

theorem inArena_struck (c : Client ℝ) (l : List ℝ) : (c.struck l).InArena ↔ c.InArena :=
  ⟨fun h => ⟨h.1, h.2, h.3, h.4⟩, fun h => ⟨h.1, h.2, h.3, h.4⟩⟩

end

/-! ### A whole tick -/

variable {H : Host ℝ} {s : State ℝ}

theorem lookup_final_tick (hall : ∀ v ∈ s.clients, (target H s.clients v).isSome) (T : Traversals ℝ)
    (reply : Int64 → List UInt8 → Bool) (v : UInt32) :
    ((Tick H T s).final reply).clients.lookup v = ((moveAll T s.clients).1.lookup v).map fun c =>
      out (c.struck (pushes T (moveAll T s.clients).1 v c)) := by
  rcases tick_cases (H := H) reply T s with ⟨-, -, hfinal⟩ | ⟨⟨u, hu, hbad⟩, -⟩
  · rw [Tick, hfinal, lookup_outAll, lookup_hitAll, Option.map_map]
    rfl
  · have hu' := hall u hu
    rw [hbad] at hu'
    cases hu'

theorem final_tick_of_raises (hall : ¬ ∀ v ∈ s.clients, (target H s.clients v).isSome) (T : Traversals ℝ)
    (reply : Int64 → List UInt8 → Bool) : (Tick H T s).final reply = ⟨(moveAll T s.clients).1⟩ := by
  rcases tick_cases (H := H) reply T s with ⟨h, -⟩ | ⟨-, -, hfinal⟩
  · exact absurd h hall
  · exact hfinal

/-! ### One client at a time -/

private theorem forall_lookup_insert {P : Client ℝ → Prop} {t : Finmap fun _ : UInt32 => Client ℝ}
    (h : ∀ v c, t.lookup v = some c → P c) (u : UInt32) {c₀ : Client ℝ} (hc₀ : P c₀) :
    ∀ v c, (t.insert u c₀).lookup v = some c → P c := by
  intro v c hc
  by_cases hv : v = u
  · subst hv
    rw [Finmap.lookup_insert, Option.some.injEq] at hc
    exact hc ▸ hc₀
  · rw [Finmap.lookup_insert_of_ne _ hv] at hc
    exact h v c hc

/-- What new clients have, and what everything that happens to a client keeps, all clients have after a call. -/
theorem step_all_clients {P : Client ℝ → Prop} (hinit : ∀ vfd, P (Client._init vfd))
    (hcmd : ∀ c c' arg, c.cmd arg = some c' → P c → P c') (hmove : ∀ e c, P c → P (move e c))
    (hstruck : ∀ c l, P c → P (c.struck l)) (hout : ∀ c, P c → P (out c))
    (h : ∀ v c, s.clients.lookup v = some c → P c) (call : Call ℝ) :
    ∀ v c, (s.step H call).clients.lookup v = some c → P c := by
  cases call with
  | HandleConnect u => exact forall_lookup_insert h u (hinit _)
  | HandleDisConnect u =>
    intro v c hc
    by_cases hv : v = u
    · subst hv
      exact absurd ((Finmap.lookup_erase v s.clients).symm.trans hc) (by simp)
    · exact h v c ((Finmap.lookup_erase_ne hv).symm.trans hc)
  | HandleEvent u msg =>
    rcases step_handleEvent_cases (H := H) (s := s) u msg with ⟨hstep, -⟩ | ⟨c₀, c', hc₀, hstep, hcase⟩
    · rw [hstep]
      exact h
    · rw [hstep]
      refine forall_lookup_insert h u ?_
      rcases hcase with ⟨arg, -, rfl⟩ | ⟨-, arg, harg⟩
      · exact hinit arg
      · exact hcmd c₀ c' arg harg (h u c₀ hc₀)
  | Tick T reply =>
    intro v c hc
    by_cases hall : ∀ v ∈ s.clients, (target H s.clients v).isSome
    · rw [State.step, lookup_final_tick hall, lookup_moveAll, Option.map_map, Option.map_eq_some_iff] at hc
      obtain ⟨c₀, hc₀, rfl⟩ := hc
      exact hout _ (hstruck _ _ (hmove _ _ (h v c₀ hc₀)))
    · rw [State.step, final_tick_of_raises hall, lookup_moveAll, Option.map_eq_some_iff] at hc
      obtain ⟨c₀, hc₀, rfl⟩ := hc
      exact hmove _ _ (h v c₀ hc₀)

end LibeventServer.Lua

import LibeventServer.Lua.Momentum
import LibeventServer.Lua.Snapshot

/-!
# Friction

A client that is not pressed turns by one `ANGLE` in each tick and loses `SLOW_A` of its speed, except in the tick in
which its heading is the angle under which it moves.  Its heading turns one way, so there is one such tick at most:
`remaining`, the speed left and one more while that tick is still to come, falls by one in every tick.
`comes_to_rest`: a client that is left alone stops after at most `⌈S⌉ + 2` ticks, and moves in one direction until
then.
-/

namespace LibeventServer.Lua

open Runs

/-! ### The direction of turning -/

/-- The client turns one way or the other. -/
def Client.Turns (c : Client ℝ) : Prop := c.d = 1 ∨ c.d = -1

private theorem move_controls (e : Enumeration ℝ) (c : Client ℝ) :
    (move e c).d = c.d ∧ (move e c).press = c.press := by
  have hadvance : ∀ first (c : Client ℝ), (advance first c).d = c.d ∧ (advance first c).press = c.press := by
    intro first c
    cases first <;> exact ⟨rfl, rfl⟩
  have hturn : ∀ c : Client ℝ, (turn c).d = c.d ∧ (turn c).press = c.press := by
    intro c
    unfold turn
    split <;> exact ⟨rfl, rfl⟩
  have hslow : ∀ first (c : Client ℝ), (slow first c).d = c.d ∧ (slow first c).press = c.press := by
    intro first c
    unfold slow
    split
    · split <;> exact ⟨rfl, rfl⟩
    · exact ⟨rfl, rfl⟩
  simp only [move, hslow, hturn, hadvance, and_self]

private theorem out_controls (c : Client ℝ) :
    (out c).d = c.d ∧ (out c).press = c.press ∧ (out c).angle = c.angle ∧
    ((out c).vTbl = c.vTbl ∨ (out c).vTbl = ∅) := by
  unfold out
  split
  · exact ⟨rfl, rfl, rfl, Or.inr rfl⟩
  · exact ⟨rfl, rfl, rfl, Or.inl rfl⟩

private theorem step_turns {H : Host ℝ} {s : State ℝ} (h : ∀ v c, s.clients.lookup v = some c → c.Turns)
    (call : Call ℝ) :
    ∀ v c, (s.step H call).clients.lookup v = some c → c.Turns := by
  refine step_all_clients (P := Client.Turns) (fun _ => Or.inl rfl) ?_ ?_ (fun _ _ hc => hc) ?_ h call
  · rintro c c' arg hcmd hc
    obtain ⟨press, d, rfl, rfl | rfl⟩ := Client.cmd_eq hcmd
    · exact hc
    · rcases hc with hd | hd
      · exact Or.inr (by simp [hd])
      · exact Or.inl (by simp [hd])
  · intro e c hc
    rwa [Client.Turns, (move_controls e c).1]
  · intro c hc
    rwa [Client.Turns, (out_controls c).1]

/-! ### One tick of a client -/

private theorem subv_singleton (angle v value : ℝ) : subv (Finmap.singleton angle v) angle value =
    if v - value ≤ 0 then ∅ else Finmap.singleton angle (v - value) := by
  have herase : (Finmap.singleton angle v : Finmap fun _ : ℝ => ℝ).erase angle = ∅ := by
    apply Finmap.ext_lookup
    intro a
    rw [Finmap.lookup_empty, Finmap.lookup_eq_none, Finmap.mem_erase, Finmap.mem_singleton]
    exact fun h => h.1 h.2
  rw [subv, Finmap.lookup_singleton_eq]
  simp only [herase, Finmap.insert_singleton_eq]

section

variable {c : Client ℝ} {e : Enumeration ℝ} {θ v : ℝ}

private theorem move_of_empty (hfree : c.press.truthy = false) (h : c.vTbl = ∅) :
    move e c = { c with angle := c.angle + ANGLE * c.d } := by
  rw [move, h]
  simp only [synthesis_empty, next_empty, advance, turn, slow, hfree, Bool.false_eq_true, if_false]

private theorem move_of_singleton (hfree : c.press.truthy = false) (h : synthesis e c.vTbl = Finmap.singleton θ v) :
    (move e c).angle = c.angle + ANGLE * c.d ∧
      (move e c).vTbl = if θ ≠ c.angle + ANGLE * c.d then
        if v - SLOW_A ≤ 0 then ∅ else Finmap.singleton θ (v - SLOW_A)
      else Finmap.singleton θ v := by
  rw [move, h]
  simp only [next_singleton, advance, turn, slow, hfree, Bool.false_eq_true, if_false]
  by_cases hθ : θ ≠ c.angle + ANGLE * c.d
  · rw [if_pos hθ, if_pos hθ, subv_singleton]
    exact ⟨rfl, rfl⟩
  · rw [if_neg hθ, if_neg hθ]
    exact ⟨rfl, rfl⟩

end

/-- The heading of the client is still to turn to this angle. -/
def Ahead (θ : ℝ) (c : Client ℝ) : Prop := ∃ n : ℕ, 0 < n ∧ c.angle + n * (ANGLE * c.d) = θ

open Classical in
/-- The speed left, and one more while the heading is still to turn to the angle of motion. -/
noncomputable def remaining (θ : ℝ) (c : Client ℝ) : ℝ := speed c.vTbl + if Ahead θ c then 1 else 0

/-- Nothing but friction acts on the client, and all its speed is under this angle. -/
structure Gliding (θ : ℝ) (c : Client ℝ) : Prop where
  free : c.press.truthy = false
  turns : c.Turns
  speeds : c.vTbl = ∅ ∨ ∃ v, 0 ≤ v ∧ c.vTbl = Finmap.singleton θ v

section

variable {c : Client ℝ} {e : Enumeration ℝ} {θ v : ℝ}

private theorem turn_ne_zero (h : c.Turns) : (ANGLE * c.d : ℝ) ≠ 0 := by
  have hangle : (0 : ℝ) < ANGLE := by
    show 0 < Real.pi * 1 / 50
    positivity
  refine mul_ne_zero hangle.ne' ?_
  rcases h with h | h <;> rw [h] <;> norm_num

/-- The heading does not turn to the same angle twice. -/
private theorem ahead_move (hfree : c.press.truthy = false)
    (h : synthesis e c.vTbl = Finmap.singleton θ v) :
    Ahead θ c ↔ Ahead θ (move e c) ∨ θ = c.angle + ANGLE * c.d := by
  have hangle := (move_of_singleton hfree h).1
  have hd := (move_controls e c).1
  unfold Ahead
  rw [hangle, hd]
  constructor
  · rintro ⟨n, hn, rfl⟩
    rcases Nat.lt_or_ge 1 n with hlt | hle
    · refine Or.inl ⟨n - 1, by omega, ?_⟩
      rw [Nat.cast_sub hn]
      push_cast
      ring
    · have hone : n = 1 := by omega
      subst hone
      exact Or.inr (by push_cast; ring)
  · rintro (⟨n, hn, rfl⟩ | rfl)
    · exact ⟨n + 1, by omega, by push_cast; ring⟩
    · exact ⟨1, by omega, by push_cast; ring⟩

private theorem not_ahead_of_met (hfree : c.press.truthy = false) (hturns : c.Turns)
    (h : synthesis e c.vTbl = Finmap.singleton θ v) (hmet : θ = c.angle + ANGLE * c.d) : ¬ Ahead θ (move e c) := by
  rintro ⟨n, hn, heq⟩
  rw [(move_of_singleton hfree h).1, (move_controls e c).1, hmet] at heq
  have hzero : (n : ℝ) * (ANGLE * c.d) = 0 := by linarith
  rcases mul_eq_zero.1 hzero with hn' | hturn
  · rw [Nat.cast_eq_zero] at hn'
    omega
  · exact turn_ne_zero hturns hturn

/-- A tick of a client that only friction acts on. -/
private theorem glide (hfree : c.press.truthy = false) (hturns : c.Turns) (hv : 0 ≤ v) (hle : v ≤ speed c.vTbl)
    (h : synthesis e c.vTbl = Finmap.singleton θ v) :
    PointsAlong ((c.landed e).centre - c.centre) θ ∧ Gliding θ (move e c) ∧
      ((move e c).vTbl = ∅ ∨ remaining θ (move e c) ≤ remaining θ c - 1) := by
  have hfree' : (move e c).press.truthy = false := by rw [(move_controls e c).2, hfree]
  have hturns' : (move e c).Turns := by rwa [Client.Turns, (move_controls e c).1]
  have hahead := ahead_move hfree h
  obtain ⟨-, hvTbl⟩ := move_of_singleton hfree h
  refine ⟨⟨v, hv, ?_⟩, ?_⟩
  · rw [Client.landed, h, next_singleton]
    ext
    · exact add_sub_cancel_left c.x _
    · exact add_sub_cancel_left c.y _
  · by_cases hmet : θ = c.angle + ANGLE * c.d
    · -- no friction in this tick, and in all others from now on
      rw [if_neg (not_not.2 hmet)] at hvTbl
      refine ⟨⟨hfree', hturns', Or.inr ⟨v, hv, hvTbl⟩⟩, Or.inr ?_⟩
      rw [remaining, remaining, if_pos (hahead.2 (Or.inr hmet)), if_neg (not_ahead_of_met hfree hturns h hmet), hvTbl,
        speed_singleton]
      linarith
    · rw [if_pos hmet] at hvTbl
      split at hvTbl
      · exact ⟨⟨hfree', hturns', Or.inl hvTbl⟩, Or.inl hvTbl⟩
      · rename_i hpos
        refine ⟨⟨hfree', hturns', Or.inr ⟨_, (not_le.1 hpos).le, hvTbl⟩⟩, Or.inr ?_⟩
        have hsame : Ahead θ (move e c) ↔ Ahead θ c := by
          rw [hahead]
          exact ⟨Or.inl, fun h => h.resolve_right hmet⟩
        rw [remaining, remaining, hvTbl, speed_singleton, propext hsame, SLOW_A]
        linarith

/-- A client that rests goes on resting. -/
private theorem rest (hfree : c.press.truthy = false) (h : c.vTbl = ∅) (θ : ℝ) :
    PointsAlong ((c.landed e).centre - c.centre) θ ∧ (move e c).vTbl = ∅ := by
  refine ⟨⟨0, le_rfl, ?_⟩, ?_⟩
  · rw [Client.landed_of_empty h, sub_self, zero_smul]
  · rw [move_of_empty hfree h]
    exact h

private theorem Gliding.move (h : Gliding θ c) (e : Enumeration ℝ) :
    PointsAlong ((c.landed e).centre - c.centre) θ ∧ Gliding θ (move e c) ∧
      ∀ b, c.vTbl = ∅ ∨ remaining θ c ≤ b → (Lua.move e c).vTbl = ∅ ∨ remaining θ (Lua.move e c) ≤ b - 1 := by
  rcases h.speeds with hvTbl | ⟨v, hv, hvTbl⟩
  · obtain ⟨halong, hrest⟩ := rest (e := e) h.free hvTbl θ
    refine ⟨halong, ⟨?_, ?_, Or.inl hrest⟩, fun _ _ => Or.inl hrest⟩
    · rw [(move_controls e c).2, h.free]
    · rw [Client.Turns, (move_controls e c).1]
      exact h.turns
  · have hsynthesis : synthesis e c.vTbl = Finmap.singleton θ v := by rw [hvTbl, synthesis_singleton]
    have hspeed : v ≤ speed c.vTbl := by rw [hvTbl, speed_singleton]
    obtain ⟨halong, hglide, hfall⟩ := glide h.free h.turns hv hspeed hsynthesis
    refine ⟨halong, hglide, fun b hb => ?_⟩
    rcases hb with hempty | hb
    · obtain ⟨-, hrest⟩ := rest (e := e) h.free hempty θ
      exact Or.inl hrest
    · exact hfall.imp_right fun hle => by linarith

private theorem Gliding.out (h : Gliding θ c) : Gliding θ (out c) := by
  obtain ⟨hd, hpress, -, hvTbl⟩ := out_controls c
  refine ⟨by rw [hpress, h.free], ?_, ?_⟩
  · rw [Client.Turns, hd]
    exact h.turns
  · rcases hvTbl with hvTbl | hvTbl
    · rw [hvTbl]
      exact h.speeds
    · exact Or.inl hvTbl

private theorem remaining_out {b : ℝ} (h : c.vTbl = ∅ ∨ remaining θ c ≤ b) :
    (out c).vTbl = ∅ ∨ remaining θ (out c) ≤ b := by
  obtain ⟨hd, -, hangle, hvTbl | hvTbl⟩ := out_controls c
  · have hahead : Ahead θ (Lua.out c) ↔ Ahead θ c := by rw [Ahead, Ahead, hangle, hd]
    rw [remaining, hvTbl, propext hahead]
    exact h
  · exact Or.inl hvTbl

end

/-! ### A client that is left alone -/

/-- The call is none of the client's own, and in a tick the client is at no other when the hit phase comes. -/
def Undisturbed (H : Host ℝ) (v : UInt32) (s : State ℝ) : Call ℝ → Prop
  | .HandleConnect u => u ≠ v
  | .HandleDisConnect u => u ≠ v
  | .HandleEvent u _ => u ≠ v
  | .Tick T reply => (Tick H T s).Returns reply → ∀ u c d, u ≠ v → (moveAll T s.clients).1.lookup v = some c →
      (moveAll T s.clients).1.lookup u = some d → ¬ Overlapping c d

/-- In a tick the client moves under this angle, if it moves. -/
def MovesAlong (v : UInt32) (θ : ℝ) (s : State ℝ) : Call ℝ → Prop
  | .Tick T _ => ∀ c, s.clients.lookup v = some c → PointsAlong ((c.landed (T.vTbl v)).centre - c.centre) θ
  | _ => True

def Call.isTick {N : Type} : Call N → Bool
  | .Tick _ _ => true
  | _ => false

private theorem Call.isTick_iff {N : Type} {call : Call N} :
    call.isTick = true ↔ ∃ T reply, call = .Tick T reply := by
  cases call <;> simp [isTick]

/-- How many of the calls are ticks. -/
def ticks (calls : List (Call ℝ)) : ℕ := calls.countP Call.isTick

section

variable {H : Host ℝ} {s : State ℝ} {v : UInt32} {c : Client ℝ} {θ b : ℝ}

private theorem lookup_step_other {call : Call ℝ} (hcall : call.isTick = false) (h : Undisturbed H v s call) :
    (s.step H call).clients.lookup v = s.clients.lookup v := by
  cases call with
  | HandleConnect u => exact Finmap.lookup_insert_of_ne _ (Ne.symm h)
  | HandleDisConnect u => exact Finmap.lookup_erase_ne (Ne.symm h)
  | HandleEvent u msg =>
    rcases step_handleEvent_cases (H := H) (s := s) u msg with ⟨hstep, -⟩ | ⟨c, c', -, hstep, -⟩
    · rw [hstep]
    · rw [hstep]
      exact Finmap.lookup_insert_of_ne _ (Ne.symm h)
  | Tick T reply => cases hcall

/-- No other client pushes it. -/
private theorem lookup_step_tick {T : Traversals ℝ} {reply : Int64 → List UInt8 → Bool}
    (hv : s.clients.lookup v = some c)
    (h : Undisturbed H v s (.Tick T reply)) : ∃ c', (s.step H (.Tick T reply)).clients.lookup v = some c' ∧
      (c' = move (T.vTbl v) c ∨ c' = out (move (T.vTbl v) c)) := by
  have hmoved : (moveAll T s.clients).1.lookup v = some (move (T.vTbl v) c) := by
    rw [lookup_moveAll, hv, Option.map_some]
  by_cases hall : ∀ v ∈ s.clients, (target H s.clients v).isSome
  · refine ⟨_, ?_, Or.inr rfl⟩
    have hpushes : pushes T (moveAll T s.clients).1 v (move (T.vTbl v) c) = [] := by
      refine List.filterMap_eq_nil_iff.2 fun u hu => ?_
      have hu' := (partners_hitOrder T (Finmap.mem_of_lookup_eq_some hmoved)).mem_iff.1 hu
      rw [Finset.mem_toList, Finset.mem_erase] at hu'
      cases hd : (moveAll T s.clients).1.lookup u with
      | none => rfl
      | some d =>
        exact push_eq_none _ (h ((tick_returns_iff reply T s).2 hall) u _ d hu'.1 hmoved hd)
    rw [State.step, lookup_final_tick hall, hmoved, Option.map_some, hpushes, Client.struck_nil]
  · refine ⟨_, ?_, Or.inl rfl⟩
    rw [State.step, final_tick_of_raises hall, hmoved]

private theorem ticks_cons_tick (T : Traversals ℝ) (reply : Int64 → List UInt8 → Bool) (calls : List (Call ℝ)) :
    ticks (.Tick T reply :: calls) = ticks calls + 1 := List.countP_cons_of_pos rfl

private theorem ticks_cons_other {call : Call ℝ} (h : call.isTick = false) (calls : List (Call ℝ)) :
    ticks (call :: calls) = ticks calls := List.countP_cons_of_neg (by rw [h]; exact Bool.false_ne_true)

private theorem movesAlong_other {call : Call ℝ} (h : call.isTick = false) : MovesAlong v θ s call := by
  cases call with
  | Tick T reply => cases h
  | _ => trivial

/-- A client that glides, over a run. -/
private theorem run_gliding {calls : List (Call ℝ)} (hv : s.clients.lookup v = some c) (hglide : Gliding θ c)
    (hb : c.vTbl = ∅ ∨ remaining θ c ≤ b) (h : Along (State.step H) (Undisturbed H v) s calls) :
    Along (State.step H) (MovesAlong v θ) s calls ∧
      ∃ c', (run (State.step H) s calls).clients.lookup v = some c' ∧ Gliding θ c' ∧
        (c'.vTbl = ∅ ∨ remaining θ c' ≤ b - ticks calls) := by
  induction calls generalizing s c b with
  | nil => exact ⟨trivial, c, hv, hglide, hb.imp_right fun h => by simpa [ticks] using h⟩
  | cons call calls ih =>
    cases hcall : call.isTick with
    | false =>
      obtain ⟨halong, c', hc', hglide', hb'⟩ := ih ((lookup_step_other hcall h.1).trans hv) hglide hb h.2
      refine ⟨⟨movesAlong_other hcall, halong⟩, c', hc', hglide', ?_⟩
      rwa [ticks_cons_other hcall]
    | true =>
      obtain ⟨T, reply, rfl⟩ := Call.isTick_iff.1 hcall
      obtain ⟨hmove, hglide₁, hfall⟩ := hglide.move (T.vTbl v)
      obtain ⟨c₁, hc₁, hcase⟩ := lookup_step_tick hv h.1
      have hstep : Gliding θ c₁ ∧ (c₁.vTbl = ∅ ∨ remaining θ c₁ ≤ b - 1) := by
        rcases hcase with rfl | rfl
        · exact ⟨hglide₁, hfall b hb⟩
        · exact ⟨hglide₁.out, remaining_out (hfall b hb)⟩
      obtain ⟨halong, c', hc', hglide', hb'⟩ := ih hc₁ hstep.1 hstep.2 h.2
      refine ⟨⟨?_, halong⟩, c', hc', hglide', hb'.imp_right fun hle => ?_⟩
      · intro c₂ hc₂
        rw [hv, Option.some.injEq] at hc₂
        exact hc₂ ▸ hmove
      · rw [ticks_cons_tick]
        push_cast
        linarith

/-- A client with any speeds, over a run: from its first tick on it glides. -/
private theorem run_free {calls : List (Call ℝ)} (hv : s.clients.lookup v = some c) (hfree : c.press.truthy = false)
    (hturns : c.Turns) (hpos : NonNegative c.vTbl) (h : Along (State.step H) (Undisturbed H v) s calls) :
    ∃ θ, Along (State.step H) (MovesAlong v θ) s calls ∧ (0 < ticks calls →
      ∃ c', (run (State.step H) s calls).clients.lookup v = some c' ∧ Gliding θ c' ∧
        (c'.vTbl = ∅ ∨ remaining θ c' ≤ speed c.vTbl + 1 - ticks calls)) := by
  induction calls generalizing s with
  | nil => exact ⟨0, trivial, fun h => absurd h (lt_irrefl _)⟩
  | cons call calls ih =>
    cases hcall : call.isTick with
    | false =>
      obtain ⟨θ, halong, hend⟩ := ih ((lookup_step_other hcall h.1).trans hv) h.2
      refine ⟨θ, ⟨movesAlong_other hcall, halong⟩, ?_⟩
      rwa [ticks_cons_other hcall]
    | true =>
      obtain ⟨T, reply, rfl⟩ := Call.isTick_iff.1 hcall
      rcases synthesis_cases hpos (T.vTbl v) with hempty | ⟨θ, value, hvalue, hle, hsynthesis⟩
      · -- without speed the client stands still, in every direction
        have hglide : Gliding 0 c := ⟨hfree, hturns, Or.inl hempty⟩
        obtain ⟨halong, hend⟩ := run_gliding (b := speed c.vTbl + 1) hv hglide (Or.inl hempty) h
        exact ⟨0, halong, fun _ => hend⟩
      · -- the first tick merges the speeds into one, which falls from then on
        obtain ⟨hmove, hglide₁, hfall⟩ := glide hfree hturns hvalue hle hsynthesis
        obtain ⟨c₁, hc₁, hcase⟩ := lookup_step_tick hv h.1
        have hbound : remaining θ c ≤ speed c.vTbl + 1 := by
          rw [remaining]
          split <;> linarith
        have hfirst : (move (T.vTbl v) c).vTbl = ∅ ∨ remaining θ (move (T.vTbl v) c) ≤ speed c.vTbl :=
          hfall.imp_right fun hle => by linarith
        have hstep : Gliding θ c₁ ∧ (c₁.vTbl = ∅ ∨ remaining θ c₁ ≤ speed c.vTbl) := by
          rcases hcase with rfl | rfl
          · exact ⟨hglide₁, hfirst⟩
          · exact ⟨hglide₁.out, remaining_out hfirst⟩
        obtain ⟨halong, c', hc', hglide', hb'⟩ := run_gliding hc₁ hstep.1 hstep.2 h.2
        refine ⟨θ, ⟨?_, halong⟩, fun _ => ⟨c', hc', hglide', hb'.imp_right fun hle => ?_⟩⟩
        · intro c₂ hc₂
          rw [hv, Option.some.injEq] at hc₂
          exact hc₂ ▸ hmove
        · rw [ticks_cons_tick]
          push_cast
          linarith

private theorem Gliding.remaining_nonneg (h : Gliding θ c) : 0 ≤ remaining θ c := by
  have hspeed : 0 ≤ speed c.vTbl := by
    rcases h.speeds with hvTbl | ⟨v, hv, hvTbl⟩
    · rw [hvTbl, speed, Tally.total_empty]
    · rw [hvTbl, speed_singleton]
      exact hv
  rw [remaining]
  split <;> linarith

end

/-- A client of a reachable state that is not pressed and is left alone has no speed after `⌈S⌉ + 2` ticks, where `S`
is the sum of its speeds, and all its movements until then are under one angle. -/
theorem comes_to_rest (H : Host ℝ) (before calls : List (Call ℝ)) {v : UInt32} {c : Client ℝ}
    (hv : (run (State.step H) State.init before).clients.lookup v = some c) (hfree : c.press.truthy = false)
    (h : Along (State.step H) (Undisturbed H v) (run (State.step H) State.init before) calls) :
    (c.Turns ∧ NonNegative c.vTbl) ∧
      (∃ θ, Along (State.step H) (MovesAlong v θ) (run (State.step H) State.init before) calls) ∧
      (⌈speed c.vTbl⌉₊ + 2 ≤ ticks calls →
        ∃ c', (run (State.step H) State.init (before ++ calls)).clients.lookup v = some c' ∧ c'.vTbl = ∅) := by
  have hinv :
    (∀ v c, (run (State.step H) State.init before).clients.lookup v = some c → c.Turns ∧ NonNegative c.vTbl) := by
    refine (Always.of_invariant (P := fun s : State ℝ => ∀ v c, s.clients.lookup v = some c →
      c.Turns ∧ NonNegative c.vTbl) (fun s call hs => ?_) ?_ before).last
    · intro v c hc
      exact ⟨step_turns (fun v c hc => (hs v c hc).1) call v c hc,
        step_nonNegative (fun v c hc => (hs v c hc).2) call v c hc⟩
    · intro v c hc
      simp [State.init] at hc
  obtain ⟨hturns, hpos⟩ := hinv v c hv
  obtain ⟨θ, halong, hend⟩ := run_free hv hfree hturns hpos h
  refine ⟨⟨hturns, hpos⟩, ⟨θ, halong⟩, fun hticks => ?_⟩
  obtain ⟨c', hc', hglide, hempty | hle⟩ := hend (by omega)
  · exact ⟨c', by rw [run_append, hc'], hempty⟩
  · -- more ticks than there is speed to lose
    have hceil := Nat.le_ceil (speed c.vTbl)
    have hcast : (⌈speed c.vTbl⌉₊ : ℝ) + 2 ≤ ticks calls := by exact_mod_cast hticks
    have hnonneg := hglide.remaining_nonneg
    linarith

/-- A client that is the only one is left alone by ticks. -/
private theorem undisturbed_alone {H : Host ℝ} {v : UInt32} {s : State ℝ} (h : ∀ u, u ≠ v → u ∉ s.clients) (n : ℕ) :
    Along (State.step H) (Undisturbed H v) s (List.replicate n (.Tick default fun _ _ => true)) := by
  induction n generalizing s with
  | zero => trivial
  | succ n ih =>
    refine ⟨fun _ u c d hu _ hd => ?_, ih fun u hu hmem => ?_⟩
    · rw [lookup_moveAll, Finmap.lookup_eq_none.2 (h u hu)] at hd
      cases hd
    · rw [mem_iff_proxies, step_proxies, nextProxies, ← mem_iff_proxies] at hmem
      exact h u hu hmem

/-- Client 1 when it has let go of its button after two ticks. -/
noncomputable def released : Client ℝ := { runner 1 with press := .bool false }

private theorem released_state : run (State.step buttonHost) State.init
    ([.HandleConnect 1, .HandleEvent 1 pressMsg] ++ List.replicate 2 (.Tick default fun _ _ => true) ++
      [.HandleEvent 1 releaseMsg]) = ⟨Finmap.singleton 1 released⟩ := by
  have hcmd : (runner 1).cmd (.table [(.str (literal "press"), .bool false)]) = some released := by
    simp [Client.cmd, Value.index, Value.rawget, Value.rawequal, Value.truthy, released]
  have hevent := handleEvent_cmdCall (s := ⟨Finmap.singleton 1 (runner 1)⟩) buttonHost_releaseMsg
    Finmap.lookup_singleton_eq hcmd
  rw [run_append, run_append, pressed_state, run_ticks (n := 1) (by norm_num), run_cons, run_nil]
  simp only [State.step, HandleEvent, hevent, LuaRun.final, Finmap.insert_singleton_eq]

/-- The client has the speed 2 then, and stands still four ticks later. -/
theorem released_rests : released.vTbl = Finmap.singleton 0 2 ∧
    ∃ c : Client ℝ, (run (State.step buttonHost) State.init
      ([.HandleConnect 1, .HandleEvent 1 pressMsg] ++ List.replicate 2 (.Tick default fun _ _ => true) ++
        [.HandleEvent 1 releaseMsg] ++ List.replicate 4 (.Tick default fun _ _ => true))).clients.lookup 1 = some c ∧
      c.vTbl = ∅ := by
  have hvTbl : released.vTbl = Finmap.singleton 0 2 := by
    have htwo : ((1 : ℕ) + 1 : ℝ) = 2 := by norm_num
    exact congrArg (Finmap.singleton 0) htwo
  have hv : (run (State.step buttonHost) State.init ([.HandleConnect 1, .HandleEvent 1 pressMsg] ++
      List.replicate 2 (.Tick default fun _ _ => true) ++ [.HandleEvent 1 releaseMsg])).clients.lookup 1 =
        some released := by
    rw [released_state]
    exact Finmap.lookup_singleton_eq
  have halone : ∀ u : UInt32, u ≠ 1 → u ∉ (run (State.step buttonHost) State.init
      ([.HandleConnect 1, .HandleEvent 1 pressMsg] ++ List.replicate 2 (.Tick default fun _ _ => true) ++
        [.HandleEvent 1 releaseMsg])).clients := by
    intro u hu hmem
    rw [released_state, Finmap.mem_singleton] at hmem
    exact hu hmem
  refine ⟨hvTbl, (comes_to_rest buttonHost _ _ hv rfl (undisturbed_alone halone 4)).2.2 ?_⟩
  rw [hvTbl, speed_singleton, Nat.ceil_ofNat]
  exact le_rfl

end LibeventServer.Lua

import LibeventServer.Lua.Phases
import LibeventServer.Lua.Synthesis

/-!
# No speed is ever negative

Every operation on a table of speeds keeps its values from becoming negative, and so no state of a run has a negative
speed and `synthesis` takes no root of a negative number (`nonNegative_always`).
-/

namespace LibeventServer.Lua

open Runs

/-! ### The operations on tables -/

section

variable {vTbl : Finmap fun _ : ℝ => ℝ}

private theorem nonNegative_empty : NonNegative ∅ := fun _ _ h => by simp at h

private theorem NonNegative.insert (h : NonNegative vTbl) (angle : ℝ) {value : ℝ} (hvalue : 0 ≤ value) :
    NonNegative (vTbl.insert angle value) := by
  intro a v hv
  by_cases ha : a = angle
  · subst ha
    rw [Finmap.lookup_insert, Option.some.injEq] at hv
    exact hv ▸ hvalue
  · rw [Finmap.lookup_insert_of_ne _ ha] at hv
    exact h a v hv

private theorem NonNegative.getD (h : NonNegative vTbl) (angle : ℝ) : 0 ≤ (vTbl.lookup angle).getD 0 := by
  cases hv : vTbl.lookup angle with
  | none => exact le_rfl
  | some v => exact h angle v hv

private theorem NonNegative.addv (h : NonNegative vTbl) (angle : ℝ) {value : ℝ} (hvalue : 0 ≤ value) :
    NonNegative (addv vTbl angle value) :=
  h.insert angle (add_nonneg (h.getD angle) hvalue)

private theorem NonNegative.erase (h : NonNegative vTbl) (angle : ℝ) : NonNegative (vTbl.erase angle) := by
  intro a v hv
  by_cases ha : a = angle
  · subst ha
    rw [Finmap.lookup_erase] at hv
    cases hv
  · rw [Finmap.lookup_erase_ne ha] at hv
    exact h a v hv

/-- `subv` deletes what would not be positive. -/
private theorem NonNegative.subv (h : NonNegative vTbl) (angle value : ℝ) : NonNegative (subv vTbl angle value) := by
  unfold Lua.subv
  split
  · exact h
  · split
    · exact h.erase angle
    · rename_i hpos
      exact h.insert angle (not_le.1 hpos).le

private theorem NonNegative.synthesis (h : NonNegative vTbl) (order : Enumeration ℝ) :
    NonNegative (synthesis order vTbl) := by
  rcases synthesis_cases h order with rfl | ⟨angle, value, hvalue, -, hsynthesis⟩
  · rw [synthesis_empty]
    exact nonNegative_empty
  · rw [hsynthesis]
    exact nonNegative_empty.insert angle hvalue

end

/-! ### What happens to a client -/

section

variable {c : Client ℝ}

private theorem nonNegative_move (h : NonNegative c.vTbl) (order : Enumeration ℝ) :
    NonNegative (move order c).vTbl := by
  have hadvance : ∀ first (c : Client ℝ), (advance first c).vTbl = c.vTbl := by
    intro first c
    cases first <;> rfl
  have hturn : ∀ c : Client ℝ, NonNegative c.vTbl → NonNegative (turn c).vTbl := by
    intro c hc
    unfold turn
    split
    · exact hc.addv _ (by norm_num [PRESS_A])
    · exact hc
  have hslow : ∀ first (c : Client ℝ), NonNegative c.vTbl → NonNegative (slow first c).vTbl := by
    intro first c hc
    unfold slow
    split
    · split
      · exact hc.subv _ _
      · exact hc
    · exact hc
  refine hslow _ _ (hturn _ ?_)
  rw [hadvance]
  exact h.synthesis order

private theorem nonNegative_struck (h : NonNegative c.vTbl) (l : List ℝ) : NonNegative (c.struck l).vTbl := by
  induction l generalizing c with
  | nil => exact h
  | cons angle l ih =>
    have hcons : c.struck (angle :: l) = (c.struck [angle]).struck l := by rw [Client.struck_struck]; rfl
    rw [hcons]
    exact ih (h.addv angle (by norm_num [HIT_A]))

private theorem nonNegative_out (h : NonNegative c.vTbl) : NonNegative (out c).vTbl := by
  unfold out
  split
  · exact nonNegative_empty
  · exact h

end

/-- No call makes a speed negative. -/
theorem step_nonNegative {H : Host ℝ} {s : State ℝ} (h : ∀ v c, s.clients.lookup v = some c → NonNegative c.vTbl)
    (call : Call ℝ) : ∀ v c, (s.step H call).clients.lookup v = some c → NonNegative c.vTbl := by
  refine step_all_clients (P := fun c => NonNegative c.vTbl) (fun _ => nonNegative_empty) ?_
    (fun e _ hc => nonNegative_move hc e) (fun _ l hc => nonNegative_struck hc l) (fun _ => nonNegative_out) h call
  rintro c c' arg hcmd hc
  obtain ⟨press, d, rfl, -⟩ := Client.cmd_eq hcmd
  exact hc

/-! ### The roots -/

/-- What the loop body takes the root of, when it takes one. -/
noncomputable def radicand (tbl : Finmap fun _ : ℝ => ℝ) (s : Option (ℝ × ℝ)) (_angle : ℝ) : Option ℝ :=
  match tbl.lookup _angle, s with
  | some _value, some (angle, value) =>
    some (value ^ 2 + _value ^ 2 + 2 * value * _value * Real.cos (between angle _angle))
  | _, _ => none

/-- What the loop takes the roots of, from a state `s` over the angles. -/
noncomputable def radicands (tbl : Finmap fun _ : ℝ => ℝ) : Option (ℝ × ℝ) → List ℝ → List ℝ
  | _, [] => []
  | s, _angle :: order => (radicand tbl s _angle).toList ++ radicands tbl (synthesisStep tbl s _angle) order

private theorem radicands_nonneg (tbl : Finmap fun _ : ℝ => ℝ) (s : Option (ℝ × ℝ)) (order : List ℝ) :
    ∀ q ∈ radicands tbl s order, 0 ≤ q := by
  induction order generalizing s with
  | nil => simp [radicands]
  | cons _angle order ih =>
    intro q hq
    rcases List.mem_append.1 hq with hq | hq
    · rw [Option.mem_toList] at hq
      unfold radicand at hq
      split at hq
      · rw [Option.some.injEq] at hq
        exact hq ▸ synthesis_radicand_nonneg _ _ _
      · cases hq
    · exact ih _ q hq

/-- In every state of a run no speed is negative, and neither is anything `synthesis` takes a root of. -/
theorem nonNegative_always (H : Host ℝ) (calls : List (Call ℝ)) :
    Always (State.step H) (fun s => ∀ v c, s.clients.lookup v = some c → NonNegative c.vTbl ∧
      ∀ order : Enumeration ℝ, ∀ q ∈ radicands c.vTbl none (order.order c.vTbl.keys), 0 ≤ q) State.init calls := by
  have hspeeds : Always (State.step H) (fun s => ∀ v c, s.clients.lookup v = some c → NonNegative c.vTbl)
      State.init calls := by
    refine Always.of_invariant (fun s call h => step_nonNegative h call) ?_ calls
    intro v c hc
    simp [State.init] at hc
  exact hspeeds.mono fun s h v c hc => ⟨h v c hc, fun order => radicands_nonneg c.vTbl none _⟩

end LibeventServer.Lua

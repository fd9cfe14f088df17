import LibeventServer.Lua.BattleRoom

/-!
# The movement of a tick

The first phase carries a client by the one speed its `vTbl` is synthesised to (`Client.landed`); turning and slowing
down leave the position (`move_place`).
-/

namespace LibeventServer.Lua

variable {N : Type} [Field N] [LinearOrder N] [LuaMath N]

theorem synthesis_empty (e : Enumeration N) : synthesis e ∅ = ∅ := by
  rw [synthesis, Finmap.keys_empty, Enumeration.order_empty]
  rfl

theorem synthesis_singleton (e : Enumeration N) (angle value : N) :
    synthesis e (Finmap.singleton angle value) = Finmap.singleton angle value := by
  rw [synthesis, Finmap.keys_singleton, Enumeration.order_singleton, List.foldl_cons, List.foldl_nil, synthesisStep,
    Finmap.lookup_singleton_eq]

omit [Field N] [LuaMath N] in
theorem next_empty (e : Enumeration N) : next e (∅ : Finmap fun _ : N => N) = none := by
  rw [next, Finmap.keys_empty, Enumeration.order_empty]
  rfl

omit [Field N] [LuaMath N] in
theorem next_singleton (e : Enumeration N) (angle value : N) :
    next e (Finmap.singleton angle value) = some (angle, value) := by
  rw [next, Finmap.keys_singleton, Enumeration.order_singleton]
  simp

/-- The entry `next` finds after a synthesis is the only one. -/
theorem next_synthesis (e e' o : Enumeration N) (tbl : Finmap fun _ : N => N) :
    next e (synthesis o tbl) = next e' (synthesis o tbl) := by
  rw [synthesis]
  cases (o.order tbl.keys).foldl (synthesisStep tbl) none with
  | none => rw [next_empty, next_empty]
  | some p => rw [next_singleton, next_singleton]

/-- A client where the movement of a tick brings it. -/
def Client.landed (order : Enumeration N) (c : Client N) : Client N :=
  advance (next order (synthesis order c.vTbl)) c

theorem Client.landed_of_empty {c : Client N} (h : c.vTbl = ∅) (e : Enumeration N) : c.landed e = c := by
  rw [Client.landed, h, synthesis_empty, next_empty]
  rfl

theorem move_place (order : Enumeration N) (c : Client N) :
    (move order c).x = (c.landed order).x ∧ (move order c).y = (c.landed order).y ∧
      (move order c).r = (c.landed order).r := by
  have hadvance : ∀ first vTbl, (advance first { c with vTbl := vTbl }).x = (advance first c).x ∧
      (advance first { c with vTbl := vTbl }).y = (advance first c).y ∧
      (advance first { c with vTbl := vTbl }).r = (advance first c).r := by
    intro first vTbl
    cases first <;> exact ⟨rfl, rfl, rfl⟩
  have hturn : ∀ c : Client N, (turn c).x = c.x ∧ (turn c).y = c.y ∧ (turn c).r = c.r := by
    intro c
    unfold turn
    split <;> exact ⟨rfl, rfl, rfl⟩
  have hslow : ∀ first (c : Client N), (slow first c).x = c.x ∧ (slow first c).y = c.y ∧ (slow first c).r = c.r := by
    intro first c
    unfold slow
    split
    · split <;> exact ⟨rfl, rfl, rfl⟩
    · exact ⟨rfl, rfl, rfl⟩
  simp only [move, Client.landed, hslow, hturn, hadvance, and_self]

theorem lookup_moveAll (T : Traversals N) (t : Finmap fun _ : UInt32 => Client N) (v : UInt32) :
    (moveAll T t).1.lookup v = (t.lookup v).map (move (T.vTbl v)) := by
  rw [moveAll, Table.foldl_visit_fst, Table.lookup_forEach (T.move.nodup _)]
  simp only [T.move.mem_order, Finmap.mem_keys]
  split
  · rfl
  · rename_i hv
    rw [Finmap.lookup_eq_none.2 hv, Option.map_none]

end LibeventServer.Lua

import LibeventServer.Lua.ClassSteps

/-!
# Method resolution

`lua_class` copies the fields of the superclass into the new class, and `super` looks them up in the superclass
itself.  In a chain of classes each of which has its fields before the next one is derived from it, both find what the
nearest class assigned (`method_resolution`).
-/

namespace LibeventServer.Lua.Classes

open Runs

section

variable {D F : Type} {order : Enumeration Str} {ops : List (ClassOp D F)}

/-! ### Chains of classes -/

variable (order) in
/-- From the class back to one without a superclass: each was derived from the next one when that had its fields. -/
inductive Chain (ops : List (ClassOp D F)) : List Nat → Prop
  | root {before after : List (ClassOp D F)} {name : D} (h : ops = before ++ .lua_class name none :: after) :
      Chain ops [(run (ClassOp.step order) default before).next]
  | derive {before after : List (ClassOp D F)} {name : D} {S : Nat} {above : List Nat} (h : Chain ops (S :: above))
      (hops : ops = before ++ .lua_class name (some S) :: after) (hS : ∀ k v, .assign S k v ∉ after) :
      Chain ops ((run (ClassOp.step order) default before).next :: S :: above)

/-- What the nearest class assigned. -/
def nearest (ops : List (ClassOp D F)) (k : Str) : List Nat → Datum D F
  | [] => .nil
  | C :: above => (assigned C k ops).getD (nearest ops k above)

/-- What a class has comes from the nearest class that assigned it. -/
private theorem rawget_eq_nearest (hops : LegalRun order default ops) {l : List Nat}
    (hchain : Chain order ops l) {C : Nat} {above : List Nat} (hl : l = C :: above) (k : Field) :
    (run (ClassOp.step order) default ops).rawget C k = nearest ops k (C :: above) := by
  induction hchain generalizing C above with
  | root hsplit =>
    cases hl
    subst hsplit
    exact rawget_of_made hops k
  | @derive before after name S above hchain hsplit hS ih =>
    cases hl
    have hsuper := ih rfl
    subst hsplit
    rw [rawget_of_made hops k, nearest, ← hsuper]
    -- the superclass has not changed since
    obtain ⟨hsound, hclass, -, -, -⟩ := made_run hops
    have hafter := ((along_append _ _ _).1 hops).2
    have hnone : assigned S (k : Str) (.lua_class name (some S) :: after) = none := by
      rw [assigned, assigns_lua_class, Option.or_none]
      exact assigned_of_notMem hS k
    rw [run_append, rawget_run hsound hafter (hclass S rfl), hnone]
    rfl

/-! ### Method resolution -/

private theorem Chain.of_cons {C S : Nat} {rest : List Nat} (h : Chain order ops (C :: S :: rest)) :
    Chain order ops (S :: rest) := by
  cases h with
  | derive h _ _ => exact h

/-- A class further up in a chain has the rest of the chain. -/
private theorem Chain.tail {below above : List Nat} {C : Nat} (h : Chain order ops (below ++ C :: above)) :
    Chain order ops (C :: above) := by
  induction below with
  | nil => exact h
  | cons C' below ih =>
    refine ih ?_
    cases below with
    | nil => exact h.of_cons
    | cons C'' below => exact h.of_cons

variable (order) in
/-- What the class `C` with the classes `above` does after the operations: its objects find what the nearest class
assigned, `super` calls what the nearest class above it assigned, a new object is given to the nearest `_init`, and
what `lua_class` keeps in a class is its own. -/
structure Resolves (ops : List (ClassOp D F)) (σ : Tables D F) (C : Nat) (above : List Nat) : Prop where
  object : ∀ o (k : Field), σ.metatable o = some (.type_obj C) → (σ.rawget o k).isNil →
    σ.get o k = some (nearest ops k (C :: above))
  super_none : ∀ self (k : Field), nearest ops k above = .nil → (super C self).index σ k = some none
  super_func : ∀ self (k : Field) f, nearest ops k above = .func f →
    ∃ caller, (super C self).index σ k = some (some caller) ∧ ∀ args, caller.call args = ⟨.func f, self :: args⟩
  init : ∀ args, ∃ σ', create_object C args σ = some (σ.next, if (nearest ops _init (C :: above)).truthy then
    some ⟨nearest ops _init (C :: above), .table σ.next :: args⟩ else none, σ')
  name : ∀ before name super after, ops = before ++ .lua_class name super :: after →
    C = (run (ClassOp.step order) default before).next → σ.rawget C (literal "_name") = .plain name
  index : σ.rawget C (literal "__index") = .table C
  superclass : ∀ S rest, above = S :: rest → σ.rawget C (literal "_super") = .table S
  own : ∀ S rest, above = S :: rest → σ.rawget C (literal "__index") ≠ σ.rawget S (literal "__index") ∧
    σ.rawget C (literal "_super") ≠ σ.rawget S (literal "_super")

private theorem isClass_of_chain (hops : LegalRun order default ops) {C : Nat} {above : List Nat}
    (hchain : Chain order ops (C :: above)) : (run (ClassOp.step order) default ops).IsClass C := by
  cases hchain with
  | root hsplit =>
    subst hsplit
    exact isClass_of_made hops
  | derive _ hsplit _ =>
    subst hsplit
    exact isClass_of_made hops

/-- `_super` is the next class of the chain, or an empty table. -/
private theorem super_of_chain (hops : LegalRun order default ops) {C : Nat} {above : List Nat}
    (hchain : Chain order ops (C :: above)) :
    ∃ s, (run (ClassOp.step order) default ops).rawget C (literal "_super") = .table s ∧
      (∀ S rest, above = S :: rest → s = S) ∧
      (above = [] → ∀ k, (run (ClassOp.step order) default ops).rawget s k = .nil) := by
  cases hchain with
  | @root before after name hsplit =>
    subst hsplit
    obtain ⟨-, -, hmade, hsound, hafter⟩ := made_run hops
    obtain ⟨s, hs, hlt, hcases⟩ := hmade.super
    have hgt := (hcases.resolve_left nofun).2
    refine ⟨s, ?_, nofun, fun _ k => ?_⟩
    · rw [rawget_not_field hops (Or.inr (Or.inr rfl)), hs]
    · rw [run_append, run_cons]
      exact empty_run hsound hafter hlt (hmade.rest s hgt) k
  | @derive before after name S above hchain hsplit hS =>
    subst hsplit
    obtain ⟨-, -, hmade, -, -⟩ := made_run hops
    obtain ⟨s, hs, -, hcases⟩ := hmade.super
    have hsome := hcases.resolve_right fun h => nomatch h.1
    cases hsome
    refine ⟨S, ?_, fun S' rest heq => ?_, nofun⟩
    · rw [rawget_not_field hops (Or.inr (Or.inr rfl)), hs]
    · exact (List.cons.inj heq).1

/-- In a chain of classes that have their fields when a class is derived from them, every class resolves names to the
nearest class that assigned them. -/
theorem method_resolution (hops : LegalRun order default ops) {below above : List Nat} {C : Nat}
    (h : Chain order ops (below ++ C :: above)) :
    Resolves order ops (run (ClassOp.step order) default ops) C above := by
  have hchain := h.tail
  have hsound := sound_default.run hops
  have hclass := isClass_of_chain hops hchain
  have hrawget := rawget_eq_nearest hops hchain rfl
  obtain ⟨s, hs, hsome, hnone⟩ := super_of_chain hops hchain
  -- the superclass resolves a name as the chain above does
  have habove : ∀ k : Field, (run (ClassOp.step order) default ops).rawget s k = nearest ops k above := by
    intro k
    cases above with
    | nil => exact hnone rfl k
    | cons S rest =>
      rw [hsome S rest rfl]
      exact rawget_eq_nearest hops hchain.of_cons rfl k
  have hindex : ∀ self (k : Field), (super C self).index (run (ClassOp.step order) default ops) k =
      some (if (nearest ops k above).truthy then some ⟨nearest ops k above, self⟩ else none) := by
    intro self k
    rw [← habove k]
    exact Super.index_eq hclass hs self k
  have hclassIndex := hsound.index C hclass
  refine ⟨fun o k ho hk => ?_, fun self k hnil => ?_, fun self k f hf => ?_, fun args => ?_, ?_, hclassIndex, ?_, ?_⟩
  · rw [Tables.get_object _ ho hclass hclassIndex hk, hrawget]
  · rw [hindex, hnil]
    rfl
  · refine ⟨⟨.func f, self⟩, ?_, fun _ => rfl⟩
    rw [hindex, hf]
    rfl
  · rw [create_object_eq hsound hclass, ← hrawget _init]
    exact ⟨_, rfl⟩
  · rintro before name super after hsplit rfl
    subst hsplit
    obtain ⟨-, -, hmade, -, -⟩ := made_run hops
    rw [rawget_not_field hops (Or.inl rfl), hmade.name]
  · rintro S rest rfl
    rw [hs, hsome S rest rfl]
  · rintro S rest rfl
    have hSclass := isClass_of_chain hops hchain.of_cons
    have heq := hsome S rest rfl
    subst heq
    rw [hclassIndex, hsound.index s hSclass, hs]
    refine ⟨fun hindex => ?_, fun hsuper => hsound.super_ne hSclass hsuper.symm rfl⟩
    exact hsound.super_ne hclass hs (Datum.table.inj hindex).symm

end

theorem twoClasses_resolve : ∃ C, nearest twoClasses _init [C, 0] = .func false ∧
    Resolves default twoClasses (run (ClassOp.step default) default twoClasses) C [0] := by
  have hroot : Chain default twoClasses [0] := @Chain.root _ _ default twoClasses [] _ () rfl
  have hchain : Chain default twoClasses ([] ++ _ :: [0]) :=
    @Chain.derive _ _ default twoClasses (twoClasses.take 2) [] () 0 [] hroot rfl fun _ _ => List.not_mem_nil
  refine ⟨_, ?_, method_resolution (twoClasses_legal default) hchain⟩
  have hassigned : ∀ C, nearest twoClasses _init [C, 0] = .func false := by
    intro C
    by_cases hC : C = 0
    · subst hC
      rfl
    · simp [nearest, assigned, twoClasses, ClassOp.assigns, Ne.symm hC]
  exact hassigned _

end LibeventServer.Lua.Classes

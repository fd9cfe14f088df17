import LibeventServer.Lua.ClassSteps

/-!
# The two ways to an inherited function

An object finds an inherited function in its own class, where it was copied when the class was derived; `super` looks
in the superclass as it is now.  In a run of derivations and assignments of functions the two agree all along exactly
when no assignment changes what a class hands on to a subclass that has not assigned it itself (`agree_iff`).
-/

namespace LibeventServer.Lua.Classes

open Runs

section

variable {D F : Type} (order : Enumeration Str)

/-- The tables, and the operations so far. -/
structure Past (D F : Type) where
  tables : Tables D F
  ops : List (ClassOp D F)

def Past.start : Past D F := ⟨default, []⟩

def Past.step (s : Past D F) (op : ClassOp D F) : Past D F := ⟨op.step order s.tables, s.ops ++ [op]⟩

/-- The operation is on classes and objects that are there, and assigns functions to classes. -/
def Past.Allowed (s : Past D F) (op : ClassOp D F) : Prop :=
  op.Legal s.tables ∧ ∀ C k v, op = .assign C k v → ∃ f, v = .func f

/-- A class and the class it was derived from. -/
def Tables.Derived (σ : Tables D F) (C S : Nat) : Prop :=
  σ.IsClass C ∧ σ.IsClass S ∧ σ.rawget C (literal "_super") = .table S

/-- The function that an object of a class finds under a key which the class has not assigned is the one that `super`
calls under the key. -/
def Agree (s : Past D F) : Prop :=
  ∀ C S (k : Field), s.tables.Derived C S → assigned C k s.ops = none →
    ∀ ins init σ', create_object C [] s.tables = some (ins, init, σ') →
      ∀ f, σ'.get ins k = some (.func f) ↔
        ∃ caller, (super C (.table ins)).index σ' k = some (some caller) ∧ caller.func = .func f

/-- An assignment does not change the class, or every class derived from it has assigned the key itself. -/
def HandsOn (s : Past D F) : ClassOp D F → Prop
  | .assign S k v => s.tables.rawget S k = v ∨ ∀ C, s.tables.Derived C S → assigned C k s.ops ≠ none
  | _ => True

variable {order} {σ : Tables D F}

/-- Both ways, in terms of the two classes. -/
private theorem agree_fields (h : Sound σ) {C S : Nat} (hd : σ.Derived C S) (k : Field) :
    (∀ ins init σ', create_object C [] σ = some (ins, init, σ') → ∀ f, σ'.get ins k = some (.func f) ↔
      ∃ caller, (super C (.table ins)).index σ' k = some (some caller) ∧ caller.func = .func f) ↔
    ∀ f, σ.rawget C k = .func f ↔ σ.rawget S k = .func f := by
  obtain ⟨hC, hS, hsuper⟩ := hd
  have hCne := (h.lt_of_class hC).ne
  have hSne := (h.lt_of_class hS).ne
  have hC' : (created C σ).IsClass C := (metatable_created_of_ne C hCne).trans hC
  have hobject : (created C σ).get σ.next k = some (σ.rawget C k) := by
    have hindex : (created C σ).rawget C (literal "__index") = .table C := by
      rw [rawget_created_of_ne C hCne, h.index C hC]
    have hnone : ((created C σ).rawget σ.next k).isNil := by
      rw [rawget_created_self]
      rfl
    rw [Tables.get_object _ (metatable_created_self C) hC' hindex hnone, rawget_created_of_ne C hCne]
  have hcalls : ∀ f, (∃ caller, (super C (.table σ.next)).index (created C σ) k = some (some caller) ∧
      caller.func = .func f) ↔ σ.rawget S k = .func f := by
    intro f
    have hsuper' : (created C σ).rawget C (literal "_super") = .table S := by
      rw [rawget_created_of_ne C hCne, hsuper]
    rw [Super.calls_iff hC' hsuper', rawget_created_of_ne C hSne]
  have hcreate := create_object_eq h hC []
  constructor
  · intro hagree f
    have hf := hagree _ _ _ hcreate f
    rw [hobject, hcalls, Option.some.injEq] at hf
    exact hf
  · intro hsame ins init σ' hrun f
    rw [hcreate] at hrun
    cases hrun
    rw [hobject, hcalls, Option.some.injEq]
    exact hsame f

private theorem agree_iff_fields {s : Past D F} (h : Sound s.tables) :
    Agree s ↔ ∀ C S (k : Field), s.tables.Derived C S → assigned C k s.ops = none →
      ∀ f, s.tables.rawget C k = .func f ↔ s.tables.rawget S k = .func f := by
  refine forall_congr' fun C => forall_congr' fun S => forall_congr' fun k => ?_
  refine ⟨fun hagree hd hk => (agree_fields h hd k).1 (hagree hd hk), fun hsame hd hk => ?_⟩
  exact (agree_fields h hd k).2 (hsame hd hk)

variable (order) in
/-- Which class was derived from which is not changed. -/
private theorem derived_step (h : Sound σ) {op : ClassOp D F} (hop : op.Legal σ) {C S : Nat} (hC : σ.IsClass C) :
    (op.step order σ).Derived C S ↔ σ.Derived C S := by
  have hsuper : (op.step order σ).rawget C (literal "_super") = σ.rawget C (literal "_super") :=
    ClassOp.rawget_step_of_not_field h hop hC (Or.inr (Or.inr rfl))
  unfold Tables.Derived
  rw [hsuper]
  constructor
  · rintro ⟨-, hS, hs⟩
    obtain ⟨s, hs', -, hlt, -⟩ := h.super C hC
    rw [hs] at hs'
    cases hs'
    exact ⟨hC, (ClassOp.metatable_step h hop hlt).symm.trans hS, hs⟩
  · rintro ⟨-, hS, hs⟩
    exact ⟨ClassOp.isClass_step h hop hC, ClassOp.isClass_step h hop hS, hs⟩

/-- A new class agrees with the class it is derived from. -/
private theorem derived_made (h : Sound σ) {name : D} {super : Option Nat}
    (hop : (ClassOp.lua_class name super).Legal σ)
    {S : Nat} (hd : ((ClassOp.lua_class name super).step order σ).Derived σ.next S) (k : Field) :
    ((ClassOp.lua_class name super).step order σ).rawget σ.next k =
      ((ClassOp.lua_class name super).step order σ).rawget S k := by
  have hmade := made_lua_class order h name hop
  obtain ⟨-, hS, hs⟩ := hd
  obtain ⟨s, hs', -, hcases⟩ := hmade.super
  have heq : s = S := Datum.table.inj (hs'.symm.trans hs)
  subst heq
  rcases hcases with rfl | ⟨-, hgt⟩
  · have hold := (hmade.old s (h.lt_of_class (hop s rfl))).1
    exact (hmade.field k).trans (congrFun hold k).symm
  · have hnone := (hmade.rest s hgt).1
    have hclass : (lua_class order name super σ).2.metatable s = _ := hS
    rw [hnone] at hclass
    cases hclass

private theorem assigned_step (s : Past D F) (op : ClassOp D F) (C : Nat) (k : Str) :
    assigned C k (s.step order op).ops = (op.assigns C k).or (assigned C k s.ops) := by
  show assigned C k (s.ops ++ [op]) = _
  rw [assigned_append, assigned, assigned, Option.none_or]

private theorem assigns_eq_some {op : ClassOp D F} {C : Nat} {k : Field} {v : Datum D F}
    (h : op.assigns C k = some v) :
    op = .assign C k v := by
  cases op with
  | assign C' k' v' =>
    rw [ClassOp.assigns] at h
    split at h
    · rename_i heq
      obtain ⟨rfl, hk⟩ := heq
      cases h
      rw [Subtype.ext hk]
    · cases h
  | _ => cases h

variable (order) in
private theorem rawget_class_step (h : Sound σ) {op : ClassOp D F} (hop : op.Legal σ) {C : Nat}
    (hC : σ.IsClass C) (k : Field) :
    (op.step order σ).rawget C k = (op.assigns C k).getD (σ.rawget C k) :=
  ClassOp.rawget_step h hop (h.lt_of_class hC) hC.not_object k

/-- An assignment that changes what a class hands on makes the two ways differ. -/
private theorem handsOn_of_agree {s : Past D F} (h : Sound s.tables) (hagree : Agree s) {op : ClassOp D F}
    (hop : s.Allowed op) (hafter : Agree (s.step order op)) : HandsOn s op := by
  obtain ⟨hlegal, hfunc⟩ := hop
  have hsound : Sound (s.step order op).tables := h.step hlegal
  rw [agree_iff_fields h] at hagree
  rw [agree_iff_fields hsound] at hafter
  cases op with
  | assign S k v =>
    by_cases heq : s.tables.rawget S k = v
    · exact Or.inl heq
    · refine Or.inr fun C hd hnone => ?_
      obtain ⟨f, rfl⟩ := hfunc S k v rfl
      have hne : S ≠ C := h.super_ne hd.1 hd.2.2
      have hself : (ClassOp.assign S k (.func f) : ClassOp D F).assigns S k = some (.func f) := if_pos ⟨rfl, rfl⟩
      have hother : (ClassOp.assign S k (.func f) : ClassOp D F).assigns C k = none := if_neg fun h => hne h.1
      have hd' : (s.step order (.assign S k (.func f))).tables.Derived C S := (derived_step order h hlegal hd.1).2 hd
      have hboth := hafter C S k hd' (by rw [assigned_step, hother, hnone, Option.none_or]) f
      have hC := rawget_class_step order h hlegal hd.1 k
      have hS := rawget_class_step order h hlegal hd.2.1 k
      rw [hother] at hC
      rw [hself] at hS
      exact heq ((hagree C S k hd hnone f).1 (hC.symm.trans (hboth.2 hS)))
  | _ => trivial

/-- Otherwise they still agree. -/
private theorem agree_of_handsOn {s : Past D F} (h : Sound s.tables) (hagree : Agree s) {op : ClassOp D F}
    (hlegal : op.Legal s.tables) (hhands : HandsOn s op) : Agree (s.step order op) := by
  have hsound : Sound (s.step order op).tables := h.step hlegal
  rw [agree_iff_fields h] at hagree
  rw [agree_iff_fields hsound]
  intro C S k hd hnone f
  rw [assigned_step, Option.or_eq_none_iff] at hnone
  obtain ⟨hassigns, hnone⟩ := hnone
  by_cases hC : s.tables.IsClass C
  · have hd₀ := (derived_step order h hlegal hC).1 hd
    have hbefore := hagree C S k hd₀ hnone f
    have hCk := rawget_class_step order h hlegal hC k
    have hSk := rawget_class_step order h hlegal hd₀.2.1 k
    rw [hassigns] at hCk
    show (op.step order s.tables).rawget C k = .func f ↔ (op.step order s.tables).rawget S k = .func f
    rw [hCk, hSk]
    cases hv : op.assigns S k with
    | none => exact hbefore
    | some v =>
      cases assigns_eq_some hv
      -- `S` has this value already, or each class derived from it has assigned the name itself
      rcases hhands with heq | hall
      · rw [heq] at hbefore
        exact hbefore
      · exact absurd hnone (hall C hd₀)
  · -- the class has just been made
    have hge : s.tables.next ≤ C := by
      by_contra hlt
      exact hC ((ClassOp.metatable_step h hlegal (not_le.1 hlt)).symm.trans hd.1)
    obtain ⟨name, super, rfl, rfl⟩ := ClassOp.new_class h hlegal hge hd.1
    have hsame := derived_made h hlegal hd k
    show (ClassOp.step order s.tables (.lua_class name super)).rawget s.tables.next k = .func f ↔ _
    rw [hsame]
    exact Iff.rfl

/-- From a state in which both ways agree, an operation leads to such a state exactly when it hands on what it
assigns. -/
private theorem agree_step_iff {s : Past D F} (h : Sound s.tables) (hagree : Agree s) {op : ClassOp D F}
    (hop : s.Allowed op) :
    Agree (s.step order op) ↔ HandsOn s op :=
  ⟨handsOn_of_agree h hagree hop, agree_of_handsOn h hagree hop.1⟩

private theorem agree_start : Agree (Past.start : Past D F) := by
  rintro C S k ⟨hC, -⟩
  cases hC

/-- The two ways to an inherited function agree all along a run exactly when every assignment in it hands on what it
assigns. -/
theorem agree_iff {ops : List (ClassOp D F)} (hops : Along (Past.step order) Past.Allowed Past.start ops) :
    Always (Past.step order) Agree Past.start ops ↔ Along (Past.step order) HandsOn Past.start ops := by
  have hstep : ∀ (s : Past D F) op, Sound s.tables ∧ Agree s → Past.Allowed s op →
      (Agree (s.step order op) ↔ HandsOn s op) := fun s op h hop => agree_step_iff h.1 h.2 hop
  refine always_iff_along_of_allowed hstep ?_ ⟨sound_default, agree_start⟩ agree_start hops
  exact fun s op h hop hhands => ⟨h.1.step hop.1, (hstep s op h hop).2 hhands⟩

end

/-! ### Two classes -/

section

variable {D F : Type} {order : Enumeration Str}

private theorem run_past (s : Past D F) (ops : List (ClassOp D F)) :
    run (Past.step order) s ops = ⟨run (ClassOp.step order) s.tables ops, s.ops ++ ops⟩ := by
  induction ops generalizing s with
  | nil => rw [run_nil, run_nil, List.append_nil]
  | cons op ops ih =>
    rw [run_cons, ih, run_cons]
    simp [Past.step]

private theorem allowed_of_legal {s : Past D F} {ops : List (ClassOp D F)} (hops : LegalRun order s.tables ops)
    (hfunc : ∀ C k v, .assign C k v ∈ ops → ∃ f, v = .func f) : Along (Past.step order) Past.Allowed s ops := by
  induction ops generalizing s with
  | nil => trivial
  | cons op ops ih =>
    refine ⟨⟨hops.1, fun C k v heq => hfunc C k v (by rw [heq]; exact List.mem_cons_self)⟩, ?_⟩
    exact ih hops.2 fun C k v hmem => hfunc C k v (List.mem_cons_of_mem _ hmem)

end

private theorem twoClasses_allowed (order : Enumeration Str) :
    Along (Past.step order) Past.Allowed (Past.start : Past Unit Bool) twoClasses := by
  refine allowed_of_legal (twoClasses_legal order) fun C k v hmem => ?_
  simp only [twoClasses, List.mem_cons, ClassOp.assign.injEq, List.not_mem_nil, or_false, false_or,
    reduceCtorEq] at hmem
  exact ⟨false, hmem.2.2⟩

theorem twoClasses_agree : Always (Past.step default) Agree (Past.start : Past Unit Bool) twoClasses := by
  refine (agree_iff (twoClasses_allowed default)).2 ⟨trivial, Or.inr fun C hd => ?_, trivial, trivial⟩
  -- no class is derived yet
  have hfirst : (ClassOp.lua_class () none : ClassOp Unit Bool).Legal default := nofun
  have hmade := made_lua_class default (sound_default (D := Unit) (F := Bool)) () hfirst
  obtain ⟨hC, -, hsuper⟩ := hd
  rcases Nat.eq_zero_or_pos C with rfl | hpos
  · obtain ⟨s, hs, -, hcases⟩ := hmade.super
    have hzero : s = 0 := Datum.table.inj (hs.symm.trans hsuper)
    rcases hcases with hsome | ⟨-, hgt⟩
    · cases hsome
    · exact absurd hzero hgt.ne'
  · have hnone := (hmade.rest C hpos).1
    have hclass : (lua_class default () none (default : Tables Unit Bool)).2.metatable C = _ := hC
    rw [hnone] at hclass
    cases hclass

/-- The superclass is assigned another method. -/
def reassigned : List (ClassOp Unit Bool) := twoClasses ++ [.assign 0 _init (.func true)]

theorem reassigned_disagree : Along (Past.step default) Past.Allowed (Past.start : Past Unit Bool) reassigned ∧
    ¬ Agree (run (Past.step default) (Past.start : Past Unit Bool) reassigned) := by
  have hfirst : (ClassOp.lua_class () none : ClassOp Unit Bool).Legal default := nofun
  have hmade := made_lua_class default (sound_default (D := Unit) (F := Bool)) () hfirst
  have hzero : (run (ClassOp.step default) (default : Tables Unit Bool) twoClasses).IsClass 0 :=
    isClass_run (sound_default.step hfirst) (twoClasses_legal default).2 hmade.class_
  have hlegal : LegalRun default (default : Tables Unit Bool) reassigned :=
    (along_append _ _ _).2 ⟨twoClasses_legal default, hzero, trivial⟩
  constructor
  · refine allowed_of_legal hlegal fun C k v hmem => ?_
    simp only [reassigned, twoClasses, List.cons_append, List.nil_append, List.mem_cons, ClassOp.assign.injEq,
      List.not_mem_nil, or_false, false_or, reduceCtorEq] at hmem
    rcases hmem with hmem | hmem
    · exact ⟨false, hmem.2.2⟩
    · exact ⟨true, hmem.2.2⟩
  · -- the derived class, made after the first two operations, keeps the copy it was given
    have hsplit : LegalRun default default (twoClasses.take 2 ++ .lua_class () (some 0) ::
        [.assign 0 _init (.func true)]) := hlegal
    obtain ⟨-, -, hderived, -, -⟩ := made_run hsplit
    have hpos : 0 < (run (ClassOp.step default) (default : Tables Unit Bool) (twoClasses.take 2)).next :=
      hmade.next.trans_le (next_run (sound_default.step hfirst) ⟨hmade.class_, trivial⟩)
    obtain ⟨s, hs, -, hcases⟩ := hderived.super
    cases hcases.resolve_right fun h => nomatch h.1
    have hsuper := (rawget_not_field hsplit (Or.inr (Or.inr rfl))).trans hs
    have hnone : assigned (run (ClassOp.step default) (default : Tables Unit Bool) (twoClasses.take 2)).next _init
        (twoClasses.take 2 ++ .lua_class () (some 0) :: [.assign 0 _init (.func true)]) = none := by
      have hother : ¬(0 = (run (ClassOp.step default) (default : Tables Unit Bool) (twoClasses.take 2)).next) :=
        hpos.ne
      simpa [assigned, ClassOp.assigns, twoClasses] using hother
    have hcopy := rawget_of_made hsplit _init
    rw [hnone] at hcopy
    have hzero' : (run (ClassOp.step default) (default : Tables Unit Bool) reassigned).IsClass 0 := by
      rw [reassigned, run_append]
      exact hzero
    have hassigned :
      (run (ClassOp.step default) (default : Tables Unit Bool) reassigned).rawget 0 _init = .func true := by
      rw [reassigned, run_append]
      exact Tables.rawget_rawset_self _ _ _ _
    rw [run_past]
    intro hagree
    have hboth := (agree_iff_fields (sound_default.run hlegal)).1 hagree _ 0 _init
      ⟨isClass_of_made hsplit, hzero', hsuper⟩ hnone true
    have hstale := hcopy.symm.trans (hboth.2 hassigned)
    have hfirst' : (run (ClassOp.step default) (default : Tables Unit Bool) (twoClasses.take 2)).rawget 0 _init =
        .func false := Tables.rawget_rawset_self _ 0 _init _
    rw [Option.getD_none, Option.elim_some, hfirst'] at hstale
    cases hstale

end LibeventServer.Lua.Classes

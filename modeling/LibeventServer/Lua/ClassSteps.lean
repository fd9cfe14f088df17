import LibeventServer.Lua.Class

/-!
# What operations on classes change

`made_lua_class` says what `lua_class` does, `ClassOp.rawget_step` what every operation does to a class that is there.
The names that `lua_class` keeps in a class stay what they are (`Sound`), and after a run a class has what it was
assigned, or what it had when it was made (`rawget_run`).
-/

namespace LibeventServer.Lua.Classes

section

variable {D F : Type} (order : Enumeration Str)

/-! ### Copying from the superclass -/

section

variable {C s : Nat} {σ : Tables D F}

private theorem rawget_inherit_of_ne {t : Nat} {k k' : Str} (h : t ≠ C ∨ k' ≠ k) :
    (inherit C s σ k).rawget t k' = σ.rawget t k' := by
  unfold inherit
  split
  · exact σ.rawget_rawset_of_ne h _
  · rfl

private theorem rawget_inherit_self (k : Str) :
    (inherit C s σ k).rawget C k = if (σ.rawget C k).isNil then σ.rawget s k else σ.rawget C k := by
  unfold inherit
  split
  · exact σ.rawget_rawset_self C k _
  · rfl

private theorem rawget_foldl_inherit_of_ne {t : Nat} (h : t ≠ C) (l : List Str) (σ : Tables D F) :
    (l.foldl (inherit C s) σ).rawget t = σ.rawget t := by
  induction l generalizing σ with
  | nil => rfl
  | cons k l ih =>
    rw [List.foldl_cons, ih]
    funext k'
    exact rawget_inherit_of_ne (Or.inl h)

private theorem rawget_foldl_inherit (h : s ≠ C) (l : List Str) (σ : Tables D F) (k : Str) :
    (l.foldl (inherit C s) σ).rawget C k =
      if k ∈ l ∧ (σ.rawget C k).isNil then σ.rawget s k else σ.rawget C k := by
  induction l generalizing σ with
  | nil => simp
  | cons k' l ih =>
    rw [List.foldl_cons, ih, rawget_inherit_of_ne (t := s) (Or.inl h)]
    by_cases hk : k = k'
    · subst hk
      rw [rawget_inherit_self]
      cases hnil : (σ.rawget C k).isNil with
      | true => simp
      | false => simp [hnil]
    · rw [rawget_inherit_of_ne (Or.inr hk)]
      simp [hk]

private theorem foldl_inherit_frame (l : List Str) (σ : Tables D F) :
    (l.foldl (inherit C s) σ).metatable = σ.metatable ∧ (l.foldl (inherit C s) σ).next = σ.next := by
  induction l generalizing σ with
  | nil => exact ⟨rfl, rfl⟩
  | cons k l ih =>
    obtain ⟨hm, hn⟩ := ih (inherit C s σ k)
    rw [List.foldl_cons, hm, hn]
    unfold inherit
    split <;> exact ⟨rfl, rfl⟩

/-- All keys of the superclass have been visited. -/
private theorem rawget_inherited (h : s ≠ C) (σ : Tables D F) (k : Str) :
    ((order.order (σ.fields s).keys).foldl (inherit C s) σ).rawget C k =
      if (σ.rawget C k).isNil then σ.rawget s k else σ.rawget C k := by
  rw [rawget_foldl_inherit h]
  by_cases hmem : k ∈ order.order (σ.fields s).keys
  · simp [hmem]
  · -- the superclass has nothing under the key
    have hnone : σ.rawget s k = .nil := by
      rw [order.mem_order, Finmap.mem_keys, ← Finmap.lookup_eq_none] at hmem
      rw [Tables.rawget, hmem]
      rfl
    rw [if_neg fun hboth => hmem hboth.1, hnone]
    split
    · rename_i hnil
      cases hv : σ.rawget C k <;> simp_all [Datum.isNil]
    · rfl

end

/-! ### A new class -/

/-- What `lua_class(name, super)` does: a class is made, and perhaps a table to be its superclass. -/
structure Made (name : D) (super : Option Nat) (σ σ' : Tables D F) : Prop where
  next : σ.next < σ'.next
  old : ∀ t, t < σ.next → σ'.rawget t = σ.rawget t ∧ σ'.metatable t = σ.metatable t
  class_ : σ'.IsClass σ.next
  field : ∀ k : Field, σ'.rawget σ.next k = super.elim .nil fun S => σ.rawget S k
  name : σ'.rawget σ.next (literal "_name") = .plain name
  index : σ'.rawget σ.next (literal "__index") = .table σ.next
  super : ∃ s, σ'.rawget σ.next (literal "_super") = .table s ∧ s < σ'.next ∧
    (super = some s ∨ super = none ∧ σ.next < s)
  rest : ∀ t, σ.next < t → σ'.metatable t = none ∧ ∀ k, σ'.rawget t k = .nil

/-- Tables are where they were made, and a class has what `lua_class` gave it. -/
structure Sound (σ : Tables D F) : Prop where
  fresh : ∀ t, σ.next ≤ t → σ.metatable t = none ∧ ∀ k, σ.rawget t k = .nil
  type_metatable : ∀ t C, σ.metatable t = some (.type_metatable C) → C = t
  type_obj : ∀ t C, σ.metatable t = some (.type_obj C) → σ.IsClass C
  index : ∀ C, σ.IsClass C → σ.rawget C (literal "__index") = .table C
  super : ∀ C, σ.IsClass C → ∃ s, σ.rawget C (literal "_super") = .table s ∧ s ≠ C ∧ s < σ.next ∧
    (σ.IsClass s ∨ σ.metatable s = none ∧ ∀ k, σ.rawget s k = .nil)

variable {order} {σ : Tables D F}

theorem Sound.lt_of_class (h : Sound σ) {C : Nat} (hC : σ.IsClass C) : C < σ.next := by
  by_contra hge
  have hnone := (h.fresh C (by omega)).1
  rw [Tables.IsClass, hnone] at hC
  cases hC

/-- No class is its own superclass. -/
theorem Sound.super_ne (h : Sound σ) {C s : Nat} (hC : σ.IsClass C) (hs : σ.rawget C (literal "_super") = .table s) :
    s ≠ C := by
  obtain ⟨s', hs', hne, -, -⟩ := h.super C hC
  rw [hs] at hs'
  cases hs'
  exact hne

/-- The class before `setup_super`. -/
def opened (name : D) (σ : Tables D F) : Tables D F :=
  (σ.newTable.rawset σ.next (literal "_name") (.plain name)).rawset σ.next (literal "__index") (.table σ.next)

private theorem rawget_opened_of_ne (name : D) {t : Nat} (h : t ≠ σ.next) :
    (opened name σ).rawget t = σ.rawget t := by
  funext k
  rw [opened, Tables.rawget_rawset_of_ne _ (Or.inl h), Tables.rawget_rawset_of_ne _ (Or.inl h),
    σ.rawget_newTable_of_ne h]

private theorem rawget_opened_self (name : D) (k : Str) : (opened name σ).rawget σ.next k =
    if k = literal "__index" then .table σ.next else if k = literal "_name" then .plain name else .nil := by
  unfold opened
  split
  · rename_i hindex
    rw [hindex, Tables.rawget_rawset_self]
  · rename_i hindex
    rw [Tables.rawget_rawset_of_ne _ (Or.inr hindex)]
    split
    · rename_i hname
      rw [hname, Tables.rawget_rawset_self]
    · rename_i hname
      rw [Tables.rawget_rawset_of_ne _ (Or.inr hname), σ.rawget_newTable_self]

/-- The table made for a missing superclass is as empty as it was before. -/
private theorem superOrNew_spec (hfresh : ∀ t, σ.next ≤ t → σ.metatable t = none ∧ ∀ k, σ.rawget t k = .nil)
    {super : Option Nat} (hsuper : ∀ S, super = some S → S < σ.next) :
    (superOrNew super σ).2.rawget = σ.rawget ∧ (superOrNew super σ).2.metatable = σ.metatable ∧
      σ.next ≤ (superOrNew super σ).2.next ∧ (superOrNew super σ).1 < (superOrNew super σ).2.next ∧
      (super = some (superOrNew super σ).1 ∨ super = none ∧ (superOrNew super σ).1 = σ.next) := by
  cases super with
  | some S => exact ⟨rfl, rfl, le_rfl, hsuper S rfl, Or.inl rfl⟩
  | none =>
    obtain ⟨hmeta, hnil⟩ := hfresh σ.next le_rfl
    refine ⟨?_, ?_, Nat.le_succ _, Nat.lt_succ_self _, Or.inr ⟨rfl, rfl⟩⟩
    · funext t k
      by_cases ht : t = σ.next
      · rw [ht, hnil k]
        exact σ.rawget_newTable_self k
      · exact congrFun (σ.rawget_newTable_of_ne ht) k
    · funext t
      by_cases ht : t = σ.next
      · rw [ht, hmeta]
        exact σ.metatable_newTable_self
      · exact σ.metatable_newTable_of_ne ht

variable (order) in
/-- The class `C` after `setup_super` from `s`, with its metatable. -/
def closed (C s : Nat) (σ : Tables D F) : Tables D F :=
  (((order.order (σ.fields s).keys).foldl (inherit C s) σ).rawset C (literal "_super") (.table s)).setmetatable C
    (.type_metatable C)

section

variable {C s : Nat}

private theorem next_closed (C s : Nat) (σ : Tables D F) : (closed order C s σ).next = σ.next := by
  rw [closed, Tables.next_setmetatable, Tables.next_rawset, (foldl_inherit_frame _ σ).2]

private theorem rawget_closed_of_ne {t : Nat} (h : t ≠ C) : (closed order C s σ).rawget t = σ.rawget t := by
  funext k
  rw [closed, Tables.rawget_setmetatable, Tables.rawget_rawset_of_ne _ (Or.inl h), rawget_foldl_inherit_of_ne h]

private theorem metatable_closed_of_ne {t : Nat} (h : t ≠ C) : (closed order C s σ).metatable t = σ.metatable t := by
  rw [closed, Tables.metatable_setmetatable_of_ne _ h, Tables.metatable_rawset, (foldl_inherit_frame _ σ).1]

private theorem isClass_closed (C s : Nat) (σ : Tables D F) : (closed order C s σ).IsClass C :=
  Tables.metatable_setmetatable_self _ _ _

private theorem rawget_closed_super (C s : Nat) (σ : Tables D F) :
    (closed order C s σ).rawget C (literal "_super") = .table s := by
  rw [closed, Tables.rawget_setmetatable, Tables.rawget_rawset_self]

/-- The class has what it had, or else what the superclass has. -/
private theorem rawget_closed_self (h : s ≠ C) {k : Str} (hk : k ≠ literal "_super") :
    (closed order C s σ).rawget C k = if (σ.rawget C k).isNil then σ.rawget s k else σ.rawget C k := by
  rw [closed, Tables.rawget_setmetatable, Tables.rawget_rawset_of_ne _ (Or.inr hk), rawget_inherited order h]

end

variable (order) in
theorem made_lua_class (h : Sound σ) (name : D) {super : Option Nat} (hsuper : ∀ S, super = some S → σ.IsClass S) :
    Made name super σ (lua_class order name super σ).2 := by
  have hfresh : ∀ t, (opened name σ).next ≤ t →
      (opened name σ).metatable t = none ∧ ∀ k, (opened name σ).rawget t k = .nil := by
    intro t ht
    have hlt : σ.next < t := ht
    refine ⟨(σ.metatable_newTable_of_ne hlt.ne').trans (h.fresh t hlt.le).1, fun k => ?_⟩
    rw [rawget_opened_of_ne name hlt.ne', (h.fresh t hlt.le).2]
  have hlt : ∀ S, super = some S → S < σ.next := fun S hS => h.lt_of_class (hsuper S hS)
  have hopened : (opened name σ).next = σ.next + 1 := rfl
  obtain ⟨hrawget, hmeta, hnext, hs, hcases⟩ :=
    superOrNew_spec (σ := opened name σ) hfresh fun S hS => Nat.lt_succ_of_lt (hlt S hS)
  have heq : (lua_class order name super σ).2 = closed order σ.next (superOrNew super (opened name σ)).1
      (superOrNew super (opened name σ)).2 := rfl
  rw [heq]
  generalize superOrNew super (opened name σ) = r at hrawget hmeta hnext hs hcases
  obtain ⟨s, τ⟩ := r
  dsimp only at hrawget hmeta hnext hs hcases ⊢
  -- the superclass is an older table, or one made after the class
  have hne : s ≠ σ.next := by
    rcases hcases with hsome | ⟨-, hnew⟩
    · exact (hlt s hsome).ne
    · omega
  exact
    { next := by
        rw [next_closed]
        omega
      old := fun t ht => by
        rw [rawget_closed_of_ne ht.ne, metatable_closed_of_ne ht.ne, hrawget, hmeta]
        exact ⟨rawget_opened_of_ne name ht.ne, σ.metatable_newTable_of_ne ht.ne⟩
      class_ := isClass_closed σ.next s τ
      field := fun ⟨k, hname, hindex, hsuper'⟩ => by
        rw [rawget_closed_self hne hsuper', hrawget, rawget_opened_self, if_neg hindex, if_neg hname,
          rawget_opened_of_ne name hne]
        show σ.rawget s k = _
        rcases hcases with hsome | ⟨hnone, hfirst⟩
        · rw [hsome]
          rfl
        · rw [hnone, (h.fresh s (by omega)).2]
          rfl
      name := by
        rw [rawget_closed_self hne (by decide), hrawget, rawget_opened_self]
        rfl
      index := by
        rw [rawget_closed_self hne (by decide), hrawget, rawget_opened_self]
        rfl
      super := by
        refine ⟨s, rawget_closed_super σ.next s τ, by rwa [next_closed], ?_⟩
        exact hcases.imp_right fun hfirst => ⟨hfirst.1, by omega⟩
      rest := fun t ht => by
        rw [rawget_closed_of_ne ht.ne', metatable_closed_of_ne ht.ne', hrawget, hmeta]
        exact hfresh t ht }

/-! ### Objects -/

/-- The tables after an object of the class `C` was made. -/
def created (C : Nat) (σ : Tables D F) : Tables D F := σ.newTable.setmetatable σ.next (.type_obj C)

theorem rawget_created_of_ne (C : Nat) {t : Nat} (ht : t ≠ σ.next) : (created C σ).rawget t = σ.rawget t := by
  rw [created, Tables.rawget_setmetatable, σ.rawget_newTable_of_ne ht]

theorem rawget_created_self (C : Nat) (k : Str) : (created C σ).rawget σ.next k = .nil := by
  rw [created, Tables.rawget_setmetatable, σ.rawget_newTable_self]

theorem metatable_created_of_ne (C : Nat) {t : Nat} (ht : t ≠ σ.next) :
    (created C σ).metatable t = σ.metatable t := by
  rw [created, Tables.metatable_setmetatable_of_ne _ ht, σ.metatable_newTable_of_ne ht]

theorem metatable_created_self (C : Nat) : (created C σ).metatable σ.next = some (.type_obj C) :=
  Tables.metatable_setmetatable_self _ _ _

theorem create_object_eq (h : Sound σ) {C : Nat} (hC : σ.IsClass C) (args : List (Datum D F)) :
    create_object C args σ = some (σ.next, if (σ.rawget C (literal "_init")).truthy then
      some ⟨σ.rawget C (literal "_init"), .table σ.next :: args⟩ else none, created C σ) := by
  have hne := (h.lt_of_class hC).ne
  have hclass : (created C σ).IsClass C := (metatable_created_of_ne C hne).trans hC
  have hget := (created C σ).get_class hclass (literal "_init")
  rw [rawget_created_of_ne C hne] at hget
  show ((created C σ).get C (literal "_init") >>= fun init => some (σ.next, if init.truthy then
    some (⟨init, .table σ.next :: args⟩ : Call D F) else none, created C σ)) = _
  rw [hget]
  rfl

/-! ### What an operation changes -/

/-- What the operation assigns to the class `C` under the key. -/
def ClassOp.assigns (C : Nat) (k : Str) : ClassOp D F → Option (Datum D F)
  | assign C' k' v => if C' = C ∧ k' = k then some v else none
  | _ => none

private theorem ClassOp.step_create (h : Sound σ) {C : Nat} (hC : σ.IsClass C) :
    (ClassOp.create C).step order σ = created C σ := by
  rw [ClassOp.step, create_object_eq h hC]

private theorem ClassOp.next_step (h : Sound σ) {op : ClassOp D F} (hop : op.Legal σ) :
    σ.next ≤ (op.step order σ).next := by
  cases op with
  | lua_class name super => exact (made_lua_class order h name hop).next.le
  | assign C k v => exact le_rfl
  | create C =>
    rw [ClassOp.step_create h hop]
    exact Nat.le_succ _
  | set ins k v => exact le_rfl

/-- A metatable is never changed. -/
theorem ClassOp.metatable_step (h : Sound σ) {op : ClassOp D F} (hop : op.Legal σ) {t : Nat} (ht : t < σ.next) :
    (op.step order σ).metatable t = σ.metatable t := by
  cases op with
  | lua_class name super => exact ((made_lua_class order h name hop).old t ht).2
  | assign C k v => rfl
  | create C =>
    rw [ClassOp.step_create h hop]
    exact metatable_created_of_ne C ht.ne
  | set ins k v => rfl

/-- A table that is no object is changed by the assignments to it alone. -/
theorem ClassOp.rawget_step (h : Sound σ) {op : ClassOp D F} (hop : op.Legal σ) {t : Nat} (ht : t < σ.next)
    (hobj : ∀ r, σ.metatable t ≠ some (.type_obj r)) (k : Str) :
    (op.step order σ).rawget t k = (op.assigns t k).getD (σ.rawget t k) := by
  cases op with
  | lua_class name super => exact congrFun ((made_lua_class order h name hop).old t ht).1 k
  | assign C k' v =>
    by_cases heq : C = t ∧ (k' : Str) = k
    · obtain ⟨rfl, rfl⟩ := heq
      rw [ClassOp.assigns, if_pos ⟨rfl, rfl⟩]
      exact σ.rawget_rawset_self C k' v
    · rw [ClassOp.assigns, if_neg heq]
      refine σ.rawget_rawset_of_ne ?_ v
      rcases not_and_or.1 heq with hC | hk
      · exact Or.inl (Ne.symm hC)
      · exact Or.inr (Ne.symm hk)
  | create C =>
    rw [ClassOp.step_create h hop, rawget_created_of_ne C ht.ne]
    rfl
  | set ins k' v =>
    obtain ⟨C, hC⟩ := hop
    refine σ.rawget_rawset_of_ne (Or.inl ?_) v
    rintro rfl
    exact hobj C hC

theorem ClassOp.isClass_step (h : Sound σ) {op : ClassOp D F} (hop : op.Legal σ) {C : Nat} (hC : σ.IsClass C) :
    (op.step order σ).IsClass C :=
  (ClassOp.metatable_step h hop (h.lt_of_class hC)).trans hC

theorem Tables.IsClass.not_object {C : Nat} (hC : σ.IsClass C) (r : Nat) : σ.metatable C ≠ some (.type_obj r) := by
  intro hr
  rw [hC] at hr
  cases hr

theorem sound_default : Sound (default : Tables D F) where
  fresh _ _ := ⟨rfl, fun _ => rfl⟩
  type_metatable _ _ h := nomatch h
  type_obj _ _ h := nomatch h
  index _ h := nomatch h
  super _ h := nomatch h

variable (order) in
/-- A table that an operation makes: a class, an object of a class that is there, or nothing yet. -/
private theorem ClassOp.new_table (h : Sound σ) {op : ClassOp D F} (hop : op.Legal σ) {t : Nat} (ht : σ.next ≤ t) :
    (∃ name super, op = .lua_class name super ∧ t = σ.next) ∨
      (∃ C, σ.IsClass C ∧ t = σ.next ∧ (op.step order σ).next = σ.next + 1 ∧
        (op.step order σ).metatable t = some (.type_obj C)) ∨
      (op.step order σ).metatable t = none ∧ ∀ k, (op.step order σ).rawget t k = .nil := by
  cases op with
  | lua_class name super =>
    rcases Nat.eq_or_lt_of_le ht with heq | hlt
    · exact Or.inl ⟨name, super, rfl, heq.symm⟩
    · exact Or.inr (Or.inr ((made_lua_class order h name hop).rest t hlt))
  | assign C k v =>
    refine Or.inr (Or.inr ⟨(h.fresh t ht).1, fun k' => ?_⟩)
    have hne : t ≠ C := ((h.lt_of_class hop).trans_le ht).ne'
    exact (σ.rawget_rawset_of_ne (Or.inl hne) v).trans ((h.fresh t ht).2 k')
  | create C =>
    rw [ClassOp.step_create h hop]
    rcases Nat.eq_or_lt_of_le ht with heq | hlt
    · subst heq
      exact Or.inr (Or.inl ⟨C, hop, rfl, rfl, metatable_created_self C⟩)
    · refine Or.inr (Or.inr ⟨(metatable_created_of_ne C hlt.ne').trans (h.fresh t ht).1, fun k => ?_⟩)
      rw [rawget_created_of_ne C hlt.ne', (h.fresh t ht).2]
  | set ins k v =>
    refine Or.inr (Or.inr ⟨(h.fresh t ht).1, fun k' => ?_⟩)
    have hne : t ≠ ins := by
      rintro rfl
      obtain ⟨C, hC⟩ := hop
      rw [(h.fresh t ht).1] at hC
      cases hC
    exact (σ.rawget_rawset_of_ne (Or.inl hne) v).trans ((h.fresh t ht).2 k')

/-- A class under an address that was free is the one that was made. -/
theorem ClassOp.new_class (h : Sound σ) {op : ClassOp D F} (hop : op.Legal σ) {C : Nat} (hC : σ.next ≤ C)
    (hclass : (op.step order σ).IsClass C) : ∃ name super, op = .lua_class name super ∧ C = σ.next := by
  rcases ClassOp.new_table order h hop hC with hmade | ⟨C', -, -, -, hobj⟩ | ⟨hnone, -⟩
  · exact hmade
  · rw [Tables.IsClass, hobj] at hclass
    cases hclass
  · rw [Tables.IsClass, hnone] at hclass
    cases hclass

private theorem ClassOp.assigns_of_not_field (op : ClassOp D F) (C : Nat) {k : Str}
    (hk : k = literal "_name" ∨ k = literal "__index" ∨ k = literal "_super") : op.assigns C k = none := by
  cases op with
  | assign C' k' v =>
    obtain ⟨k', hname, hindex, hsuper⟩ := k'
    refine if_neg fun heq => ?_
    obtain ⟨-, rfl⟩ := heq
    rcases hk with hk | hk | hk
    · exact hname hk
    · exact hindex hk
    · exact hsuper hk
  | _ => rfl

private theorem ClassOp.assigns_of_not_class {op : ClassOp D F} (hop : op.Legal σ) {t : Nat}
    (ht : ¬ σ.IsClass t) (k : Str) :
    op.assigns t k = none := by
  cases op with
  | assign C k' v =>
    refine if_neg fun heq => ?_
    obtain ⟨rfl, -⟩ := heq
    exact ht hop
  | _ => rfl

/-- The names of `lua_class` stay what they are. -/
theorem ClassOp.rawget_step_of_not_field (h : Sound σ) {op : ClassOp D F} (hop : op.Legal σ) {C : Nat}
    (hC : σ.IsClass C) {k : Str} (hk : k = literal "_name" ∨ k = literal "__index" ∨ k = literal "_super") :
    (op.step order σ).rawget C k = σ.rawget C k := by
  rw [ClassOp.rawget_step h hop (h.lt_of_class hC) hC.not_object, op.assigns_of_not_field C hk]
  rfl

/-- The table that was made for a missing superclass stays empty. -/
private theorem ClassOp.empty_step (h : Sound σ) {op : ClassOp D F} (hop : op.Legal σ) {s : Nat} (hs : s < σ.next)
    (hempty : σ.metatable s = none ∧ ∀ k, σ.rawget s k = .nil) :
    (op.step order σ).metatable s = none ∧ ∀ k, (op.step order σ).rawget s k = .nil := by
  obtain ⟨hmeta, hnil⟩ := hempty
  have hnot : ¬ σ.IsClass s := by
    intro hclass
    rw [Tables.IsClass, hmeta] at hclass
    cases hclass
  have hobj : ∀ r, σ.metatable s ≠ some (.type_obj r) := by
    intro r hr
    rw [hmeta] at hr
    cases hr
  refine ⟨(ClassOp.metatable_step h hop hs).trans hmeta, fun k => ?_⟩
  rw [ClassOp.rawget_step h hop hs hobj, ClassOp.assigns_of_not_class hop hnot, hnil]
  rfl

/-- Only the class that an operation makes comes to be one, and it is its own `type_obj`. -/
private theorem Sound.type_metatable_step (h : Sound σ) {op : ClassOp D F} (hop : op.Legal σ) {t C : Nat}
    (hC : (op.step order σ).metatable t = some (.type_metatable C)) : C = t := by
  by_cases hlt : t < σ.next
  · rw [ClassOp.metatable_step h hop hlt] at hC
    exact h.type_metatable t C hC
  · rcases ClassOp.new_table order h hop (not_lt.1 hlt) with
      ⟨name, super, rfl, rfl⟩ | ⟨C', -, -, -, hobj⟩ | ⟨hnone, -⟩
    · have hclass : (ClassOp.step order σ (.lua_class name super)).IsClass σ.next :=
        (made_lua_class order h name hop).class_
      rw [Tables.IsClass, hC] at hclass
      cases hclass
      rfl
    · rw [hobj] at hC
      cases hC
    · rw [hnone] at hC
      cases hC

private theorem Sound.type_obj_step (h : Sound σ) {op : ClassOp D F} (hop : op.Legal σ) {t C : Nat}
    (hC : (op.step order σ).metatable t = some (.type_obj C)) : (op.step order σ).IsClass C := by
  by_cases hlt : t < σ.next
  · rw [ClassOp.metatable_step h hop hlt] at hC
    exact ClassOp.isClass_step h hop (h.type_obj t C hC)
  · rcases ClassOp.new_table order h hop (not_lt.1 hlt) with
      ⟨name, super, rfl, rfl⟩ | ⟨C', hC', -, -, hobj⟩ | ⟨hnone, -⟩
    · have hclass : (ClassOp.step order σ (.lua_class name super)).IsClass σ.next :=
        (made_lua_class order h name hop).class_
      rw [Tables.IsClass, hC] at hclass
      cases hclass
    · rw [hobj] at hC
      cases hC
      exact ClassOp.isClass_step h hop hC'
    · rw [hnone] at hC
      cases hC

private theorem Sound.super_step (h : Sound σ) {op : ClassOp D F} (hop : op.Legal σ) {C : Nat}
    (hC : (op.step order σ).IsClass C) :
    ∃ s, (op.step order σ).rawget C (literal "_super") = .table s ∧ s ≠ C ∧ s < (op.step order σ).next ∧
      ((op.step order σ).IsClass s ∨
        (op.step order σ).metatable s = none ∧ ∀ k, (op.step order σ).rawget s k = .nil) := by
  by_cases hlt : C < σ.next
  · have hclass : σ.IsClass C := (ClassOp.metatable_step h hop hlt).symm.trans hC
    obtain ⟨s, hs, hne, hlt', hcases⟩ := h.super C hclass
    refine ⟨s, ?_, hne, hlt'.trans_le (ClassOp.next_step h hop), ?_⟩
    · rw [ClassOp.rawget_step_of_not_field h hop hclass (Or.inr (Or.inr rfl)), hs]
    · exact hcases.imp (ClassOp.isClass_step h hop) (ClassOp.empty_step h hop hlt')
  · obtain ⟨name, super, rfl, rfl⟩ := ClassOp.new_class h hop (not_lt.1 hlt) hC
    have hmade := made_lua_class order h name hop
    obtain ⟨s, hs, hlt', hcases⟩ := hmade.super
    rcases hcases with hsome | ⟨-, hgt⟩
    · exact ⟨s, hs, (h.lt_of_class (hop s hsome)).ne, hlt', Or.inl (ClassOp.isClass_step h hop (hop s hsome))⟩
    · exact ⟨s, hs, hgt.ne', hlt', Or.inr (hmade.rest s hgt)⟩

theorem Sound.step (h : Sound σ) {op : ClassOp D F} (hop : op.Legal σ) : Sound (op.step order σ) where
  fresh t ht := by
    have hnext : σ.next ≤ (op.step order σ).next := ClassOp.next_step h hop
    rcases ClassOp.new_table order h hop (hnext.trans ht) with
      ⟨name, super, rfl, rfl⟩ | ⟨C, -, rfl, hsucc, -⟩ | hfresh
    · have hlt : σ.next < (ClassOp.step order σ (.lua_class name super)).next :=
        (made_lua_class order h name hop).next
      omega
    · omega
    · exact hfresh
  type_metatable _ _ hC := h.type_metatable_step hop hC
  type_obj _ _ hC := h.type_obj_step hop hC
  index C hC := by
    by_cases hlt : C < σ.next
    · have hclass : σ.IsClass C := (ClassOp.metatable_step h hop hlt).symm.trans hC
      rw [ClassOp.rawget_step_of_not_field h hop hclass (Or.inr (Or.inl rfl)), h.index C hclass]
    · obtain ⟨name, super, rfl, rfl⟩ := ClassOp.new_class h hop (not_lt.1 hlt) hC
      exact (made_lua_class order h name hop).index
  super _ hC := h.super_step hop hC

/-! ### Runs -/

/-- What the class was assigned last under the key. -/
def assigned (C : Nat) (k : Str) : List (ClassOp D F) → Option (Datum D F)
  | [] => none
  | op :: ops => (assigned C k ops).or (op.assigns C k)

theorem assigned_append (C : Nat) (k : Str) (l l' : List (ClassOp D F)) :
    assigned C k (l ++ l') = (assigned C k l').or (assigned C k l) := by
  induction l with
  | nil => cases h : assigned C k l' <;> simp [assigned, h]
  | cons op l ih => rw [List.cons_append, assigned, assigned, ih, Option.or_assoc]

variable {ops : List (ClassOp D F)}

open Runs

/-- The operations are about classes and objects that are there. -/
abbrev LegalRun (order : Enumeration Str) (σ : Tables D F) (ops : List (ClassOp D F)) : Prop :=
  Along (ClassOp.step order) (fun σ op => op.Legal σ) σ ops

theorem Sound.run (h : Sound σ) (hops : LegalRun order σ ops) : Sound (run (ClassOp.step order) σ ops) :=
  (Along.always (P := Sound) (fun _ _ h hop => Sound.step h hop) h hops).last

theorem next_run (h : Sound σ) (hops : LegalRun order σ ops) : σ.next ≤ (run (ClassOp.step order) σ ops).next := by
  induction ops generalizing σ with
  | nil => exact le_rfl
  | cons op ops ih => exact (ClassOp.next_step h hops.1).trans (ih (h.step hops.1) hops.2)

theorem isClass_run (h : Sound σ) (hops : LegalRun order σ ops) {C : Nat} (hC : σ.IsClass C) :
    (run (ClassOp.step order) σ ops).IsClass C := by
  induction ops generalizing σ with
  | nil => exact hC
  | cons op ops ih => exact ih (h.step hops.1) hops.2 (ClassOp.isClass_step h hops.1 hC)

/-- A class has what it was assigned since, or what it had. -/
theorem rawget_run (h : Sound σ) (hops : LegalRun order σ ops) {C : Nat} (hC : σ.IsClass C) (k : Str) :
    (run (ClassOp.step order) σ ops).rawget C k = (assigned C k ops).getD (σ.rawget C k) := by
  induction ops generalizing σ with
  | nil => rfl
  | cons op ops ih =>
    rw [run_cons, ih (h.step hops.1) hops.2 (ClassOp.isClass_step h hops.1 hC),
      ClassOp.rawget_step h hops.1 (h.lt_of_class hC) hC.not_object, assigned]
    cases assigned C k ops <;> rfl

theorem empty_run (h : Sound σ) (hops : LegalRun order σ ops) {s : Nat} (hs : s < σ.next)
    (hempty : σ.metatable s = none ∧ ∀ k, σ.rawget s k = .nil) (k : Str) :
    (run (ClassOp.step order) σ ops).rawget s k = .nil := by
  induction ops generalizing σ with
  | nil => exact hempty.2 k
  | cons op ops ih =>
    exact ih (h.step hops.1) hops.2 (hs.trans_le (ClassOp.next_step h hops.1)) (ClassOp.empty_step h hops.1 hs hempty)

private theorem assigned_of_not_field (C : Nat) {k : Str}
    (hk : k = literal "_name" ∨ k = literal "__index" ∨ k = literal "_super") (ops : List (ClassOp D F)) :
    assigned C k ops = none := by
  induction ops with
  | nil => rfl
  | cons op ops ih => rw [assigned, ih, op.assigns_of_not_field C hk, Option.none_or]

/-- Nothing is assigned to a class before it is made. -/
private theorem assigned_before (h : Sound σ) (hops : LegalRun order σ ops) {C : Nat}
    (hC : (run (ClassOp.step order) σ ops).next ≤ C) (k : Str) : assigned C k ops = none := by
  induction ops generalizing σ with
  | nil => rfl
  | cons op ops ih =>
    have hle := next_run (h.step hops.1) hops.2
    have hnot : ¬ σ.IsClass C := by
      intro hclass
      have hlt := h.lt_of_class hclass
      have hstep : σ.next ≤ (op.step order σ).next := ClassOp.next_step h hops.1
      rw [run_cons] at hC
      omega
    rw [assigned, ih (h.step hops.1) hops.2 hC, ClassOp.assigns_of_not_class hops.1 hnot, Option.none_or]

/-! ### A class after its making -/

theorem made_run {before after : List (ClassOp D F)} {name : D} {super : Option Nat}
    (hops : LegalRun order default (before ++ .lua_class name super :: after)) :
    Sound (run (ClassOp.step order) default before) ∧
      (∀ S, super = some S → (run (ClassOp.step order) default before).IsClass S) ∧
      Made name super (run (ClassOp.step order) default before)
        (lua_class order name super (run (ClassOp.step order) default before)).2 ∧
      Sound (lua_class order name super (run (ClassOp.step order) default before)).2 ∧
      LegalRun order (lua_class order name super (run (ClassOp.step order) default before)).2 after := by
  obtain ⟨hbefore, hlegal, hafter⟩ := (along_append _ _ _).1 hops
  have hsound := sound_default.run hbefore
  exact ⟨hsound, hlegal, made_lua_class order hsound name hlegal, hsound.step hlegal, hafter⟩

@[simp] theorem assigns_lua_class (C : Nat) (k : Str) (name : D) (super : Option Nat) :
    (ClassOp.lua_class name super : ClassOp D F).assigns C k = none := rfl

/-- A class has what it was assigned, or what its superclass had when it was derived. -/
theorem rawget_of_made {before after : List (ClassOp D F)} {name : D} {super : Option Nat}
    (hops : LegalRun order default (before ++ .lua_class name super :: after)) (k : Field) :
    (run (ClassOp.step order) default (before ++ .lua_class name super :: after)).rawget
        (run (ClassOp.step order) default before).next k =
      (assigned (run (ClassOp.step order) default before).next k (before ++ .lua_class name super :: after)).getD
        (super.elim .nil fun S => (run (ClassOp.step order) default before).rawget S k) := by
  obtain ⟨-, -, hmade, hsound, hafter⟩ := made_run hops
  have hbefore := assigned_before sound_default ((along_append _ _ _).1 hops).1 le_rfl (k : Str)
  have hrun := rawget_run hsound hafter hmade.class_ (k : Str)
  rw [hmade.field] at hrun
  rw [assigned_append, hbefore, Option.or_none, assigned, assigns_lua_class, Option.or_none, run_append, run_cons]
  exact hrun

theorem assigned_of_notMem {S : Nat} (h : ∀ k v, .assign S k v ∉ ops) (k : Str) : assigned S k ops = none := by
  induction ops with
  | nil => rfl
  | cons op ops ih =>
    have hop : op.assigns S k = none := by
      cases op with
      | assign C k' v =>
        refine if_neg fun heq => ?_
        obtain ⟨rfl, -⟩ := heq
        exact h k' v List.mem_cons_self
      | _ => rfl
    rw [assigned, ih fun k v hmem => h k v (List.mem_cons_of_mem _ hmem), hop, Option.none_or]

/-- The names of `lua_class` are as it left them. -/
theorem rawget_not_field {before after : List (ClassOp D F)} {name : D} {super : Option Nat}
    (hops : LegalRun order default (before ++ .lua_class name super :: after)) {k : Str}
    (hk : k = literal "_name" ∨ k = literal "__index" ∨ k = literal "_super") :
    (run (ClassOp.step order) default (before ++ .lua_class name super :: after)).rawget
        (run (ClassOp.step order) default before).next k =
      (lua_class order name super (run (ClassOp.step order) default before)).2.rawget
        (run (ClassOp.step order) default before).next k := by
  obtain ⟨-, -, hmade, hsound, hafter⟩ := made_run hops
  have hrun := rawget_run hsound hafter hmade.class_ k
  rw [assigned_of_not_field _ hk, Option.getD_none] at hrun
  rw [run_append, run_cons]
  exact hrun

theorem isClass_of_made {before after : List (ClassOp D F)} {name : D} {super : Option Nat}
    (hops : LegalRun order default (before ++ .lua_class name super :: after)) :
    (run (ClassOp.step order) default (before ++ .lua_class name super :: after)).IsClass
      (run (ClassOp.step order) default before).next := by
  obtain ⟨-, -, hmade, hsound, hafter⟩ := made_run hops
  rw [run_append, run_cons]
  exact isClass_run hsound hafter hmade.class_

end

/-! ### Two classes -/

/-- A class that is assigned a method, and one derived from it. -/
def twoClasses : List (ClassOp Unit Bool) :=
  [.lua_class () none, .assign 0 _init (.func false), .lua_class () (some 0)]

theorem twoClasses_legal (order : Enumeration Str) : LegalRun order default twoClasses := by
  have hfirst : (ClassOp.lua_class () none : ClassOp Unit Bool).Legal default := nofun
  have hmade := made_lua_class order (sound_default (D := Unit) (F := Bool)) () hfirst
  have hsound : Sound (lua_class order () none (default : Tables Unit Bool)).2 := sound_default.step hfirst
  refine ⟨hfirst, hmade.class_, ?_, trivial⟩
  rintro S ⟨⟩
  have hassign : (ClassOp.assign 0 _init (.func false) : ClassOp Unit Bool).Legal _ := hmade.class_
  exact ClassOp.isClass_step hsound hassign hmade.class_

end LibeventServer.Lua.Classes

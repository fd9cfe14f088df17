import LibeventServer.Lua.FailedReload

/-!
# Reloading a module

A module of functions and data is imported, its data change, and `reload_module` loads a new version.  What the
versions assign are globals, and the module's table has only what was assigned to its fields from outside.  So
`replace_func` finds nothing to replace (`replace_func_noop`): the new version's assignments count for data too, and
no hook is found (`hot_reload_iff`).
-/

namespace LibeventServer.Lua

private theorem Datum.IsData.isNil {D F : Type} {v : Datum D F} (h : v.IsData) : v.isNil = false := by
  cases v with
  | nil => exact h.elim
  | bool b => rfl
  | plain d => rfl
  | func f => rfl
  | table t => rfl

section

variable {D F : Type} (order : Enumeration Str) (files : Finmap fun _ : Str => Source D F) (code : F → Body D F)

/-! ### `replace_func` and the hooks -/

/-- The table `t` has only data of its own and refers to the globals otherwise. -/
structure DataTable (σ : Loader D F) (t : Nat) : Prop where
  data : ∀ k v, (σ.fields t).lookup k = some v → v.IsData
  index : σ.index t = some _G

private theorem DataTable.rawget {σ : Loader D F} {t : Nat} (h : DataTable σ t) (k : Str) :
    σ.rawget t k = .nil ∨ (σ.rawget t k).IsData := by
  cases hk : (σ.fields t).lookup k with
  | none =>
    left
    rw [Loader.rawget, hk]
    rfl
  | some v =>
    right
    rw [Loader.rawget, hk]
    exact h.data k v hk

private theorem pairs_noop {t : Nat} {f : Str → Load D F Unit} {σ : Loader D F}
    (h : ∀ k ∈ σ.fields t, f k σ = .ok () σ) :
    pairs order t f σ = .ok () σ := by
  show (order.order (σ.fields t).keys).forM f σ = .ok () σ
  apply EStateM.forM_noop
  intro k hk
  rw [order.mem_order, Finmap.mem_keys] at hk
  exact h k hk

private theorem gettable_of_index {σ : Loader D F} {t : Nat} (h : σ.index t = some _G) (k : Str) : gettable t k σ =
    .ok (if (σ.rawget t k).isNil then σ.rawget _G k else σ.rawget t k) σ := by
  rw [gettable_eq, σ.get_of_index h]

/-- Data are not replaced. -/
private theorem replaceValue_data (replace_func : Nat → Nat → Load D F Unit) (old new : Nat) (k : Str)
    (newv : Datum D F) {oldv : Datum D F} (h : oldv.IsData) (σ : Loader D F) :
    replaceValue replace_func old new k newv oldv σ = .ok () σ := by
  cases oldv with
  | bool b => cases newv <;> rfl
  | plain d => cases newv <;> rfl
  | nil => exact h.elim
  | func f => exact h.elim
  | table t => exact h.elim

/-- Between a table of data and an empty one there is nothing to replace. -/
theorem replace_func_noop (depth : Nat) {σ : Loader D F} {old new : Nat} (hold : DataTable σ old)
    (hnew : σ.fields new = ∅) (hindex : σ.index new = some _G) :
    replace_func order (depth + 1) old new σ = .ok () σ := by
  have hempty : ∀ f : Str → Load D F Unit, pairs order new f σ = .ok () σ := by
    intro f
    apply pairs_noop
    intro k hk
    rw [hnew] at hk
    exact absurd hk Finmap.notMem_empty
  have hfuncs : replaceFuncs order (replace_func order depth) old new σ = .ok () σ := by
    apply pairs_noop
    intro k hk
    obtain ⟨v, hv⟩ := Finmap.mem_iff.1 hk
    have hraw : σ.rawget old k = v := by rw [Loader.rawget, hv]; rfl
    have hdata := hold.data k v hv
    rw [EStateM.bind_ok (gettable_of_index hindex k), EStateM.bind_ok (gettable_of_index hold.index k),
      hraw, hdata.isNil]
    exact replaceValue_data _ old new k _ hdata σ
  have hdata : replaceData order old new σ = .ok () σ := hempty _
  have hrest : replaceNew order old new σ = .ok () σ := hempty _
  show (replaceData order old new >>= fun _ => replaceFuncs order (replace_func order depth) old new >>= fun _ =>
    replaceNew order old new) σ = _
  rw [EStateM.bind_ok hdata, EStateM.bind_ok hfuncs, hrest]

/-- In a table of data there is no hook. -/
private theorem hook_noop {σ : Loader D F} {m : Nat} (h : DataTable σ m) (k : Str) :
    hook files code m k σ = .ok () σ := by
  have hget := gettable_of_index h.index k
  have hcall : ∀ v : Datum D F, v.IsData →
      callHook files code k v σ = .error (.error (literal "attempt to call a value that is no function")) σ := by
    intro v hv
    cases v with
    | bool b => rfl
    | plain d => rfl
    | nil => exact hv.elim
    | func f => exact hv.elim
    | table t => exact hv.elim
  have hfound : ∀ v : Datum D F, v.IsData → σ.rawget m k = v →
      (gettable m k >>= fun f => pcall (callHook files code k f) >>= fun _ => pure ()) σ = .ok () σ := by
    intro v hv hk
    rw [hk, hv.isNil, if_neg Bool.false_ne_true] at hget
    rw [EStateM.bind_ok hget, EStateM.bind_ok (pcall_error (hcall v hv))]
    rfl
  rw [hook_eq]
  rcases h.rawget k with hnil | hdata
  · rw [hnil]
    rfl
  · cases hv : σ.rawget m k with
    | nil => rfl
    | bool b =>
      cases b with
      | false => rfl
      | true => exact hfound (.bool true) trivial hv
    | plain d => exact hfound (.plain d) trivial hv
    | func f => exact (hv ▸ hdata).elim
    | table t => exact (hv ▸ hdata).elim

/-! ### Changes at run time -/

/-- An assignment to a global, or to a field of the module. -/
inductive Change (D F : Type) where
  | global (k : Str) (v : Datum D F)
  | field (k : Str) (v : Datum D F)

def Change.key : Change D F → Str
  | .global k _ => k
  | .field k _ => k

def Change.value : Change D F → Datum D F
  | .global _ v => v
  | .field _ v => v

def Change.apply (m : Nat) (σ : Loader D F) : Change D F → Loader D F
  | .global k v => σ.rawset _G k v
  | .field k v => σ.rawset m k v

/-- The state after these changes. -/
def changed (m : Nat) (σ : Loader D F) (changes : List (Change D F)) : Loader D F := changes.foldl (Change.apply m) σ

/-- A change of data the module `l` has. -/
def Change.OfData (l : List (Str × Datum D F)) (c : Change D F) : Prop :=
  (Writes.replay (fun _ => .nil) l c.key).IsData ∧ (c.value.IsData ∨ c.value = .nil)

/-- The module's table has fields of its own for data of `l` only. -/
structure ModuleTable (l : List (Str × Datum D F)) (σ : Loader D F) (m : Nat) : Prop extends DataTable σ m where
  named : ∀ k v, (σ.fields m).lookup k = some v → (Writes.replay (fun _ => .nil) l k).IsData
  notGlobals : m ≠ _G

private theorem ModuleTable.apply {l : List (Str × Datum D F)} {σ : Loader D F} {m : Nat} (h : ModuleTable l σ m)
    {c : Change D F} (hc : c.OfData l) : ModuleTable l (c.apply m σ) m := by
  obtain ⟨hkey, hvalue⟩ := hc
  cases c with
  | global k v =>
    have hfields : (σ.rawset _G k v).fields m = σ.fields m := Function.update_of_ne h.notGlobals ..
    exact ⟨⟨fun k' v' hk' => h.data k' v' (hfields ▸ hk'), h.index⟩, fun k' v' hk' => h.named k' v' (hfields ▸ hk'),
      h.notGlobals⟩
  | field k v =>
    -- an assignment of nil erases the field
    have hfields : (σ.rawset m k v).fields m = if v.isNil then (σ.fields m).erase k else (σ.fields m).insert k v :=
      σ.fields_rawset_self m k v
    have hlookup : ∀ k' v', ((σ.rawset m k v).fields m).lookup k' = some v' →
        k' = k ∧ v' = v ∧ v.isNil = false ∨ (σ.fields m).lookup k' = some v' := by
      intro k' v' hk'
      rw [hfields] at hk'
      by_cases hkk : k' = k
      · subst hkk
        split at hk'
        · rw [Finmap.lookup_erase] at hk'
          cases hk'
        · rename_i hnil
          rw [Finmap.lookup_insert, Option.some.injEq] at hk'
          exact Or.inl ⟨rfl, hk'.symm, by simpa using hnil⟩
      · right
        split at hk'
        · rwa [Finmap.lookup_erase_ne hkk] at hk'
        · rwa [Finmap.lookup_insert_of_ne _ hkk] at hk'
    refine ⟨⟨fun k' v' hk' => ?_, h.index⟩, fun k' v' hk' => ?_, h.notGlobals⟩
    · rcases hlookup k' v' hk' with ⟨-, rfl, hnil⟩ | hold
      · rcases hvalue with hdata | rfl
        · exact hdata
        · cases hnil
      · exact h.data k' v' hold
    · rcases hlookup k' v' hk' with ⟨rfl, -, -⟩ | hold
      · exact hkey
      · exact h.named k' v' hold

private theorem ModuleTable.changed {l : List (Str × Datum D F)} {σ : Loader D F} {m : Nat} (h : ModuleTable l σ m)
    {changes : List (Change D F)} (hchanges : ∀ c ∈ changes, c.OfData l) : ModuleTable l (changed m σ changes) m := by
  induction changes generalizing σ with
  | nil => exact h
  | cons c changes ih =>
    exact ih (h.apply (hchanges c List.mem_cons_self)) fun c' hc' => hchanges c' (List.mem_cons_of_mem c hc')

private theorem modules_changed (m : Nat) (σ : Loader D F) (changes : List (Change D F)) :
    (changed m σ changes).modules = σ.modules := by
  induction changes generalizing σ with
  | nil => rfl
  | cons c changes ih =>
    refine (ih (c.apply m σ)).trans ?_
    cases c <;> rfl

/-! ### The reload -/

/-- The call of a hook that is defined. -/
def hookEvents (k : Str) : Datum D F → List (Event F)
  | .func f => [.hook k f]
  | _ => []

/-- The hook `_after_reload` of the module when it is reloaded: that of the new version, or else that of the old. -/
def afterHook (l w : List (Str × Datum D F)) : Datum D F :=
  match Writes.replay (fun _ => .nil) w (literal "_after_reload") with
  | .func f => .func f
  | _ => Writes.replay (fun _ => .nil) l (literal "_after_reload")

/-- The module `m`, of which the old version assigns `l` and the new one `w`, is reloaded: the data of the old version
stay as they are, the functions are those of the new version, and the hooks are called before and after. -/
structure HotReload (l w : List (Str × Datum D F)) (m : Nat) (σ σ' : Loader D F) : Prop where
  data : ∀ e ∈ l, ∀ v, v.IsData → σ.get m e.1 = some v → σ'.get m e.1 = some v
  functions : ∀ k f f', Writes.replay (fun _ => .nil) l k = .func f → Writes.replay (fun _ => .nil) w k = .func f' →
    σ'.get m k = some (.func f')
  hooks : σ'.log.filter Event.replaces = σ.log.filter Event.replaces ++
    (hookEvents (literal "_before_reload") (Writes.replay (fun _ => .nil) l (literal "_before_reload")) ++
      [.replaced m] ++ hookEvents (literal "_after_reload") (afterHook l w))

/-- What chunks share when the new version has been loaded. -/
def newVersion (name : Str) (σ : Loader D F) : Shared D F := (performLoad files name σ.shared).state

/-- When the new version `c` has been loaded, the data that are not in the module's own table are as they were, and no
module that was loaded on the way has overwritten a function; and there are no hooks. -/
structure KeepsData (l : List (Str × Datum D F)) (m : Nat) (σ : Loader D F) (c : Shared D F) : Prop where
  data : ∀ e ∈ l, σ.rawget m e.1 = .nil → (σ.rawget _G e.1).IsData → c.globals e.1 = σ.rawget _G e.1
  functions : ∀ k f f', Writes.replay (fun _ => .nil) l k = .func f →
    Writes.replay (fun _ => .nil) c.own k = .func f' → c.globals k = .func f'
  before : ∀ f, Writes.replay (fun _ => .nil) l (literal "_before_reload") ≠ .func f
  after : ∀ f, afterHook l c.own ≠ .func f

private theorem hookEvents_eq_nil {k : Str} {v : Datum D F} : hookEvents k v = [] ↔ ∀ f, v ≠ .func f := by
  cases v <;> simp [hookEvents]

private theorem load_module_returns {name : Str} {m : Nat} {σ σ' : Loader D F}
    (h : load_module files name σ = .ok m σ') :
    m = σ.next := by
  by_cases hf : ∃ body, files.lookup (module_to_path name) = some (.code body)
  · obtain ⟨body, hf⟩ := hf
    rw [load_module_code files hf] at h
    exact EStateM.eq_of_bind_pure h
  · obtain ⟨msg, hload⟩ := load_module_failed files (fun body hbody => hf ⟨body, hbody⟩) σ
    rw [hload] at h
    cases h

/-- A reload runs the new version, and nothing else happens. -/
private theorem reload_module_eq (depth : Nat) {name : Str} {m m' : Nat} {σ σ₁ : Loader D F}
    {l : List (Str × Datum D F)} (hm : σ.modules.lookup name = some m) (htable : ModuleTable l σ m)
    (hload : load_module files name σ = .ok m' σ₁) :
    reload_module order files code (depth + 1) name σ =
    .ok true ((σ₁.record (.reload name true)).record (.replaced m)) := by
  have hconfined : Confined (σ.newTable (some _G)) σ₁ := by
    have hnew := Confined.steps.load_module_new files name σ
    rwa [hload] at hnew
  obtain rfl := load_module_returns files hload
  obtain ⟨hpos, hlt, -⟩ := σ.created name m hm
  have hfields : σ₁.fields m = σ.fields m := by
    rw [hconfined.fields m hpos.ne' (Nat.lt_succ_of_lt hlt)]
    exact Function.update_of_ne hlt.ne ..
  have hindex : σ₁.index m = some _G := by
    rw [hconfined.index m (Nat.lt_succ_of_lt hlt), σ.index_newTable_of_lt _ hlt, htable.index]
  have hnew : σ₁.fields σ.next = ∅ := by
    rw [hconfined.fields σ.next σ.allocated.ne' (Nat.lt_succ_self _)]
    exact Function.update_self ..
  have hnewIndex : σ₁.index σ.next = some _G := by
    rw [hconfined.index σ.next (Nat.lt_succ_self _), σ.index_newTable_self]
  have htable₁ : DataTable σ₁ m := ⟨fun k v hk => htable.data k v (hfields ▸ hk), hindex⟩
  -- neither the hooks nor `replace_func` do anything in the state after the load
  have htable₂ : DataTable (σ₁.record (.reload name true)) m := ⟨htable₁.data, htable₁.index⟩
  have htable₃ : DataTable ((σ₁.record (.reload name true)).record (.replaced m)) m := ⟨htable₁.data, htable₁.index⟩
  have hreplace : replace_func order (depth + 1) m σ.next ((σ₁.record (.reload name true)).record (.replaced m)) =
      .ok () ((σ₁.record (.reload name true)).record (.replaced m)) :=
    replace_func_noop order depth htable₃ hnew hnewIndex
  have hrecord : (record (.replaced m) : Load D F Unit) (σ₁.record (.reload name true)) =
      .ok () ((σ₁.record (.reload name true)).record (.replaced m)) := rfl
  have hmodule : replaceModule order files code (depth + 1) name (some m) σ.next (σ₁.record (.reload name true)) =
      .ok () ((σ₁.record (.reload name true)).record (.replaced m)) := by
    refine (EStateM.bind_ok (hook_noop files code htable₂ _)).trans ?_
    refine (EStateM.bind_ok hrecord).trans ?_
    refine (EStateM.bind_ok hreplace).trans ?_
    exact hook_noop files code htable₃ _
  rw [reload_module_of_ok order code (depth + 1) hload, hm]
  have hrest : (replaceModule order files code (depth + 1) name (some m) σ.next >>= fun _ => pure true :
      Load D F Bool) (σ₁.record (.reload name true)) =
      .ok true ((σ₁.record (.reload name true)).record (.replaced m)) := by
    rw [EStateM.bind_ok hmodule]
    rfl
  exact hrest

/-- What the module finds after its reload: its own data, and the globals of the new version. -/
private theorem get_reloaded {name : Str} {m : Nat} {σ σ₁ : Loader D F} {c : Shared D F}
    (hm : σ.modules.lookup name = some m) (hconfined : Confined σ σ₁) (hagrees : Agrees σ₁ c) (k : Str) :
    ((σ₁.record (.reload name true)).record (.replaced m)).get m k =
      some (if (σ.rawget m k).isNil then c.globals k else σ.rawget m k) := by
  obtain ⟨hpos, hlt, -⟩ := σ.created name m hm
  have hm' : ((σ₁.record (.reload name true)).record (.replaced m)).modules.lookup name = some m :=
    hconfined.modules name m hm
  rw [Loader.get_module _ hm']
  simp only [Loader.rawget_record, hconfined.rawget hpos.ne' hlt, hagrees.globals]

private theorem replaces_reloaded (name : Str) (m : Nat) {σ σ₁ : Loader D F} (hconfined : Confined σ σ₁) :
    ((σ₁.record (.reload name true)).record (.replaced m)).log.filter Event.replaces =
      σ.log.filter Event.replaces ++ [.replaced m] := by
  rw [Loader.log_record, Loader.log_record, List.filter_append, List.filter_append, hconfined.replaced,
    List.append_assoc]
  rfl

/-- A function is no field of the module's own table. -/
private theorem ModuleTable.rawget_func {l : List (Str × Datum D F)} {σ : Loader D F} {m : Nat}
    (htable : ModuleTable l σ m)
    {k : Str} {f : F} (hf : Writes.replay (fun _ => .nil) l k = .func f) : σ.rawget m k = .nil := by
  rcases hk : (σ.fields m).lookup k with _ | v
  · rw [Loader.rawget, hk]
    rfl
  · have hdata := htable.named k v hk
    rw [hf] at hdata
    exact hdata.elim

/-- The reload of a module of which only data were changed is a hot reload exactly when the new version keeps the data
and the functions and there are no hooks. -/
private theorem hot_reload_iff_keepsData (depth : Nat) {name : Str} {m m' : Nat} {σ σ₁ : Loader D F}
    {l : List (Str × Datum D F)} (hm : σ.modules.lookup name = some m) (htable : ModuleTable l σ m)
    (hload : load_module files name σ = .ok m' σ₁) :
    (∃ σ', reload_module order files code (depth + 1) name σ = .ok true σ' ∧
      HotReload l (newVersion files name σ).own m σ σ') ↔ KeepsData l m σ (newVersion files name σ) := by
  have hres := reload_module_eq order files code depth hm htable hload
  have hagrees : Agrees σ₁ (newVersion files name σ) := by
    have hload' := (load_module_simulates files name σ _ (Agrees.shared σ)).state
    rwa [hload] at hload'
  have hconfined : Confined σ σ₁ := by
    have hmoves := Confined.steps.load_module_moves files name σ
    rwa [hload] at hmoves
  have hget := get_reloaded hm hconfined hagrees
  have hlog := replaces_reloaded name m hconfined
  have hraw : ∀ k f, Writes.replay (fun _ => .nil) l k = .func f → σ.rawget m k = .nil :=
    fun _ _ => htable.rawget_func
  generalize newVersion files name σ = c at hget ⊢
  constructor
  · rintro ⟨σ', hres', hhot⟩
    rw [hres] at hres'
    cases hres'
    have hnil := hhot.hooks
    rw [hlog, List.append_cancel_left_eq] at hnil
    -- the log grows by the hook events and one event for the replacement, so there are no hook events
    have hlen := congrArg List.length hnil
    rw [List.length_append, List.length_append, List.length_singleton] at hlen
    refine ⟨fun e he hraw hdata => ?_, fun k f f' hf hf' => ?_, ?_, ?_⟩
    · have hold : σ.get m e.1 = some (σ.rawget _G e.1) := by
        rw [σ.get_module hm, hraw]
        rfl
      have hsame := hhot.data e he _ hdata hold
      rw [hget, hraw] at hsame
      exact Option.some.inj hsame
    · have hnew := hhot.functions k f f' hf hf'
      rw [hget, hraw k f hf] at hnew
      exact Option.some.inj hnew
    · rw [← hookEvents_eq_nil (k := literal "_before_reload")]
      exact List.length_eq_zero_iff.1 (by omega)
    · rw [← hookEvents_eq_nil (k := literal "_after_reload")]
      exact List.length_eq_zero_iff.1 (by omega)
  · intro hkeep
    refine ⟨_, hres, fun e he v hv hold => ?_, fun k f f' hf hf' => ?_, ?_⟩
    · rw [σ.get_module hm, Option.some.injEq] at hold
      rw [hget]
      -- a name without a field of its own is read in the globals
      rcases htable.toDataTable.rawget e.1 with hnil | hdata
      · rw [hnil] at hold ⊢
        have hglobal : σ.rawget _G e.1 = v := hold
        rw [← hglobal] at hv ⊢
        exact congrArg some (hkeep.data e he hnil hv)
      · rw [hdata.isNil] at hold ⊢
        exact congrArg some hold
    · rw [hget, hraw k f hf]
      exact congrArg some (hkeep.functions k f f' hf hf')
    · rw [hlog, hookEvents_eq_nil.2 hkeep.before, hookEvents_eq_nil.2 hkeep.after]
      rfl

/-- The table of a module that assigns names is empty after the import. -/
private theorem ModuleTable.imported {σ₀ σ₁ : Loader D F} {name : Str} {m : Nat} {l : List (Str × Datum D F)}
    (hnew : σ₀.modules.lookup (gsub slash dot name) = none)
    (hfile : files.lookup (module_to_path name) = some (.code (assigns l .finish)))
    (himport : Import files name σ₀ = .ok m σ₁) :
    ModuleTable l σ₁ m ∧ σ₁.modules.lookup (gsub slash dot name) = some m := by
  obtain ⟨σ', hres, hw⟩ := Import_assigns files hnew hfile
  rw [himport] at hres
  cases hres
  have hfields : σ₁.fields σ₀.next = ∅ := by
    rw [hw.fields σ₀.next σ₀.allocated.ne']
    exact Function.update_self ..
  have hindex : σ₁.index σ₀.next = some _G := by
    rw [hw.index]
    exact σ₀.index_newTable_self _
  have hempty : ∀ k v, (σ₁.fields σ₀.next).lookup k = some v → False := by
    intro k v hk
    rw [hfields, Finmap.lookup_empty] at hk
    cases hk
  refine ⟨⟨⟨fun k v hk => (hempty k v hk).elim, hindex⟩, fun k v hk => (hempty k v hk).elim, σ₀.allocated.ne'⟩, ?_⟩
  rw [hw.modules, Loader.lookup_load, if_pos rfl]

/-- A module is imported that assigns `l`, its data are changed, and then a new version is reloaded.  The reload keeps
the data, replaces the functions and calls the hooks exactly when the new version leaves the data as they are, its
functions are not overwritten by what it loads, and there are no hooks. -/
theorem hot_reload_iff {files' : Finmap fun _ : Str => Source D F} (depth : Nat) {σ₀ σ₁ σ₂ : Loader D F} {name : Str}
    {m m' : Nat} {l : List (Str × Datum D F)} {changes : List (Change D F)}
    (hnew : σ₀.modules.lookup (gsub slash dot name) = none)
    (hfile : files.lookup (module_to_path name) = some (.code (assigns l .finish)))
    (himport : Import files name σ₀ = .ok m σ₁) (hchanges : ∀ c ∈ changes, c.OfData l)
    (hload : load_module files' (gsub slash dot name) (changed m σ₁ changes) = .ok m' σ₂) :
    (∃ σ', reload_module order files' code (depth + 1) (gsub slash dot name) (changed m σ₁ changes) = .ok true σ' ∧
      HotReload l (newVersion files' (gsub slash dot name) (changed m σ₁ changes)).own m (changed m σ₁ changes) σ') ↔
    KeepsData l m (changed m σ₁ changes) (newVersion files' (gsub slash dot name) (changed m σ₁ changes)) := by
  obtain ⟨htable, hm⟩ := ModuleTable.imported files hnew hfile himport
  rw [← modules_changed m σ₁ changes] at hm
  exact hot_reload_iff_keepsData order files' code depth hm (htable.changed hchanges) hload

/-- A module with the datum `x` and the function `f`. -/
def firstVersion : Finmap fun _ : Str => Source Nat Bool :=
  Finmap.singleton (module_to_path [97]) (.code (assigns [([120], .plain 0), ([102], .func false)] .finish))

/-- A version that defines `f` anew and leaves `x` alone. -/
def secondVersion : Finmap fun _ : Str => Source Nat Bool :=
  Finmap.singleton (module_to_path [97]) (.code (assigns [([102], .func true)] .finish))

/-- The first version is imported, and `x` is set to 5. -/
def running : Loader Nat Bool := changed 1 (Import firstVersion [97] default).state [.global [120] (.plain 5)]

private theorem running_changes : ∀ c ∈ [Change.global [120] (.plain 5)],
    c.OfData ([([120], .plain 0), ([102], .func false)] : List (Str × Datum Nat Bool)) := by
  intro c hc
  rw [List.mem_singleton.1 hc]
  exact ⟨trivial, Or.inl trivial⟩

theorem hot_reload_second :
    ∃ σ', reload_module default secondVersion (fun _ => .finish) 1 [97] running = .ok true σ' ∧
    HotReload [([120], .plain 0), ([102], .func false)] [([102], .func true)] 1 running σ' := by
  have hnew : (default : Loader Nat Bool).modules.lookup (gsub slash dot [97]) = none := rfl
  have himport : Import firstVersion [97] default = .ok 1 (Import firstVersion [97] default).state := rfl
  have hkeep :
    KeepsData [([120], .plain 0), ([102], .func false)] 1 running (newVersion secondVersion [97] running) := by
    refine ⟨fun e he _ hdata => ?_, fun k f f' hf hf' => ?_, fun f h => ?_, fun f h => ?_⟩
    · rcases List.mem_cons.1 he with rfl | he
      · rfl
      · rw [List.mem_singleton.1 he] at hdata
        exact hdata.elim
    · have hown : Function.update (fun _ => (.nil : Datum Nat Bool)) [102] (.func true) k = .func f' := hf'
      show Function.update (running.rawget _G) [102] (.func true) k = .func f'
      by_cases hk : k = [102]
      · rw [hk, Function.update_self] at hown ⊢
        exact hown
      · rw [Function.update_of_ne hk] at hown
        cases hown
    · have hnil : (.nil : Datum Nat Bool) = .func f := h
      cases hnil
    · have hnil : (.nil : Datum Nat Bool) = .func f := h
      cases hnil
  have hload : load_module secondVersion [97] running = .ok 2 (load_module secondVersion [97] running).state := rfl
  exact (hot_reload_iff default firstVersion (fun _ => .finish) 0 hnew rfl himport running_changes hload).2 hkeep

/-- Reloading the same version puts `x` back to what it was at first. -/
theorem reload_resets_data : running.get 1 [120] = some (.plain 5) ∧
    ∃ σ', reload_module default firstVersion (fun _ => .finish) 1 [97] running = .ok true σ' ∧
      σ'.get 1 [120] = some (.plain 0) := by
  have hnew : (default : Loader Nat Bool).modules.lookup (gsub slash dot [97]) = none := rfl
  have himport : Import firstVersion [97] default = .ok 1 (Import firstVersion [97] default).state := rfl
  have htable : ModuleTable _ running 1 :=
    (ModuleTable.imported firstVersion hnew rfl himport).1.changed running_changes
  have hm : running.modules.lookup [97] = some 1 := rfl
  have hload : load_module firstVersion [97] running = .ok 2 (load_module firstVersion [97] running).state := rfl
  exact ⟨rfl, _, reload_module_eq default firstVersion (fun _ => .finish) 0 hm htable hload, rfl⟩

end

end LibeventServer.Lua

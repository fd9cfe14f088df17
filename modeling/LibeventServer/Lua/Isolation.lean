import LibeventServer.Lib.Writes
import LibeventServer.Lua.Loading

/-!
# Modules and the globals

`setfenv` leaves a chunk the environment it was compiled with.  So a module or a configuration file that assigns names
assigns globals, and its table stays empty: it keeps to its table only when nothing it assigns can be seen
(`isolated_iff_unseen`).
-/

namespace LibeventServer.Lua

section

variable {D F : Type} (files : Finmap fun _ : Str => Source D F)

/-! ### Bodies of assignments -/

/-- A body that makes these assignments. -/
def assigns (l : List (Str × Datum D F)) (last : Body D F) : Body D F :=
  l.foldr (fun e body => .assign e.1 e.2 body) last

def Loader.assignAll (σ : Loader D F) (l : List (Str × Datum D F)) : Loader D F :=
  l.foldl (fun σ e => σ.rawset _G e.1 e.2) σ

private theorem run_assigns (imp : Str → Load D F Nat) (l : List (Str × Datum D F)) (last : Body D F)
    (σ : Loader D F) :
    (assigns l last).run imp _G σ = last.run imp _G (σ.assignAll l) := by
  induction l generalizing σ with
  | nil => rfl
  | cons e l ih => exact ih (σ.rawset _G e.1 e.2)

/-- The globals were assigned `l`; the other tables and the modules are those of `σ`. -/
structure Assigned (l : List (Str × Datum D F)) (σ σ' : Loader D F) : Prop where
  globals : ∀ k, σ'.rawget _G k = Writes.replay (σ.rawget _G) l k
  fields : ∀ t, t ≠ _G → σ'.fields t = σ.fields t
  index : σ'.index = σ.index
  modules : σ'.modules = σ.modules

private theorem Assigned.record {σ σ' : Loader D F} {l : List (Str × Datum D F)} (h : Assigned l σ σ') (e : Event F) :
    Assigned l σ (σ'.record e) := ⟨h.globals, h.fields, h.index, h.modules⟩

private theorem Assigned.assignAll (σ : Loader D F) (l : List (Str × Datum D F)) : Assigned l σ (σ.assignAll l) := by
  induction l generalizing σ with
  | nil => exact ⟨fun _ => rfl, fun _ _ => rfl, rfl, rfl⟩
  | cons e l ih =>
    have h := ih (σ.rawset _G e.1 e.2)
    refine ⟨fun k => ?_, fun t ht => ?_, h.index, h.modules⟩
    · rw [Writes.replay_cons, ← σ.rawget_rawset_global]
      exact h.globals k
    · exact (h.fields t ht).trans (Function.update_of_ne ht ..)

/-- The state in which a chunk of assignments is left. -/
private theorem Assigned.called (σ : Loader D F) (l : List (Str × Datum D F)) (began left : Event F) :
    Assigned l σ (((σ.record began).assignAll l).record left) := by
  have h := (Assigned.assignAll (σ.record began) l).record left
  exact ⟨h.globals, h.fields, h.index, h.modules⟩

/-- A chunk of assignments that `loadstring` made, whatever `setfenv` was given. -/
private theorem call_assigns (imp : Str → Load D F Nat) (file : Str) (l : List (Str × Datum D F))
    (last : Body D F) (env : Nat)
    (σ : Loader D F) : (setfenv (⟨file, _G, assigns l last⟩ : Chunk D F) env).call imp σ =
      match last.run imp _G ((σ.record (.began file)).assignAll l) with
      | .ok _ σ' => .ok () (σ'.record (.ended file))
      | .error e σ' => .error e (σ'.record (.raised file)) := by
  rw [← run_assigns]
  rfl

/-! ### What a file of assignments may do -/

/-- The assignments `l` have gone to the table `m` and nowhere else. -/
structure Isolated (σ σ' : Loader D F) (m : Nat) (l : List (Str × Datum D F)) : Prop where
  own : ∀ k, σ'.rawget m k = Writes.replay (fun _ => .nil) l k
  globals : ∀ k, σ'.rawget _G k = σ.rawget _G k
  others : ∀ name m', σ.modules.lookup name = some m' → ∀ k, σ'.rawget m' k = σ.rawget m' k

/-- Nothing that is assigned can be seen: it ends as `nil`, and there was no such global. -/
def Unseen (σ : Loader D F) (l : List (Str × Datum D F)) : Prop :=
  ∀ e ∈ l, Writes.replay (fun _ => .nil) l e.1 = .nil ∧ σ.rawget _G e.1 = .nil

/-- The assignments leave every global they assign as it was. -/
def Restores (σ : Loader D F) (l : List (Str × Datum D F)) : Prop :=
  ∀ e ∈ l, Writes.replay (σ.rawget _G) l e.1 = σ.rawget _G e.1

private theorem isolated_iff {σ σ' : Loader D F} {m : Nat} {l : List (Str × Datum D F)}
    (hown : ∀ k, σ'.rawget m k = .nil) (hglobals : ∀ k, σ'.rawget _G k = Writes.replay (σ.rawget _G) l k)
    (hothers : ∀ name m', σ.modules.lookup name = some m' → ∀ k, σ'.rawget m' k = σ.rawget m' k) :
    Isolated σ σ' m l ↔ Unseen σ l := by
  constructor
  · intro h e he
    have hmem : e.1 ∈ l.map Prod.fst := List.mem_map_of_mem he
    have hnil : Writes.replay (fun _ => .nil) l e.1 = .nil := by rw [← h.own, hown]
    refine ⟨hnil, ?_⟩
    rw [← h.globals, hglobals, Writes.replay_of_mem hmem _ fun _ => .nil, hnil]
  · intro h
    have hkey : ∀ k, k ∈ l.map Prod.fst → Writes.replay (fun _ => .nil) l k = .nil ∧ σ.rawget _G k = .nil := by
      intro k hk
      obtain ⟨e, he, rfl⟩ := List.mem_map.1 hk
      exact h e he
    refine ⟨fun k => ?_, fun k => ?_, hothers⟩
    · rw [hown]
      by_cases hk : k ∈ l.map Prod.fst
      · rw [(hkey k hk).1]
      · rw [Writes.replay_of_notMem hk]
    · rw [hglobals]
      by_cases hk : k ∈ l.map Prod.fst
      · rw [Writes.replay_of_mem hk _ fun _ => .nil, (hkey k hk).1, (hkey k hk).2]
      · rw [Writes.replay_of_notMem hk]

theorem Import_assigns {σ : Loader D F} {name : Str} (hm : σ.modules.lookup (gsub slash dot name) = none)
    {l : List (Str × Datum D F)} (hf : files.lookup (module_to_path name) = some (.code (assigns l .finish))) :
    ∃ σ', Import files name σ = .ok σ.next σ' ∧ Assigned l (σ.load (gsub slash dot name)) σ' := by
  refine ⟨_, ?_, ((Assigned.assignAll _ l).record (.ended (module_to_path name))).record (.imported name σ.next)⟩
  rw [Import, importN_load files files.keys.card hm hf, run_assigns]
  rfl

private theorem load_config_eq {path : Str} {body : Body D F} (hf : files.lookup path = some (.code body))
    (σ : Loader D F) :
    load_config files path σ =
      match (⟨path, _G, body⟩ : Chunk D F).call (Import files) (σ.newTable none) with
      | .ok _ σ' => .ok (some σ.next) σ'
      | .error (.error _) σ' => .ok none σ'
      | .error .fuel σ' => .error .fuel σ' := by
  unfold load_config
  rw [hf]
  dsimp only [loadstring]
  rw [EStateM.get_bind, EStateM.modify_bind]
  cases hcall : (⟨path, _G, body⟩ : Chunk D F).call (Import files) (σ.newTable none) with
  | ok a σ' =>
    rw [EStateM.bind_ok (pcall_ok hcall)]
    rfl
  | error e σ' =>
    cases e with
    | error msg =>
      rw [EStateM.bind_ok (pcall_error hcall)]
      rfl
    | fuel => rw [EStateM.bind_error (pcall_fuel hcall)]

/-- A configuration file of assignments that ends. -/
private theorem load_config_ends {path : Str} {l : List (Str × Datum D F)}
    (hf : files.lookup path = some (.code (assigns l .finish))) (σ : Loader D F) :
    ∃ σ', load_config files path σ = .ok (some σ.next) σ' ∧ Assigned l (σ.newTable none) σ' := by
  have hcall : (⟨path, _G, assigns l .finish⟩ : Chunk D F).call (Import files) (σ.newTable none) = .ok () _ :=
    call_assigns (Import files) path l .finish σ.next (σ.newTable none)
  refine ⟨_, ?_, Assigned.called _ l (.began path) (.ended path)⟩
  rw [load_config_eq files hf, hcall]

/-- A configuration file that raises after its assignments. -/
private theorem load_config_raises {path msg : Str} {l : List (Str × Datum D F)}
    (hf : files.lookup path = some (.code (assigns l (.raise msg)))) (σ : Loader D F) :
    ∃ σ', load_config files path σ = .ok none σ' ∧ Assigned l (σ.newTable none) σ' := by
  have hcall : (⟨path, _G, assigns l (.raise msg)⟩ : Chunk D F).call (Import files) (σ.newTable none) =
      .error (.error msg) _ := call_assigns (Import files) path l (.raise msg) σ.next (σ.newTable none)
  refine ⟨_, ?_, Assigned.called _ l (.began path) (.raised path)⟩
  rw [load_config_eq files hf, hcall]

/-- Assignments to globals after a table was made: that table stays empty, and the modules keep their fields. -/
private theorem Assigned.after_newTable {σ τ σ' : Loader D F} {l : List (Str × Datum D F)}
    (h : Assigned l τ σ') {i : Option Nat} (hfields : τ.fields = (σ.newTable i).fields) :
    (∀ k, σ'.rawget σ.next k = .nil) ∧ (∀ k, σ'.rawget _G k = Writes.replay (σ.rawget _G) l k) ∧
      ∀ name m, σ.modules.lookup name = some m → ∀ k, σ'.rawget m k = σ.rawget m k := by
  have hτ : ∀ t k, τ.rawget t k = (σ.newTable i).rawget t k := fun t k => by
    rw [Loader.rawget, hfields, Loader.rawget]
  have hother : ∀ t k, t ≠ _G → σ'.rawget t k = (σ.newTable i).rawget t k := fun t k ht => by
    rw [← hτ, Loader.rawget, h.fields t ht, Loader.rawget]
  refine ⟨fun k => ?_, fun k => ?_, fun name m hm k => ?_⟩
  · rw [hother _ k σ.allocated.ne', σ.rawget_newTable_self i]
  · rw [h.globals]
    apply Writes.replay_congr
    rw [hτ, σ.rawget_newTable_of_lt i σ.allocated]
  · obtain ⟨hpos, hlt, -⟩ := σ.created name m hm
    rw [hother m k hpos.ne', σ.rawget_newTable_of_lt i hlt]

private theorem Import_isolated_iff {σ : Loader D F} {name : Str} (hm : σ.modules.lookup (gsub slash dot name) = none)
    {l : List (Str × Datum D F)} (hf : files.lookup (module_to_path name) = some (.code (assigns l .finish))) :
    (∃ m σ', Import files name σ = .ok m σ' ∧ Isolated σ σ' m l) ↔ Unseen σ l := by
  obtain ⟨σ', hres, hw⟩ := Import_assigns files hm hf
  obtain ⟨hown, hglobals, hothers⟩ := hw.after_newTable (i := some _G) rfl
  have hiff : Isolated σ σ' σ.next l ↔ Unseen σ l := isolated_iff hown hglobals hothers
  rw [← hiff, hres]
  constructor
  · rintro ⟨m, σ'', heq, hiso⟩
    cases heq
    exact hiso
  · exact fun hiso => ⟨_, _, rfl, hiso⟩

private theorem load_config_isolated_iff {path : Str} {l : List (Str × Datum D F)}
    (hf : files.lookup path = some (.code (assigns l .finish))) (σ : Loader D F) :
    (∃ t σ', load_config files path σ = .ok (some t) σ' ∧ Isolated σ σ' t l) ↔ Unseen σ l := by
  obtain ⟨σ', hres, hw⟩ := load_config_ends files hf σ
  obtain ⟨hown, hglobals, hothers⟩ := hw.after_newTable (i := none) rfl
  have hiff : Isolated σ σ' σ.next l ↔ Unseen σ l := isolated_iff hown hglobals hothers
  rw [← hiff, hres]
  constructor
  · rintro ⟨t, σ'', heq, hiso⟩
    cases heq
    exact hiso
  · exact fun hiso => ⟨_, _, rfl, hiso⟩

private theorem load_config_raise_iff {path msg : Str} {l : List (Str × Datum D F)}
    (hf : files.lookup path = some (.code (assigns l (.raise msg)))) (σ : Loader D F) :
    (∃ σ', load_config files path σ = .ok none σ' ∧ ∀ k, σ'.rawget _G k = σ.rawget _G k) ↔ Restores σ l := by
  obtain ⟨σ', hres, hw⟩ := load_config_raises files hf σ
  obtain ⟨-, hglobals, -⟩ := hw.after_newTable (i := none) rfl
  have hiff : (∀ k, σ'.rawget _G k = σ.rawget _G k) ↔ Restores σ l := by
    simp only [hglobals]
    exact Writes.replay_eq_iff _ l
  rw [← hiff, hres]
  constructor
  · rintro ⟨σ'', heq, hsame⟩
    cases heq
    exact hsame
  · exact fun hsame => ⟨_, rfl, hsame⟩

/-- A chunk of assignments that was given the environment `env` writes to no other table exactly when its assignments
put back what was there. -/
private theorem call_confined_iff (σ : Loader D F) (l : List (Str × Datum D F)) (file : Str) {env : Nat}
    (henv : env ≠ _G) :
    (∃ σ', (setfenv (⟨file, _G, assigns l .finish⟩ : Chunk D F) env).call (Import files) σ = .ok () σ' ∧
      ∀ t, t ≠ env → t < σ.next → ∀ k, σ'.rawget t k = σ.rawget t k) ↔ Restores σ l := by
  have hcall := call_assigns (Import files) file l .finish env σ
  have hw := Assigned.called σ l (.began file) (.ended file)
  rw [hcall]
  constructor
  · rintro ⟨σ', hres, hsame⟩ e he
    cases hres
    exact (hw.globals e.1).symm.trans (hsame _G henv.symm σ.allocated e.1)
  · intro hl
    refine ⟨_, rfl, fun t _ _ k => ?_⟩
    by_cases ht : t = _G
    · rw [ht]
      exact (hw.globals k).trans ((Writes.replay_eq_iff _ l).2 hl k)
    · rw [Loader.rawget, hw.fields t ht]
      rfl

/-- A chunk under `setfenv` writes to its environment only exactly when the assignments put back what was there.
`Import` and `load_config` give a file that assigns `l` a table of its own exactly when nothing of `l` can be seen; a
configuration file that raises after the assignments leaves the globals exactly when they put back what was there. -/
theorem isolated_iff_unseen (σ : Loader D F) (l : List (Str × Datum D F)) :
    (∀ file env, env ≠ _G →
      ((∃ σ', (setfenv (⟨file, _G, assigns l .finish⟩ : Chunk D F) env).call (Import files) σ = .ok () σ' ∧
        ∀ t, t ≠ env → t < σ.next → ∀ k, σ'.rawget t k = σ.rawget t k) ↔ Restores σ l)) ∧
    (∀ name, σ.modules.lookup (gsub slash dot name) = none →
      files.lookup (module_to_path name) = some (.code (assigns l .finish)) →
        ((∃ m σ', Import files name σ = .ok m σ' ∧ Isolated σ σ' m l) ↔ Unseen σ l)) ∧
    (∀ path, files.lookup path = some (.code (assigns l .finish)) →
      ((∃ t σ', load_config files path σ = .ok (some t) σ' ∧ Isolated σ σ' t l) ↔ Unseen σ l)) ∧
    ∀ path msg, files.lookup path = some (.code (assigns l (.raise msg))) →
      ((∃ σ', load_config files path σ = .ok none σ' ∧ ∀ k, σ'.rawget _G k = σ.rawget _G k) ↔ Restores σ l) :=
  ⟨fun file _ henv => call_confined_iff files σ l file henv, fun _ hm hf => Import_isolated_iff files hm hf,
    fun _ hf => load_config_isolated_iff files hf σ, fun _ _ hf => load_config_raise_iff files hf σ⟩

/-- Two modules that assign the global `x`. -/
def sharingFiles : Finmap fun _ : Str => Source Unit Unit :=
  (Finmap.singleton (module_to_path [97]) (.code (assigns [([120], .bool true)] .finish))).insert
    (module_to_path [98]) (.code (assigns [([120], .bool false)] .finish))

/-- The first module's `x` is not in its table, and the second module overwrites it. -/
theorem sharing_modules_overwrite :
    (¬ ∃ m σ', Import sharingFiles [97] default = .ok m σ' ∧ Isolated default σ' m [([120], .bool true)]) ∧
      ∃ m σ₁ m' σ₂, Import sharingFiles [97] default = .ok m σ₁ ∧ Import sharingFiles [98] σ₁ = .ok m' σ₂ ∧
        σ₁.get m [120] = some (.bool true) ∧ σ₂.get m [120] = some (.bool false) := by
  constructor
  · rintro ⟨m, σ', hres, hiso⟩
    cases hres
    cases hiso.own [120]
  · exact ⟨1, _, 2, _, rfl, rfl, rfl, rfl⟩

end

end LibeventServer.Lua

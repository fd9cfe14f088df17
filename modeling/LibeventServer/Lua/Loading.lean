import LibeventServer.Lua.Import

/-!
# What one call of the loader does

A module name without `/` is found again in the path of its file (`nameOf_module_to_path`), so different modules have
different files.

`importN_cases`: the three ways an `Import` goes.  `Body.run_moves`, `Body.run_avoids`: what every assignment and
every `Import` keeps, a body keeps.  `Steps`: what every change keeps that is made on the way.

Nothing that is loaded is unloaded (`Extends`), of the tables only the globals are written (`Confined`), and an
`Import` never needs more calls than allowed for (`Import_ne_fuel`).
-/

namespace LibeventServer.Lua

/-! ### Names and paths -/

theorem slash_notMem_gsub (s : Str) : slash ∉ gsub slash dot s := by
  intro h
  obtain ⟨x, -, hx⟩ := List.mem_map.1 h
  split at hx
  · cases hx
  · contradiction

private theorem gsub_gsub_of_notMem {s : Str} (h : slash ∉ s) : gsub slash dot (gsub dot slash s) = s := by
  have hmap : gsub slash dot (gsub dot slash s) = s.map fun x => x := by
    rw [gsub, gsub, List.map_map]
    apply List.map_congr_left
    intro x hx
    have hne : x ≠ slash := fun heq => h (heq ▸ hx)
    by_cases hdot : x = dot
    · simp [hdot]
    · simp [hdot, hne]
  rw [hmap, List.map_id']

/-- Both spellings of a module name lead to one file. -/
theorem module_to_path_gsub (name : Str) : module_to_path (gsub slash dot name) = module_to_path name := by
  have hmap : gsub dot slash (gsub slash dot name) = gsub dot slash name := by
    rw [gsub, gsub, List.map_map]
    apply List.map_congr_left
    intro x _
    by_cases hslash : x = slash
    · subst hslash
      rfl
    · simp [hslash]
  rw [module_to_path, module_to_path, hmap]

/-- The module that a file is for. -/
def nameOf (path : Str) : Str := gsub slash dot (path.take (path.length - module_suffix.length))

theorem nameOf_module_to_path {name : Str} (h : slash ∉ name) : nameOf (module_to_path name) = name := by
  have htake : (module_to_path name).take ((module_to_path name).length - module_suffix.length) =
      gsub dot slash name := by
    rw [module_to_path, List.length_append, Nat.add_sub_cancel, List.take_left]
    rfl
  rw [nameOf, htake, gsub_gsub_of_notMem h]

theorem module_to_path_inj {name name' : Str} (h : slash ∉ name) (h' : slash ∉ name') :
    module_to_path name = module_to_path name' ↔ name = name' := by
  constructor
  · intro heq
    rw [← nameOf_module_to_path h, heq, nameOf_module_to_path h']
  · rintro rfl
    rfl

section

variable {D F : Type} (files : Finmap fun _ : Str => Source D F)

/-! ### Import -/

theorem create_module_eq (name : Str) (σ : Loader D F) : create_module files name σ =
    match files.lookup (module_to_path name) with
    | some (.code body) => .ok (σ.next, ⟨module_to_path name, _G, body⟩) (σ.newTable (some _G))
    | some (.broken _) => .error (.error (literal "import error: can not load the module:" ++ name))
        ((σ.newTable (some _G)).record (.failed name))
    | none => .error (.error (literal "import error: can not open file: " ++ module_to_path name))
        ((σ.newTable (some _G)).record (.failed name)) := by
  unfold create_module
  dsimp only
  cases files.lookup (module_to_path name) with
  | none => rfl
  | some source => cases source <;> rfl

private theorem create_module_failed {name : Str} (h : ∀ body, files.lookup (module_to_path name) ≠ some (.code body))
    (σ : Loader D F) :
    ∃ msg, create_module files name σ = .error (.error msg) ((σ.newTable (some _G)).record (.failed name)) := by
  rw [create_module_eq]
  cases hf : files.lookup (module_to_path name) with
  | none => exact ⟨_, rfl⟩
  | some source =>
    cases source with
    | broken msg => exact ⟨_, rfl⟩
    | code body => exact absurd hf (h body)

/-- The module is registered and its body begins. -/
def Loader.load (σ : Loader D F) (key : Str) : Loader D F :=
  ((σ.newTable (some _G)).register key σ.next
    ⟨σ.allocated, Nat.lt_succ_self _, σ.index_newTable_self _⟩).record (.began (module_to_path key))

variable (n : Nat) {name : Str} {σ : Loader D F}

theorem importN_registered {m : Nat} (h : σ.modules.lookup (gsub slash dot name) = some m) :
    importN files (n + 1) name σ = .ok m (σ.record (.imported name m)) := by
  rw [importN, EStateM.get_bind, h]
  rfl

private theorem importN_unregistered (h : σ.modules.lookup (gsub slash dot name) = none) :
    importN files (n + 1) name σ =
    (create_module files (gsub slash dot name) >>= fun r => setModule (gsub slash dot name) r.1 >>= fun _ =>
      (setfenv r.2 r.1).call (importN files n) >>= fun _ => record (.imported name r.1) >>= fun _ => pure r.1) σ := by
  rw [importN, EStateM.get_bind, h]

theorem importN_missing (h : σ.modules.lookup (gsub slash dot name) = none)
    (hf : files.lookup (module_to_path name) = none) : importN files (n + 1) name σ =
      .error (.error (literal "import error: can not open file: " ++ module_to_path name))
        ((σ.newTable (some _G)).record (.failed (gsub slash dot name))) := by
  have hcreate : create_module files (gsub slash dot name) σ =
      .error (.error (literal "import error: can not open file: " ++ module_to_path name))
        ((σ.newTable (some _G)).record (.failed (gsub slash dot name))) := by
    rw [create_module_eq, module_to_path_gsub, hf]
  rw [importN_unregistered files n h]
  exact EStateM.bind_error hcreate

theorem importN_broken (h : σ.modules.lookup (gsub slash dot name) = none) {msg : Str}
    (hf : files.lookup (module_to_path name) = some (.broken msg)) : importN files (n + 1) name σ =
      .error (.error (literal "import error: can not load the module:" ++ gsub slash dot name))
        ((σ.newTable (some _G)).record (.failed (gsub slash dot name))) := by
  have hcreate : create_module files (gsub slash dot name) σ =
      .error (.error (literal "import error: can not load the module:" ++ gsub slash dot name))
        ((σ.newTable (some _G)).record (.failed (gsub slash dot name))) := by
    rw [create_module_eq, module_to_path_gsub, hf]
  rw [importN_unregistered files n h]
  exact EStateM.bind_error hcreate

theorem importN_load (h : σ.modules.lookup (gsub slash dot name) = none) {body : Body D F}
    (hf : files.lookup (module_to_path name) = some (.code body)) :
    importN files (n + 1) name σ =
      match body.run (importN files n) _G (σ.load (gsub slash dot name)) with
      | .ok _ σ' => .ok σ.next ((σ'.record (.ended (module_to_path name))).record (.imported name σ.next))
      | .error e σ' => .error e (σ'.record (.raised (module_to_path name))) := by
  have hcreate : create_module files (gsub slash dot name) σ =
      .ok (σ.next, ⟨module_to_path name, _G, body⟩) (σ.newTable (some _G)) := by
    rw [create_module_eq, module_to_path_gsub, hf]
  have hset : setModule (gsub slash dot name) σ.next (σ.newTable (some _G)) = .ok () ((σ.newTable (some _G)).register
      (gsub slash dot name) σ.next ⟨σ.allocated, Nat.lt_succ_self _, σ.index_newTable_self _⟩) :=
    dif_pos ⟨σ.allocated, Nat.lt_succ_self _, σ.index_newTable_self _⟩
  have hload : σ.load (gsub slash dot name) = ((σ.newTable (some _G)).register (gsub slash dot name) σ.next
      ⟨σ.allocated, Nat.lt_succ_self _, σ.index_newTable_self _⟩).record (.began (module_to_path name)) := by
    rw [Loader.load, module_to_path_gsub]
  rw [importN_unregistered files n h, EStateM.bind_ok hcreate]
  refine (EStateM.bind_ok hset).trans ?_
  rw [hload]
  have hcall : (setfenv (⟨module_to_path name, _G, body⟩ : Chunk D F) σ.next).call (importN files n)
      ((σ.newTable (some _G)).register (gsub slash dot name) σ.next
        ⟨σ.allocated, Nat.lt_succ_self _, σ.index_newTable_self _⟩) =
      match body.run (importN files n) _G (((σ.newTable (some _G)).register (gsub slash dot name) σ.next
        ⟨σ.allocated, Nat.lt_succ_self _, σ.index_newTable_self _⟩).record (.began (module_to_path name))) with
      | .ok _ σ' => .ok () (σ'.record (.ended (module_to_path name)))
      | .error e σ' => .error e (σ'.record (.raised (module_to_path name))) := rfl
  split
  · rename_i a σ' hrun
    rw [hrun] at hcall
    exact (EStateM.bind_ok hcall).trans rfl
  · rename_i e σ' hrun
    rw [hrun] at hcall
    exact EStateM.bind_error hcall

/-- The three ways an `Import` goes. -/
theorem importN_cases (name : Str) (σ : Loader D F) :
    (∃ m, σ.modules.lookup (gsub slash dot name) = some m ∧
      importN files (n + 1) name σ = .ok m (σ.record (.imported name m))) ∨
    (∃ msg, importN files (n + 1) name σ =
      .error (.error msg) ((σ.newTable (some _G)).record (.failed (gsub slash dot name)))) ∨
    σ.modules.lookup (gsub slash dot name) = none ∧
      ∃ body, files.lookup (module_to_path name) = some (.code body) ∧
        importN files (n + 1) name σ =
          match body.run (importN files n) _G (σ.load (gsub slash dot name)) with
          | .ok _ σ' => .ok σ.next ((σ'.record (.ended (module_to_path name))).record (.imported name σ.next))
          | .error e σ' => .error e (σ'.record (.raised (module_to_path name))) := by
  cases hm : σ.modules.lookup (gsub slash dot name) with
  | some m => exact Or.inl ⟨m, rfl, importN_registered files n hm⟩
  | none =>
    cases hf : files.lookup (module_to_path name) with
    | none => exact Or.inr (Or.inl ⟨_, importN_missing files n hm hf⟩)
    | some source =>
      cases source with
      | broken msg => exact Or.inr (Or.inl ⟨_, importN_broken files n hm hf⟩)
      | code body => exact Or.inr (Or.inr ⟨rfl, body, rfl, importN_load files n hm hf⟩)

/-- A module whose file is code: a new table, and the chunk is called. -/
theorem load_module_code {name : Str} {body : Body D F} (hf : files.lookup (module_to_path name) = some (.code body))
    (σ : Loader D F) : load_module files name σ =
      ((setfenv (⟨module_to_path name, _G, body⟩ : Chunk D F) σ.next).call (Import files) >>=
        fun _ => (pure σ.next : Load D F Nat)) (σ.newTable (some _G)) := by
  have hcreate := create_module_eq files name σ
  rw [hf] at hcreate
  exact EStateM.bind_ok hcreate

theorem load_module_failed {name : Str} (h : ∀ body, files.lookup (module_to_path name) ≠ some (.code body))
    (σ : Loader D F) :
    ∃ msg, load_module files name σ = .error (.error msg) ((σ.newTable (some _G)).record (.failed name)) := by
  obtain ⟨msg, hmsg⟩ := create_module_failed files h σ
  exact ⟨msg, EStateM.bind_error hmsg⟩

/-! ### The statements of a body -/

theorem gettable_eq (t : Nat) (k : Str) (σ : Loader D F) : gettable t k σ =
    match σ.get t k with
    | some v => .ok v σ
    | none => .error (.error (literal "'__index' chain too long; possibly a loop")) σ := by
  show (match σ.get t k with
    | some v => pure v
    | none => error (literal "'__index' chain too long; possibly a loop") : Load D F (Datum D F)) σ = _
  cases σ.get t k <;> rfl

variable {imp : Str → Load D F Nat} {env : Nat}

/-- What relates the states before and after every assignment and every `Import`, relates those before and after a
body. -/
theorem Body.run_moves {R : Loader D F → Loader D F → Prop} (hrefl : ∀ σ, R σ σ)
    (htrans : ∀ σ₁ σ₂ σ₃, R σ₁ σ₂ → R σ₂ σ₃ → R σ₁ σ₃) (hset : ∀ σ k v, R σ (σ.rawset env k v))
    (himp : ∀ name, EStateM.Moves R (imp name)) (body : Body D F) : EStateM.Moves R (body.run imp env) := by
  induction body with
  | finish => exact EStateM.Moves.pure hrefl ()
  | raise msg => exact EStateM.Moves.throw hrefl _
  | assign k v next ih => exact EStateM.Moves.bind htrans (fun σ => hset σ k v) fun _ => ih
  | read k next ih =>
    refine EStateM.Moves.bind htrans (fun σ => ?_) ih
    rw [gettable_eq]
    cases σ.get env k <;> exact hrefl σ
  | Import name next ih => exact EStateM.Moves.bind htrans (himp name).attempt ih

/-- A body does not run out of calls, and keeps what every assignment and every `Import` keeps. -/
theorem Body.run_avoids {P : Loader D F → Prop} (hset : ∀ σ k v, P σ → P (σ.rawset env k v))
    (himp : ∀ name, EStateM.Avoids (· = Fault.fuel) P (imp name)) (body : Body D F) :
    EStateM.Avoids (· = Fault.fuel) P (body.run imp env) := by
  induction body with
  | finish => exact EStateM.Avoids.pure ()
  | raise msg => exact EStateM.Avoids.throw nofun
  | assign k v next ih =>
    refine EStateM.Avoids.bind (fun σ hσ => ⟨hset σ k v hσ, fun e σ' h => ?_⟩) fun _ => ih
    cases h
  | read k next ih =>
    refine EStateM.Avoids.bind (fun σ hσ => ?_) ih
    rw [gettable_eq]
    cases σ.get env k with
    | none =>
      refine ⟨hσ, fun e σ' h => ?_⟩
      cases h
      nofun
    | some v => exact ⟨hσ, fun e σ' h => nomatch h⟩
  | Import name next ih => exact EStateM.Avoids.bind (himp name).attempt ih

/-! ### Nothing is unloaded -/

/-- The tables, modules and events of `σ` are still there in `σ'`. -/
structure Extends (σ σ' : Loader D F) : Prop where
  next : σ.next ≤ σ'.next
  index : ∀ t, t < σ.next → σ'.index t = σ.index t
  modules : ∀ name m, σ.modules.lookup name = some m → σ'.modules.lookup name = some m
  log : ∀ e ∈ σ.log, e ∈ σ'.log

theorem Extends.refl (σ : Loader D F) : Extends σ σ := ⟨le_rfl, fun _ _ => rfl, fun _ _ h => h, fun _ h => h⟩

theorem Extends.trans (σ₁ σ₂ σ₃ : Loader D F) (h : Extends σ₁ σ₂) (h' : Extends σ₂ σ₃) : Extends σ₁ σ₃ where
  next := h.next.trans h'.next
  index t ht := (h'.index t (ht.trans_le h.next)).trans (h.index t ht)
  modules name m hm := h'.modules name m (h.modules name m hm)
  log e he := h'.log e (h.log e he)

theorem Extends.rawset (σ : Loader D F) (t : Nat) (k : Str) (v : Datum D F) : Extends σ (σ.rawset t k v) :=
  ⟨le_rfl, fun _ _ => rfl, fun _ _ h => h, fun _ h => h⟩

theorem Extends.record (σ : Loader D F) (e : Event F) : Extends σ (σ.record e) :=
  ⟨le_rfl, fun _ _ => rfl, fun _ _ h => h, fun _ h => List.mem_append_left _ h⟩

theorem Extends.newTable (σ : Loader D F) (i : Option Nat) : Extends σ (σ.newTable i) :=
  ⟨Nat.le_succ _, fun _ ht => σ.index_newTable_of_lt i ht, fun _ _ h => h, fun _ h => h⟩

theorem Loader.lookup_load (σ : Loader D F) (key name : Str) :
    (σ.load key).modules.lookup name = if name = key then some σ.next else σ.modules.lookup name := by
  by_cases hname : name = key
  · subst hname
    rw [if_pos rfl]
    exact Finmap.lookup_insert _
  · rw [if_neg hname]
    exact Finmap.lookup_insert_of_ne _ hname

theorem Extends.load {σ : Loader D F} {key : Str} (h : σ.modules.lookup key = none) : Extends σ (σ.load key) where
  next := Nat.le_succ _
  index t ht := σ.index_newTable_of_lt _ ht
  modules name m hm := by
    have hne : name ≠ key := by
      rintro rfl
      rw [h] at hm
      cases hm
    rw [Loader.lookup_load, if_neg hne, hm]
  log e he := List.mem_append_left _ he

/-- The call of a hook, or of `replace_func`. -/
def Event.replaces : Event F → Bool
  | .hook _ _ => true
  | .replaced _ => true
  | _ => false

/-- The module that `reload_module` was called for. -/
def Event.reloaded : Event F → Option Str
  | .reload name _ => some name
  | _ => none

/-- `R` relates the states before and after every change that is made while modules are loaded. -/
structure Steps (R : Loader D F → Loader D F → Prop) : Prop where
  refl : ∀ σ, R σ σ
  trans : ∀ σ₁ σ₂ σ₃, R σ₁ σ₂ → R σ₂ σ₃ → R σ₁ σ₃
  rawset : ∀ σ k v, R σ (σ.rawset _G k v)
  record : ∀ σ e, e.replaces = false → e.reloaded = none → R σ (σ.record e)
  newTable : ∀ σ i, R σ (σ.newTable i)
  load : ∀ σ key, σ.modules.lookup key = none → R σ (σ.load key)

section

variable {R : Loader D F → Loader D F → Prop} (hR : Steps R)

include hR

theorem Steps.importN_moves (n : Nat) (name : Str) : EStateM.Moves R (importN files n name) := by
  induction n generalizing name with
  | zero => exact EStateM.Moves.throw hR.refl _
  | succ n ih =>
    intro σ
    obtain ⟨m, -, hres⟩ | ⟨msg, hres⟩ | ⟨hm, body, -, hres⟩ := importN_cases files n name σ
    · rw [hres]
      exact hR.record σ _ rfl rfl
    · rw [hres]
      exact hR.trans _ _ _ (hR.newTable σ _) (hR.record _ _ rfl rfl)
    · have hrun := body.run_moves hR.refl hR.trans hR.rawset ih (σ.load (gsub slash dot name))
      have hload := hR.trans _ _ _ (hR.load σ _ hm) hrun
      rw [hres]
      cases hbody : body.run (importN files n) _G (σ.load (gsub slash dot name)) with
      | ok a σ' =>
        rw [hbody] at hload
        exact hR.trans _ _ _ (hR.trans _ _ _ hload (hR.record σ' _ rfl rfl)) (hR.record _ _ rfl rfl)
      | error e σ' =>
        rw [hbody] at hload
        exact hR.trans _ _ _ hload (hR.record σ' _ rfl rfl)

private theorem Steps.call_moves (n : Nat) (file : Str) (body : Body D F) (env : Nat) :
    EStateM.Moves R ((setfenv (⟨file, _G, body⟩ : Chunk D F) env).call (importN files n)) := by
  intro σ
  have hrun := body.run_moves hR.refl hR.trans hR.rawset (hR.importN_moves files n) (σ.record (.began file))
  have hbegan := hR.trans _ _ _ (hR.record σ (.began file) rfl rfl) hrun
  show R σ (match body.run (importN files n) _G (σ.record (.began file)) with
    | .ok _ σ' => .ok () (σ'.record (.ended file))
    | .error e σ' => .error e (σ'.record (.raised file)) : EStateM.Result Fault (Loader D F) Unit).state
  cases hbody : body.run (importN files n) _G (σ.record (.began file)) with
  | ok a σ' =>
    rw [hbody] at hbegan
    exact hR.trans _ _ _ hbegan (hR.record σ' _ rfl rfl)
  | error e σ' =>
    rw [hbody] at hbegan
    exact hR.trans _ _ _ hbegan (hR.record σ' _ rfl rfl)

/-- What `load_module` does when it has made the new table. -/
theorem Steps.load_module_new (name : Str) (σ : Loader D F) :
    R (σ.newTable (some _G)) (load_module files name σ).state := by
  by_cases hf : ∃ body, files.lookup (module_to_path name) = some (.code body)
  · obtain ⟨body, hf⟩ := hf
    rw [load_module_code files hf]
    exact EStateM.Moves.bind hR.trans
      (hR.call_moves files (files.keys.card + 1) (module_to_path name) body σ.next)
      (fun _ => EStateM.Moves.pure hR.refl σ.next) (σ.newTable (some _G))
  · obtain ⟨msg, hload⟩ := load_module_failed files (fun body hbody => hf ⟨body, hbody⟩) σ
    rw [hload]
    exact hR.record _ _ rfl rfl

theorem Steps.load_module_moves (name : Str) : EStateM.Moves R (load_module files name) := by
  intro σ
  exact hR.trans _ _ _ (hR.newTable σ _) (hR.load_module_new files name σ)

end

private theorem Extends.steps : Steps (Extends (D := D) (F := F)) where
  refl := Extends.refl
  trans := Extends.trans
  rawset σ := Extends.rawset σ _G
  record σ e _ _ := Extends.record σ e
  newTable := Extends.newTable
  load _ _ h := Extends.load h

theorem importN_extends (n : Nat) (name : Str) : EStateM.Moves Extends (importN files n name) :=
  Extends.steps.importN_moves files n name

/-- Of the tables of `σ` only the globals have been written, no hook was called and nothing replaced. -/
structure Confined (σ σ' : Loader D F) : Prop extends Extends σ σ' where
  fields : ∀ t, t ≠ _G → t < σ.next → σ'.fields t = σ.fields t
  replaced : σ'.log.filter Event.replaces = σ.log.filter Event.replaces

theorem Confined.record (σ : Loader D F) (e : Event F) (he : e.replaces = false) : Confined σ (σ.record e) where
  toExtends := Extends.record σ e
  fields _ _ _ := rfl
  replaced := by rw [Loader.log_record, List.filter_append, List.filter_singleton, he, cond_false, List.append_nil]

private theorem Confined.newTable (σ : Loader D F) (i : Option Nat) : Confined σ (σ.newTable i) where
  toExtends := Extends.newTable σ i
  fields _ _ ht := Function.update_of_ne ht.ne ..
  replaced := rfl

theorem Confined.trans (σ₁ σ₂ σ₃ : Loader D F) (h : Confined σ₁ σ₂) (h' : Confined σ₂ σ₃) : Confined σ₁ σ₃ where
  toExtends := h.toExtends.trans _ _ _ h'.toExtends
  fields t ht hlt := (h'.fields t ht (hlt.trans_le h.next)).trans (h.fields t ht hlt)
  replaced := h'.replaced.trans h.replaced

theorem Confined.steps : Steps (Confined (D := D) (F := F)) where
  refl σ := ⟨Extends.refl σ, fun _ _ _ => rfl, rfl⟩
  trans := Confined.trans
  rawset σ k v := ⟨Extends.rawset σ _G k v, fun _ ht _ => Function.update_of_ne ht .., rfl⟩
  record σ e he _ := Confined.record σ e he
  newTable := Confined.newTable
  load σ key h := by
    have hbegan := Confined.record ((σ.newTable (some _G)).register key σ.next
      ⟨σ.allocated, Nat.lt_succ_self _, σ.index_newTable_self _⟩) (.began (module_to_path key)) rfl
    exact ⟨Extends.load h, fun t ht hlt => (Confined.newTable σ (some _G)).fields t ht hlt, hbegan.replaced⟩

/-- A table that is there before keeps its fields, unless it is that of the globals. -/
theorem Confined.rawget {σ σ' : Loader D F} (h : Confined σ σ') {t : Nat} (ht : t ≠ _G) (hlt : t < σ.next) (k : Str) :
    σ'.rawget t k = σ.rawget t k := by
  rw [Loader.rawget, h.fields t ht hlt, Loader.rawget]

/-! ### The number of calls -/

/-- The files whose module is not registered. -/
def unloaded (σ : Loader D F) : Finset Str := files.keys.filter fun path => nameOf path ∉ σ.modules

theorem card_unloaded_le (σ : Loader D F) : (unloaded files σ).card ≤ files.keys.card :=
  Finset.card_le_card (Finset.filter_subset _ _)

/-- Loading a module leaves fewer files. -/
theorem card_unloaded_load {σ : Loader D F} {name : Str} (h : σ.modules.lookup (gsub slash dot name) = none)
    {body : Body D F} (hf : files.lookup (module_to_path name) = some (.code body)) :
    (unloaded files (σ.load (gsub slash dot name))).card < (unloaded files σ).card := by
  have hname : nameOf (module_to_path name) = gsub slash dot name := by
    rw [← module_to_path_gsub, nameOf_module_to_path (slash_notMem_gsub name)]
  apply Finset.card_lt_card
  rw [Finset.ssubset_iff_of_subset]
  · refine ⟨module_to_path name, ?_, ?_⟩
    · rw [unloaded, Finset.mem_filter, Finmap.mem_keys, hname, ← Finmap.lookup_eq_none]
      exact ⟨Finmap.mem_of_lookup_eq_some hf, h⟩
    · rw [unloaded, Finset.mem_filter, hname]
      rintro ⟨-, hnot⟩
      exact hnot (Finmap.mem_of_lookup_eq_some (by rw [Loader.lookup_load, if_pos rfl]))
  · intro path hpath
    rw [unloaded, Finset.mem_filter] at hpath ⊢
    refine ⟨hpath.1, fun hmem => hpath.2 ?_⟩
    obtain ⟨m, hm⟩ := Finmap.mem_iff.1 hmem
    exact Finmap.mem_of_lookup_eq_some ((Extends.load h).modules _ m hm)

theorem Extends.card_unloaded {σ σ' : Loader D F} (h : Extends σ σ') :
    (unloaded files σ').card ≤ (unloaded files σ).card := by
  apply Finset.card_le_card
  intro path hpath
  rw [unloaded, Finset.mem_filter] at hpath ⊢
  refine ⟨hpath.1, fun hmem => hpath.2 ?_⟩
  obtain ⟨m, hm⟩ := Finmap.mem_iff.1 hmem
  exact Finmap.mem_of_lookup_eq_some (h.modules _ m hm)

/-- More calls than there are files to load are enough. -/
private theorem importN_avoids (n : Nat) (name : Str) :
    EStateM.Avoids (· = Fault.fuel) (fun σ => (unloaded files σ).card < n) (importN files n name) := by
  induction n generalizing name with
  | zero => exact fun σ hσ => absurd hσ (Nat.not_lt_zero _)
  | succ n ih =>
    intro σ hσ
    refine ⟨((importN_extends files (n + 1) name σ).card_unloaded files).trans_lt hσ, ?_⟩
    intro e σ' herr
    obtain ⟨m, -, hres⟩ | ⟨msg, hres⟩ | ⟨hm, body, hf, hres⟩ := importN_cases files n name σ
    · rw [hres] at herr
      cases herr
    · rw [hres] at herr
      cases herr
      nofun
    · have hlt := card_unloaded_load files hm hf
      have hkeep : EStateM.Avoids (· = Fault.fuel) (fun σ => (unloaded files σ).card < n)
          (body.run (importN files n) _G) := body.run_avoids (fun σ _ _ h => h) ih
      have hrun := hkeep (σ.load (gsub slash dot name)) (by omega)
      rw [hres] at herr
      split at herr
      · cases herr
      · rename_i e' σ'' hbody
        cases herr
        exact hrun.2 _ _ hbody

/-- Every `Import` comes to an end, whatever the bodies import and wherever they raise. -/
theorem Import_ne_fuel (name : Str) (σ σ' : Loader D F) : Import files name σ ≠ .error .fuel σ' := by
  intro h
  exact (importN_avoids files _ name σ (Nat.lt_succ_of_le (card_unloaded_le files σ))).2 _ _ h rfl

end

end LibeventServer.Lua

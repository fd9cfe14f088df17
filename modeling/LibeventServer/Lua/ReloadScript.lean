import LibeventServer.Lua.Imports
import LibeventServer.Lua.Reload

/-!
# Reloading all modules

The second loop of `reload_script` goes over `sys.modules` with `pairs`, and the reloaded files and their hooks may
add to it with `Import`.  `coversAll_iff`: every registered module is reloaded once, the ones of `_pri_modules` first,
and no key is added during the second loop, exactly when no body that the second loop runs comes to an `Import` that
registers a module, and `replace_func` returns in every reload.
-/

namespace LibeventServer.Lua

open EStateM

section

variable {D F : Type} (files : Finmap fun _ : Str => Source D F)

/-! ### Imports that register a module -/

/-- The body, run in this state, comes to an `Import` of a module that is not registered and whose file is code. -/
def Body.Registers : Body D F → Loader D F → Prop
  | .finish, _ => False
  | .raise _, _ => False
  | .assign k v next, σ => next.Registers (σ.rawset _G k v)
  | .read k next, σ => (next (σ.rawget _G k)).Registers σ
  | .Import name next, σ =>
    let key := gsub slash dot name
    match σ.modules.lookup key, files.lookup (module_to_path name) with
    | some m, _ => (next (.ok m)).Registers (σ.record (.imported name m))
    | none, some (.code _) => True
    | none, some (.broken _) => (next (.error (literal "import error: can not load the module:" ++ key))).Registers
        ((σ.newTable (some _G)).record (.failed key))
    | none, none => (next (.error (literal "import error: can not open file: " ++ module_to_path name))).Registers
        ((σ.newTable (some _G)).record (.failed key))

private theorem Body.registers_import {name : Str} {next : Except Str Nat → Body D F} {σ : Loader D F}
    (hm : σ.modules.lookup (gsub slash dot name) = none) {body : Body D F}
    (hf : files.lookup (module_to_path name) = some (.code body)) : (Body.Import name next).Registers files σ := by
  rw [Body.Registers]
  simp only [hm, hf]

/-- The names that `reload_module` was called for. -/
def reloads (log : List (Event F)) : List Str := log.filterMap Event.reloaded

/-- Registered modules stay registered. -/
def Stays (σ σ' : Loader D F) : Prop := ∀ name m, σ.modules.lookup name = some m → σ'.modules.lookup name = some m

private theorem Stays.trans {σ₁ σ₂ σ₃ : Loader D F} (h : Stays σ₁ σ₂) (h' : Stays σ₂ σ₃) : Stays σ₁ σ₃ :=
  fun name m hm => h' name m (h name m hm)

private theorem Stays.of_modules_eq {σ σ' : Loader D F} (h : σ'.modules = σ.modules) : Stays σ σ' := by
  intro name m hm
  rw [h, hm]

private theorem Stays.mem {σ σ' : Loader D F} (h : Stays σ σ') {name : Str} (hname : name ∈ σ.modules) :
    name ∈ σ'.modules := by
  obtain ⟨m, hm⟩ := Finmap.mem_iff.1 hname
  exact Finmap.mem_of_lookup_eq_some (h name m hm)

/-- No module was registered on the way if none was in either part. -/
private theorem Stays.modules_eq_iff {σ₁ σ₂ σ₃ : Loader D F} (h : Stays σ₁ σ₂) (h' : Stays σ₂ σ₃) :
    σ₃.modules = σ₁.modules ↔ σ₂.modules = σ₁.modules ∧ σ₃.modules = σ₂.modules := by
  refine ⟨fun heq => ?_, fun heq => heq.2.trans heq.1⟩
  have hsame : σ₂.modules = σ₁.modules := by
    refine Finmap.ext_lookup fun name => ?_
    cases hm : σ₁.modules.lookup name with
    | some m => exact h name m hm
    | none =>
      cases hm₂ : σ₂.modules.lookup name with
      | none => rfl
      | some m =>
        have hm₃ := h' name m hm₂
        rw [heq, hm] at hm₃
        cases hm₃
  exact ⟨hsame, heq.trans hsame.symm⟩

private theorem Stays.modules_eq {σ₁ σ₂ σ₃ : Loader D F} (h : Stays σ₁ σ₂) (h' : Stays σ₂ σ₃) {p q : Prop}
    (hp : σ₂.modules = σ₁.modules ↔ ¬ p) (hq : σ₃.modules = σ₂.modules ↔ ¬ q) :
    σ₃.modules = σ₁.modules ↔ ¬ (p ∨ q) := by
  rw [h.modules_eq_iff h', hp, hq, not_or]

/-- Registered modules stay registered, and `reload_module` was not called. -/
structure Retains (σ σ' : Loader D F) : Prop where
  modules : Stays σ σ'
  reloads : reloads σ'.log = reloads σ.log

private theorem Retains.refl (σ : Loader D F) : Retains σ σ := ⟨fun _ _ h => h, rfl⟩

private theorem Retains.trans (σ₁ σ₂ σ₃ : Loader D F) (h : Retains σ₁ σ₂) (h' : Retains σ₂ σ₃) : Retains σ₁ σ₃ where
  modules := h.modules.trans h'.modules
  reloads := h'.reloads.trans h.reloads

private theorem reloads_append (log : List (Event F)) (e : Event F) :
    Lua.reloads (log ++ [e]) = Lua.reloads log ++ e.reloaded.toList := by
  rw [Lua.reloads, Lua.reloads, List.filterMap_append]
  cases he : e.reloaded <;> simp [he]

private theorem Retains.record (σ : Loader D F) {e : Event F} (he : e.reloaded = none) : Retains σ (σ.record e) where
  modules _ _ h := h
  reloads := by rw [Loader.log_record, reloads_append, he, Option.toList_none, List.append_nil]

private theorem Retains.steps : Steps (Retains (D := D) (F := F)) where
  refl := Retains.refl
  trans := Retains.trans
  rawset _ _ _ := ⟨fun _ _ h => h, rfl⟩
  record σ _ _ he := Retains.record σ he
  newTable _ _ := ⟨fun _ _ h => h, rfl⟩
  load _ _ h := ⟨(Extends.load h).modules, (Retains.record _ rfl).reloads⟩

private theorem run_retains (body : Body D F) : Moves Retains (body.run (Import files) _G) :=
  body.run_moves Retains.refl Retains.trans Retains.steps.rawset (Retains.steps.importN_moves files _)

/-- An `Import` that loads a module registers it. -/
private theorem Import_retains_load {name : Str} {σ : Loader D F} (hm : σ.modules.lookup (gsub slash dot name) = none)
    {body : Body D F} (hf : files.lookup (module_to_path name) = some (.code body)) :
    Retains (σ.load (gsub slash dot name)) (Import files name σ).state := by
  have hrun := body.run_moves Retains.refl Retains.trans Retains.steps.rawset
    (Retains.steps.importN_moves files files.keys.card) (σ.load (gsub slash dot name))
  have himport := importN_load files files.keys.card hm hf
  rw [Import, himport]
  cases hbody : body.run (importN files files.keys.card) _G (σ.load (gsub slash dot name)) with
  | ok a σ' =>
    rw [hbody] at hrun
    exact (hrun.trans _ _ _ (Retains.record σ' rfl)).trans _ _ _ (Retains.record _ rfl)
  | error e σ' =>
    rw [hbody] at hrun
    exact hrun.trans _ _ _ (Retains.record σ' rfl)

/-- A body leaves the modules as they are unless it registers one. -/
private theorem run_modules_iff (body : Body D F) (σ : Loader D F) :
    (body.run (Import files) _G σ).state.modules = σ.modules ↔ ¬ body.Registers files σ := by
  induction body generalizing σ with
  | finish => exact iff_of_true rfl id
  | raise msg => exact iff_of_true rfl id
  | assign k v next ih => exact ih (σ.rawset _G k v)
  | read k next ih =>
    have hget : gettable _G k σ = .ok (σ.rawget _G k) σ := by
      rw [gettable_eq, Loader.get_global]
    rw [Body.run, bind_ok hget]
    exact ih _ σ
  | Import name next ih =>
    rw [Body.run, Body.Registers]
    cases hm : σ.modules.lookup (gsub slash dot name) with
    | some m =>
      have himport : Import files name σ = _ := importN_registered files files.keys.card hm
      rw [bind_ok (pcall_ok himport)]
      exact ih _ _
    | none =>
      cases hf : files.lookup (module_to_path name) with
      | none =>
        have himport : Import files name σ = _ := importN_missing files files.keys.card hm hf
        rw [bind_ok (pcall_error himport)]
        exact ih _ _
      | some source =>
        cases source with
        | broken msg =>
          have himport : Import files name σ = _ := importN_broken files files.keys.card hm hf
          rw [bind_ok (pcall_error himport)]
          exact ih _ _
        | code body =>
          -- a module that is loaded is registered before its body runs, whatever the body does
          refine iff_of_false (fun heq => ?_) fun hnot => hnot trivial
          have hload := Import_retains_load files hm hf
          obtain ⟨r, himport⟩ := pcall_returns (Import_ne_fuel files name σ)
          rw [bind_ok himport] at heq
          have hrest := hload.trans _ _ _ (run_retains files (next r) _)
          have hkey := hrest.modules (gsub slash dot name) σ.next (by rw [Loader.lookup_load, if_pos rfl])
          rw [heq, hm] at hkey
          cases hkey

private theorem run_ne_fuel (body : Body D F) (σ σ' : Loader D F) :
    body.run (Import files) _G σ ≠ .error .fuel σ' := by
  intro h
  have himport : ∀ name, Avoids (· = Fault.fuel) (fun _ => True) (Import files name) :=
    fun name τ _ => ⟨trivial, fun e τ' he heq => Import_ne_fuel files name τ τ' (heq ▸ he)⟩
  exact (body.run_avoids (fun _ _ _ _ => trivial) himport σ trivial).2 _ _ h rfl

/-! ### What a reload may register -/

/-- Loading the file registers a module. -/
def LoadRegisters (name : Str) (σ : Loader D F) : Prop :=
  ∃ body, files.lookup (module_to_path name) = some (.code body) ∧
    body.Registers files ((σ.newTable (some _G)).record (.began (module_to_path name)))

/-- The hook registers a module. -/
def HookRegisters (code : F → Body D F) (m : Nat) (k : Str) (σ : Loader D F) : Prop :=
  ∃ f, σ.rawget m k = .func f ∧ (code f).Registers files (σ.record (.hook k f))

private theorem load_module_retains (name : Str) : Moves Retains (load_module files name) :=
  Retains.steps.load_module_moves files name

/-- A file that is code: its chunk is called. -/
private theorem load_module_run {name : Str} {body : Body D F}
    (hf : files.lookup (module_to_path name) = some (.code body)) (σ : Loader D F) : load_module files name σ =
      match body.run (Import files) _G ((σ.newTable (some _G)).record (.began (module_to_path name))) with
      | .ok _ σ' => .ok σ.next (σ'.record (.ended (module_to_path name)))
      | .error e σ' => .error e (σ'.record (.raised (module_to_path name))) := by
  rw [load_module_code files hf]
  have hcall : (setfenv (⟨module_to_path name, _G, body⟩ : Chunk D F) σ.next).call (Import files)
      (σ.newTable (some _G)) =
        match body.run (Import files) _G ((σ.newTable (some _G)).record (.began (module_to_path name))) with
        | .ok _ σ' => .ok () (σ'.record (.ended (module_to_path name)))
        | .error e σ' => .error e (σ'.record (.raised (module_to_path name))) := rfl
  split
  · rename_i a σ' hrun
    rw [hrun] at hcall
    exact bind_ok hcall
  · rename_i e σ' hrun
    rw [hrun] at hcall
    exact bind_error hcall

private theorem load_module_ne_fuel (name : Str) (σ σ' : Loader D F) :
    load_module files name σ ≠ .error .fuel σ' := by
  intro h
  by_cases hf : ∃ body, files.lookup (module_to_path name) = some (.code body)
  · obtain ⟨body, hf⟩ := hf
    rw [load_module_run files hf] at h
    split at h
    · cases h
    · rename_i e τ hrun
      cases h
      exact run_ne_fuel files body _ _ hrun
  · obtain ⟨msg, hload⟩ := load_module_failed files (fun body hbody => hf ⟨body, hbody⟩) σ
    rw [hload] at h
    cases h

private theorem load_module_modules_iff (name : Str) (σ : Loader D F) :
    (load_module files name σ).state.modules = σ.modules ↔ ¬ LoadRegisters files name σ := by
  by_cases hf : ∃ body, files.lookup (module_to_path name) = some (.code body)
  · obtain ⟨body, hf⟩ := hf
    have hrun := run_modules_iff files body ((σ.newTable (some _G)).record (.began (module_to_path name)))
    have hstate : (load_module files name σ).state.modules =
        (body.run (Import files) _G
          ((σ.newTable (some _G)).record (.began (module_to_path name)))).state.modules := by
      rw [load_module_run files hf]
      split
      · rename_i a τ hbody
        rw [hbody]
        rfl
      · rename_i e τ hbody
        rw [hbody]
        rfl
    rw [hstate]
    refine hrun.trans (not_congr ⟨fun h => ⟨body, hf, h⟩, ?_⟩)
    rintro ⟨body', hf', h⟩
    rw [hf] at hf'
    cases hf'
    exact h
  · obtain ⟨msg, hload⟩ := load_module_failed files (fun body hbody => hf ⟨body, hbody⟩) σ
    rw [hload]
    exact iff_of_true rfl fun h => hf ⟨_, h.choose_spec.1⟩

/-- What is under the key of a table itself is read. -/
private theorem gettable_of_rawget {σ : Loader D F} {t : Nat} {k : Str} (h : (σ.rawget t k).isNil = false) :
    gettable t k σ = .ok (σ.rawget t k) σ := by
  have hget : σ.get t k = some (σ.rawget t k) := by
    show σ.luaV_gettable k (1999 + 1) t = _
    rw [Loader.luaV_gettable, h, if_neg Bool.false_ne_true]
  rw [gettable_eq, hget]

/-- A hook returns, and what it registers its body registers. -/
private theorem hook_spec (code : F → Body D F) (m : Nat) (k : Str) (σ : Loader D F) :
    ∃ σ', hook files code m k σ = .ok () σ' ∧ Retains σ σ' ∧
      (σ'.modules = σ.modules ↔ ¬ HookRegisters files code m k σ) := by
  rw [hook_eq]
  by_cases hf : ∃ f, σ.rawget m k = .func f
  · obtain ⟨f, hf⟩ := hf
    have hget := gettable_of_rawget (σ := σ) (t := m) (k := k) (by rw [hf]; rfl)
    have hcall : callHook files code k (.func f) σ = (code f).run (Import files) _G (σ.record (.hook k f)) := rfl
    obtain ⟨r, hpcall⟩ := pcall_returns (f := callHook files code k (.func f)) (σ := σ) fun σ' => by
      rw [hcall]
      exact run_ne_fuel files (code f) _ σ'
    rw [hcall] at hpcall
    rw [hf] at hget ⊢
    refine ⟨_, (bind_ok hget).trans (bind_ok hpcall), ?_, ?_⟩
    · exact (Retains.record σ rfl).trans _ _ _ (run_retains files (code f) _)
    · refine (run_modules_iff files (code f) (σ.record (.hook k f))).trans (not_congr ⟨fun h => ⟨f, hf, h⟩, ?_⟩)
      rintro ⟨f', hf', h⟩
      rw [hf] at hf'
      cases hf'
      exact h
  · -- there is none, or the call of something else is caught
    have hnone : ¬ HookRegisters files code m k σ := fun h => hf ⟨_, h.choose_spec.1⟩
    refine ⟨σ, ?_, Retains.refl σ, iff_of_true rfl hnone⟩
    have hcall : ∀ v : Datum D F, σ.rawget m k = v → v.isNil = false → (∀ f, v ≠ .func f) →
        (gettable m k >>= fun f => pcall (callHook files code k f) >>= fun _ => pure ()) σ = .ok () σ := by
      intro v hv hnil hfunc
      have hget := gettable_of_rawget (σ := σ) (t := m) (k := k) (by rw [hv, hnil])
      rw [bind_ok hget, hv]
      cases v with
      | func f => exact absurd rfl (hfunc f)
      | nil => cases hnil
      | _ => rfl
    cases hv : σ.rawget m k with
    | nil => rfl
    | func f => exact absurd ⟨f, hv⟩ hf
    | bool b =>
      cases b with
      | false => rfl
      | true => exact hcall _ hv rfl (by intro f hf; cases hf)
    | plain d => exact hcall _ hv rfl (by intro f hf; cases hf)
    | table r => exact hcall _ hv rfl (by intro f hf; cases hf)

/-! ### What `replace_func` leaves alone -/

variable (order : Enumeration Str)

section

variable {R : Loader D F → Loader D F → Prop} (hrefl : ∀ σ, R σ σ) (htrans : ∀ σ₁ σ₂ σ₃, R σ₁ σ₂ → R σ₂ σ₃ → R σ₁ σ₃)
  (hset : ∀ σ t k v, R σ (σ.rawset t k v))

include hrefl

private theorem gettable_moves (t : Nat) (k : Str) : Moves R (gettable t k) := by
  intro σ
  rw [gettable_eq]
  cases σ.get t k <;> exact hrefl σ

include htrans

private theorem pairs_moves {f : Str → Load D F Unit} (h : ∀ k, Moves R (f k)) (t : Nat) :
    Moves R (pairs order t f) :=
  Moves.bind htrans (fun σ => hrefl σ) fun _ => Moves.forM hrefl htrans h _

include hset

private theorem replaceValue_moves {replace_func : Nat → Nat → Load D F Unit}
    (h : ∀ old new, Moves R (replace_func old new))
    (old new : Nat) (k : Str) (newv oldv : Datum D F) : Moves R (replaceValue replace_func old new k newv oldv) := by
  unfold replaceValue
  split
  · exact Moves.pure hrefl ()
  · split
    · refine Moves.bind htrans (Moves.throw hrefl _) fun env => Moves.bind htrans (fun σ => hset σ _ _ _) fun _ => ?_
      exact Moves.bind htrans (gettable_moves hrefl _ _) fun _ σ => hset σ _ _ _
    · split
      · exact h _ _
      · exact Moves.pure hrefl ()
    · exact Moves.pure hrefl ()

/-- What every assignment to a table and every change of an `__index` keeps, `replace_func` keeps. -/
private theorem replace_func_moves (hindex : ∀ σ t, R σ (σ.setIndex t)) (n old new : Nat) :
    Moves R (replace_func order n old new) := by
  induction n generalizing old new with
  | zero => exact Moves.throw hrefl _
  | succ n ih =>
    have hget : Moves R (get : Load D F (Loader D F)) := hrefl
    refine Moves.bind htrans ?_ fun _ => Moves.bind htrans ?_ fun _ => ?_
    · refine pairs_moves order hrefl htrans (fun k => Moves.bind htrans hget fun σ => ?_) new
      dsimp only
      split
      · exact fun σ => hset σ _ _ _
      · exact Moves.pure hrefl ()
    · refine pairs_moves order hrefl htrans (fun k => ?_) old
      refine Moves.bind htrans (gettable_moves hrefl _ _) fun newv => Moves.bind htrans (gettable_moves hrefl _ _) ?_
      exact fun oldv => replaceValue_moves hrefl htrans hset ih old new k newv oldv
    · refine pairs_moves order hrefl htrans (fun k => Moves.bind htrans hget fun σ => ?_) new
      dsimp only
      split
      · split
        · exact Moves.bind htrans (fun σ => hindex σ _) fun _ =>
            Moves.bind htrans (fun σ => hset σ _ _ _) fun _ σ => hset σ _ _ _
        · exact fun σ => hset σ _ _ _
      · exact Moves.pure hrefl ()

end

private theorem replace_func_modules (n old new : Nat) : Moves (fun σ σ' : Loader D F => σ'.modules = σ.modules)
    (replace_func order n old new) :=
  replace_func_moves (R := fun σ σ' => σ'.modules = σ.modules) order (fun _ => rfl) (fun _ _ _ h h' => h'.trans h)
    (fun _ _ _ _ => rfl) (fun _ _ => rfl) n old new

private theorem replace_func_retains (n old new : Nat) :
    Moves (Retains (D := D) (F := F)) (replace_func order n old new) :=
  replace_func_moves order Retains.refl Retains.trans (fun _ _ _ _ => ⟨fun _ _ h => h, rfl⟩)
    (fun _ _ => ⟨fun _ _ h => h, rfl⟩) n old new

/-! ### Reloading one module -/

omit files in
private theorem record_bind {α : Type} (e : Event F) (f : Unit → Load D F α) (σ : Loader D F) :
    (record e >>= f) σ = f () (σ.record e) := rfl

variable (code : F → Body D F) (depth : Nat)

/-- In the reload of the registered module `old`, `replace_func` returns. -/
def ReplaceReturns (name : Str) (old : Nat) (σ : Loader D F) : Prop :=
  ∀ new σ₁ σ₂, load_module files name σ = .ok new σ₁ →
    hook files code old (literal "_before_reload") (σ₁.record (.reload name true)) = .ok () σ₂ →
      ∃ σ₃, replace_func order depth old new (σ₂.record (.replaced old)) = .ok () σ₃

/-- The reload of the registered module `old` registers a module: its file does, or one of its hooks. -/
def ReloadRegisters (name : Str) (old : Nat) (σ : Loader D F) : Prop :=
  LoadRegisters files name σ ∨ ∃ new σ₁, load_module files name σ = .ok new σ₁ ∧
    (HookRegisters files code old (literal "_before_reload") (σ₁.record (.reload name true)) ∨
      ∃ σ₂ σ₃, hook files code old (literal "_before_reload") (σ₁.record (.reload name true)) = .ok () σ₂ ∧
        replace_func order depth old new (σ₂.record (.replaced old)) = .ok () σ₃ ∧
        HookRegisters files code old (literal "_after_reload") σ₃)

section

variable {files order code depth} {name : Str} {old : Nat} {σ : Loader D F}

private theorem reloadRegisters_of_error {e : Fault} {σ₁ : Loader D F}
    (hload : load_module files name σ = .error e σ₁) :
    ReloadRegisters files order code depth name old σ ↔ LoadRegisters files name σ := by
  refine ⟨fun hreg => hreg.resolve_right ?_, Or.inl⟩
  rintro ⟨new, σ₂, hok, -⟩
  rw [hload] at hok
  cases hok

private theorem reloadRegisters_of_ok {new : Nat} {σ₁ σ₂ σ₃ : Loader D F}
    (hload : load_module files name σ = .ok new σ₁)
    (hbefore : hook files code old (literal "_before_reload") (σ₁.record (.reload name true)) = .ok () σ₂)
    (hreplace : replace_func order depth old new (σ₂.record (.replaced old)) = .ok () σ₃) :
    ReloadRegisters files order code depth name old σ ↔ LoadRegisters files name σ ∨
      HookRegisters files code old (literal "_before_reload") (σ₁.record (.reload name true)) ∨
      HookRegisters files code old (literal "_after_reload") σ₃ := by
  refine or_congr_right ⟨?_, fun hreg =>
    ⟨new, σ₁, hload, hreg.imp_right fun hreg => ⟨σ₂, σ₃, hbefore, hreplace, hreg⟩⟩⟩
  rintro ⟨new', σ₁', hload', hreg⟩
  rw [hload] at hload'
  cases hload'
  refine hreg.imp_right ?_
  rintro ⟨σ₂', σ₃', hbefore', hreplace', hreg⟩
  rw [hbefore] at hbefore'
  cases hbefore'
  rw [hreplace] at hreplace'
  cases hreplace'
  exact hreg

end

variable {name : Str} {old : Nat} {σ : Loader D F} (h : σ.modules.lookup name = some old)

include h

/-- The file cannot be loaded, or `replace_func` raises, or the reload is done. -/
private theorem reload_module_cases :
    (∃ msg σ₁, load_module files name σ = .error (.error msg) σ₁ ∧
      reload_module order files code depth name σ = .ok false (σ₁.record (.reload name false))) ∨
    ∃ new σ₁ σ₂, load_module files name σ = .ok new σ₁ ∧
      hook files code old (literal "_before_reload") (σ₁.record (.reload name true)) = .ok () σ₂ ∧
      ((∃ e σ₃, replace_func order depth old new (σ₂.record (.replaced old)) = .error e σ₃ ∧
          reload_module order files code depth name σ = .error e σ₃) ∨
        ∃ σ₃ σ', replace_func order depth old new (σ₂.record (.replaced old)) = .ok () σ₃ ∧
          hook files code old (literal "_after_reload") σ₃ = .ok () σ' ∧
          reload_module order files code depth name σ = .ok true σ') := by
  cases hload : load_module files name σ with
  | error e σ₁ =>
    cases e with
    | error msg => exact Or.inl ⟨msg, σ₁, rfl, reload_module_of_error order code depth hload⟩
    | fuel => exact absurd hload (load_module_ne_fuel files name σ σ₁)
  | ok new σ₁ =>
    obtain ⟨σ₂, hbefore, -, -⟩ := hook_spec files code old (literal "_before_reload") (σ₁.record (.reload name true))
    refine Or.inr ⟨new, σ₁, σ₂, rfl, hbefore, ?_⟩
    rw [reload_module_of_ok order code depth hload, h]
    cases hreplace : replace_func order depth old new (σ₂.record (.replaced old)) with
    | error e σ₃ =>
      have hmodule : replaceModule order files code depth name (some old) new (σ₁.record (.reload name true)) =
          .error e σ₃ := (bind_ok hbefore).trans ((record_bind _ _ _).trans (bind_error hreplace))
      exact Or.inl ⟨e, σ₃, rfl, (record_bind _ _ _).trans (bind_error hmodule)⟩
    | ok a σ₃ =>
      obtain ⟨σ', hafter, -, -⟩ := hook_spec files code old (literal "_after_reload") σ₃
      have hmodule : replaceModule order files code depth name (some old) new (σ₁.record (.reload name true)) =
          .ok () σ' := (bind_ok hbefore).trans ((record_bind _ _ _).trans ((bind_ok hreplace).trans hafter))
      exact Or.inr ⟨σ₃, σ', rfl, hafter, (record_bind _ _ _).trans (bind_ok hmodule)⟩

private theorem reload_module_returns_iff :
    (∃ b σ', reload_module order files code depth name σ = .ok b σ') ↔
      ReplaceReturns files order code depth name old σ := by
  obtain ⟨msg, σ₁, hload, hres⟩ | ⟨new, σ₁, σ₂, hload, hbefore, hcases⟩ :=
    reload_module_cases files order code depth h
  · refine iff_of_true ⟨_, _, hres⟩ fun new σ₁ σ₂ hok => ?_
    rw [hload] at hok
    cases hok
  · obtain ⟨e, σ₃, hreplace, hres⟩ | ⟨σ₃, σ', hreplace, -, hres⟩ := hcases
    · refine iff_of_false ?_ fun hall => ?_
      · rintro ⟨b, σ', hok⟩
        rw [hres] at hok
        cases hok
      · obtain ⟨σ₄, hok⟩ := hall new σ₁ σ₂ hload hbefore
        rw [hreplace] at hok
        cases hok
    · refine iff_of_true ⟨_, _, hres⟩ fun new' σ₁' σ₂' hok hbefore' => ?_
      rw [hload] at hok
      cases hok
      rw [hbefore] at hbefore'
      cases hbefore'
      exact ⟨σ₃, hreplace⟩

/-- What a reload that returns has done. -/
structure Reloaded (name : Str) (registers : Prop) (σ σ' : Loader D F) : Prop where
  modules : Stays σ σ'
  reloads : Lua.reloads σ'.log = Lua.reloads σ.log ++ [name]
  unchanged : σ'.modules = σ.modules ↔ ¬ registers

private theorem reload_module_reloaded {b : Bool} {σ' : Loader D F}
    (hrun : reload_module order files code depth name σ = .ok b σ') :
    Reloaded name (ReloadRegisters files order code depth name old σ) σ σ' := by
  have hloaded := load_module_retains files name σ
  have hunchanged := load_module_modules_iff files name σ
  obtain ⟨msg, σ₁, hload, hres⟩ | ⟨new, σ₁, σ₂, hload, hbefore, hcases⟩ :=
    reload_module_cases files order code depth h
  · rw [hres] at hrun
    cases hrun
    rw [hload] at hloaded hunchanged
    refine ⟨hloaded.modules, ?_, hunchanged.trans (not_congr (reloadRegisters_of_error hload).symm)⟩
    rw [Loader.log_record, reloads_append, ← hloaded.reloads]
    rfl
  · obtain ⟨e, σ₃, -, hres⟩ | ⟨σ₃, σ₄, hreplace, hafter, hres⟩ := hcases
    · rw [hres] at hrun
      cases hrun
    · rw [hres] at hrun
      cases hrun
      rw [hload] at hloaded hunchanged
      -- the two hooks, and `replace_func` between them
      obtain ⟨τ, hbefore', hretains₂, hiff₂⟩ :=
        hook_spec files code old (literal "_before_reload") (σ₁.record (.reload name true))
      rw [hbefore] at hbefore'
      cases hbefore'
      obtain ⟨τ, hafter', hretains₄, hiff₄⟩ := hook_spec files code old (literal "_after_reload") σ₃
      rw [hafter] at hafter'
      cases hafter'
      have hmodules₃ := replace_func_modules order depth old new (σ₂.record (.replaced old))
      have hretains₃ := replace_func_retains order depth old new (σ₂.record (.replaced old))
      rw [hreplace] at hmodules₃ hretains₃
      have hretains : Retains (σ₁.record (.reload name true)) σ' :=
        (hretains₂.trans _ _ _ ((Retains.record σ₂ rfl).trans _ _ _ hretains₃)).trans _ _ _ hretains₄
      refine ⟨hloaded.modules.trans hretains.modules, ?_, ?_⟩
      · rw [hretains.reloads, Loader.log_record, reloads_append, ← hloaded.reloads]
        rfl
      · have hafter₄ : σ'.modules = σ₂.modules ↔
            ¬ HookRegisters files code old (literal "_after_reload") σ₃ := by
          rw [← hiff₄]
          exact Eq.congr_right hmodules₃.symm
        have hhooks :=
          hretains₂.modules.modules_eq ((Stays.of_modules_eq hmodules₃).trans hretains₄.modules) hiff₂ hafter₄
        refine (hloaded.modules.modules_eq hretains.modules hunchanged hhooks).trans (not_congr ?_)
        exact (reloadRegisters_of_ok hload hbefore hreplace).symm

end

/-! ### The two loops -/

section

variable {D F : Type} (order : Enumeration Str) (files : Finmap fun _ : Str => Source D F) (code : F → Body D F)
  (depth : Nat)

/-- In every reload of the first loop `replace_func` returns. -/
def PriReturns : List Str → Loader D F → Prop
  | [], _ => True
  | name :: names, σ =>
    match σ.modules.lookup name with
    | some old => ReplaceReturns files order code depth name old σ ∧
        ∀ b σ', reload_module order files code depth name σ = .ok b σ' → PriReturns names σ'
    | none => PriReturns names σ

/-- In this turn of the second loop `replace_func` returns, and no module is registered. -/
def Steady (reloaded_modules : List Str) (name : Str) (σ : Loader D F) : Prop :=
  name ∉ reloaded_modules → ∀ old, σ.modules.lookup name = some old →
    ReplaceReturns files order code depth name old σ ∧ ¬ ReloadRegisters files order code depth name old σ

variable {files order code depth} {σ σ' : Loader D F}

private theorem reloadPri_some {name : Str} {names reloaded_modules : List Str} {old : Nat}
    (h : σ.modules.lookup name = some old) : reloadPri order files code depth (name :: names) reloaded_modules σ =
      (reload_module order files code depth name >>= fun _ =>
        reloadPri order files code depth names (reloaded_modules ++ [name])) σ := by
  show (match σ.modules.lookup name with
    | some _ => reload_module order files code depth name >>= fun _ =>
        reloadPri order files code depth names (reloaded_modules ++ [name])
    | none => reloadPri order files code depth names reloaded_modules : Load D F (List Str)) σ = _
  rw [h]

private theorem reloadPri_none {name : Str} {names reloaded_modules : List Str} (h : σ.modules.lookup name = none) :
    reloadPri order files code depth (name :: names) reloaded_modules σ =
      reloadPri order files code depth names reloaded_modules σ := by
  show (match σ.modules.lookup name with
    | some _ => reload_module order files code depth name >>= fun _ =>
        reloadPri order files code depth names (reloaded_modules ++ [name])
    | none => reloadPri order files code depth names reloaded_modules : Load D F (List Str)) σ = _
  rw [h]

private theorem reloadPri_returns_iff {names : List Str} (reloaded_modules : List Str) :
    (∃ r σ', reloadPri order files code depth names reloaded_modules σ = .ok r σ') ↔
      PriReturns order files code depth names σ := by
  induction names generalizing reloaded_modules σ with
  | nil => exact iff_of_true ⟨_, _, rfl⟩ trivial
  | cons name names ih =>
    rw [PriReturns]
    cases hm : σ.modules.lookup name with
    | none =>
      simp only [reloadPri_none hm]
      exact ih _
    | some old =>
      simp only [reloadPri_some hm, ← reload_module_returns_iff files order code depth hm]
      constructor
      · rintro ⟨r, σ', hrun⟩
        obtain ⟨b, σ₁, hreload, hrest⟩ := of_bind_ok hrun
        refine ⟨⟨b, σ₁, hreload⟩, fun b' σ₂ hreload' => ?_⟩
        rw [hreload] at hreload'
        cases hreload'
        exact (ih _).1 ⟨r, σ', hrest⟩
      · rintro ⟨⟨b, σ₁, hreload⟩, hrest⟩
        obtain ⟨r, σ', hrun⟩ := (ih _).2 (hrest b σ₁ hreload)
        exact ⟨r, σ', (bind_ok hreload).trans hrun⟩

/-- The first loop has called `reload_module` for the registered modules among the names, in order. -/
private theorem reloadPri_spec {names reloaded_modules r : List Str}
    (hrun : reloadPri order files code depth names reloaded_modules σ = .ok r σ') :
    ∃ calls, r = reloaded_modules ++ calls ∧ reloads σ'.log = reloads σ.log ++ calls ∧ Stays σ σ' ∧
      calls.Sublist names ∧
      ∀ p : Str → Bool, (∀ name, p name → name ∈ σ.modules) → calls.filter p = names.filter p := by
  induction names generalizing reloaded_modules σ with
  | nil =>
    cases hrun
    exact ⟨[], (List.append_nil _).symm, (List.append_nil _).symm, fun _ _ h => h, List.Sublist.refl _,
      fun _ _ => rfl⟩
  | cons name names ih =>
    cases hm : σ.modules.lookup name with
    | none =>
      rw [reloadPri_none hm] at hrun
      obtain ⟨calls, hr, hlog, hstays, hsub, hfilter⟩ := ih hrun
      refine ⟨calls, hr, hlog, hstays, hsub.cons name, fun p hp => ?_⟩
      have hnot : ¬ p name := fun hpname => Finmap.lookup_eq_none.1 hm (hp name hpname)
      rw [hfilter p hp, List.filter_cons_of_neg hnot]
    | some old =>
      rw [reloadPri_some hm] at hrun
      obtain ⟨b, σ₁, hreload, hrest⟩ := of_bind_ok hrun
      have hreloaded := reload_module_reloaded files order code depth hm hreload
      obtain ⟨calls, hr, hlog, hstays, hsub, hfilter⟩ := ih hrest
      refine ⟨name :: calls, ?_, ?_, hreloaded.modules.trans hstays, hsub.cons_cons name, fun p hp => ?_⟩
      · rw [hr, List.append_assoc]
        rfl
      · rw [hlog, hreloaded.reloads, List.append_assoc]
        rfl
      · rw [List.filter_cons, List.filter_cons, hfilter p fun name hpname => hreloaded.modules.mem (hp name hpname)]

private theorem reloadOther_skip {reloaded_modules : List Str} {name : Str} (h : name ∈ reloaded_modules) :
    reloadOther order files code depth reloaded_modules name σ = .ok () σ := by
  rw [reloadOther, if_neg (not_not.2 h)]
  rfl

private theorem reloadOther_eq {reloaded_modules : List Str} {name : Str} (h : name ∉ reloaded_modules) :
    reloadOther order files code depth reloaded_modules name =
      reload_module order files code depth name >>= fun _ => (pure () : Load D F Unit) := by
  rw [reloadOther, if_pos h]

/-- A turn that returns has called `reload_module`, unless the module had been reloaded. -/
private theorem reloadOther_spec {reloaded_modules : List Str} {name : Str} (hname : name ∈ σ.modules)
    (hrun : reloadOther order files code depth reloaded_modules name σ = .ok () σ') :
    Stays σ σ' ∧ reloads σ'.log = reloads σ.log ++ [name].filter (· ∉ reloaded_modules) := by
  by_cases hmem : name ∈ reloaded_modules
  · rw [reloadOther_skip hmem] at hrun
    cases hrun
    refine ⟨fun _ _ h => h, ?_⟩
    simp [hmem]
  · obtain ⟨old, hm⟩ := Finmap.mem_iff.1 hname
    rw [reloadOther_eq hmem] at hrun
    obtain ⟨b, σ₁, hreload, hpure⟩ := of_bind_ok hrun
    cases hpure
    have hreloaded := reload_module_reloaded files order code depth hm hreload
    refine ⟨hreloaded.modules, ?_⟩
    rw [hreloaded.reloads]
    simp [hmem]

private theorem reloadOther_iff {reloaded_modules : List Str} {name : Str} (hname : name ∈ σ.modules) :
    (∃ σ', reloadOther order files code depth reloaded_modules name σ = .ok () σ' ∧ σ'.modules = σ.modules) ↔
      Steady order files code depth reloaded_modules name σ := by
  by_cases hmem : name ∈ reloaded_modules
  · exact iff_of_true ⟨σ, reloadOther_skip hmem, rfl⟩ fun hnot => absurd hmem hnot
  · obtain ⟨old, hm⟩ := Finmap.mem_iff.1 hname
    rw [reloadOther_eq hmem]
    constructor
    · rintro ⟨σ', hrun, hsame⟩ - old' hm'
      rw [hm] at hm'
      cases hm'
      obtain ⟨b, σ₁, hreload, hpure⟩ := of_bind_ok hrun
      cases hpure
      have hreloaded := reload_module_reloaded files order code depth hm hreload
      exact ⟨(reload_module_returns_iff files order code depth hm).1 ⟨b, _, hreload⟩, hreloaded.unchanged.1 hsame⟩
    · intro hsteady
      obtain ⟨hreturns, hquiet⟩ := hsteady hmem old hm
      obtain ⟨b, σ', hreload⟩ := (reload_module_returns_iff files order code depth hm).2 hreturns
      exact ⟨σ', bind_ok hreload, (reload_module_reloaded files order code depth hm hreload).unchanged.2 hquiet⟩

private theorem forM_reloadOther_spec {reloaded_modules l : List Str} (hl : ∀ name ∈ l, name ∈ σ.modules)
    (hrun : l.forM (reloadOther order files code depth reloaded_modules) σ = .ok () σ') :
    Stays σ σ' ∧ reloads σ'.log = reloads σ.log ++ l.filter (· ∉ reloaded_modules) := by
  induction l generalizing σ with
  | nil =>
    cases hrun
    exact ⟨fun _ _ h => h, (List.append_nil _).symm⟩
  | cons name l ih =>
    obtain ⟨_, σ₁, hturn, hrest⟩ := of_bind_ok hrun
    obtain ⟨hstays, hlog⟩ := reloadOther_spec (hl name List.mem_cons_self) hturn
    obtain ⟨hstays', hlog'⟩ := ih (fun name' hmem => hstays.mem (hl name' (List.mem_cons_of_mem _ hmem))) hrest
    refine ⟨hstays.trans hstays', ?_⟩
    have hcons : (name :: l).filter (· ∉ reloaded_modules) =
        [name].filter (· ∉ reloaded_modules) ++ l.filter (· ∉ reloaded_modules) := List.filter_append [name] l
    rw [hlog', hlog, List.append_assoc, hcons]

/-- The second loop returns and registers no module exactly when every turn does. -/
private theorem forM_reloadOther_iff {reloaded_modules l : List Str} (hl : ∀ name ∈ l, name ∈ σ.modules) :
    (∃ σ', l.forM (reloadOther order files code depth reloaded_modules) σ = .ok () σ' ∧ σ'.modules = σ.modules) ↔
      Turns (Steady order files code depth reloaded_modules)
      (reloadOther order files code depth reloaded_modules) l σ := by
  induction l generalizing σ with
  | nil => exact iff_of_true ⟨σ, rfl, rfl⟩ fun done a rest _ h _ => by simp at h
  | cons name l ih =>
    have hname := hl name List.mem_cons_self
    have hrest : ∀ {σ₁}, Stays σ σ₁ → ∀ name' ∈ l, name' ∈ σ₁.modules :=
      fun hstays name' hmem => hstays.mem (hl name' (List.mem_cons_of_mem _ hmem))
    rw [turns_cons, ← reloadOther_iff hname]
    constructor
    · rintro ⟨σ', hrun, hsame⟩
      obtain ⟨_, σ₁, hturn, hrun⟩ := of_bind_ok hrun
      obtain ⟨hstays, -⟩ := reloadOther_spec hname hturn
      obtain ⟨hstays', -⟩ := forM_reloadOther_spec (hrest hstays) hrun
      obtain ⟨hsame₁, hsame₂⟩ := (hstays.modules_eq_iff hstays').1 hsame
      refine ⟨⟨σ₁, hturn, hsame₁⟩, fun σ₂ hturn' => ?_⟩
      rw [hturn] at hturn'
      cases hturn'
      exact (ih (hrest hstays)).1 ⟨σ', hrun, hsame₂⟩
    · rintro ⟨⟨σ₁, hturn, hsame₁⟩, hturns⟩
      obtain ⟨hstays, -⟩ := reloadOther_spec hname hturn
      obtain ⟨σ', hrun, hsame₂⟩ := (ih (hrest hstays)).2 (hturns σ₁ hturn)
      exact ⟨σ', (bind_ok hturn).trans hrun, hsame₂.trans hsame₁⟩

/-! ### All modules -/

variable (order files code)

/-- `reload_script` returns, and the second loop adds no key to `sys.modules`.  Every module registered at the start
is reloaded once, those of `_pri_modules` first and in the order of the list. -/
def CoversAll (σ : Loader D F) : Prop :=
  ∃ depth reloaded_modules σ₁ σ' calls, reload_script order files code depth σ = .ok () σ' ∧
    (reloadPri order files code depth _pri_modules [] σ = .ok reloaded_modules σ₁ ∧
      σ'.modules.keys = σ₁.modules.keys) ∧
    reloads σ'.log = reloads σ.log ++ calls ∧ (∀ name ∈ σ.modules, calls.count name = 1) ∧
    ∃ others, calls.filter (· ∈ σ.modules) = _pri_modules.filter (· ∈ σ.modules) ++ others ∧
      ∀ name ∈ others, name ∉ _pri_modules

/-- In every reload `replace_func` returns, and no turn of the second loop registers a module. -/
def ReloadsSteadily (σ : Loader D F) : Prop :=
  ∃ depth, PriReturns order files code depth _pri_modules σ ∧
    ∀ reloaded_modules σ₁, reloadPri order files code depth _pri_modules [] σ = .ok reloaded_modules σ₁ →
      Turns (Steady order files code depth reloaded_modules) (reloadOther order files code depth reloaded_modules)
        (order.order σ₁.modules.keys) σ₁

variable {order files code}

private theorem Stays.modules_eq_of_keys (h : Stays σ σ') (hkeys : σ'.modules.keys = σ.modules.keys) :
    σ'.modules = σ.modules := by
  refine Finmap.ext_lookup fun name => ?_
  cases hm : σ.modules.lookup name with
  | some m => exact h name m hm
  | none => rw [Finmap.lookup_eq_none, ← Finmap.mem_keys, hkeys, Finmap.mem_keys, ← Finmap.lookup_eq_none, hm]

private theorem reloadOthers_eq (reloaded_modules : List Str) (σ : Loader D F) :
    reloadOthers order files code depth reloaded_modules σ =
      (order.order σ.modules.keys).forM (reloadOther order files code depth reloaded_modules) σ := rfl

private theorem registered_of_order {name : Str} (h : name ∈ order.order σ.modules.keys) : name ∈ σ.modules :=
  Finmap.mem_keys.1 ((order.mem_order _ _).1 h)

private theorem steadily_of_coversAll (h : CoversAll order files code σ) : ReloadsSteadily order files code σ := by
  obtain ⟨depth, reloaded_modules, σ₁, σ', calls, hrun, ⟨hpri, hkeys⟩, -, -, -⟩ := h
  refine ⟨depth, (reloadPri_returns_iff _).1 ⟨_, _, hpri⟩, fun reloaded_modules' σ₁' hpri' => ?_⟩
  rw [hpri] at hpri'
  cases hpri'
  obtain ⟨r, σ₂, hpri', hothers⟩ := of_bind_ok hrun
  rw [hpri] at hpri'
  cases hpri'
  rw [reloadOthers_eq] at hothers
  obtain ⟨hstays, -⟩ := forM_reloadOther_spec (fun _ => registered_of_order) hothers
  exact (forM_reloadOther_iff fun _ => registered_of_order).1 ⟨σ', hothers, hstays.modules_eq_of_keys hkeys⟩

private theorem nodup_pri_modules : _pri_modules.Nodup := by decide

/-- `reload_script` covers every module exactly when the reloads of the second loop register none. -/
theorem coversAll_iff : CoversAll order files code σ ↔ ReloadsSteadily order files code σ := by
  refine ⟨steadily_of_coversAll, ?_⟩
  rintro ⟨depth, hreturns, hturns⟩
  obtain ⟨reloaded_modules, σ₁, hpri⟩ := (reloadPri_returns_iff []).2 hreturns
  obtain ⟨σ', hothers, hsame⟩ :=
    (forM_reloadOther_iff fun _ => registered_of_order).2 (hturns reloaded_modules σ₁ hpri)
  obtain ⟨calls, hr, hlog, hstays, hsub, hfilter⟩ := reloadPri_spec hpri
  obtain ⟨-, hlog'⟩ := forM_reloadOther_spec (fun _ => registered_of_order) hothers
  rw [List.nil_append] at hr
  subst hr
  have hregistered := hfilter (fun name => decide (name ∈ σ.modules)) fun name h => of_decide_eq_true h
  have hreloaded : ∀ name ∈ σ.modules, name ∈ _pri_modules → name ∈ reloaded_modules := by
    intro name hname hmem
    have hin : name ∈ _pri_modules.filter (· ∈ σ.modules) := List.mem_filter.2 ⟨hmem, decide_eq_true hname⟩
    rw [← hregistered] at hin
    exact (List.mem_filter.1 hin).1
  have hnodup : reloaded_modules.Nodup := nodup_pri_modules.sublist hsub
  have hothersNodup := (order.nodup σ₁.modules.keys).filter fun name => decide (name ∉ reloaded_modules)
  refine ⟨depth, reloaded_modules, σ₁, σ', _, (bind_ok hpri).trans hothers, ⟨hpri, by rw [hsame]⟩,
    by rw [hlog', hlog, List.append_assoc], fun name hname => ?_, ?_⟩
  · have hlisted : name ∈ order.order σ₁.modules.keys :=
      (order.mem_order _ _).2 (Finmap.mem_keys.2 (hstays.mem hname))
    rw [List.count_append, hnodup.count, hothersNodup.count]
    by_cases hmem : name ∈ reloaded_modules
    · simp [hmem]
    · simp [hmem, hlisted]
  · rw [List.filter_append, hregistered]
    refine ⟨_, rfl, fun name hname hmem => ?_⟩
    obtain ⟨hothers, hregistered⟩ := List.mem_filter.1 hname
    have hnot := of_decide_eq_true (List.mem_filter.1 hothers).2
    exact hnot (hreloaded name (of_decide_eq_true hregistered) hmem)

/-- A module that imports another one, once it has been changed. -/
def importingFiles : Finmap fun _ : Str => Source Unit Unit :=
  (Finmap.singleton (module_to_path [97]) (.code (.Import [98] fun _ => .finish))).insert
    (module_to_path [98]) (.code .finish)

/-- The first version of the module, which imports nothing, is registered. -/
def oneRegistered : Loader Unit Unit :=
  (Import (Finmap.singleton (module_to_path [97]) (.code .finish)) [97] default).state

theorem importing_not_covered : ¬ ∃ order, CoversAll order importingFiles (fun _ => .finish) oneRegistered := by
  rintro ⟨order, h⟩
  obtain ⟨depth, -, hturns⟩ := steadily_of_coversAll h
  have hpri : reloadPri order importingFiles (fun _ => .finish) depth _pri_modules [] oneRegistered =
      .ok [] oneRegistered := by
    have hnone : ∀ names : List Str, (∀ name ∈ names, oneRegistered.modules.lookup name = none) →
        reloadPri order importingFiles (fun _ => .finish) depth names [] oneRegistered = .ok [] oneRegistered := by
      intro names hnames
      induction names with
      | nil => rfl
      | cons name names ih =>
        rw [reloadPri_none (hnames name List.mem_cons_self)]
        exact ih fun name' hmem => hnames name' (List.mem_cons_of_mem _ hmem)
    exact hnone _ (by decide)
  have hkeys : order.order oneRegistered.modules.keys = [[97]] := order.order_singleton [97]
  have hturn := hturns [] oneRegistered hpri [] [97] [] oneRegistered hkeys rfl
  have hnew : oneRegistered.modules.lookup (gsub slash dot [98]) = none := rfl
  exact (hturn List.not_mem_nil 1 rfl).2 (Or.inl ⟨_, rfl, Body.registers_import importingFiles hnew rfl⟩)

end

end LibeventServer.Lua

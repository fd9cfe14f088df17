import LibeventServer.Lib.Runs
import LibeventServer.Lua.Loading

/-!
# Sequences of imports

Imports one after the other, the errors of which are caught (`importStep`), from the empty `sys.modules`.

A module is registered before its body runs, and stays registered when its body raises.  So the registered modules are
the loaded ones as long as no body raises (`loaded_iff_no_raise`).  If nothing fails at all, every body runs once, and
the tables are those of the files (`imports_load_once`).
-/

namespace LibeventServer.Lua

/-- The body of the file begins. -/
def Event.begins {F : Type} (file : Str) : Event F → Bool
  | .began f => f == file
  | _ => false

/-- The body of the file is left. -/
def Event.leaves {F : Type} (file : Str) : Event F → Bool
  | .ended f => f == file
  | .raised f => f == file
  | _ => false

section

variable {D F : Type} (files : Finmap fun _ : Str => Source D F)

/-- The state between two imports. -/
structure Tidy (σ : Loader D F) : Prop where
  normal : ∀ name m, σ.modules.lookup name = some m → slash ∉ name
  separate : ∀ name name' m, σ.modules.lookup name = some m → σ.modules.lookup name' = some m → name = name'
  traced : ∀ name m, .imported name m ∈ σ.log → σ.modules.lookup (gsub slash dot name) = some m
  began : ∀ name, slash ∉ name →
    σ.log.countP (Event.begins (module_to_path name)) = if name ∈ σ.modules then 1 else 0

private theorem Tidy.start (σ : Loader D F) : Tidy σ.start where
  normal _ _ h := nomatch h
  separate _ _ _ h := nomatch h
  traced _ _ h := nomatch h
  began _ _ := (if_neg Finmap.notMem_empty).symm

private theorem module_to_path_beq {name name' : Str} (h : slash ∉ name) (h' : slash ∉ name') :
    (module_to_path name == module_to_path name') = true ↔ name' = name := by
  rw [beq_iff_eq, module_to_path_inj h h', eq_comm]

/-- Events other than these leave the state tidy. -/
private theorem Tidy.record {σ : Loader D F} (h : Tidy σ) {e : Event F} (hbegan : ∀ file, e.begins file = false)
    (himported : ∀ name m, e = .imported name m → σ.modules.lookup (gsub slash dot name) = some m) :
    Tidy (σ.record e) where
  normal := h.normal
  separate := h.separate
  traced name m hmem := by
    rcases List.mem_append.1 hmem with hmem | hmem
    · exact h.traced name m hmem
    · exact himported name m (List.mem_singleton.1 hmem).symm
  began name hname := by
    rw [Loader.log_record, List.countP_append, List.countP_singleton, hbegan]
    exact h.began name hname

private theorem Tidy.load {σ : Loader D F} (h : Tidy σ) {key : Str} (hslash : slash ∉ key)
    (hkey : σ.modules.lookup key = none) : Tidy (σ.load key) where
  normal name m hm := by
    rw [Loader.lookup_load] at hm
    split at hm
    · rename_i heq
      rwa [heq]
    · exact h.normal name m hm
  separate name name' m hm hm' := by
    -- the new table is not one of the old ones
    have hold : ∀ n, σ.modules.lookup n = some σ.next → False := by
      intro n hn
      have := (σ.created n _ hn).2.1
      omega
    rw [Loader.lookup_load] at hm hm'
    by_cases hn : name = key <;> by_cases hn' : name' = key
    · rw [hn, hn']
    · rw [if_pos hn, Option.some.injEq] at hm
      rw [if_neg hn', ← hm] at hm'
      exact (hold name' hm').elim
    · rw [if_pos hn', Option.some.injEq] at hm'
      rw [if_neg hn, ← hm'] at hm
      exact (hold name hm).elim
    · rw [if_neg hn] at hm
      rw [if_neg hn'] at hm'
      exact h.separate name name' m hm hm'
  traced name m hmem := by
    rcases List.mem_append.1 hmem with hmem | hmem
    · exact (Extends.load hkey).modules _ m (h.traced name m hmem)
    · cases List.mem_singleton.1 hmem
  began name hname := by
    have hcount : (σ.load key).log.countP (Event.begins (module_to_path name)) =
        σ.log.countP (Event.begins (module_to_path name)) + if name = key then 1 else 0 := by
      show (σ.log ++ [Event.began (module_to_path key)]).countP _ = _
      rw [List.countP_append, List.countP_singleton]
      simp only [Event.begins, module_to_path_beq hslash hname]
    have hmem : name ∈ (σ.load key).modules ↔ name = key ∨ name ∈ σ.modules := Finmap.mem_insert
    have hnot : key ∉ σ.modules := Finmap.lookup_eq_none.1 hkey
    rw [hcount, h.began name hname]
    by_cases hn : name = key
    · subst hn
      simp [hmem, hnot]
    · simp [hmem, hn]

/-- A module that is registered in `σ'` and was not in `σ`. -/
def arrivals (σ σ' : Loader D F) (name : Str) : Nat := if name ∈ σ'.modules ∧ name ∉ σ.modules then 1 else 0

/-- What an import does to the state: the bodies of the modules it registers are left, and no others. -/
structure Grown (σ σ' : Loader D F) : Prop extends Extends σ σ' where
  left : ∀ name, slash ∉ name → σ'.log.countP (Event.leaves (module_to_path name)) =
    σ.log.countP (Event.leaves (module_to_path name)) + arrivals σ σ' name
  tidy : Tidy σ → Tidy σ'

private theorem Extends.mem {σ σ' : Loader D F} (h : Extends σ σ') {name : Str} (hname : name ∈ σ.modules) :
    name ∈ σ'.modules := by
  obtain ⟨m, hm⟩ := Finmap.mem_iff.1 hname
  exact Finmap.mem_of_lookup_eq_some (h.modules name m hm)

private theorem arrivals_trans {σ₁ σ₂ σ₃ : Loader D F} (h : Extends σ₁ σ₂) (h' : Extends σ₂ σ₃) (name : Str) :
    arrivals σ₁ σ₃ name = arrivals σ₁ σ₂ name + arrivals σ₂ σ₃ name := by
  unfold arrivals
  have h₁ : name ∈ σ₁.modules → name ∈ σ₂.modules := h.mem
  have h₂ : name ∈ σ₂.modules → name ∈ σ₃.modules := h'.mem
  by_cases hm₁ : name ∈ σ₁.modules
  · simp [hm₁, h₁ hm₁]
  · by_cases hm₂ : name ∈ σ₂.modules
    · simp [hm₁, hm₂, h₂ hm₂]
    · simp [hm₁, hm₂]

private theorem Grown.of_modules_eq {σ σ' : Loader D F} (h : Extends σ σ') (hm : σ'.modules = σ.modules)
    (hl : ∀ file, σ'.log.countP (Event.leaves file) = σ.log.countP (Event.leaves file))
    (ht : Tidy σ → Tidy σ') : Grown σ σ' where
  toExtends := h
  left name _ := by
    rw [hl, arrivals, hm, if_neg fun hn => hn.2 hn.1]
    rfl
  tidy := ht

private theorem Grown.refl (σ : Loader D F) : Grown σ σ := Grown.of_modules_eq (Extends.refl σ) rfl (fun _ => rfl) id

private theorem Grown.trans (σ₁ σ₂ σ₃ : Loader D F) (h : Grown σ₁ σ₂) (h' : Grown σ₂ σ₃) : Grown σ₁ σ₃ where
  toExtends := h.toExtends.trans _ _ _ h'.toExtends
  left name hname := by
    rw [h'.left name hname, h.left name hname, arrivals_trans h.toExtends h'.toExtends, Nat.add_assoc]
  tidy ht := h'.tidy (h.tidy ht)

private theorem Grown.rawset (σ : Loader D F) (t : Nat) (k : Str) (v : Datum D F) : Grown σ (σ.rawset t k v) :=
  Grown.of_modules_eq (Extends.rawset σ t k v) rfl (fun _ => rfl) fun h => ⟨h.normal, h.separate, h.traced, h.began⟩

/-- A failing `create_module` registers nothing. -/
private theorem Grown.failed (σ : Loader D F) (name : Str) :
    Grown σ ((σ.newTable (some _G)).record (.failed name)) := by
  refine Grown.of_modules_eq ((Extends.newTable σ _).trans _ _ _ (Extends.record _ _)) rfl
    (fun file => ?_) fun h => ?_
  · rw [Loader.log_record, List.countP_append, List.countP_singleton]
    rfl
  · have hnew : Tidy (σ.newTable (some _G)) := ⟨h.normal, h.separate, h.traced, h.began⟩
    exact hnew.record (fun _ => rfl) (fun _ _ h => nomatch h)

private theorem Grown.imported {σ : Loader D F} {name : Str} {m : Nat}
    (h : σ.modules.lookup (gsub slash dot name) = some m) :
    Grown σ (σ.record (.imported name m)) := by
  refine Grown.of_modules_eq (Extends.record σ _) rfl (fun file => ?_) fun ht => ht.record (fun _ => rfl) ?_
  · rw [Loader.log_record, List.countP_append, List.countP_singleton]
    rfl
  · intro name' m' heq
    cases heq
    exact h

/-- A module that is registered and whose body is left. -/
private theorem Grown.loaded {σ σ' : Loader D F} {name : Str} (hkey : σ.modules.lookup (gsub slash dot name) = none)
    (h : Grown (σ.load (gsub slash dot name)) σ') {e : Event F} (hbegan : ∀ file, e.begins file = false)
    (himported : ∀ name m, e ≠ .imported name m) (hleaves : ∀ file, e.leaves file = (module_to_path name == file)) :
    Grown σ (σ'.record e) where
  toExtends := ((Extends.load hkey).trans _ _ _ h.toExtends).trans _ _ _ (Extends.record σ' e)
  left name' hname' := by
    have hslash := slash_notMem_gsub name
    have hload : arrivals σ (σ.load (gsub slash dot name)) name' = if name' = gsub slash dot name then 1 else 0 := by
      have hmem : name' ∈ (σ.load (gsub slash dot name)).modules ↔ name' = gsub slash dot name ∨ name' ∈ σ.modules :=
        Finmap.mem_insert
      have hnot : gsub slash dot name ∉ σ.modules := Finmap.lookup_eq_none.1 hkey
      unfold arrivals
      by_cases hn : name' = gsub slash dot name
      · rw [if_pos ⟨hmem.2 (Or.inl hn), hn ▸ hnot⟩, if_pos hn]
      · simp [hn, hmem]
    have hbefore : (σ.load (gsub slash dot name)).log.countP (Event.leaves (module_to_path name')) =
        σ.log.countP (Event.leaves (module_to_path name')) := by
      show (σ.log ++ [Event.began _]).countP _ = _
      rw [List.countP_append, List.countP_singleton]
      rfl
    have hafter : (σ'.record e).log.countP (Event.leaves (module_to_path name')) =
        σ'.log.countP (Event.leaves (module_to_path name')) + if name' = gsub slash dot name then 1 else 0 := by
      rw [Loader.log_record, List.countP_append, List.countP_singleton, hleaves, ← module_to_path_gsub name]
      simp only [module_to_path_beq hslash hname']
    have hsum : arrivals σ (σ'.record e) name' =
        arrivals σ (σ.load (gsub slash dot name)) name' + arrivals (σ.load (gsub slash dot name)) σ' name' :=
      arrivals_trans (Extends.load hkey) h.toExtends name'
    rw [hafter, h.left name' hname', hbefore, hsum, hload]
    omega
  tidy ht := (h.tidy (ht.load (slash_notMem_gsub name) hkey)).record hbegan fun _ _ heq => absurd heq (himported _ _)

private theorem importN_grown (n : Nat) (name : Str) : EStateM.Moves Grown (importN files n name) := by
  induction n generalizing name with
  | zero => exact EStateM.Moves.throw Grown.refl _
  | succ n ih =>
    intro σ
    obtain ⟨m, hm, hres⟩ | ⟨msg, hres⟩ | ⟨hm, body, -, hres⟩ := importN_cases files n name σ
    · rw [hres]
      exact Grown.imported hm
    · rw [hres]
      exact Grown.failed σ _
    · have hrun := body.run_moves Grown.refl Grown.trans (fun σ => Grown.rawset σ _G) ih
        (σ.load (gsub slash dot name))
      rw [hres]
      cases hbody : body.run (importN files n) _G (σ.load (gsub slash dot name)) with
      | ok a σ' =>
        rw [hbody] at hrun
        have hended := Grown.loaded hm hrun (e := .ended (module_to_path name)) (fun _ => rfl) (fun _ _ => nofun)
          fun _ => rfl
        have hkey : (σ'.record (.ended (module_to_path name))).modules.lookup (gsub slash dot name) = some σ.next :=
          hrun.modules _ _ (by rw [Loader.lookup_load, if_pos rfl])
        exact hended.trans _ _ _ (Grown.imported hkey)
      | error e σ' =>
        rw [hbody] at hrun
        exact Grown.loaded hm hrun (fun _ => rfl) (fun _ _ => nofun) fun _ => rfl

/-- `pcall(Import, name)` -/
def importStep (σ : Loader D F) (name : Str) : Loader D F := (pcall (Import files name) σ).state

private theorem importStep_eq (σ : Loader D F) (name : Str) : importStep files σ name = (Import files name σ).state :=
  EStateM.state_attempt

private theorem importStep_grown (σ : Loader D F) (name : Str) : Grown σ (importStep files σ name) := by
  rw [importStep_eq]
  exact importN_grown files _ name σ

/-- Between two imports the bodies of the registered modules have been left. -/
def Settled (σ : Loader D F) : Prop :=
  ∀ name, slash ∉ name → σ.log.countP (Event.leaves (module_to_path name)) = if name ∈ σ.modules then 1 else 0

private theorem Settled.start (σ : Loader D F) : Settled σ.start := fun _ _ => (if_neg Finmap.notMem_empty).symm

private theorem Settled.grown {σ σ' : Loader D F} (hs : Settled σ) (h : Grown σ σ') : Settled σ' := by
  intro name hname
  have hmem : name ∈ σ.modules → name ∈ σ'.modules := h.toExtends.mem
  rw [h.left name hname, hs name hname, arrivals]
  by_cases hm : name ∈ σ.modules
  · simp [hm, hmem hm]
  · simp [hm]

/-- A body is left once only. -/
private theorem Settled.not_both {σ : Loader D F} (hs : Settled σ) {name : Str} (hname : slash ∉ name)
    (hended : .ended (module_to_path name) ∈ σ.log) (hraised : .raised (module_to_path name) ∈ σ.log) : False := by
  have hcount : σ.log.countP (Event.leaves (module_to_path name)) ≤ 1 := by
    rw [hs name hname]
    split <;> omega
  obtain ⟨l₁, l₂, hl⟩ := List.append_of_mem hended
  have hrest : Event.raised (module_to_path name) ∈ l₁ ++ l₂ := by
    rw [hl] at hraised
    rcases List.mem_append.1 hraised with h | h
    · exact List.mem_append_left _ h
    · rcases List.mem_cons.1 h with h | h
      · cases h
      · exact List.mem_append_right _ h
  have hpos : 0 < (l₁ ++ l₂).countP (Event.leaves (module_to_path name)) :=
    List.countP_pos_iff.2 ⟨_, hrest, beq_self_eq_true _⟩
  have hended' : (Event.ended (module_to_path name) : Event F).leaves (module_to_path name) = true :=
    beq_self_eq_true _
  rw [hl, List.countP_append, List.countP_cons, hended', if_pos rfl] at hcount
  rw [List.countP_append] at hpos
  omega

/-- A registered module's body ran to its end or raised. -/
private theorem Settled.ended_or_raised {σ : Loader D F} (hs : Settled σ) {name : Str} (hname : slash ∉ name)
    (hm : name ∈ σ.modules) : .ended (module_to_path name) ∈ σ.log ∨ .raised (module_to_path name) ∈ σ.log := by
  have hpos : 0 < σ.log.countP (Event.leaves (module_to_path name)) := by
    rw [hs name hname, if_pos hm]
    exact Nat.one_pos
  obtain ⟨e, he, hleaves⟩ := List.countP_pos_iff.1 hpos
  cases e with
  | ended file => exact Or.inl (beq_iff_eq.1 hleaves ▸ he)
  | raised file => exact Or.inr (beq_iff_eq.1 hleaves ▸ he)
  | began file => cases hleaves
  | failed name => cases hleaves
  | imported name m => cases hleaves
  | hook k f => cases hleaves
  | replaced m => cases hleaves
  | reload name st => cases hleaves

/-! ### Registered and loaded -/

/-- Every registered module is one whose body ran to its end. -/
def Loaded (σ : Loader D F) : Prop := ∀ name, name ∈ σ.modules → .ended (module_to_path name) ∈ σ.log

/-- No module body that the import starts raises. -/
def NoRaise (σ : Loader D F) (name : Str) : Prop :=
  ∀ name', .raised (module_to_path name') ∈ (importStep files σ name).log → .raised (module_to_path name') ∈ σ.log

private theorem loaded_importStep {σ : Loader D F} (ht : Tidy σ) (hs : Settled σ) (hl : Loaded σ) (name : Str) :
    Loaded (importStep files σ name) ↔ NoRaise files σ name := by
  have hgrown := importStep_grown files σ name
  have ht' := hgrown.tidy ht
  have hs' := hs.grown hgrown
  constructor
  · intro hl' name' hraised
    rw [← module_to_path_gsub] at hraised
    have hslash := slash_notMem_gsub name'
    have hmem : gsub slash dot name' ∈ (importStep files σ name).modules := by
      by_contra hnot
      have hzero := hs' _ hslash
      rw [if_neg hnot, List.countP_eq_zero] at hzero
      exact hzero _ hraised (beq_self_eq_true _)
    exact (hs'.not_both hslash (hl' _ hmem) hraised).elim
  · intro hno name' hname'
    obtain ⟨m, hm⟩ := Finmap.mem_iff.1 hname'
    have hslash := ht'.normal name' m hm
    by_cases hold : name' ∈ σ.modules
    · exact hgrown.log _ (hl name' hold)
    · rcases hs'.ended_or_raised hslash hname' with hended | hraised
      · exact hended
      · have hzero := hs name' hslash
        rw [if_neg hold, List.countP_eq_zero] at hzero
        exact absurd (beq_self_eq_true _) (hzero _ (hno name' hraised))

/-- Between the imports of a sequence every registered module is a loaded one exactly when none of them starts a body
that raises. -/
theorem loaded_iff_no_raise (σ : Loader D F) (calls : List Str) :
    Runs.Always (importStep files) Loaded σ.start calls ↔
    Runs.Along (importStep files) (NoRaise files) σ.start calls := by
  apply Runs.always_iff_along_of_invariant (I := fun σ => Tidy σ ∧ Settled σ ∧ Loaded σ)
  · rintro σ name ⟨ht, hs, hl⟩
    exact loaded_importStep files ht hs hl name
  · rintro σ name ⟨ht, hs, hl⟩ hno
    have hgrown := importStep_grown files σ name
    exact ⟨hgrown.tidy ht, hs.grown hgrown, (loaded_importStep files ht hs hl name).2 hno⟩
  · exact ⟨Tidy.start σ, Settled.start σ, fun name h => absurd h Finmap.notMem_empty⟩
  · exact fun name h => absurd h Finmap.notMem_empty

/-- A module of which the body assigns a global and raises. -/
def raisingFiles : Finmap fun _ : Str => Source Unit Unit :=
  Finmap.singleton (module_to_path [97]) (.code (.assign [120] (.bool true) (.raise [])))

/-- After its import has raised, the module is registered, and the next import returns it. -/
theorem raising_module_registered :
    ¬ Runs.Always (importStep raisingFiles) Loaded (default : Loader Unit Unit).start [[97]] ∧
      ∃ m σ', Import raisingFiles [97] (importStep raisingFiles (default : Loader Unit Unit).start [97]) = .ok m σ' ∧
        .ended (module_to_path [97]) ∉ σ'.log := by
  constructor
  · rintro ⟨-, hloaded⟩
    have hmem : [97] ∈ (importStep raisingFiles (default : Loader Unit Unit).start [97]).modules := by decide
    have hnot :
      .ended (module_to_path [97]) ∉ (importStep raisingFiles (default : Loader Unit Unit).start [97]).log := by
      decide
    exact hnot (hloaded [97] hmem)
  · refine ⟨1, _, rfl, ?_⟩
    decide

/-! ### Once each -/

/-- A module that could not be loaded, or a body that raised. -/
def Event.fails : Event F → Bool
  | .failed _ => true
  | .raised _ => true
  | _ => false

private theorem importN_result (n : Nat) (name : Str) (σ : Loader D F) :
    (∃ m σ', importN files (n + 1) name σ = .ok m σ' ∧ .imported name m ∈ σ'.log) ∨
      ∃ e σ', importN files (n + 1) name σ = .error e σ' ∧
        (.failed (gsub slash dot name) ∈ σ'.log ∨ .raised (module_to_path name) ∈ σ'.log) := by
  obtain ⟨m, -, hres⟩ | ⟨msg, hres⟩ | ⟨-, body, -, hres⟩ := importN_cases files n name σ
  · exact Or.inl ⟨m, _, hres, List.mem_append_right _ (List.mem_singleton_self _)⟩
  · exact Or.inr ⟨_, _, hres, Or.inl (List.mem_append_right _ (List.mem_singleton_self _))⟩
  · rw [hres]
    split
    · exact Or.inl ⟨σ.next, _, rfl, List.mem_append_right _ (List.mem_singleton_self _)⟩
    · exact Or.inr ⟨_, _, rfl, Or.inr (List.mem_append_right _ (List.mem_singleton_self _))⟩

/-- An import after which nothing has failed has returned a table. -/
private theorem Import_returns {σ : Loader D F} {name : Str}
    (h : ∀ e ∈ (importStep files σ name).log, e.fails = false) :
    ∃ m σ', Import files name σ = .ok m σ' ∧ .imported name m ∈ σ'.log := by
  rw [importStep_eq] at h
  rcases importN_result files files.keys.card name σ with hok | ⟨e, σ', herr, hfail⟩
  · exact hok
  · rw [Import, herr] at h
    rcases hfail with hfail | hfail
    · cases h _ hfail
    · cases h _ hfail

/-- Every import of a sequence returns a table.  The body of each module that is imported runs once, and to its end.
Two imports return the same table exactly when their modules have the same file. -/
structure LoadsOnce (σ : Loader D F) (calls : List Str) : Prop where
  returns : Runs.Along (importStep files)
    (fun σ name => ∃ m σ', Import files name σ = .ok m σ' ∧ .imported name m ∈ σ'.log) σ calls
  once : ∀ name m, .imported name m ∈ (Runs.run (importStep files) σ calls).log →
    (Runs.run (importStep files) σ calls).log.countP (Event.begins (module_to_path name)) = 1 ∧
      .ended (module_to_path name) ∈ (Runs.run (importStep files) σ calls).log
  same : ∀ name name' m m', .imported name m ∈ (Runs.run (importStep files) σ calls).log →
    .imported name' m' ∈ (Runs.run (importStep files) σ calls).log →
      (m = m' ↔ module_to_path name = module_to_path name')

/-- Every import comes to an end.  Imports among which no module is missing and no body raises load each module once.
-/
theorem imports_load_once (σ : Loader D F) (calls : List Str) :
    (∀ name σ₁ σ₂, Import files name σ₁ ≠ .error .fuel σ₂) ∧
      ((∀ e ∈ (Runs.run (importStep files) σ.start calls).log, e.fails = false) → LoadsOnce files σ.start calls) := by
  refine ⟨Import_ne_fuel files, fun h => ?_⟩
  have hgrown : Grown σ.start (Runs.run (importStep files) σ.start calls) :=
    Runs.run_rel Grown.refl Grown.trans (importStep_grown files) σ.start calls
  have ht := hgrown.tidy (Tidy.start σ)
  have hs := (Settled.start σ).grown hgrown
  constructor
  · clear hgrown ht hs
    generalize σ.start = σ at h
    induction calls generalizing σ with
    | nil => trivial
    | cons name calls ih =>
      have hrest : Grown (importStep files σ name) (Runs.run (importStep files) σ (name :: calls)) :=
        Runs.run_rel Grown.refl Grown.trans (importStep_grown files) _ calls
      exact ⟨Import_returns files fun e he => h e (hrest.log e he), ih _ h⟩
  · intro name m himported
    have hlookup := ht.traced name m himported
    have hslash := slash_notMem_gsub name
    have hmem := Finmap.mem_of_lookup_eq_some hlookup
    have hbegan := ht.began _ hslash
    rw [if_pos hmem, module_to_path_gsub] at hbegan
    refine ⟨hbegan, ?_⟩
    -- what began has ended or raised, and nothing raised
    rcases hs.ended_or_raised hslash hmem with hended | hraised
    · rwa [module_to_path_gsub] at hended
    · cases h _ hraised
  · intro name name' m m' himported himported'
    have hlookup := ht.traced name m himported
    have hlookup' := ht.traced name' m' himported'
    rw [← module_to_path_gsub name, ← module_to_path_gsub name',
      module_to_path_inj (slash_notMem_gsub name) (slash_notMem_gsub name')]
    constructor
    · rintro rfl
      exact ht.separate _ _ m hlookup hlookup'
    · intro heq
      rw [heq, hlookup', Option.some.injEq] at hlookup
      exact hlookup.symm

/-- The modules `d.a` and `d.b`, which import each other and themselves. -/
def cyclicFiles : Finmap fun _ : Str => Source Unit Unit :=
  (Finmap.singleton (module_to_path (literal "d.a"))
    (.code (.Import (literal "d/b") fun _ => .Import (literal "d.a") fun _ => .finish))).insert
    (module_to_path (literal "d.b"))
    (.code (.Import (literal "d.a") fun _ => .Import (literal "d.b") fun _ => .finish))

theorem cyclic_imports_load_once : LoadsOnce cyclicFiles (default : Loader Unit Unit).start
    [literal "d/a", literal "d.a", literal "d/b"] :=
  (imports_load_once cyclicFiles default _).2 (by decide)

/-! ### Bodies that raise nothing -/

/-- Whatever the globals are, the body raises nothing and imports only what is among the files. -/
def Body.Quiet : Body D F → Prop
  | .finish => True
  | .raise _ => False
  | .assign _ _ next => next.Quiet
  | .read _ next => ∀ v, (next v).Quiet
  | .Import name next =>
    (∃ body, files.lookup (module_to_path name) = some (.code body)) ∧ ∀ m, (next (.ok m)).Quiet

private theorem Body.run_quiet {P : Loader D F → Prop} {imp : Str → Load D F Nat}
    (hset : ∀ σ k v, P σ → P (σ.rawset _G k v))
    (himp : ∀ name body, files.lookup (module_to_path name) = some (.code body) →
      ∀ σ, P σ → ∃ m σ', imp name σ = .ok m σ' ∧ P σ')
    {body : Body D F} (hbody : body.Quiet files) {σ : Loader D F} (hσ : P σ) :
    ∃ σ', body.run imp _G σ = .ok () σ' ∧ P σ' := by
  induction body generalizing σ with
  | finish => exact ⟨σ, rfl, hσ⟩
  | raise msg => exact hbody.elim
  | assign k v next ih => exact ih hbody (hset σ k v hσ)
  | read k next ih =>
    have hget : gettable _G k σ = .ok (σ.rawget _G k) σ := by
      rw [gettable_eq, Loader.get_global]
    obtain ⟨σ', hrun, hσ'⟩ := ih _ (hbody _) hσ
    exact ⟨σ', (EStateM.bind_ok hget).trans hrun, hσ'⟩
  | Import name next ih =>
    obtain ⟨⟨source, hsource⟩, hnext⟩ := hbody
    obtain ⟨m, σ₁, hm, hσ₁⟩ := himp name source hsource σ hσ
    obtain ⟨σ', hrun, hσ'⟩ := ih _ (hnext m) hσ₁
    exact ⟨σ', (EStateM.bind_ok (pcall_ok hm)).trans hrun, hσ'⟩

private theorem importN_quiet (hfiles : ∀ path body, files.lookup path = some (.code body) → body.Quiet files)
    (n : Nat)
    {name : Str} {body : Body D F} (hname : files.lookup (module_to_path name) = some (.code body)) {σ : Loader D F}
    (hn : (unloaded files σ).card < n) (hσ : ∀ e ∈ σ.log, e.fails = false) :
    ∃ m σ', importN files n name σ = .ok m σ' ∧ ∀ e ∈ σ'.log, e.fails = false := by
  have hrecord : ∀ {σ : Loader D F} {e : Event F}, (∀ e ∈ σ.log, e.fails = false) → e.fails = false →
      ∀ e' ∈ (σ.record e).log, e'.fails = false := by
    intro σ e h he e' hmem
    rcases List.mem_append.1 hmem with hmem | hmem
    · exact h e' hmem
    · rw [List.mem_singleton.1 hmem, he]
  induction n generalizing name body σ with
  | zero => omega
  | succ n ih =>
    cases hm : σ.modules.lookup (gsub slash dot name) with
    | some m => exact ⟨m, _, importN_registered files n hm, hrecord hσ rfl⟩
    | none =>
      have hlt := card_unloaded_load files hm hname
      have hload : ∀ e ∈ (σ.load (gsub slash dot name)).log, e.fails = false := hrecord (σ := _) hσ rfl
      obtain ⟨σ', hrun, -, hσ'⟩ := Body.run_quiet files
        (P := fun σ => (unloaded files σ).card < n ∧ ∀ e ∈ σ.log, e.fails = false) (fun _ _ _ h => h)
        (fun name' body' hbody' σ₁ h₁ => by
          obtain ⟨m, σ₂, hres, hquiet⟩ := ih hbody' h₁.1 h₁.2
          have hext := importN_extends files n name' σ₁
          rw [hres] at hext
          exact ⟨m, σ₂, hres, (hext.card_unloaded files).trans_lt h₁.1, hquiet⟩)
        (hfiles _ _ hname) (σ := σ.load (gsub slash dot name)) ⟨by omega, hload⟩
      refine ⟨σ.next, _, ?_, hrecord (hrecord hσ' (e := .ended (module_to_path name)) rfl)
        (e := .imported name σ.next) rfl⟩
      rw [importN_load files n hm hname, hrun]

/-- In a sequence of imports of quiet modules nothing fails. -/
theorem quiet_imports (hfiles : ∀ path body, files.lookup path = some (.code body) → body.Quiet files)
    (σ : Loader D F)
    (calls : List Str) (hcalls : ∀ name ∈ calls, ∃ body, files.lookup (module_to_path name) = some (.code body)) :
    ∀ e ∈ (Runs.run (importStep files) σ.start calls).log, e.fails = false := by
  have hstart : ∀ e ∈ σ.start.log, e.fails = false := fun e he => nomatch he
  generalize σ.start = σ at hstart
  induction calls generalizing σ with
  | nil => exact hstart
  | cons name calls ih =>
    obtain ⟨body, hbody⟩ := hcalls name List.mem_cons_self
    have hlt : (unloaded files σ).card < files.keys.card + 1 := Nat.lt_succ_of_le (card_unloaded_le files σ)
    obtain ⟨m, σ', hres, hσ'⟩ := importN_quiet files hfiles _ hbody hlt hstart
    have hstep : importStep files σ name = σ' := by
      rw [importStep_eq, Import, hres]
      rfl
    rw [Runs.run_cons, hstep]
    exact ih (fun name' hmem => hcalls name' (List.mem_cons_of_mem _ hmem)) σ' hσ'

end

end LibeventServer.Lua

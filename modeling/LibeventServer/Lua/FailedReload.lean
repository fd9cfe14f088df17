import LibeventServer.Lua.Isolation
import LibeventServer.Lua.Reload
import LibeventServer.Lua.Shared

/-!
# Reloads that fail

When a file cannot be loaded, `reload_module` and `reload_script_old` return `false` and leave everything as the
bodies left it that ran so far.  So nothing has changed exactly when these loaded no module and what they assigned
cannot be seen through a module (`unchanged_iff_harmless`).
-/

namespace LibeventServer.Lua

section

variable {D F : Type} (order : Enumeration Str) (files : Finmap fun _ : Str => Source D F) (code : F → Body D F)
  (depth : Nat)

/-- `_reload_all()` on what chunks share. -/
def performAll (visited : List Str) (new_modules : Finmap fun _ : Str => Nat) :
    Perform D F (Finmap fun _ : Str => Nat) :=
  match visited with
  | [] => pure new_modules
  | name :: visited => do
    let m ← performLoad files name
    performAll visited (new_modules.insert name m)

private theorem _reload_all_simulates (visited : List Str) (new_modules : Finmap fun _ : Str => Nat) :
    EStateM.Simulates Agrees (_reload_all files visited new_modules) (performAll files visited new_modules) := by
  induction visited generalizing new_modules with
  | nil => exact EStateM.Simulates.pure new_modules
  | cons name visited ih => exact (load_module_simulates files name).bind fun m => ih _

private theorem _reload_all_confined (visited : List Str) (new_modules : Finmap fun _ : Str => Nat) :
    EStateM.Moves Confined (_reload_all files visited new_modules) := by
  induction visited generalizing new_modules with
  | nil => exact EStateM.Moves.pure Confined.steps.refl _
  | cons name visited ih =>
    exact EStateM.Moves.bind Confined.steps.trans (Confined.steps.load_module_moves files name) fun _ => ih _

/-! ### What is left when a file cannot be loaded -/

/-- `sys.modules` and what can be seen through every registered module are the same. -/
def Unchanged (σ σ' : Loader D F) : Prop :=
  σ'.modules = σ.modules ∧ ∀ name m, σ.modules.lookup name = some m → ∀ k, σ'.get m k = σ.get m k

/-- No module was loaded, and every global is as it was, or else every registered module has a field of its own of
that name. -/
def Harmless (σ : Loader D F) (c : Shared D F) : Prop :=
  c.modules = σ.modules ∧ ∀ k, c.globals k = σ.rawget _G k ∨
    ∀ name m, σ.modules.lookup name = some m → (σ.rawget m k).isNil = false

/-- What can be seen through a module after files were loaded. -/
private theorem Confined.get_module {σ σ' : Loader D F} (h : Confined σ σ') {name : Str} {m : Nat}
    (hm : σ.modules.lookup name = some m) (k : Str) :
    σ'.get m k = some (if (σ.rawget m k).isNil then σ'.rawget _G k else σ.rawget m k) := by
  obtain ⟨hpos, hlt, -⟩ := σ.created name m hm
  rw [σ'.get_module (h.modules name m hm), h.rawget hpos.ne' hlt]

private theorem Confined.unchanged_iff {σ σ' : Loader D F} {c : Shared D F} (h : Confined σ σ') (hc : Agrees σ' c) :
    Unchanged σ σ' ↔ Harmless σ c := by
  rw [Unchanged, Harmless, hc.modules]
  refine and_congr_right fun _ => ?_
  constructor
  · intro hsame k
    by_cases hall : ∀ name m, σ.modules.lookup name = some m → (σ.rawget m k).isNil = false
    · exact Or.inr hall
    · simp only [not_forall] at hall
      obtain ⟨name, m, hm, hnil⟩ := hall
      have hk := hsame name m hm k
      rw [h.get_module hm, σ.get_module hm, if_pos (by simpa using hnil), if_pos (by simpa using hnil),
        Option.some.injEq, hc.globals] at hk
      exact Or.inl hk
  · intro hk name m hm k
    rw [h.get_module hm, σ.get_module hm, hc.globals]
    rcases hk k with heq | hall
    · rw [heq]
    · rw [hall name m hm]
      rfl

private theorem reload_module_false {name : Str} {σ σ' : Loader D F}
    (h : reload_module order files code depth name σ = .ok false σ') :
    ∃ msg σ₁, load_module files name σ = .error (.error msg) σ₁ ∧ σ' = σ₁.record (.reload name false) := by
  cases hload : load_module files name σ with
  | ok m σ₁ =>
    rw [reload_module_of_ok order code depth hload] at h
    cases EStateM.eq_of_bind_pure h
  | error e σ₁ =>
    cases e with
    | error msg =>
      rw [reload_module_of_error order code depth hload] at h
      cases h
      exact ⟨msg, σ₁, rfl, rfl⟩
    | fuel =>
      rw [reload_module_of_fuel order code depth hload] at h
      cases h

private theorem reload_script_old_false {visited : List Str} {σ σ' : Loader D F}
    (h : reload_script_old order files depth visited σ = .ok false σ') :
    ∃ msg, _reload_all files visited ∅ σ = .error (.error msg) σ' := by
  cases hload : _reload_all files visited ∅ σ with
  | ok m σ₁ =>
    rw [reload_script_old_of_ok order depth hload] at h
    cases EStateM.eq_of_bind_pure h
  | error e σ₁ =>
    cases e with
    | error msg =>
      rw [reload_script_old_of_error order depth hload] at h
      cases h
      exact ⟨msg, rfl⟩
    | fuel =>
      rw [reload_script_old_of_fuel order depth hload] at h
      cases h

/-- A reload that returns `false` has changed nothing exactly when what the files did is harmless. -/
theorem unchanged_iff_harmless (σ σ' : Loader D F) :
    (∀ name, reload_module order files code depth name σ = .ok false σ' →
      (Unchanged σ σ' ↔ Harmless σ (performLoad files name σ.shared).state)) ∧
    ∀ visited, reload_script_old order files depth visited σ = .ok false σ' →
      (Unchanged σ σ' ↔ Harmless σ (performAll files visited ∅ σ.shared).state) := by
  constructor
  · intro name h
    obtain ⟨msg, σ₁, hload, rfl⟩ := reload_module_false order files code depth h
    have hagrees := (load_module_simulates files name σ _ (Agrees.shared σ)).state
    have hconfined := Confined.steps.load_module_moves files name σ
    rw [hload] at hagrees hconfined
    exact (hconfined.trans _ _ _ (Confined.record σ₁ _ rfl)).unchanged_iff (hagrees.record _)
  · intro visited h
    obtain ⟨msg, hall⟩ := reload_script_old_false order files depth h
    have hagrees := (_reload_all_simulates files visited ∅ σ _ (Agrees.shared σ)).state
    have hconfined := _reload_all_confined files visited ∅ σ
    rw [hall] at hagrees hconfined
    exact hconfined.unchanged_iff hagrees

/-- A module that assigns the global `x`, and a version that assigns it and raises. -/
def soundFile : Finmap fun _ : Str => Source Unit Unit :=
  Finmap.singleton (module_to_path [97]) (.code (assigns [([120], .bool true)] .finish))

def failingFile : Finmap fun _ : Str => Source Unit Unit :=
  Finmap.singleton (module_to_path [97]) (.code (assigns [([120], .bool false)] (.raise [])))

/-- Both reloads fail and leave `x` overwritten. -/
theorem failed_reload_overwrites : ∃ σ₁ σ₂ σ₃, Import soundFile [97] default = .ok 1 σ₁ ∧
    (reload_module default failingFile (fun _ => .finish) 1 [97] σ₁ = .ok false σ₂ ∧ ¬ Unchanged σ₁ σ₂) ∧
    reload_script_old default failingFile 1 [[97]] σ₁ = .ok false σ₃ ∧ ¬ Unchanged σ₁ σ₃ := by
  refine ⟨_, _, _, rfl, ⟨rfl, fun h => ?_⟩, rfl, fun h => ?_⟩
  · have hx : some (.bool false : Datum Unit Unit) = some (.bool true) := h.2 [97] 1 rfl [120]
    cases hx
  · have hx : some (.bool false : Datum Unit Unit) = some (.bool true) := h.2 [97] 1 rfl [120]
    cases hx

end

end LibeventServer.Lua

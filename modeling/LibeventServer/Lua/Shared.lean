import LibeventServer.Lua.Loading

/-!
# What chunks share

`setfenv` leaves every chunk the globals, so the tables of the modules make no difference to what a body does.  It
depends on the globals, on the registered modules and on the number of tables (`Shared`).  Here files are loaded on
these alone (`performLoad`); `load_module` does the same on all tables (`load_module_simulates`).
-/

namespace LibeventServer.Lua

/-- The globals, the registered modules and the number of tables, and what the running chunk has assigned itself. -/
structure Shared (D F : Type) where
  globals : Str → Datum D F
  modules : Finmap fun _ : Str => Nat
  next : Nat
  own : List (Str × Datum D F)

section

variable {D F : Type}

namespace Shared

variable (c : Shared D F)

def assign (k : Str) (v : Datum D F) : Shared D F :=
  { c with globals := Function.update c.globals k v, own := c.own ++ [(k, v)] }

def newTable : Shared D F := { c with next := c.next + 1 }

/-- A module is registered, and its chunk starts. -/
def load (key : Str) : Shared D F := { c with modules := c.modules.insert key c.next, next := c.next + 1, own := [] }

end Shared

/-- What the loader shares between chunks. -/
def Loader.shared (σ : Loader D F) : Shared D F := ⟨σ.rawget _G, σ.modules, σ.next, []⟩

abbrev Perform (D F : Type) := EStateM Fault (Shared D F)

/-- The statements of a body. -/
def Body.perform (imp : Str → Perform D F Nat) : Body D F → Perform D F Unit
  | .finish => pure ()
  | .raise msg => throw (.error msg)
  | .assign k v next => do
    modify fun c => c.assign k v
    next.perform imp
  | .read k next => fun c => (next (c.globals k)).perform imp c
  | .Import name next => do
    let r ← EStateM.attempt Fault.caught (imp name)
    (next r).perform imp

variable (files : Finmap fun _ : Str => Source D F)

/-- `Import(name)`, with at most so many calls of it inside each other. -/
def performImport : Nat → Str → Perform D F Nat
  | 0, _ => throw .fuel
  | n + 1, name => fun c =>
    match c.modules.lookup (gsub slash dot name) with
    | some m => .ok m c
    | none =>
      match files.lookup (module_to_path name) with
      | some (.code body) =>
        match body.perform (performImport n) (c.load (gsub slash dot name)) with
        | .ok _ c' => .ok c.next { c' with own := c.own }
        | .error e c' => .error e { c' with own := c.own }
      | some (.broken _) =>
        .error (.error (literal "import error: can not load the module:" ++ gsub slash dot name)) c.newTable
      | none => .error (.error (literal "import error: can not open file: " ++ module_to_path name)) c.newTable

/-- `load_module(name)` -/
def performLoad (name : Str) : Perform D F Nat := do
  let m := (← get).next
  modify fun c => { c.newTable with own := [] }
  match files.lookup (module_to_path name) with
  | some (.code body) =>
    body.perform (performImport files (files.keys.card + 1))
    pure m
  | some (.broken _) => throw (.error (literal "import error: can not load the module:" ++ name))
  | none => throw (.error (literal "import error: can not open file: " ++ module_to_path name))

/-! ### The loader does the same -/

/-- The loader has these globals and modules, and as many tables. -/
structure Agrees (σ : Loader D F) (c : Shared D F) : Prop where
  globals : ∀ k, σ.rawget _G k = c.globals k
  modules : σ.modules = c.modules
  next : σ.next = c.next

theorem Agrees.shared (σ : Loader D F) : Agrees σ σ.shared := ⟨fun _ => rfl, rfl, rfl⟩

variable {σ : Loader D F} {c : Shared D F}

theorem Agrees.record (h : Agrees σ c) (e : Event F) : Agrees (σ.record e) c := ⟨h.globals, h.modules, h.next⟩

private theorem Agrees.own (h : Agrees σ c) (l : List (Str × Datum D F)) : Agrees σ { c with own := l } :=
  ⟨h.globals, h.modules, h.next⟩

private theorem Agrees.assign (h : Agrees σ c) (k : Str) (v : Datum D F) :
    Agrees (σ.rawset _G k v) (c.assign k v) where
  globals k' := by
    rw [σ.rawget_rawset_global, funext h.globals]
    rfl
  modules := h.modules
  next := h.next

private theorem Agrees.newTable (h : Agrees σ c) (i : Option Nat) : Agrees (σ.newTable i) c.newTable where
  globals k := by
    rw [σ.rawget_newTable_of_lt i σ.allocated]
    exact h.globals k
  modules := h.modules
  next := congrArg Nat.succ h.next

private theorem Agrees.load (h : Agrees σ c) (key : Str) : Agrees (σ.load key) (c.load key) where
  globals := (h.newTable (some _G)).globals
  modules := by
    show σ.modules.insert key σ.next = c.modules.insert key c.next
    rw [h.modules, h.next]
  next := congrArg Nat.succ h.next

/-- A body does the same if every `Import` does. -/
private theorem Body.run_simulates {imp : Str → Load D F Nat} {imp' : Str → Perform D F Nat}
    (himp : ∀ name, EStateM.Simulates Agrees (imp name) (imp' name)) (body : Body D F) :
    EStateM.Simulates Agrees (body.run imp _G) (body.perform imp') := by
  induction body with
  | finish => exact EStateM.Simulates.pure ()
  | raise msg => exact EStateM.Simulates.throw _
  | assign k v next ih =>
    have hassign : EStateM.Simulates Agrees (settable _G k v : Load D F Unit) (modify fun c => c.assign k v) :=
      fun σ c h => EStateM.Result.Alike.ok () (h.assign k v)
    exact hassign.bind fun _ => ih
  | read k next ih =>
    intro σ c h
    have hget : gettable _G k σ = .ok (c.globals k) σ := by
      rw [gettable_eq, Loader.get_global, h.globals]
    show ((gettable _G k >>= fun v => (next v).run imp _G) σ).Alike Agrees ((next (c.globals k)).perform imp' c)
    rw [EStateM.bind_ok hget]
    exact ih _ σ c h
  | Import name next ih => exact (himp name).attempt.bind ih

private theorem importN_simulates (n : Nat) (name : Str) :
    EStateM.Simulates Agrees (importN files n name) (performImport files n name) := by
  induction n generalizing name with
  | zero => exact EStateM.Simulates.throw _
  | succ n ih =>
    intro σ c h
    unfold performImport
    rw [← h.modules]
    cases hm : σ.modules.lookup (gsub slash dot name) with
    | some m =>
      rw [importN_registered files n hm]
      exact EStateM.Result.Alike.ok m (h.record _)
    | none =>
      cases hf : files.lookup (module_to_path name) with
      | none =>
        rw [importN_missing files n hm hf]
        exact EStateM.Result.Alike.error _ ((h.newTable _).record _)
      | some source =>
        cases source with
        | broken msg =>
          rw [importN_broken files n hm hf]
          exact EStateM.Result.Alike.error _ ((h.newTable _).record _)
        | code body =>
          have hbody := body.run_simulates ih _ _ (h.load (gsub slash dot name))
          rw [importN_load files n hm hf, h.next]
          dsimp only
          generalize body.run (importN files n) _G (σ.load (gsub slash dot name)) = r at hbody ⊢
          generalize body.perform (performImport files n) (c.load (gsub slash dot name)) = r' at hbody ⊢
          cases hbody with
          | ok a h' => exact EStateM.Result.Alike.ok _ (((h'.record _).record _).own _)
          | error e h' => exact EStateM.Result.Alike.error e ((h'.record _).own _)

/-- A chunk that `loadstring` made, whatever `setfenv` was given. -/
private theorem call_simulates (n : Nat) (file : Str) (body : Body D F) (env : Nat) :
    EStateM.Simulates Agrees ((setfenv (⟨file, _G, body⟩ : Chunk D F) env).call (importN files n))
      (body.perform (performImport files n)) := by
  intro σ c h
  have hbody := body.run_simulates (importN_simulates files n) _ _ (h.record (.began file))
  simp only [setfenv, Chunk.call]
  generalize body.run (importN files n) _G (σ.record (.began file)) = r at hbody ⊢
  generalize body.perform (performImport files n) c = r' at hbody ⊢
  cases hbody with
  | ok a h' => exact EStateM.Result.Alike.ok a (h'.record _)
  | error e h' => exact EStateM.Result.Alike.error e (h'.record _)

theorem load_module_simulates (name : Str) :
    EStateM.Simulates Agrees (load_module files name) (performLoad files name) := by
  intro σ c h
  have hnew : Agrees (σ.newTable (some _G)) { c.newTable with own := [] } := (h.newTable _).own []
  have hcreate := create_module_eq files name σ
  show (load_module files name σ).Alike Agrees ((match files.lookup (module_to_path name) with
    | some (.code body) => body.perform (performImport files (files.keys.card + 1)) >>= fun _ => pure c.next
    | some (.broken _) => throw (.error (literal "import error: can not load the module:" ++ name))
    | none => throw (.error (literal "import error: can not open file: " ++ module_to_path name)) : Perform D F Nat)
    { c.newTable with own := [] })
  cases hf : files.lookup (module_to_path name) with
  | none =>
    rw [hf] at hcreate
    have hload : load_module files name σ = _ := EStateM.bind_error hcreate
    rw [hload]
    exact EStateM.Result.Alike.error _ (hnew.record _)
  | some source =>
    cases source with
    | broken msg =>
      rw [hf] at hcreate
      have hload : load_module files name σ = _ := EStateM.bind_error hcreate
      rw [hload]
      exact EStateM.Result.Alike.error _ (hnew.record _)
    | code body =>
      rw [load_module_code files hf, h.next]
      exact (call_simulates files (files.keys.card + 1) (module_to_path name) body c.next).bind
        (fun _ => EStateM.Simulates.pure c.next) _ _ hnew

end

end LibeventServer.Lua

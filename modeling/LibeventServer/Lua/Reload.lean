import LibeventServer.Lua.Import

/-!
# Reloading modules

`replace_func`, `reload_module`, `reload_script` and `reload_script_old` of `src/base/import.lua`.  `pairs` visits a
table in an order that is not specified (`order`); the modules `reload_script_old` visits are listed.
-/

namespace LibeventServer.Lua

section

variable {D F : Type} (order : Enumeration Str)

/-- `for k in pairs(t)` -/
def pairs (t : Nat) (f : Str → Load D F Unit) : Load D F Unit := do
  (order.order ((← get).fields t).keys).forM f

/-- `getfenv(f)`: there is no such function. -/
def getfenv (_f : Datum D F) : Load D F Nat := error (literal "attempt to call a nil value (global 'getfenv')")

/-- The first loop of `replace_func`: what is only in `new`, but no functions. -/
def replaceData (old new : Nat) : Load D F Unit :=
  pairs order new fun k => do
    let σ ← get
    let v := σ.rawget new k
    if (σ.rawget old k).isNil ∧ v.type ≠ .function then settable old k v

/-- What the second loop does with the two values under a key. -/
def replaceValue (replace_func : Nat → Nat → Load D F Unit) (old new : Nat) (k : Str) (newv oldv : Datum D F) :
    Load D F Unit :=
  if (newv.type = .function ∨ newv.type = .table) ∧ newv.type ≠ oldv.type then pure ()
  else
    match newv, oldv with
    | .func f, _ => do
      let env ← getfenv oldv
      settable new k (setfenv (.func f) env)
      let f ← gettable new k
      settable old k f
    | .table new', .table old' =>
      if k ≠ literal "__index" ∧ k ≠ literal "_super" then replace_func old' new' else pure ()
    | _, _ => pure ()

/-- The second loop: functions, and what is in tables under the same key. -/
def replaceFuncs (replace_func : Nat → Nat → Load D F Unit) (old new : Nat) : Load D F Unit :=
  pairs order old fun k => do
    let newv ← gettable new k
    let oldv ← gettable old k
    replaceValue replace_func old new k newv oldv

/-- The third loop: what is still only in `new`. -/
def replaceNew (old new : Nat) : Load D F Unit :=
  pairs order new fun k => do
    let σ ← get
    let v := σ.rawget new k
    if (σ.rawget old k).isNil then
      if v.type = .function then
        modify fun σ => σ.setIndex old
        settable new k (setfenv v old)
      settable old k v

/-- `replace_func(old, new)`, with at most so many calls of it inside each other. -/
def replace_func : Nat → Nat → Nat → Load D F Unit
  | 0, _, _ => throw .fuel
  | n + 1, old, new => do
    replaceData order old new
    replaceFuncs order (replace_func n) old new
    replaceNew order old new

variable (files : Finmap fun _ : Str => Source D F) (code : F → Body D F) (depth : Nat)

/-- The call of a hook that is there. -/
def callHook (k : Str) (f : Datum D F) : Load D F Unit :=
  match f with
  | .func f => do
    record (.hook k f)
    (code f).run (Import files) _G
  | _ => error (literal "attempt to call a value that is no function")

/-- `if rawget(m, k) then xpcall(m[k], reload_error) end` -/
def hook (m : Nat) (k : Str) : Load D F Unit := do
  match (← get).rawget m k with
  | .nil | .bool false => pure ()
  | _ =>
    let f ← gettable m k
    let _ ← pcall (callHook files code k f)

/-- What `reload_module` does when the file has been loaded. -/
def replaceModule (name : Str) (old_module : Option Nat) (new_module : Nat) : Load D F Unit :=
  match old_module with
  | none => setModule name new_module
  | some old_module => do
    hook files code old_module (literal "_before_reload")
    record (.replaced old_module)
    replace_func order depth old_module new_module
    hook files code old_module (literal "_after_reload")

def reload_module (name : Str) : Load D F Bool := do
  let old_module := (← get).modules.lookup name
  match ← pcall (load_module files name) with
  | .error _ =>
    record (.reload name false)
    pure false
  | .ok new_module =>
    record (.reload name true)
    replaceModule order files code depth name old_module new_module
    pure true

def _pri_modules : List Str :=
  [literal "world.scene", literal "world.layer", literal "world.entity", literal "game_logic.battle",
    literal "world.char"]

/-- The first loop of `reload_script`; the result is `reloaded_modules`. -/
def reloadPri (names reloaded_modules : List Str) : Load D F (List Str) :=
  match names with
  | [] => pure reloaded_modules
  | name :: names => do
    match (← get).modules.lookup name with
    | some _ =>
      let _ ← reload_module order files code depth name
      reloadPri names (reloaded_modules ++ [name])
    | none => reloadPri names reloaded_modules

/-- A turn of the second loop. -/
def reloadOther (reloaded_modules : List Str) (name : Str) : Load D F Unit :=
  if name ∉ reloaded_modules then do
    let _ ← reload_module order files code depth name
  else pure ()

/-- The second loop, over the names that are registered when it begins. -/
def reloadOthers (reloaded_modules : List Str) : Load D F Unit := do
  (order.order (← get).modules.keys).forM (reloadOther order files code depth reloaded_modules)

def reload_script : Load D F Unit := do
  let reloaded_modules ← reloadPri order files code depth _pri_modules []
  reloadOthers order files code depth reloaded_modules

/-- `_reload_all()`, where `pairs(old_modules)` visits these names; `load_module` returns a table or raises.  The
result is `new_modules`. -/
def _reload_all (visited : List Str) (new_modules : Finmap fun _ : Str => Nat) :
    Load D F (Finmap fun _ : Str => Nat) :=
  match visited with
  | [] => pure new_modules
  | name :: visited => do
    let m ← load_module files name
    _reload_all visited (new_modules.insert name m)

/-- The last loop of `reload_script_old`. -/
def replaceAll (new_modules : Finmap fun _ : Str => Nat) : Load D F Unit :=
  (order.order new_modules.keys).forM fun name => do
    match (← get).modules.lookup name, new_modules.lookup name with
    | some old_module, some new_module =>
      record (.replaced old_module)
      replace_func order depth old_module new_module
    | none, some new_module => setModule name new_module
    | _, none => pure ()

/-- `old_modules` is the table `sys.modules` itself, so there is nothing to put back. -/
def reload_script_old (visited : List Str) : Load D F Bool := do
  match ← pcall (_reload_all files visited ∅) with
  | .error _ => pure false
  | .ok new_modules =>
    replaceAll order depth new_modules
    pure true

/-! ### One call -/

theorem hook_eq (m : Nat) (k : Str) (σ : Loader D F) : hook files code m k σ =
    (match σ.rawget m k with
    | .nil | .bool false => pure ()
    | _ => gettable m k >>= fun f => pcall (callHook files code k f) >>= fun _ => pure () : Load D F Unit) σ := rfl

section

variable {files} {name : Str} {msg : Str} {σ σ' : Loader D F}

theorem reload_module_of_ok {new_module : Nat} (h : load_module files name σ = .ok new_module σ') :
    reload_module order files code depth name σ = (record (.reload name true) >>= fun _ =>
      replaceModule order files code depth name (σ.modules.lookup name) new_module >>= fun _ => pure true) σ' := by
  unfold reload_module
  rw [EStateM.get_bind, EStateM.bind_ok (pcall_ok h)]

theorem reload_module_of_error (h : load_module files name σ = .error (.error msg) σ') :
    reload_module order files code depth name σ = .ok false (σ'.record (.reload name false)) := by
  unfold reload_module
  rw [EStateM.get_bind, EStateM.bind_ok (pcall_error h)]
  rfl

theorem reload_module_of_fuel (h : load_module files name σ = .error .fuel σ') :
    reload_module order files code depth name σ = .error .fuel σ' := by
  unfold reload_module
  rw [EStateM.get_bind, EStateM.bind_error (pcall_fuel h)]

variable {visited : List Str}

theorem reload_script_old_of_ok {new_modules : Finmap fun _ : Str => Nat}
    (h : _reload_all files visited ∅ σ = .ok new_modules σ') :
    reload_script_old order files depth visited σ =
      (replaceAll order depth new_modules >>= fun _ => pure true) σ' := by
  unfold reload_script_old
  rw [EStateM.bind_ok (pcall_ok h)]

theorem reload_script_old_of_error (h : _reload_all files visited ∅ σ = .error (.error msg) σ') :
    reload_script_old order files depth visited σ = .ok false σ' := by
  unfold reload_script_old
  rw [EStateM.bind_ok (pcall_error h)]
  rfl

theorem reload_script_old_of_fuel (h : _reload_all files visited ∅ σ = .error .fuel σ') :
    reload_script_old order files depth visited σ = .error .fuel σ' := by
  unfold reload_script_old
  rw [EStateM.bind_error (pcall_fuel h)]

end

end

end LibeventServer.Lua

import LibeventServer.Lib.Table
import LibeventServer.Lua.Chunk

/-!
# The module loader

`src/base/import.lua` and `res_mgr.load_config`.  `cc` is not there: the scripts run on the server.  What is printed
is left out, except that `reload_module` reports how it went.

The calls of `Import` inside bodies are counted down (`importN`); `Import` allows for more of them than there are
files.  `replace_func` counts its own calls.
-/

namespace LibeventServer.Lua

section

variable {D F : Type}

/-! ### Paths -/

/-- `string.gsub` for single characters. -/
def gsub (c d : UInt8) (s : Str) : Str := s.map fun x => if x = c then d else x

def dot : UInt8 := 46
def slash : UInt8 := 47
def script_path : Str := []
def module_suffix : Str := literal ".lua"

def module_to_path (name : Str) : Str := script_path ++ gsub dot slash name ++ module_suffix

/-! ### Chunks -/

/-- `loadstring(code_string, file_name)`: the chunk's own `_ENV` refers to the globals. -/
def loadstring (code_string : Source D F) (file_name : Str) : Option (Chunk D F) :=
  match code_string with
  | .broken _ => none
  | .code body => some ⟨file_name, _G, body⟩

/-- `setfenv(func, env)` binds a local `_ENV`, which nothing refers to, and returns the function. -/
def setfenv {α : Type} (func : α) (_env : Nat) : α := func

def record (e : Event F) : Load D F Unit := modify fun σ => σ.record e

/-- `t[k]` in a program. -/
def gettable (t : Nat) (k : Str) : Load D F (Datum D F) := do
  match (← get).get t k with
  | some v => pure v
  | none => error (literal "'__index' chain too long; possibly a loop")

def settable (t : Nat) (k : Str) (v : Datum D F) : Load D F Unit := modify fun σ => σ.rawset t k v

/-- The statements of a body, with the table its `_ENV` refers to. -/
def Body.run (imp : Str → Load D F Nat) (env : Nat) : Body D F → Load D F Unit
  | .finish => pure ()
  | .raise msg => error msg
  | .assign k v next => do
    settable env k v
    next.run imp env
  | .read k next => do
    let v ← gettable env k
    (next v).run imp env
  | .Import name next => do
    let r ← pcall (imp name)
    (next r).run imp env

/-- `chunk()` -/
def Chunk.call (imp : Str → Load D F Nat) (chunk : Chunk D F) : Load D F Unit := fun σ =>
  match chunk.body.run imp chunk.env (σ.record (.began chunk.name)) with
  | .ok _ σ' => .ok () (σ'.record (.ended chunk.name))
  | .error e σ' => .error e (σ'.record (.raised chunk.name))

/-! ### Import -/

variable (files : Finmap fun _ : Str => Source D F)

def create_module (name : Str) : Load D F (Nat × Chunk D F) := do
  let m := (← get).next
  modify fun σ => σ.newTable (some _G)
  let file_name := module_to_path name
  match files.lookup file_name with
  | none =>
    record (.failed name)
    error (literal "import error: can not open file: " ++ file_name)
  | some code_string =>
    match loadstring code_string file_name with
    | none =>
      record (.failed name)
      error (literal "import error: can not load the module:" ++ name)
    | some chunk => pure (m, chunk)

/-- `sys.modules[name] = m`, where `m` was made by `create_module`. -/
def setModule (name : Str) (m : Nat) : Load D F Unit := fun σ =>
  if hm : _G < m ∧ m < σ.next ∧ σ.index m = some _G then .ok () (σ.register name m hm) else .ok () σ

/-- `Import(name)`, with at most so many calls of it inside each other. -/
def importN : Nat → Str → Load D F Nat
  | 0, _ => throw .fuel
  | n + 1, name => do
    let key := gsub slash dot name
    match (← get).modules.lookup key with
    | some m =>
      record (.imported name m)
      pure m
    | none =>
      let (m, chunk) ← create_module files key
      setModule key m
      (setfenv chunk m).call (importN n)
      record (.imported name m)
      pure m

def Import (name : Str) : Load D F Nat := importN files (files.keys.card + 1) name

def load_module (name : Str) : Load D F Nat := do
  let (m, chunk) ← create_module files name
  (setfenv chunk m).call (Import files)
  pure m

/-- `res_mgr.load_config(path)` -/
def load_config (path : Str) : Load D F (Option Nat) := do
  match files.lookup path with
  | none => pure none
  | some content =>
    match loadstring content path with
    | none => pure none
    | some loader =>
      let result := (← get).next
      modify fun σ => σ.newTable none
      let _ := setfenv loader result
      match ← pcall (loader.call (Import files)) with
      | .ok _ => pure (some result)
      | .error _ => pure none

end

end LibeventServer.Lua

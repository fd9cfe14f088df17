import LibeventServer.Lib.Program
import LibeventServer.Lua.Value
import Mathlib.Data.Finmap

/-!
# Chunks of Lua code and the tables they change

What the module loader works on.  Tables lie under addresses; each has its own fields and, where its metatable has
one, a table under `__index`.  The body of a chunk is what it does when it is called: it reads and assigns globals,
calls `Import`, perhaps under `pcall`, and ends or raises.  A function is known by a name `F`.

The globals are those of the scripts: the loader and the libraries it calls stay what they are.
-/

namespace LibeventServer.Lua

/-- A Lua string. -/
abbrev Str := List UInt8

/-- The table of the globals. -/
def _G : Nat := 0

/-- A value; numbers and strings are of type `D`. -/
inductive Datum (D F : Type) where
  | nil
  | bool (b : Bool)
  | plain (d : D)
  | func (f : F)
  | table (r : Nat)

/-- What `type` tells apart. -/
inductive Kind where
  | nil
  | boolean
  | plain
  | function
  | table
  deriving DecidableEq

/-- `type(v)` -/
def Datum.type {D F : Type} : Datum D F → Kind
  | .nil => .nil
  | .bool _ => .boolean
  | .plain _ => .plain
  | .func _ => .function
  | .table _ => .table

/-- `v == nil` -/
def Datum.isNil {D F : Type} : Datum D F → Bool
  | .nil => true
  | _ => false

/-- A value that is no function and no table, nor `nil`. -/
def Datum.IsData {D F : Type} : Datum D F → Prop
  | .bool _ => True
  | .plain _ => True
  | _ => False

/-- What a body does.  The continuation of `Import` is given the table, or the message of the error. -/
inductive Body (D F : Type) where
  | finish
  | raise (msg : Str)
  | assign (k : Str) (v : Datum D F) (next : Body D F)
  | read (k : Str) (next : Datum D F → Body D F)
  | Import (name : Str) (next : Except Str Nat → Body D F)

/-- What a file holds. -/
inductive Source (D F : Type) where
  | broken (msg : Str)
  | code (body : Body D F)

/-- A compiled chunk: its name and the table its `_ENV` refers to. -/
structure Chunk (D F : Type) where
  name : Str
  env : Nat
  body : Body D F

/-- What happens while files are loaded.  A chunk is called, and ends or raises; `create_module` fails; `Import`
returns a table; a hook is called; `replace_func` is called on a module; `reload_module` prints how it went. -/
inductive Event (F : Type) where
  | began (file : Str)
  | ended (file : Str)
  | raised (file : Str)
  | failed (name : Str)
  | imported (name : Str) (m : Nat)
  | hook (k : Str) (f : F)
  | replaced (m : Nat)
  | reload (name : Str) (st : Bool)
  deriving DecidableEq

/-- The tables, `sys.modules` and what has happened.  A module is a table that was created, and its metatable refers
to the globals; the globals have no metatable. -/
structure Loader (D F : Type) where
  fields : Nat → Finmap fun _ : Str => Datum D F
  index : Nat → Option Nat
  next : Nat
  modules : Finmap fun _ : Str => Nat
  log : List (Event F)
  created : ∀ name m, modules.lookup name = some m → _G < m ∧ m < next ∧ index m = some _G
  globals : index _G = none
  allocated : _G < next

instance {D F : Type} : Inhabited (Loader D F) where
  default :=
    { fields := fun _ => ∅
      index := fun _ => none
      next := 1
      modules := ∅
      log := []
      created := fun _ _ h => nomatch h
      globals := rfl
      allocated := Nat.one_pos }

/-- An error, or more nested calls than were allowed for. -/
inductive Fault where
  | error (msg : Str)
  | fuel

/-- What `pcall` and `xpcall` catch. -/
def Fault.caught : Fault → Option Str
  | error msg => some msg
  | fuel => none

/-- Code that loads files. -/
abbrev Load (D F : Type) := EStateM Fault (Loader D F)

/-- `pcall(f)`, and `xpcall(f, reload_error)`. -/
def pcall {D F α : Type} (f : Load D F α) : Load D F (Except Str α) := EStateM.attempt Fault.caught f

section

variable {D F α : Type} {f : Load D F α} {σ σ' : Loader D F}

theorem pcall_ok {a : α} (h : f σ = .ok a σ') : pcall f σ = .ok (.ok a) σ' := EStateM.attempt_ok h

theorem pcall_error {msg : Str} (h : f σ = .error (.error msg) σ') : pcall f σ = .ok (.error msg) σ' :=
  EStateM.attempt_error h rfl

/-- What does not run out of calls returns under `pcall`. -/
theorem pcall_returns (h : ∀ σ', f σ ≠ .error .fuel σ') : ∃ r, pcall f σ = .ok r (f σ).state := by
  cases hf : f σ with
  | ok a σ' => exact ⟨_, pcall_ok hf⟩
  | error e σ' =>
    cases e with
    | error msg => exact ⟨_, pcall_error hf⟩
    | fuel => exact absurd hf (h σ')

theorem pcall_fuel (h : f σ = .error .fuel σ') : pcall f σ = .error .fuel σ' := EStateM.attempt_uncaught h rfl

end

/-- `error(msg)`, without the position. -/
def error {D F α : Type} (msg : Str) : Load D F α := throw (.error msg)

namespace Loader

variable {D F : Type} (σ : Loader D F)

/-- `rawget(t, k)` -/
def rawget (t : Nat) (k : Str) : Datum D F := ((σ.fields t).lookup k).getD .nil

/-- `luaV_gettable`, with so many steps along `__index`; nothing when it raises. -/
def luaV_gettable (k : Str) : Nat → Nat → Option (Datum D F)
  | 0, _ => none
  | n + 1, t =>
    if (σ.rawget t k).isNil then
      match σ.index t with
      | some t' => luaV_gettable k n t'
      | none => some .nil
    else some (σ.rawget t k)

def MAXTAGLOOP : Nat := 2000

/-- `t[k]` -/
def get (t : Nat) (k : Str) : Option (Datum D F) := σ.luaV_gettable k MAXTAGLOOP t

/-- `rawset(t, k, v)` -/
def rawset (t : Nat) (k : Str) (v : Datum D F) : Loader D F :=
  { σ with fields := Function.update σ.fields t (if v.isNil then (σ.fields t).erase k else (σ.fields t).insert k v) }

/-- `{}`, perhaps with a metatable. -/
def newTable (index : Option Nat) : Loader D F where
  fields := Function.update σ.fields σ.next ∅
  index := Function.update σ.index σ.next index
  next := σ.next + 1
  modules := σ.modules
  log := σ.log
  created name m h := by
    obtain ⟨hpos, hlt, hindex⟩ := σ.created name m h
    refine ⟨hpos, by omega, ?_⟩
    rw [Function.update_of_ne (by omega), hindex]
  globals := by rw [Function.update_of_ne σ.allocated.ne, σ.globals]
  allocated := Nat.lt_succ_of_lt σ.allocated

/-- `getmetatable(t).__index = _G`, if there is a metatable; one without `__index` is not told from none.  The globals
have none. -/
def setIndex (t : Nat) : Loader D F where
  fields := σ.fields
  index := if t = _G ∨ σ.index t = none then σ.index else Function.update σ.index t (some _G)
  next := σ.next
  modules := σ.modules
  log := σ.log
  created name m h := by
    obtain ⟨hpos, hlt, hindex⟩ := σ.created name m h
    refine ⟨hpos, hlt, ?_⟩
    split
    · exact hindex
    · by_cases hm : m = t
      · rw [hm, Function.update_self]
      · rw [Function.update_of_ne hm, hindex]
  globals := by
    split
    · exact σ.globals
    · rename_i h
      rw [Function.update_of_ne fun heq => h (Or.inl heq.symm), σ.globals]
  allocated := σ.allocated

/-- `sys.modules[name] = m`, for a table that `create_module` made. -/
def register (name : Str) (m : Nat) (hm : _G < m ∧ m < σ.next ∧ σ.index m = some _G) : Loader D F where
  fields := σ.fields
  index := σ.index
  next := σ.next
  modules := σ.modules.insert name m
  log := σ.log
  created name' m' h := by
    by_cases hname : name' = name
    · subst hname
      rw [Finmap.lookup_insert, Option.some.injEq] at h
      exact h ▸ hm
    · rw [Finmap.lookup_insert_of_ne _ hname] at h
      exact σ.created name' m' h
  globals := σ.globals
  allocated := σ.allocated

def record (e : Event F) : Loader D F := { σ with log := σ.log ++ [e] }

/-- The tables as they are, before any module is loaded. -/
def start : Loader D F := { σ with modules := ∅, log := [], created := fun _ _ h => nomatch h }

/-! ### What is where after a change -/

@[simp] theorem log_record (e : Event F) : (σ.record e).log = σ.log ++ [e] := rfl
@[simp] theorem rawget_record (e : Event F) (t : Nat) (k : Str) : (σ.record e).rawget t k = σ.rawget t k := rfl

theorem index_newTable_self (i : Option Nat) : (σ.newTable i).index σ.next = i := Function.update_self ..

theorem index_newTable_of_lt (i : Option Nat) {t : Nat} (ht : t < σ.next) : (σ.newTable i).index t = σ.index t :=
  Function.update_of_ne ht.ne ..

theorem rawget_newTable_self (i : Option Nat) (k : Str) : (σ.newTable i).rawget σ.next k = .nil := by
  simp [rawget, newTable]

theorem rawget_newTable_of_lt (i : Option Nat) {t : Nat} (ht : t < σ.next) (k : Str) :
    (σ.newTable i).rawget t k = σ.rawget t k := by
  simp [rawget, newTable, Function.update_of_ne ht.ne]

theorem fields_rawset_self (t : Nat) (k : Str) (v : Datum D F) :
    (σ.rawset t k v).fields t = if v.isNil then (σ.fields t).erase k else (σ.fields t).insert k v :=
  Function.update_self ..

theorem rawget_rawset_self (t : Nat) (k : Str) (v : Datum D F) : (σ.rawset t k v).rawget t k = v := by
  unfold rawget
  rw [fields_rawset_self]
  cases v <;> simp [Datum.isNil]

theorem rawget_rawset_of_key_ne (t : Nat) {k k' : Str} (h : k' ≠ k) (v : Datum D F) :
    (σ.rawset t k v).rawget t k' = σ.rawget t k' := by
  unfold rawget
  rw [fields_rawset_self]
  split
  · rw [Finmap.lookup_erase_ne h]
  · rw [Finmap.lookup_insert_of_ne _ h]

theorem rawget_rawset_of_table_ne {t t' : Nat} (h : t' ≠ t) (k k' : Str) (v : Datum D F) :
    (σ.rawset t k v).rawget t' k' = σ.rawget t' k' := by
  simp [rawget, rawset, Function.update_of_ne h]

theorem rawget_rawset_global (k : Str) (v : Datum D F) :
    (σ.rawset _G k v).rawget _G = Function.update (σ.rawget _G) k v := by
  funext k'
  by_cases hk : k' = k
  · rw [hk, rawget_rawset_self, Function.update_self]
  · rw [σ.rawget_rawset_of_key_ne _G hk, Function.update_of_ne hk]

private theorem luaV_gettable_of_index_none {t : Nat} (h : σ.index t = none) (k : Str) (n : Nat) :
    σ.luaV_gettable k (n + 1) t = some (σ.rawget t k) := by
  rw [luaV_gettable, h]
  cases σ.rawget t k <;> rfl

/-- Without a metatable a field is the table's own. -/
theorem get_of_index_none {t : Nat} (h : σ.index t = none) (k : Str) : σ.get t k = some (σ.rawget t k) :=
  σ.luaV_gettable_of_index_none h k 1999

/-- A global. -/
theorem get_global (k : Str) : σ.get _G k = some (σ.rawget _G k) := σ.get_of_index_none σ.globals k

/-- Where the metatable refers to the globals, a field is the table's own or else a global. -/
theorem get_of_index {t : Nat} (h : σ.index t = some _G) (k : Str) :
    σ.get t k = some (if (σ.rawget t k).isNil then σ.rawget _G k else σ.rawget t k) := by
  have hstep : σ.get t k = if (σ.rawget t k).isNil then σ.luaV_gettable k 1999 _G else some (σ.rawget t k) := by
    show σ.luaV_gettable k (1999 + 1) t = _
    rw [luaV_gettable, h]
  rw [hstep, luaV_gettable_of_index_none σ σ.globals k 1998]
  split <;> rfl

theorem get_module {name : Str} {m : Nat} (h : σ.modules.lookup name = some m) (k : Str) :
    σ.get m k = some (if (σ.rawget m k).isNil then σ.rawget _G k else σ.rawget m k) :=
  σ.get_of_index (σ.created name m h).2.2 k

end Loader

end LibeventServer.Lua

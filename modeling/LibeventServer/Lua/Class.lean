import LibeventServer.Lib.Runs
import LibeventServer.Lib.Table
import LibeventServer.Lua.Chunk

/-!
# Classes

`src/base/lua_class.lua`, on tables under addresses.  A class is a table whose metatable is
`{ __call = create_object }`; the metatable of an object is its class.  `pairs` visits a table in an order that is not
specified (`order`).

The operations are those of the scripts: classes are derived and assigned fields, objects are created and assigned
fields.  Nothing assigns `_name`, `__index` and `_super` of a class but `lua_class`.
-/

namespace LibeventServer.Lua

/-- Everything but `nil` and `false` is true in a condition. -/
def Datum.truthy {D F : Type} : Datum D F → Bool
  | .nil => false
  | .bool b => b
  | _ => true

namespace Classes

/-- The metatable of an object is its class; a class has its own, with `create_object` under `__call`. -/
inductive Metatable where
  | type_obj (r : Nat)
  | type_metatable (type_obj : Nat)
  deriving DecidableEq

/-- The tables, with their metatables. -/
structure Tables (D F : Type) where
  fields : Nat → Finmap fun _ : Str => Datum D F
  metatable : Nat → Option Metatable
  next : Nat

instance {D F : Type} : Inhabited (Tables D F) := ⟨⟨fun _ => ∅, fun _ => none, 0⟩⟩

/-- A call: what is called, and the arguments. -/
structure Call (D F : Type) where
  callee : Datum D F
  args : List (Datum D F)

namespace Tables

variable {D F : Type} (σ : Tables D F)

/-- `rawget(t, k)` -/
def rawget (t : Nat) (k : Str) : Datum D F := ((σ.fields t).lookup k).getD .nil

/-- `rawset(t, k, v)` -/
def rawset (t : Nat) (k : Str) (v : Datum D F) : Tables D F :=
  { σ with fields := Function.update σ.fields t (if v.isNil then (σ.fields t).erase k else (σ.fields t).insert k v) }

/-- `{}` -/
def newTable : Tables D F where
  fields := Function.update σ.fields σ.next ∅
  metatable := Function.update σ.metatable σ.next none
  next := σ.next + 1

/-- `setmetatable(t, m)` -/
def setmetatable (t : Nat) (m : Metatable) : Tables D F :=
  { σ with metatable := Function.update σ.metatable t (some m) }

/-- `luaV_gettable`, with so many steps along `__index`; nothing when it raises.  A function under `__index` would be
called; no class has one. -/
def luaV_gettable (k : Str) : Nat → Nat → Option (Datum D F)
  | 0, _ => none
  | n + 1, t =>
    if (σ.rawget t k).isNil then
      match σ.metatable t with
      | some (.type_obj r) =>
        match σ.rawget r (literal "__index") with
        | .nil => some .nil
        | .table t' => luaV_gettable k n t'
        | _ => none
      | _ => some .nil
    else some (σ.rawget t k)

/-- `t[k]` -/
def get (t : Nat) (k : Str) : Option (Datum D F) := σ.luaV_gettable k Loader.MAXTAGLOOP t

end Tables

section

variable {D F : Type} (order : Enumeration Str)

/-- `super or {}` -/
def superOrNew (super : Option Nat) (σ : Tables D F) : Nat × Tables D F :=
  match super with
  | some super => (super, σ)
  | none => (σ.next, σ.newTable)

/-- What the loop of `setup_super` does with a key of `super`; `type_obj` has no metatable yet. -/
def inherit (type_obj super : Nat) (σ : Tables D F) (k : Str) : Tables D F :=
  if (σ.rawget type_obj k).isNil then σ.rawset type_obj k (σ.rawget super k) else σ

def setup_super (type_obj : Nat) (super : Option Nat) (σ : Tables D F) : Tables D F :=
  let (super, σ) := superOrNew super σ
  let σ := (order.order (σ.fields super).keys).foldl (inherit type_obj super) σ
  σ.rawset type_obj (literal "_super") (.table super)

/-- `lua_class(name, super)` -/
def lua_class (name : D) (super : Option Nat) (σ : Tables D F) : Nat × Tables D F :=
  let type_obj := σ.next
  let σ := σ.newTable.rawset type_obj (literal "_name") (.plain name)
  let σ := σ.rawset type_obj (literal "__index") (.table type_obj)
  let σ := setup_super order type_obj super σ
  (type_obj, σ.setmetatable type_obj (.type_metatable type_obj))

/-- `create_object`: the new object, and the call of `_init`. -/
def create_object (type_obj : Nat) (args : List (Datum D F)) (σ : Tables D F) :
    Option (Nat × Option (Call D F) × Tables D F) := do
  let ins := σ.next
  let σ := σ.newTable.setmetatable ins (.type_obj type_obj)
  let init ← σ.get type_obj (literal "_init")
  pure (ins, if init.truthy then some ⟨init, .table ins :: args⟩ else none, σ)

/-- The table that `super` returns: it is empty, and `__index` of its metatable is the function `index`. -/
structure Super (D F : Type) where
  type_obj : Nat
  self : Datum D F

/-- The function `caller`. -/
structure Caller (D F : Type) where
  func : Datum D F
  self : Datum D F

def super (type_obj : Nat) (self : Datum D F) : Super D F := ⟨type_obj, self⟩

/-- `index(table, k)`: a `caller` or `nil`; nothing when it raises. -/
def Super.index (s : Super D F) (σ : Tables D F) (k : Str) : Option (Option (Caller D F)) :=
  match σ.get s.type_obj (literal "_super") with
  | some (.table super_ins) =>
    let func := σ.rawget super_ins k
    some (if func.truthy then some ⟨func, s.self⟩ else none)
  | _ => none

/-- `caller(...)` -/
def Caller.call (c : Caller D F) (args : List (Datum D F)) : Call D F := ⟨c.func, c.self :: args⟩

/-! ### Operations -/

/-- A name that `lua_class` does not use itself. -/
abbrev Field := { k : Str // k ≠ literal "_name" ∧ k ≠ literal "__index" ∧ k ≠ literal "_super" }

def _init : Field := ⟨literal "_init", by decide⟩

/-- A class is made; a class is assigned a field; an object is created; an object is assigned a field. -/
inductive ClassOp (D F : Type) where
  | lua_class (name : D) (super : Option Nat)
  | assign (type_obj : Nat) (k : Field) (v : Datum D F)
  | create (type_obj : Nat)
  | set (ins : Nat) (k : Str) (v : Datum D F)

def ClassOp.step (σ : Tables D F) : ClassOp D F → Tables D F
  | lua_class name super => (Classes.lua_class order name super σ).2
  | assign type_obj k v => σ.rawset type_obj k v
  | create type_obj =>
    match create_object type_obj [] σ with
    | some (_, _, σ') => σ'
    | none => σ
  | set ins k v => σ.rawset ins k v

def Tables.IsClass (σ : Tables D F) (t : Nat) : Prop := σ.metatable t = some (.type_metatable t)

/-- The operation is on classes and objects that are there. -/
def ClassOp.Legal (σ : Tables D F) : ClassOp D F → Prop
  | lua_class _ super => ∀ S, super = some S → σ.IsClass S
  | assign type_obj _ _ => σ.IsClass type_obj
  | create type_obj => σ.IsClass type_obj
  | set ins _ _ => ∃ C, σ.metatable ins = some (.type_obj C)

/-! ### What is where after a change -/

namespace Tables

variable (σ : Tables D F)

@[simp] theorem metatable_rawset (t : Nat) (k : Str) (v : Datum D F) : (σ.rawset t k v).metatable = σ.metatable := rfl
@[simp] theorem next_rawset (t : Nat) (k : Str) (v : Datum D F) : (σ.rawset t k v).next = σ.next := rfl
@[simp] theorem rawget_setmetatable (t : Nat) (m : Metatable) : (σ.setmetatable t m).rawget = σ.rawget := rfl
@[simp] theorem next_setmetatable (t : Nat) (m : Metatable) : (σ.setmetatable t m).next = σ.next := rfl
@[simp] theorem next_newTable : σ.newTable.next = σ.next + 1 := rfl

private theorem fields_rawset_self (t : Nat) (k : Str) (v : Datum D F) :
    (σ.rawset t k v).fields t = if v.isNil then (σ.fields t).erase k else (σ.fields t).insert k v :=
  Function.update_self ..

private theorem fields_rawset_of_ne {t t' : Nat} (h : t' ≠ t) (k : Str) (v : Datum D F) :
    (σ.rawset t k v).fields t' = σ.fields t' :=
  Function.update_of_ne h ..

theorem rawget_rawset_self (t : Nat) (k : Str) (v : Datum D F) : (σ.rawset t k v).rawget t k = v := by
  unfold rawget
  rw [fields_rawset_self]
  cases v <;> simp [Datum.isNil]

theorem rawget_rawset_of_ne {t t' : Nat} {k k' : Str} (h : t' ≠ t ∨ k' ≠ k) (v : Datum D F) :
    (σ.rawset t k v).rawget t' k' = σ.rawget t' k' := by
  unfold rawget
  by_cases ht : t' = t
  · subst ht
    have hk := h.resolve_left (not_not.2 rfl)
    rw [fields_rawset_self]
    split
    · rw [Finmap.lookup_erase_ne hk]
    · rw [Finmap.lookup_insert_of_ne _ hk]
  · rw [fields_rawset_of_ne σ ht]

theorem rawget_newTable_self (k : Str) : σ.newTable.rawget σ.next k = .nil := by
  simp [rawget, newTable]

theorem rawget_newTable_of_ne {t : Nat} (h : t ≠ σ.next) : σ.newTable.rawget t = σ.rawget t := by
  funext k
  simp [rawget, newTable, Function.update_of_ne h]

theorem metatable_newTable_self : σ.newTable.metatable σ.next = none := Function.update_self ..

theorem metatable_newTable_of_ne {t : Nat} (h : t ≠ σ.next) : σ.newTable.metatable t = σ.metatable t :=
  Function.update_of_ne h ..

theorem metatable_setmetatable_self (t : Nat) (m : Metatable) : (σ.setmetatable t m).metatable t = some m :=
  Function.update_self ..

theorem metatable_setmetatable_of_ne {t t' : Nat} (h : t' ≠ t) (m : Metatable) :
    (σ.setmetatable t m).metatable t' = σ.metatable t' :=
  Function.update_of_ne h ..

/-- Without `__index` in the metatable a field is the table's own. -/
private theorem get_of_metatable {t : Nat} (h : ∀ r, σ.metatable t ≠ some (.type_obj r)) (k : Str) :
    σ.get t k = some (σ.rawget t k) := by
  show σ.luaV_gettable k (1999 + 1) t = _
  rw [luaV_gettable]
  cases hv : σ.rawget t k with
  | nil =>
    cases hm : σ.metatable t with
    | none => rfl
    | some m =>
      cases m with
      | type_obj r => exact absurd hm (h r)
      | type_metatable C => rfl
  | _ => rfl

/-- A field of a class is its own. -/
theorem get_class {C : Nat} (h : σ.IsClass C) (k : Str) : σ.get C k = some (σ.rawget C k) := by
  refine σ.get_of_metatable (fun r hr => ?_) k
  rw [h] at hr
  cases hr

/-- A field that an object does not have itself is that of its class. -/
theorem get_object {o C : Nat} (ho : σ.metatable o = some (.type_obj C)) (hC : σ.IsClass C)
    (hindex : σ.rawget C (literal "__index") = .table C) {k : Str} (hk : (σ.rawget o k).isNil) :
    σ.get o k = some (σ.rawget C k) := by
  have hclass : ∀ n, σ.luaV_gettable k (n + 1) C = some (σ.rawget C k) := by
    intro n
    rw [luaV_gettable, hC]
    cases σ.rawget C k <;> rfl
  show σ.luaV_gettable k (1999 + 1) o = _
  rw [luaV_gettable, if_pos hk, ho]
  simp only [hindex]
  exact hclass 1998

end Tables

/-- What `super` finds in the table under `_super`. -/
theorem Super.index_eq {σ : Tables D F} {C s : Nat} (hC : σ.IsClass C)
    (hs : σ.rawget C (literal "_super") = .table s) (self : Datum D F) (k : Str) : (super C self).index σ k =
      some (if (σ.rawget s k).truthy then some ⟨σ.rawget s k, self⟩ else none) := by
  have hget : σ.get (super C self).type_obj (literal "_super") = some (.table s) := by
    rw [← hs]
    exact σ.get_class hC _
  rw [Super.index, hget]
  rfl

/-- The function that `super` calls. -/
theorem Super.calls_iff {σ : Tables D F} {C s : Nat} (hC : σ.IsClass C)
    (hs : σ.rawget C (literal "_super") = .table s) (self : Datum D F) (k : Str) (f : F) :
    (∃ caller, (super C self).index σ k = some (some caller) ∧ caller.func = .func f) ↔ σ.rawget s k = .func f := by
  rw [Super.index_eq hC hs]
  constructor
  · rintro ⟨caller, hcaller, hfunc⟩
    split at hcaller
    · cases hcaller
      exact hfunc
    · cases hcaller
  · intro hv
    refine ⟨⟨.func f, self⟩, ?_, rfl⟩
    rw [hv]
    rfl

end

end Classes

end LibeventServer.Lua

import LibeventServer.Lib.Program
import LibeventServer.Lua.Main

/-!
# Messages, statement by statement

`clients` holds references to client objects.  A method assigns the fields of its object one after the other, and what
it has assigned before an error stays assigned.  The handlers here run like that (`Script`); an object is found under
`c[method_name]` first in its own fields and then in its class.

`HandleEvent_eq`: a message either fails before anything is assigned, or changes the object of its sender as
`handleEvent` says.  So it touches no other object, and none if it raises (`HandleEvent_confined`).
-/

namespace LibeventServer.Lua

/-! ### Objects -/

/-- The table `clients` and the objects it refers to.  Every id has an object of its own. -/
structure Objects (N : Type) where
  clients : Finmap fun _ : UInt32 => Nat
  object : Nat → Client N
  separate : ∀ u v ref, clients.lookup u = some ref → clients.lookup v = some ref → u = v

/-- Code that assigns fields of objects and may raise. -/
abbrev Script (N : Type) := EStateM Unit (Objects N)

namespace Objects

variable {N : Type}

/-- Replace an object. -/
def set (σ : Objects N) (ref : Nat) (c : Client N) : Objects N :=
  { σ with object := Function.update σ.object ref c }

@[simp] theorem clients_set (σ : Objects N) (ref : Nat) (c : Client N) : (σ.set ref c).clients = σ.clients := rfl

@[simp] theorem object_set_self (σ : Objects N) (ref : Nat) (c : Client N) : (σ.set ref c).object ref = c :=
  Function.update_self ..

private theorem object_set_of_ne (σ : Objects N) {ref ref' : Nat} (h : ref' ≠ ref) (c : Client N) :
    (σ.set ref c).object ref' = σ.object ref' :=
  Function.update_of_ne h ..

@[simp] theorem set_set (σ : Objects N) (ref : Nat) (c c' : Client N) : (σ.set ref c).set ref c' = σ.set ref c' := by
  simp [set]

@[simp] theorem set_object (σ : Objects N) (ref : Nat) : σ.set ref (σ.object ref) = σ := by
  simp [set]

/-- The objects are those of the records `s.clients`. -/
def Represents (σ : Objects N) (s : State N) : Prop :=
  ∀ v, s.clients.lookup v = (σ.clients.lookup v).map σ.object

/-- The records of the objects. -/
def state (σ : Objects N) : State N :=
  ⟨Finmap.keysLookupEquiv.symm
    ⟨(σ.clients.keys, fun v => (σ.clients.lookup v).map σ.object), fun v => by
      rw [Option.isSome_map, Finmap.lookup_isSome, Finmap.mem_keys]⟩⟩

private theorem represents_state (σ : Objects N) : σ.Represents σ.state :=
  fun v => Finmap.keysLookupEquiv_symm_apply_lookup _ v

private theorem Represents.set {σ : Objects N} {s : State N} (h : σ.Represents s) {v : UInt32} {ref : Nat}
    (hv : σ.clients.lookup v = some ref) (c : Client N) :
    (σ.set ref c).Represents { s with clients := s.clients.insert v c } := by
  intro u
  by_cases hu : u = v
  · subst hu
    simp [hv]
  · rw [Finmap.lookup_insert_of_ne _ hu, h u, clients_set]
    cases hr : σ.clients.lookup u with
    | none => rfl
    | some ref' =>
      have hne : ref' ≠ ref := fun heq => hu (σ.separate u v ref' hr (heq ▸ hv))
      simp [object_set_of_ne σ hne]

end Objects

/-! ### `c[key]` -/

/-- What is found in an object or a class: a value, a table, or a method. -/
inductive Slot (N : Type) where
  | value (v : Value N)
  | table
  | func (m : Method)

section

variable {N : Type} [DecidableEq N]

/-- The entry under `key` of a table whose keys are strings. -/
def Slot.find (entries : List (List UInt8 × Slot N)) (key : Value N) : Slot N :=
  match entries.find? fun e => Value.rawequal (.str e.1) key with
  | some e => e.2
  | none => .value .nil

/-- `lua_class(name)`: the class before its methods are defined. -/
def lua_class (name : List UInt8) : List (List UInt8 × Slot N) :=
  [(literal "_name", .value (.str name)), (literal "__index", .table), (literal "_super", .table)]

/-- The class `client`. -/
def clientClass : List (List UInt8 × Slot N) :=
  lua_class (literal "client") ++ [(literal "_init", .func ._init), (literal "cmd", .func .cmd)]

/-- The fields of a client object. -/
def Client.fields (c : Client N) : List (List UInt8 × Slot N) :=
  [(literal "vfd", .value c.vfd), (literal "call", .table), (literal "x", .value (.num c.x)),
    (literal "y", .value (.num c.y)), (literal "vTbl", .table), (literal "r", .value (.num c.r)),
    (literal "press", .value c.press), (literal "angle", .value (.num c.angle)), (literal "d", .value (.num c.d))]

/-- `c[key]`: the object's own field, else what the class has. -/
def Client.index (c : Client N) (key : Value N) : Slot N :=
  match Slot.find c.fields key with
  | .value .nil => Slot.find clientClass key
  | f => f

private theorem Slot.find_eq_func {entries : List (List UInt8 × Slot N)} {key : Value N} {m : Method}
    (h : Slot.find entries key = .func m) : ∃ e ∈ entries, e.2 = .func m ∧ Value.rawequal (.str e.1) key = true := by
  unfold Slot.find at h
  split at h
  · rename_i e he
    exact ⟨e, List.mem_of_find?_eq_some he, h, by simpa using List.find?_some he⟩
  · cases h

/-- The key of a method in the class. -/
def Method.name : Method → List UInt8
  | ._init => literal "_init"
  | .cmd => literal "cmd"

private theorem Client.method_eq_some {key : Value N} {m : Method} :
    Client.method key = some m ↔ key = .str m.name := by
  unfold Client.method
  constructor
  · intro h
    cases key with
    | str s =>
      simp only [Value.rawequal, beq_iff_eq] at h
      split at h
      · cases h
        subst s
        rfl
      · split at h
        · cases h
          subst s
          rfl
        · cases h
    | nil => cases h
    | bool b => cases h
    | num x => cases h
    | table entries => cases h
  · rintro rfl
    cases m <;> rfl

/-- A client object has no other functions than its methods. -/
private theorem Client.index_eq_func (c : Client N) (key : Value N) (m : Method) :
    c.index key = .func m ↔ Client.method key = some m := by
  have hfields : ∀ {m}, Slot.find c.fields key ≠ .func m := by
    intro m h
    obtain ⟨e, he, hfunc, -⟩ := Slot.find_eq_func h
    simp only [Client.fields, List.mem_cons, List.not_mem_nil, or_false] at he
    rcases he with rfl | rfl | rfl | rfl | rfl | rfl | rfl | rfl | rfl <;> cases hfunc
  constructor
  · intro h
    have hclass : Slot.find clientClass key = .func m := by
      unfold Client.index at h
      split at h
      · exact h
      · exact absurd h hfields
    obtain ⟨e, he, hfunc, hkey⟩ := Slot.find_eq_func hclass
    simp only [clientClass, lua_class, List.cons_append, List.nil_append, List.mem_cons, List.not_mem_nil,
      or_false] at he
    have hname : ∀ {t : List UInt8}, Value.rawequal (.str t) key = true → key = .str t := by
      intro t ht
      cases key with
      | str s =>
        simp only [Value.rawequal, beq_iff_eq] at ht
        rw [ht]
      | nil => cases ht
      | bool b => cases ht
      | num x => cases ht
      | table entries => cases ht
    rw [Client.method_eq_some, hname hkey]
    rcases he with rfl | rfl | rfl | rfl | rfl <;> cases hfunc <;> rfl
  · intro h
    rw [Client.method_eq_some] at h
    subst h
    cases m <;> rfl

end

/-! ### The methods -/

section

variable {N : Type} [Field N] [LinearOrder N]

/-- `self.field = v`, for the field that `f` assigns. -/
def assign (self : Nat) (f : Client N → Client N) : Script N Unit := modify fun σ => σ.set self (f (σ.object self))

/-- A value that is computed, or an error. -/
def ofOption {α : Type} : Option α → Script N α
  | some a => pure a
  | none => throw ()

namespace Objects

/-- `client:_init(vfd)` -/
def _init (self : Nat) (vfd : Value N) : Script N Unit := do
  assign self fun c => { c with vfd := vfd }
  assign self fun c => { c with call := vfd }
  assign self fun c => { c with x := 0 }
  assign self fun c => { c with y := 0 }
  assign self fun c => { c with vTbl := ∅ }
  assign self fun c => { c with r := 50 }
  assign self fun c => { c with press := .bool false }
  assign self fun c => { c with angle := 0 }
  assign self fun c => { c with d := 1 }

/-- `client:cmd(cmd)` -/
def cmd (self : Nat) (cmd : Value N) : Script N Unit := do
  match ← ofOption (cmd.index (.str (literal "press"))) with
  | .nil => pure ()
  | _ =>
    let press ← ofOption (cmd.index (.str (literal "press")))
    assign self fun c => { c with press := press }
  let press ← ofOption (cmd.index (.str (literal "press")))
  if press.truthy then assign self fun c => { c with d := c.d * -1 }

/-- `c[method_name](c, ...)` -/
def call (self : Nat) : Method → List (Value N) → Script N Unit
  | ._init, args => _init self (args.head?.getD .nil)
  | .cmd, args => cmd self (args.head?.getD .nil)

/-- `HandleEvent(vfd, msg)` -/
def HandleEvent (H : Host N) [FloorRing N] (vfd : UInt32) (msg : List UInt8) : Script N Unit := do
  let data ← ofOption (H.msgpack_unpack msg)
  let method_name ← ofOption (data.index (.num 1))
  let σ ← get
  match σ.clients.lookup vfd with
  | none => pure ()
  | some c =>
    match (σ.object c).index method_name with
    | .func method =>
      let args ← ofOption (arguments H data)
      call c method args
    | _ => pure ()

/-! ### What a message does -/

variable (self : Nat) (σ : Objects N)

omit [Field N] [LinearOrder N] in
private theorem assign_apply (f : Client N → Client N) : assign self f σ = .ok () (σ.set self (f (σ.object self))) :=
  rfl

omit [Field N] [LinearOrder N] in
private theorem assign_bind {α : Type} (f : Client N → Client N) (k : Unit → Script N α) :
    (assign self f >>= k) σ = k () (σ.set self (f (σ.object self))) :=
  EStateM.bind_ok (assign_apply self σ f)

omit [LinearOrder N] in
private theorem _init_eq (vfd : Value N) : _init self vfd σ = .ok () (σ.set self (Client._init vfd)) := by
  simp only [_init, assign_bind, assign_apply, object_set_self, set_set]
  rfl

/-- `cmd` raises before it has assigned anything, or not at all. -/
private theorem cmd_eq (arg : Value N) : cmd self arg σ =
    match (σ.object self).cmd arg with
    | none => .error () σ
    | some c => .ok () (σ.set self c) := by
  unfold cmd Client.cmd
  cases hpress : arg.index (.str (literal "press")) with
  | none => rfl
  | some press =>
    simp only [ofOption, pure_bind, Option.bind_eq_bind, Option.bind_some]
    cases press with
    | nil => exact congrArg (EStateM.Result.ok ()) (set_object σ self).symm
    | bool b =>
      cases b with
      | false => rfl
      | true => simp only [assign_bind, Value.truthy, if_true, assign_apply, object_set_self, set_set]; rfl
    | num x => simp only [assign_bind, Value.truthy, if_true, assign_apply, object_set_self, set_set]; rfl
    | str s => simp only [assign_bind, Value.truthy, if_true, assign_apply, object_set_self, set_set]; rfl
    | table entries => simp only [assign_bind, Value.truthy, if_true, assign_apply, object_set_self, set_set]; rfl

private theorem call_eq (m : Method) (args : List (Value N)) : call self m args σ =
    match (σ.object self).invoke m args with
    | none => .error () σ
    | some c => .ok () (σ.set self c) := by
  cases m with
  | _init => exact _init_eq self σ _
  | cmd => exact cmd_eq self σ _

variable {σ}

/-- A message does what `handleEvent` says; if it raises, it has changed nothing. -/
theorem HandleEvent_eq [FloorRing N] (H : Host N) {s : State N} (hs : σ.Represents s) (vfd : UInt32)
    (msg : List UInt8) :
    match HandleEvent H vfd msg σ with
    | .error _ σ' => handleEvent H vfd msg s = none ∧ σ' = σ
    | .ok _ σ' => ∃ s', handleEvent H vfd msg s = some s' ∧ σ'.Represents s' ∧
        (σ' = σ ∨ ∃ ref c, σ.clients.lookup vfd = some ref ∧ σ' = σ.set ref c) := by
  unfold HandleEvent handleEvent
  cases hdata : H.msgpack_unpack msg with
  | none => exact ⟨rfl, rfl⟩
  | some data =>
    cases hname : data.index (.num 1) with
    | none =>
      simp only [ofOption, pure_bind, hname, Option.bind_eq_bind, Option.bind_some, Option.bind_none, true_and]
      rfl
    | some name =>
      simp only [ofOption, pure_bind, hname, Option.bind_eq_bind, Option.bind_some, getClientByVfd, hs vfd]
      rw [EStateM.get_bind]
      cases hc : σ.clients.lookup vfd with
      | none => exact ⟨s, rfl, hs, Or.inl rfl⟩
      | some ref =>
        simp only [Option.map_some]
        -- a field that is no function is no method of `Client`, and nothing is called
        have hnone : ∀ f, (σ.object ref).index name = f → (∀ m, f ≠ .func m) → Client.method name = none := by
          intro f hf hnot
          cases hm : Client.method name with
          | none => rfl
          | some m => exact absurd (hf.symm.trans ((Client.index_eq_func _ _ _).2 hm)) (hnot m)
        cases hfield : (σ.object ref).index name with
        | value v =>
          rw [hnone _ hfield (by intro m hm; cases hm)]
          exact ⟨s, rfl, hs, Or.inl rfl⟩
        | table =>
          rw [hnone _ hfield (by intro m hm; cases hm)]
          exact ⟨s, rfl, hs, Or.inl rfl⟩
        | func m =>
          rw [(Client.index_eq_func _ _ _).1 hfield]
          simp only
          cases harg : arguments H data with
          | none => exact ⟨rfl, rfl⟩
          | some args =>
            simp only [pure_bind, Option.bind_some, call_eq]
            cases (σ.object ref).invoke m args with
            | none => exact ⟨rfl, rfl⟩
            | some c => exact ⟨_, rfl, hs.set hc c, Or.inr ⟨ref, c, rfl, rfl⟩⟩

/-- What the client `v` is, if it is connected. -/
def record (σ : Objects N) (v : UInt32) : Option (Client N) := (σ.clients.lookup v).map σ.object

/-- A message leaves the records of all clients but its sender, and all records if the sender is not connected or if
it raises. -/
theorem HandleEvent_confined [FloorRing N] (H : Host N) (σ : Objects N) (vfd : UInt32) (msg : List UInt8) :
    (∀ u, u ≠ vfd → record (HandleEvent H vfd msg σ).state u = record σ u) ∧
      (vfd ∉ σ.clients ∨ (∃ e σ', HandleEvent H vfd msg σ = .error e σ') →
        ∀ u, record (HandleEvent H vfd msg σ).state u = record σ u) := by
  have heq := HandleEvent_eq H σ.represents_state vfd msg
  cases hrun : HandleEvent H vfd msg σ with
  | error e σ' =>
    rw [hrun] at heq
    obtain ⟨-, rfl⟩ := heq
    exact ⟨fun _ _ => rfl, fun _ _ => rfl⟩
  | ok a σ' =>
    rw [hrun] at heq
    obtain ⟨s', -, -, rfl | ⟨ref, c, href, rfl⟩⟩ := heq
    · exact ⟨fun _ _ => rfl, fun _ _ => rfl⟩
    · refine ⟨fun u hu => ?_, ?_⟩
      · simp only [EStateM.Result.state_ok, record, clients_set]
        cases hr : σ.clients.lookup u with
        | none => rfl
        | some ref' =>
          have hne : ref' ≠ ref := fun heq => hu (σ.separate u vfd ref' hr (heq ▸ href))
          simp [object_set_of_ne σ hne]
      · rintro (hnot | ⟨e, σ', herr⟩)
        · exact absurd (Finmap.mem_of_lookup_eq_some href) hnot
        · cases herr

end Objects

end

end LibeventServer.Lua

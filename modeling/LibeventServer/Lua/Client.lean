import LibeventServer.Lib.Table
import LibeventServer.Lua.Value

/-!
# `src/client.lua`

A client object is the record of its instance fields.  Its class has two methods, `_init` and `cmd`; no other value
reachable through `c[method_name]` is a function, since `lua_class` adds only `_name`, `__index` and `_super`.
-/

namespace LibeventServer.Lua

/-- A client object.  `call` stands for the proxy: it is the `vfd` its functions captured.  The keys of `vTbl` are
angles and its values speeds. -/
structure Client (N : Type) where
  vfd : Value N
  call : Value N
  x : N
  y : N
  vTbl : Finmap fun _ : N => N
  r : N
  press : Value N
  angle : N
  d : N

/-- The methods of the class. -/
inductive Method where
  | _init
  | cmd
  deriving DecidableEq

namespace Client

section

variable {N : Type} [Field N]

/-- `client:_init(vfd)`.  It sets every field, so nothing of the object it is called on is left. -/
def _init (vfd : Value N) : Client N where
  vfd := vfd
  call := vfd
  x := 0
  y := 0
  vTbl := ∅
  r := 50
  press := .bool false
  angle := 0
  d := 1

end

variable {N : Type} [Field N] [DecidableEq N]

/-- `client:cmd(cmd)`; it raises when `cmd` cannot be indexed. -/
def cmd (self : Client N) (cmd : Value N) : Option (Client N) := do
  let press ← cmd.index (.str (literal "press"))
  let self := match press with
    | .nil => self
    | press => { self with press := press }
  return if press.truthy then { self with d := self.d * -1 } else self

/-- The function `c[method_name]`, when it is one. -/
def method (method_name : Value N) : Option Method :=
  if method_name.rawequal (.str (literal "_init")) then some ._init
  else if method_name.rawequal (.str (literal "cmd")) then some .cmd
  else none

/-- `c[method_name](c, ...)`: both methods take one argument; a missing one is `nil`. -/
def invoke (self : Client N) : Method → List (Value N) → Option (Client N)
  | ._init, args => some (_init (args.head?.getD .nil))
  | .cmd, args => self.cmd (args.head?.getD .nil)

/-- A command sets `press` and may turn the direction round. -/
theorem cmd_eq {self c : Client N} {arg : Value N} (h : self.cmd arg = some c) :
    ∃ press d, c = { self with press := press, d := d } ∧ (d = self.d ∨ d = self.d * -1) := by
  simp only [cmd, Option.bind_eq_bind, Option.bind_eq_some_iff] at h
  obtain ⟨press, -, h⟩ := h
  cases h
  cases press <;> split <;> exact ⟨_, _, rfl, by simp⟩

theorem cmd_eq_some {self c : Client N} {arg : Value N} (h : self.cmd arg = some c) :
    c.vfd = self.vfd ∧ c.call = self.call := by
  obtain ⟨press, d, rfl, -⟩ := cmd_eq h
  exact ⟨rfl, rfl⟩

end Client

/-- The global variable of `src/main.lua` that its handlers use. -/
structure State (N : Type) where
  clients : Finmap fun _ : UInt32 => Client N

/-! ### Ids and proxies -/

section

variable {N : Type} {t t' : Finmap fun _ : UInt32 => Client N}

/-- The id and the proxy under each key. -/
def proxies (clients : Finmap fun _ : UInt32 => Client N) (vfd : UInt32) : Option (Value N × Value N) :=
  (clients.lookup vfd).map fun c => (c.vfd, c.call)

theorem mem_iff_proxies {vfd : UInt32} : vfd ∈ t ↔ (proxies t vfd).isSome := by
  rw [proxies, Option.isSome_map, Finmap.lookup_isSome]

theorem keys_eq_of_proxies (h : proxies t = proxies t') : t.keys = t'.keys := by
  ext vfd
  rw [Finmap.mem_keys, Finmap.mem_keys, mem_iff_proxies, mem_iff_proxies, h]

theorem proxies_forEach {l : List UInt32} (hl : l.Nodup) {f : UInt32 → Client N → Client N}
    (hf : ∀ v c, (f v c).vfd = c.vfd ∧ (f v c).call = c.call) : proxies (Table.forEach l f t) = proxies t := by
  funext v
  unfold proxies
  rw [Table.lookup_forEach hl]
  split
  · rw [Option.map_map]
    congr 1
    funext c
    exact Prod.ext (hf v c).1 (hf v c).2
  · rfl

theorem proxies_insert (t : Finmap fun _ : UInt32 => Client N) (v : UInt32) (c : Client N) :
    proxies (t.insert v c) = Function.update (proxies t) v (some (c.vfd, c.call)) := by
  funext u
  by_cases hu : u = v
  · subst hu
    simp [proxies]
  · simp [proxies, Function.update_of_ne hu, Finmap.lookup_insert_of_ne _ hu]

theorem proxies_insert_of_ids {v : UInt32} {c c' : Client N} (hv : t.lookup v = some c)
    (hc : c'.vfd = c.vfd ∧ c'.call = c.call) : proxies (t.insert v c') = proxies t := by
  rw [proxies_insert, Function.update_eq_self_iff, proxies, hv, Option.map_some, hc.1, hc.2]

theorem proxies_erase (t : Finmap fun _ : UInt32 => Client N) (v : UInt32) :
    proxies (t.erase v) = Function.update (proxies t) v none := by
  funext u
  by_cases hu : u = v
  · subst hu
    simp [proxies]
  · simp [proxies, Function.update_of_ne hu, Finmap.lookup_erase_ne hu]

end

end LibeventServer.Lua

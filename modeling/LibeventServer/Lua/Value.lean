import Mathlib.Algebra.Field.Defs
import Mathlib.Algebra.Order.Floor.Defs
import Mathlib.Data.Int.Init

/-!
# Lua values

The values `msgpack.unpack` builds.  Numbers are of any type `N` with the arithmetic Lua needs; integers and floats of
equal value are one number.  Strings are lists of bytes.

A `Host` is what the scripts use of the Lua libraries and of `MessagePack.lua` and what is not computed here.
-/

namespace LibeventServer.Lua

/-- The numeral 2 of the scripts. -/
instance atLeastTwo_two : Nat.AtLeastTwo 2 := inferInstance

/-- The numeral 50 of the scripts. -/
instance atLeastTwo_fifty : Nat.AtLeastTwo 50 := inferInstance

/-- The functions of the `math` library the scripts call; `sqrt x` is `x^0.5`. -/
class LuaMath (N : Type) where
  pi : N
  sin : N → N
  cos : N → N
  atan : N → N
  sqrt : N → N

/-- A value without functions.  A table lists its entries; the first entry of a key counts. -/
inductive Value (N : Type) where
  | nil
  | bool (b : Bool)
  | num (x : N)
  | str (s : List UInt8)
  | table (entries : List (Value N × Value N))

/-- A string literal. -/
def literal (s : String) : List UInt8 := s.toList.map fun c => UInt8.ofNat c.toNat

/-- The libraries.  `msgpack_unpack` gives nothing when it raises; `luaO_str2num` reads a number off a string;
`border` is the length operator on a table; `lua_checkstack` says whether the stack has room for so many values. -/
structure Host (N : Type) where
  msgpack_unpack : List UInt8 → Option (Value N)
  msgpack_pack : Value N → List UInt8
  luaO_str2num : List UInt8 → Option N
  border : List (Value N × Value N) → Nat
  lua_checkstack : Nat → Bool

/-- Libraries under which every message raises. -/
def Host.raising {N : Type} : Host N where
  msgpack_unpack _ := none
  msgpack_pack _ := []
  luaO_str2num _ := none
  border _ := 0
  lua_checkstack _ := false

/-- Libraries that know these messages and no other. -/
def Host.knowing {N : Type} (messages : List (List UInt8 × Value N)) : Host N where
  msgpack_unpack msg := messages.lookup msg
  msgpack_pack _ := []
  luaO_str2num _ := none
  border entries := entries.length
  lua_checkstack n := n ≤ 1000000

namespace Value

variable {N : Type} [DecidableEq N]

/-- Everything but `nil` and `false` is true in a condition. -/
def truthy : Value N → Bool
  | nil => false
  | bool b => b
  | _ => true

/-- `==` on a key asked for; a table that was unpacked is no key the scripts ask for. -/
def rawequal : Value N → Value N → Bool
  | nil, nil => true
  | bool a, bool b => a == b
  | num x, num y => x == y
  | str s, str t => s == t
  | _, _ => false

/-- The value under `key` in a table with these entries. -/
def rawget (entries : List (Value N × Value N)) (key : Value N) : Value N :=
  match entries.find? fun e => rawequal e.1 key with
  | some e => e.2
  | none => nil

/-- `v[key]`.  A string is indexed through the `string` library, which has nothing under the keys the scripts ask
for. -/
def index : Value N → Value N → Option (Value N)
  | table entries, key => some (rawget entries key)
  | str _, _ => some nil
  | _, _ => none

end Value

section

variable {N : Type} [Field N] [LinearOrder N] [FloorRing N] (H : Host N)

/-- `table.unpack(v)`: the values under `1`, ..., `#v`. -/
def table_unpack : Value N → Option (List (Value N))
  | .table entries => pushed (H.border entries) fun i => .rawget entries (.num ((i + 1 : Nat) : N))
  | .str s => pushed s.length fun _ => .nil
  | _ => none
where
  /-- `n` results, unless there are too many. -/
  pushed (n : Nat) (f : Nat → Value N) : Option (List (Value N)) :=
    if n = 0 then some []
    else if 2 ^ 31 - 1 ≤ n - 1 ∨ ¬ H.lua_checkstack n then none
    else some ((List.range n).map f)

/-- `lua_Number` to `lua_Integer`, for a number that is one. -/
def lua_numbertointeger (x : N) : Option Int64 :=
  if (⌊x⌋ : N) = x ∧ -2 ^ 63 ≤ ⌊x⌋ ∧ ⌊x⌋ < 2 ^ 63 then some (Int64.ofInt ⌊x⌋) else none

/-- `luaL_checkinteger`; it raises on what is not an integer and does not convert to one. -/
def luaL_checkinteger : Value N → Option Int64
  | .num x => lua_numbertointeger x
  | .str s => (H.luaO_str2num s).bind lua_numbertointeger
  | _ => none

end

end LibeventServer.Lua

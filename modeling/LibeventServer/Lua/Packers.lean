import LibeventServer.Lua.MessagePack
import LibeventServer.Lua.Number

/-!
# The packers of `src/msgpack/MessagePack.lua`

`pack` makes a string of a value.  A packer puts strings at the end of `buffer`, which are joined at last; here it
returns them joined.  `packers[type(data)]` are those in force after the last lines of the file: `set_string`,
`set_integer`, `set_number` and `set_array` are called with `string_compat`, `unsigned`, `double` and `without_hole`.

A table is packed in the order in which its entries are listed, the order of `pairs`.  An error is its message,
without the position that `error` and `luaL_error` put in front of it.  The packers call each other once for each
level of nested tables, and the stack of the interpreter (`LUAI_MAXSTACK`) is taken to suffice for that; 200000 levels
overflow it.
-/

namespace LibeventServer.Lua.MessagePack

/-- A list of bytes, or the message of an error. -/
abbrev Packed : Type := Except String (List UInt8)

/-- The message of `luaL_argerror` in a call of `char`. -/
def luaL_argerror (arg : ℕ) (extramsg : String) : String :=
  "bad argument #" ++ toString arg ++ " to 'char' (" ++ extramsg ++ ")"

/-- An argument of `string.char`. -/
def charByte (arg : ℕ) (n : ℤ) : Except String UInt8 :=
  if 0 ≤ n ∧ n ≤ 255 then .ok (UInt8.ofNat n.toNat) else .error (luaL_argerror arg "value out of range")

/-- The loop of `string.char`, from the argument `arg` on. -/
def charFrom : ℕ → List ℤ → Packed
  | _, [] => .ok []
  | arg, n :: args => do
    let byte ← charByte arg n
    let bytes ← charFrom (arg + 1) args
    return byte :: bytes

/-- `string.char(...)` -/
def char (args : List ℤ) : Packed := charFrom 1 args

/-- A float where `string.char` expects an integer. -/
def checkinteger (arg : ℕ) (q : ℚ) : Except String ℤ :=
  if q = ⌊q⌋ then .ok ⌊q⌋ else .error (luaL_argerror arg "number has no integer representation")

/-- Packers one after another. -/
def inTurn : List Packed → Packed
  | [] => .ok []
  | p :: l => do
    let bytes ← p
    let rest ← inTurn l
    return bytes ++ rest

namespace packers

def nil : Packed := char [0xC0]

def boolean (bool : Bool) : Packed := if bool then char [0xC3] else char [0xC2]

/-- What `string_compat`, `map` and `array` begin with, for a string or table of the size `n`: a byte with the size,
or the byte `b16` or `b32` and the size in two or four bytes.  The quotients are exact. -/
def sizeHeader (fixmax fix b16 b32 : ℤ) (kind : String) (n : ℤ) : Packed :=
  if n ≤ fixmax then char [fix + n]
  else if n ≤ 0xFFFF then char [b16, n / 0x100, n % 0x100]
  else if n ≤ 4294967295 then char [b32, n / 0x1000000, n / 0x10000 % 0x100, n / 0x100 % 0x100, n % 0x100]
  else .error ("overflow in pack '" ++ kind ++ "'")

def string_compat (str : List UInt8) : Packed := do
  let header ← sizeHeader 0x1F 0xA0 0xDA 0xDB "string_compat" str.length
  return header ++ str

/-- An entry that `pairs` gives, and what is packed of it. -/
structure Entry where
  k : Value Number
  key : Packed
  val : Packed

def map (tbl : List Entry) (n : ℕ) : Packed := do
  let header ← sizeHeader 0x0F 0x80 0xDE 0xDF "map" n
  let rest ← inTurn (tbl.flatMap fun e => [e.key, e.val])
  return header ++ rest

/-- `tbl[i]`, packed. -/
def element (tbl : List Entry) (i : ℕ) : Packed :=
  match tbl.find? fun e => e.k.rawequal (.num (.finite i)) with
  | some e => e.val
  | none => nil

def array (tbl : List Entry) (n : ℕ) : Packed := do
  let header ← sizeHeader 0x0F 0x90 0xDC 0xDD "array" n
  let rest ← inTurn ((List.range n).map fun i => element tbl (i + 1))
  return header ++ rest

/-- `is_map`, `n` and `max` after one more key. -/
def shapeStep (s : Bool × ℕ × Number) (k : Value Number) : Bool × ℕ × Number :=
  match k with
  | .num k =>
    if k.gt (.finite 0) then (s.1, s.2.1 + 1, if k.gt s.2.2 then k else s.2.2) else (true, s.2.1 + 1, s.2.2)
  | _ => (true, s.2.1 + 1, s.2.2)

/-- The loop of `packers['_table']`, for `set_array'without_hole'`, and the test after it: `is_map` and `n`. -/
def shape (keys : List (Value Number)) : Bool × ℕ :=
  let s := keys.foldl shapeStep (false, 0, .finite 0)
  -- there are holes
  let is_map := if s.2.2 ≠ .finite s.2.1 then true else s.1
  (is_map, s.2.1)

/-- `packers['_table']` -/
def _table (tbl : List Entry) : Packed :=
  let s := shape (tbl.map Entry.k)
  if s.1 then map tbl s.2 else array tbl s.2

def unsigned (n : ℤ) : Packed :=
  if n ≥ 0 then
    if n ≤ 0x7F then char [n]
    else if n ≤ 0xFF then char [0xCC, n]
    else if n ≤ 0xFFFF then char [0xCD, floorDiv n 0x100, n % 0x100]
    else if n ≤ 4294967295 then
      char [0xCE, floorDiv n 0x1000000, floorDiv n 0x10000 % 0x100, floorDiv n 0x100 % 0x100, n % 0x100]
    else
      -- only 53 bits from double
      char [0xCF, 0, floorDiv n 0x1000000000000 % 0x100, floorDiv n 0x10000000000 % 0x100,
        floorDiv n 0x100000000 % 0x100, floorDiv n 0x1000000 % 0x100, floorDiv n 0x10000 % 0x100,
        floorDiv n 0x100 % 0x100, n % 0x100]
  else
    if n ≥ -0x20 then char [0x100 + n]
    else if n ≥ -0x80 then char [0xD0, 0x100 + n]
    else if n ≥ -0x8000 then
      let n := 0x10000 + n
      char [0xD1, floorDiv n 0x100, n % 0x100]
    else if n ≥ -0x80000000 then
      let n := 4294967296 + n
      char [0xD2, floorDiv n 0x1000000, floorDiv n 0x10000 % 0x100, floorDiv n 0x100 % 0x100, n % 0x100]
    else
      -- only 53 bits from double
      char [0xD3, 0xFF, floorDiv n 0x1000000000000 % 0x100, floorDiv n 0x10000000000 % 0x100,
        floorDiv n 0x100000000 % 0x100, floorDiv n 0x1000000 % 0x100, floorDiv n 0x10000 % 0x100,
        floorDiv n 0x100 % 0x100, n % 0x100]

def double : Number → Packed
  | .nan => char [0xCB, 0xFF, 0xF8, 0x00, 0x00, 0x00, 0x00, 0x00, 0x00]
  | .inf false => char [0xCB, 0x7F, 0xF0, 0x00, 0x00, 0x00, 0x00, 0x00, 0x00]
  | .inf true => char [0xCB, 0xFF, 0xF0, 0x00, 0x00, 0x00, 0x00, 0x00, 0x00]
  | .finite n =>
    let sign := if n < 0 then 0x80 else 0
    let (mant, expo) := frexp |n|
    if expo > 0x400 then
      if sign = 0 then char [0xCB, 0x7F, 0xF0, 0x00, 0x00, 0x00, 0x00, 0x00, 0x00]
      else char [0xCB, 0xFF, 0xF0, 0x00, 0x00, 0x00, 0x00, 0x00, 0x00]
    else if mant = 0 ∧ expo = 0 ∨ expo < -0x3FE then
      char [0xCB, sign, 0x00, 0x00, 0x00, 0x00, 0x00, 0x00, 0x00]
    else do
      let expo := expo + 0x3FE
      let mant := (mant * 2 - 1) * ldexp (1 / 2) 53
      let last ← checkinteger 9 (mant - 0x100 * ⌊mant / 0x100⌋)
      char [0xCB, sign + expo / 0x10, expo % 0x10 * 0x10 + ⌊mant / 0x1000000000000⌋,
        ⌊mant / 0x10000000000⌋ % 0x100, ⌊mant / 0x100000000⌋ % 0x100, ⌊mant / 0x1000000⌋ % 0x100,
        ⌊mant / 0x10000⌋ % 0x100, ⌊mant / 0x100⌋ % 0x100, last]

/-- The literal `1.7976931348623e+308`. -/
def limit : ℚ := toDouble (17976931348623 * 10 ^ 295 : ℚ)

/-- `packers['number']`, as `set_number'double'` sets it. -/
def number : Number → Packed
  | .finite n => if ⌊n⌋ ≠ n ∨ n > limit ∨ n < -limit then double (.finite n) else unsigned ⌊n⌋
  | n => double n

end packers

mutual

/-- `packers[type(data)](buffer, data)` -/
def packValue : Value Number → Packed
  | .nil => packers.nil
  | .bool bool => packers.boolean bool
  | .num n => packers.number n
  | .str str => packers.string_compat str
  | .table entries => packers._table (packEntries entries)

/-- The entries of a table with what is packed of them. -/
def packEntries : List (Value Number × Value Number) → List packers.Entry
  | [] => []
  | (k, v) :: entries => ⟨k, packValue k, packValue v⟩ :: packEntries entries

end

/-- `m.pack(data)` -/
def pack (data : Value Number) : Packed := packValue data

end LibeventServer.Lua.MessagePack

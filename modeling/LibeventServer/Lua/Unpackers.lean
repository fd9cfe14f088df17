import LibeventServer.Lib.Reading
import LibeventServer.Lua.MessagePack
import LibeventServer.Lua.Number

/-!
# The unpackers of `src/msgpack/MessagePack.lua`

The unpackers take bytes from a cursor.  Each time they do so with the same lines:

    local s, i, j = c.s, c.i, c.j
    if i+k-1 > j then c:underflow(i+k-1); s, i, j = c.s, c.i, c.j end
    ... s:sub(i, i+k-1) ...
    c.i = i+k

Here they are programs that read `k` bytes (`Reading`), and `Cursor.fetch` is these lines.  `unpack` runs `any` on a
cursor over a string, `unpacker` calls it again and again, on a string or on the chunks a function returns.

`unpackers['any']` calls itself, through arrays and maps; `any` carries fuel and overflows when it is spent.  `unpack`
and `unpacker` give it enough for every string, so the stack of the interpreter (`LUAI_MAXSTACK`) is taken to suffice
for the nesting; 200000 levels overflow it.  An error is its message, without the position that `error` puts in front
of it.
-/

namespace LibeventServer.Lua.MessagePack

/-- Values, from bytes. -/
abbrev Unpacking : Type → Type := Reading UInt8 String

/-- The names of `types_map`; `fixext n` is `fixext1`, ..., `fixext16`. -/
inductive WireType where
  | nil
  | false
  | true
  | bin8
  | bin16
  | bin32
  | ext8
  | ext16
  | ext32
  | float
  | double
  | uint8
  | uint16
  | uint32
  | uint64
  | int8
  | int16
  | int32
  | int64
  | fixext (n : ℕ)
  | str8
  | str16
  | str32
  | array16
  | array32
  | map16
  | map32
  | fixnum_pos
  | fixmap
  | fixarray
  | fixstr
  | fixnum_neg
  | reserved (k : ℕ)

/-- `types_map[k]` -/
def types_map (k : ℕ) : WireType :=
  match k with
  | 0xC0 => .nil
  | 0xC2 => .false
  | 0xC3 => .true
  | 0xC4 => .bin8
  | 0xC5 => .bin16
  | 0xC6 => .bin32
  | 0xC7 => .ext8
  | 0xC8 => .ext16
  | 0xC9 => .ext32
  | 0xCA => .float
  | 0xCB => .double
  | 0xCC => .uint8
  | 0xCD => .uint16
  | 0xCE => .uint32
  | 0xCF => .uint64
  | 0xD0 => .int8
  | 0xD1 => .int16
  | 0xD2 => .int32
  | 0xD3 => .int64
  | 0xD4 => .fixext 1
  | 0xD5 => .fixext 2
  | 0xD6 => .fixext 4
  | 0xD7 => .fixext 8
  | 0xD8 => .fixext 16
  | 0xD9 => .str8
  | 0xDA => .str16
  | 0xDB => .str32
  | 0xDC => .array16
  | 0xDD => .array32
  | 0xDE => .map16
  | 0xDF => .map32
  | k =>
    if k < 0xC0 then
      if k < 0x80 then .fixnum_pos
      else if k < 0x90 then .fixmap
      else if k < 0xA0 then .fixarray
      else .fixstr
    else if k > 0xDF then .fixnum_neg
    else .reserved k

/-! ### Tables -/

/-- `t[k] = v`.  An entry that is new comes last. -/
def setEntry (t : List (Value Number × Value Number)) (k v : Value Number) : List (Value Number × Value Number) :=
  let t := t.filter fun e => !e.1.rawequal k
  if v.isNil then t else t ++ [(k, v)]

/-- The key is `nil` or not a number; `m.sentinel` is `nil`. -/
def skipped : Value Number → Bool
  | .nil => true
  | .num .nan => true
  | _ => false

/-- The loop of `unpack_array`, for the `i` of the next turn, the turns left, and the table so far. -/
def unpackArrayFrom (decode : Unpacking (Value Number)) (i : ℕ) :
    ℕ → List (Value Number × Value Number) → Unpacking (Value Number)
  | 0, t => pure (.table t)
  | n + 1, t => do
    let v ← decode
    unpackArrayFrom decode (i + 1) n (setEntry t (.num (.finite i)) v)

def unpack_array (decode : Unpacking (Value Number)) (n : ℕ) : Unpacking (Value Number) :=
  unpackArrayFrom decode 1 n []

/-- The loop of `unpack_map`. -/
def unpackMapFrom (decode : Unpacking (Value Number)) :
    ℕ → List (Value Number × Value Number) → Unpacking (Value Number)
  | 0, t => pure (.table t)
  | n + 1, t => do
    let k ← decode
    let val ← decode
    unpackMapFrom decode n (if skipped k then t else setEntry t k val)

def unpack_map (decode : Unpacking (Value Number)) (n : ℕ) : Unpacking (Value Number) := unpackMapFrom decode n []

/-! ### Numbers -/

/-- An integer of Lua: 64 bits, and it wraps. -/
def wrap (n : ℤ) : ℤ := Int.bmod n (2 ^ 64)

/-- `((b1 * 0x100 + b2) * 0x100 + ...) * 0x100 + bn` -/
def bigEndian (bytes : List UInt8) : ℤ := bytes.foldl (fun n b => wrap (n * 0x100 + b.toNat)) 0

/-- The branch of `int16`, `int32` and `int64` for a first byte from 0x80 on:
`((b1 - 0xFF) * 0x100 + (b2 - 0xFF)) * 0x100 + ... - 1`. -/
def bigEndianNeg (bytes : List UInt8) : ℤ :=
  wrap (bytes.foldl (fun n b => wrap (n * 0x100 + (b.toNat - 0xFF))) 0 - 1)

/-- An integer value. -/
def integer (n : ℤ) : Value Number := .num (.finite n)

namespace unpackers

/-- `uint8`, `uint16`, `uint32` and `uint64`: `k` bytes. -/
def uint (k : ℕ) : Unpacking (Value Number) := do
  let bytes ← Reading.next k
  return integer (bigEndian bytes)

/-- The sign is that of the first byte. -/
def negative (bytes : List UInt8) : Bool := bytes.head?.any fun b => 0x80 ≤ b.toNat

def int8 : Unpacking (Value Number) := do
  let bytes ← Reading.next 1
  let b1 := bigEndian bytes
  return integer (if b1 < 0x80 then b1 else b1 - 0x100)

/-- `int16`, `int32` and `int64`: `k` bytes. -/
def int (k : ℕ) : Unpacking (Value Number) := do
  let bytes ← Reading.next k
  return integer (if negative bytes then bigEndianNeg bytes else bigEndian bytes)

/-- The value of a float or double with these fields: `emax` is the exponent of infinities, `bias` the one of 1, and
`width` the number of bits of the mantissa. -/
def ofFields (emax bias : ℤ) (width : ℕ) (sign : Bool) (expo mant : ℤ) : Number :=
  if mant = 0 ∧ expo = 0 then .finite 0
  else if expo = emax then if mant = 0 then .inf sign else .nan
  else .finite ((if sign then -1 else 1) * ldexp (1 + mant / 2 ^ width) (expo - bias))

def float : Unpacking (Value Number) := do
  let bytes ← Reading.next 4
  let b1 := bigEndian (bytes.take 1)
  let b2 := bigEndian ((bytes.drop 1).take 1)
  let expo := b1 % 0x80 * 0x2 + b2 / 0x80
  let mant := b2 % 0x80 * 0x10000 + bigEndian (bytes.drop 2)
  return .num (ofFields 0xFF 0x7F 23 (negative bytes) expo mant)

def double : Unpacking (Value Number) := do
  let bytes ← Reading.next 8
  let b1 := bigEndian (bytes.take 1)
  let b2 := bigEndian ((bytes.drop 1).take 1)
  let expo := b1 % 0x80 * 0x10 + b2 / 0x10
  let mant := b2 % 0x10 * 0x1000000000000 + bigEndian (bytes.drop 2)
  return .num (ofFields 0x7FF 0x3FF 52 (negative bytes) expo mant)

/-- `n` bytes as a string. -/
def str (n : ℕ) : Unpacking (Value Number) := do
  let s ← Reading.next n
  return .str s

/-- A size in the next `k` bytes. -/
def size (k : ℕ) : Unpacking ℕ := do
  let bytes ← Reading.next k
  return (bigEndian bytes).toNat

/-- `m.build_ext(tag, data)` -/
def build_ext (_tag : ℤ) (_data : List UInt8) : Value Number := .nil

/-- The tag and `n` bytes. -/
def ext (n : ℕ) : Unpacking (Value Number) := do
  let tag ← Reading.next 1
  let data ← Reading.next n
  return build_ext (let tag := bigEndian tag; if tag < 0x80 then tag else tag - 0x100) data

/-- `unpackers[t](c, val)` -/
def unpacker (decode : Unpacking (Value Number)) (val : ℕ) : WireType → Unpacking (Value Number)
  | .nil => pure .nil
  | .false => pure (.bool Bool.false)
  | .true => pure (.bool Bool.true)
  | .float => float
  | .double => double
  | .fixnum_pos => pure (integer val)
  | .uint8 => uint 1
  | .uint16 => uint 2
  | .uint32 => uint 4
  | .uint64 => uint 8
  | .fixnum_neg => pure (integer (val - 0x100))
  | .int8 => int8
  | .int16 => int 2
  | .int32 => int 4
  | .int64 => int 8
  | .fixstr => str (val % 0x20)
  | .str8 => size 1 >>= str
  | .str16 => size 2 >>= str
  | .str32 => size 4 >>= str
  | .bin8 => size 1 >>= str
  | .bin16 => size 2 >>= str
  | .bin32 => size 4 >>= str
  | .fixarray => unpack_array decode (val % 0x10)
  | .array16 => size 2 >>= unpack_array decode
  | .array32 => size 4 >>= unpack_array decode
  | .fixmap => unpack_map decode (val % 0x10)
  | .map16 => size 2 >>= unpack_map decode
  | .map32 => size 4 >>= unpack_map decode
  | .fixext n => ext n
  | .ext8 => size 1 >>= ext
  | .ext16 => size 2 >>= ext
  | .ext32 => size 4 >>= ext
  | .reserved k => .raise ("unpack 'reserved" ++ toString k ++ "' is unimplemented")

/-- `unpackers['any'](c)` -/
def any : ℕ → Unpacking (Value Number)
  | 0 => .raise "stack overflow"
  | fuel + 1 => do
    let val ← Reading.next 1
    let val := (bigEndian val).toNat
    unpacker (any fuel) val (types_map val)

end unpackers

/-! ### Cursors -/

/-- A cursor: the string, the index of the next byte, the index of the last one, and for a loader the chunks that the
function will return before it returns `nil`. -/
structure Cursor where
  s : List UInt8
  i : ℕ
  j : ℕ
  ld : Option (List (List UInt8))

def cursor_string (str : List UInt8) : Cursor := { s := str, i := 1, j := str.length, ld := none }

def cursor_loader (ld : List (List UInt8)) : Cursor := { s := [], i := 1, j := 0, ld := some ld }

namespace Cursor

/-- The loop `while e > self.j` of the loader. -/
def load (e : ℕ) (s : List UInt8) (j : ℕ) : List (List UInt8) → EStateM.Result String Cursor Unit
  | [] =>
    if e > j then .error "missing bytes" { s := s, i := 1, j := j, ld := some [] }
    else .ok () { s := s, i := 1, j := j, ld := some [] }
  | chunk :: ld =>
    if e > j then load e (s ++ chunk) (s ++ chunk).length ld
    else .ok () { s := s, i := 1, j := j, ld := some (chunk :: ld) }

/-- `c:underflow(e)` -/
def underflow (e : ℕ) : EStateM String Cursor Unit := fun self =>
  match self.ld with
  | none => .error "missing bytes" self
  | some ld => load (e + 1 - self.i) (self.s.drop (self.i - 1)) 0 ld

/-- The lines by which an unpacker takes the next `k` bytes. -/
def fetch (k : ℕ) : EStateM String Cursor (List UInt8) := do
  let c ← get
  if c.i + k > c.j + 1 then underflow (c.i + k - 1)
  modifyGet fun c => ((c.s.drop (c.i - 1)).take k, { c with i := c.i + k })

end Cursor

/-- Fuel that is enough for so many bytes. -/
def anyFuel (n : ℕ) : ℕ := n + 1

/-- `m.unpack(s)` -/
def unpack (s : List UInt8) : Except String (Value Number) :=
  match (unpackers.any (anyFuel s.length)).runOn Cursor.fetch (cursor_string s) with
  | .ok data cursor => if cursor.i < cursor.j then .error "extra bytes" else .ok data
  | .error msg _ => .error msg

end LibeventServer.Lua.MessagePack

import LibeventServer.Lib.Pattern
import LibeventServer.Lua.Chunk

/-!
# `string.match`

Patterns as `lstrlib.c` matches them.  What no pattern of the scripts uses is left out: ranges, the suffixes `?` and
`+`, position captures, `%b`, `%f` and back references.  Characters are classified as in the C locale; the depth of
the recursion is bounded by the pattern and far below `MAXCCALLS`.
-/

namespace LibeventServer.Lua

/-! ### The C library -/

def isdigit (c : UInt8) : Bool := '0'.toUInt8 ≤ c && c ≤ '9'.toUInt8

def isupper (c : UInt8) : Bool := 'A'.toUInt8 ≤ c && c ≤ 'Z'.toUInt8

def islower (c : UInt8) : Bool := 'a'.toUInt8 ≤ c && c ≤ 'z'.toUInt8

def isalpha (c : UInt8) : Bool := isupper c || islower c

def isalnum (c : UInt8) : Bool := isalpha c || isdigit c

def isspace (c : UInt8) : Bool := c == 32 || (9 ≤ c && c ≤ 13)

def iscntrl (c : UInt8) : Bool := c < 32 || c == 127

def isgraph (c : UInt8) : Bool := 32 < c && c < 127

def ispunct (c : UInt8) : Bool := isgraph c && !isalnum c

def isxdigit (c : UInt8) : Bool :=
  isdigit c || ('A'.toUInt8 ≤ c && c ≤ 'F'.toUInt8) || ('a'.toUInt8 ≤ c && c ≤ 'f'.toUInt8)

/-! ### Single characters -/

/-- A member of a set: `%` and a character, or a character. -/
inductive Member where
  | esc (cl : Char)
  | char (c : Char)

/-- What matches a single character: `.`, `%` and a character, a set or its complement, a character. -/
inductive Single where
  | any
  | esc (cl : Char)
  | set (complement : Bool) (members : List Member)
  | char (c : Char)

def match_class (c : UInt8) (cl : Char) : Bool :=
  let signed (res : Bool) : Bool := if cl.isLower then res else !res
  match cl.toLower with
  | 'a' => signed (isalpha c)
  | 'c' => signed (iscntrl c)
  | 'd' => signed (isdigit c)
  | 'g' => signed (isgraph c)
  | 'l' => signed (islower c)
  | 'p' => signed (ispunct c)
  | 's' => signed (isspace c)
  | 'u' => signed (isupper c)
  | 'w' => signed (isalnum c)
  | 'x' => signed (isxdigit c)
  | 'z' => signed (c == 0)
  | _ => cl.toUInt8 == c

def Member.holds (c : UInt8) : Member → Bool
  | esc cl => match_class c cl
  | char d => d.toUInt8 == c

def matchbracketclass (c : UInt8) (complement : Bool) (members : List Member) : Bool :=
  if members.any (Member.holds c) then !complement else complement

def singlematch : Single → UInt8 → Bool
  | .any, _ => true
  | .esc cl, c => match_class c cl
  | .set complement members, c => matchbracketclass c complement members
  | .char d, c => d.toUInt8 == c

/-! ### Patterns -/

/-- A pattern of the scripts: `^` in front, what is to be matched, `$` behind. -/
structure LuaPattern where
  anchor : Bool
  items : Pattern Single
  dollar : Bool

def Member.text : Member → List Char
  | esc cl => ['%', cl]
  | char c => [c]

def Single.text : Single → List Char
  | any => ['.']
  | esc cl => ['%', cl]
  | set complement members => '[' :: (if complement then ['^'] else []) ++ members.flatMap Member.text ++ [']']
  | char c => [c]

def suffix : Repetition → List Char
  | .one => []
  | .max => ['*']
  | .min => ['-']

def itemsText : Pattern Single → List Char
  | .done => []
  | .single cl rep rest => cl.text ++ suffix rep ++ itemsText rest
  | .capture body rest => '(' :: itemsText body ++ ')' :: itemsText rest

/-- The pattern as it is written. -/
def LuaPattern.text (p : LuaPattern) : List Char :=
  (if p.anchor then ['^'] else []) ++ itemsText p.items ++ (if p.dollar then ['$'] else [])

/-- What a match returns that began at `s` and ended at `e`: the captures, or the whole match if there are none. -/
def push_captures (s e : Str) (caps : List Str) : List Str :=
  if caps.isEmpty then [s.take (s.length - e.length)] else caps

/-- A match that begins at `s`. -/
def do_match (p : LuaPattern) (s : Str) : Option (List Str) :=
  p.items.run singlematch (fun e caps => if p.dollar && !e.isEmpty then none else some (push_captures s e caps)) s []

/-- `string.match(s, p)`; a match begins as early as possible. -/
def str_match (s : Str) (p : LuaPattern) : Option (List Str) :=
  if p.anchor then do_match p s else Pattern.minExpand (fun _ => true) (do_match p) s

end LibeventServer.Lua

import LibeventServer.Lua.Strings
import LibeventServer.Lua.Value

/-!
# INI files

`load_ini` of `res_mgr.lua`, as the server has it, and what its patterns find in a line.  `string_split` is defined
outside the scripts: here it is the list of what it returns, in the order in which `pairs` comes to it.  The global
`lines`, which nothing else reads, is left out.
-/

namespace LibeventServer.Lua

namespace res_mgr

/-- `^%s*(.-)%s*$` -/
def trimmed : LuaPattern where
  anchor := true
  items := .single (.esc 's') .max (.capture (.single .any .min .done) (.single (.esc 's') .max .done))
  dollar := true

/-- `^[%;#]` -/
def comment : LuaPattern where
  anchor := true
  items := .single (.set false [.esc ';', .char '#']) .one .done
  dollar := false

/-- `^%[([%w%s]*)%]$` -/
def header : LuaPattern where
  anchor := true
  items := .single (.esc '[') .one
    (.capture (.single (.set false [.esc 'w', .esc 's']) .max .done) (.single (.esc ']') .one .done))
  dollar := true

/-- `([^=]*)%=(.*)` -/
def assignment : LuaPattern where
  anchor := false
  items := .capture (.single (.set true [.char '=']) .max .done)
    (.single (.esc '=') .one (.capture (.single .any .max .done) .done))
  dollar := false

/-- `^%s*(%S*)%s*$` -/
def word : LuaPattern where
  anchor := true
  items := .single (.esc 's') .max (.capture (.single (.esc 'S') .max .done) (.single (.esc 's') .max .done))
  dollar := true

example : [trimmed, comment, header, assignment, word].map LuaPattern.text =
    ["^%s*(.-)%s*$", "^[%;#]", "^%[([%w%s]*)%]$", "([^=]*)%=(.*)", "^%s*(%S*)%s*$"].map String.toList := by decide

/-- How an assignment to a field fails: `index is nil`, or `attempt to index` what is not a table. -/
inductive Raised where
  | index_is_nil
  | attempt_to_index

section

variable {N : Type}

/-- `t[key] = v` for a table with these entries. -/
def settable (entries : List (Value N × Value N)) : Value N → Value N → Except Raised (List (Value N × Value N))
  | .nil, _ => .error .index_is_nil
  | key, v => .ok ((key, v) :: entries)

/-- `u[key] = v`; a string has no `__newindex`. -/
def setindex : Value N → Value N → Value N → Except Raised (Value N)
  | .table entries, key, v => (settable entries key v).map .table
  | _, _, _ => .error .attempt_to_index

/-- The first result of a match. -/
def first : Option (List Str) → Value N
  | some (s :: _) => .str s
  | _ => .nil

/-- The variables of `load_ini`, and what was printed: `t` by its entries, `section` after the last header. -/
structure Ini (N : Type) where
  t : List (Value N × Value N)
  section_ : Option Str
  line_counter : Nat
  printed : List (List (Value N))

/-- `res_mgr.open`: the content of a file, and what was printed. -/
def raw_open (files : Str → Option Str) (name : Str) : Option Str × List (List (Value N)) :=
  (files name, [[.str (literal "load file :"), .str name]])

variable [DecidableEq N] (H : Host N)

def tonumber : Value N → Value N
  | .num x => .num x
  | .str s => (H.luaO_str2num s).elim .nil .num
  | _ => .nil

/-- A number, a truth value, or the text itself. -/
def convert (value : Value N) : Value N :=
  let value := if (tonumber H value).truthy then tonumber H value else value
  let value := if value.rawequal (.str (literal "true")) then .bool true else value
  if value.rawequal (.str (literal "false")) then .bool false else value

/-- `section = s`, and `t[section] = t[section] or {}` -/
def Ini.enter (σ : Ini N) (s : Str) : Ini N :=
  let old := Value.rawget σ.t (.str s)
  { σ with section_ := some s, t := (.str s, if old.truthy then old else .table []) :: σ.t }

/-- `t[key] = value` before the first section, `t[section][key] = value` in one.  The table of a section is nowhere
but in `t`. -/
def Ini.store (σ : Ini N) (key value : Value N) : Except Raised (Ini N) :=
  match σ.section_ with
  | none => (settable σ.t key value).map fun t => { σ with t := t }
  | some s => (setindex (Value.rawget σ.t (.str s)) key value).map fun inner => { σ with t := (.str s, inner) :: σ.t }

variable [NatCast N]

def Ini.complain (σ : Ini N) (path : Str) : Ini N :=
  { σ with printed := σ.printed ++ [[.str (literal "error loading"), .str path, .str (literal "at line"),
      .num (σ.line_counter : N)]] }

/-- A turn of the loop. -/
def turn (path : Str) (σ : Ini N) (fline : Str) : Except Raised (Ini N) :=
  let σ := { σ with line_counter := σ.line_counter + 1 }
  match str_match fline trimmed with
  | some (line :: _) =>
    if (str_match line comment).isNone ∧ 0 < line.length then
      let σ := match str_match line header with
        | some (s :: _) => σ.enter s
        | _ => σ
      match str_match line assignment with
      | some (key :: value :: _) =>
        let key := first (str_match key word)
        let value := convert H (first (str_match value trimmed))
        σ.store key value
      | _ => .ok (σ.complain path)
    else .ok σ
  | _ => .error .attempt_to_index

/-- The table that is returned, and what was printed. -/
def load_ini (files : Str → Option Str) (string_split : Str → Str → List Str) (path : Str) :
    Except Raised (Value N × List (List (Value N))) :=
  let (content, printed) := raw_open files path
  match content with
  | none => .ok (.table [], printed ++ [[.str (literal "error open ini file"), .str path]])
  | some content =>
    ((string_split content (literal "\n")).foldlM (turn H path) ⟨[], none, 0, printed⟩).map fun σ =>
      (.table σ.t, σ.printed)

end

end res_mgr

/-! ### Classes -/

private theorem singlematch_space : singlematch (.esc 's') = isspace := rfl

private theorem singlematch_nonspace : singlematch (.esc 'S') = fun c => !isspace c := rfl

private theorem singlematch_any : singlematch .any = fun _ => true := rfl

/-- `[%w%s]` -/
def isword (c : UInt8) : Bool := isalnum c || isspace c

private theorem singlematch_word : singlematch (.set false [.esc 'w', .esc 's']) = isword := by
  funext c
  show (if (isalnum c || (isspace c || false)) then !false else false) = isword c
  simp [isword]

private theorem singlematch_not_equals : singlematch (.set true [.char '=']) = fun c => !(c == '='.toUInt8) := by
  funext c
  show (if (('='.toUInt8 == c) || false) then !true else true) = _
  rw [Bool.or_false, BEq.comm]
  cases c == '='.toUInt8 <;> rfl

/-! ### What is found -/

/-- The text without white space around it. -/
def trim (s : Str) : Str := (s.dropWhile isspace).rdropWhile isspace

private theorem do_match_of_dollar {p : LuaPattern} (h : p.dollar = true) (s : Str) :
    do_match p s =
      p.items.run singlematch (fun e caps => if e = [] then some (push_captures s [] caps) else none) s [] := by
  unfold do_match
  congr 1
  funext e caps
  cases e <;> simp [h]

/-- `%s*$` -/
private theorem run_spaces_end {β : Type} (g : List Str → β) (s : Str) (caps : List Str) :
    Pattern.run singlematch (.single (.esc 's') .max .done)
    (fun e caps => if e = [] then some (g caps) else none) s caps =
      if s.all isspace then some (g caps) else none := by
  simp only [Pattern.run, singlematch_space]
  exact Pattern.maxExpand_end (g caps) s

theorem str_match_trimmed (s : Str) : str_match s res_mgr.trimmed = some [trim s] := by
  have hanchor : str_match s res_mgr.trimmed = do_match res_mgr.trimmed s := rfl
  rw [hanchor, do_match_of_dollar rfl]
  show Pattern.maxExpand (singlematch (.esc 's')) _ s = _
  rw [singlematch_space]
  refine Pattern.maxExpand_of_some ?_
  -- the shortest text with nothing but white space behind it
  have hrest := fun (r e : Str) => run_spaces_end (push_captures s []) e [r.take (r.length - e.length)]
  show Pattern.minExpand (singlematch .any) _ _ = _
  rw [singlematch_any]
  refine (Pattern.minExpand_true_of_all (hrest (s.dropWhile isspace)) _).trans ?_
  rw [Pattern.take_rtakeWhile]
  rfl

theorem str_match_comment (s : Str) :
    str_match s res_mgr.comment = match s with
      | [] => none
      | c :: _ => if c = ';'.toUInt8 ∨ c = '#'.toUInt8 then some [[c]] else none := by
  cases s with
  | nil => rfl
  | cons c s =>
    have hset : singlematch (.set false [.esc ';', .char '#']) c = decide (c = ';'.toUInt8 ∨ c = '#'.toUInt8) := by
      show (if ((';'.toUInt8 == c) || (('#'.toUInt8 == c) || false)) then !false else false) = _
      rw [Bool.or_false, BEq.comm, @BEq.comm _ _ _ '#'.toUInt8 c]
      by_cases h₁ : c = ';'.toUInt8
      · simp [h₁]
      · by_cases h₂ : c = '#'.toUInt8 <;> simp [h₁, h₂]
    show (if singlematch (.set false [.esc ';', .char '#']) c then some (push_captures (c :: s) s []) else none) = _
    rw [hset]
    by_cases h : c = ';'.toUInt8 ∨ c = '#'.toUInt8
    · simp [h, push_captures]
    · simp [h]

/-- The name between the brackets of a section header. -/
def sectionName : Str → Option Str
  | [] => none
  | c :: rest =>
    if c = '['.toUInt8 ∧ rest.dropWhile isword = [']'.toUInt8] then some (rest.takeWhile isword) else none

theorem sectionName_eq_some {line name : Str} :
    sectionName line = some name ↔ line = '['.toUInt8 :: name ++ [']'.toUInt8] ∧ ∀ c ∈ name, isword c := by
  have hbracket : ¬ isword ']'.toUInt8 := by decide
  constructor
  · intro h
    cases line with
    | nil => cases h
    | cons c rest =>
      rw [sectionName] at h
      split at h
      · rename_i hc
        cases h
        have hsplit := List.takeWhile_append_dropWhile (p := isword) (l := rest)
        rw [hc.2] at hsplit
        refine ⟨by rw [hc.1, List.cons_append, hsplit], fun d hd => List.mem_takeWhile_imp hd⟩
      · cases h
  · rintro ⟨rfl, hname⟩
    have hdrop : (name ++ [']'.toUInt8]).dropWhile isword = [']'.toUInt8] := by
      rw [List.dropWhile_append_of_pos hname, List.dropWhile_cons_of_neg hbracket]
    have htake : (name ++ [']'.toUInt8]).takeWhile isword = name := by
      rw [List.takeWhile_append_of_pos hname, List.takeWhile_cons_of_neg hbracket, List.append_nil]
    rw [List.cons_append, sectionName, if_pos ⟨rfl, hdrop⟩, htake]

theorem str_match_header (s : Str) : str_match s res_mgr.header = (sectionName s).map fun name => [name] := by
  have hanchor : str_match s res_mgr.header = do_match res_mgr.header s := rfl
  rw [hanchor, do_match_of_dollar rfl]
  cases s with
  | nil => rfl
  | cons c rest =>
    show (if ('['.toUInt8 == c) then Pattern.maxExpand (singlematch (.set false [.esc 'w', .esc 's'])) _
      rest else none) = _
    rw [singlematch_word, sectionName]
    by_cases hc : c = '['.toUInt8
    · have hrefuse : ∀ d, isword d → ¬ (']'.toUInt8 == d) := by
        intro d hd heq
        rw [← eq_of_beq heq] at hd
        exact absurd hd (by decide)
      rw [if_pos (by rw [hc]; exact beq_self_eq_true _), Pattern.maxExpand_eq_of_none]
      · simp only [hc, true_and]
        have htake := Pattern.take_dropWhile isword rest
        generalize rest.dropWhile isword = e at htake
        cases e with
        | nil => rfl
        | cons d t =>
          show (if (']'.toUInt8 == d) then
            (if t = [] then some [rest.take (rest.length - (d :: t).length)] else none) else none) = _
          rw [htake]
          by_cases hd : d = ']'.toUInt8
          · by_cases ht : t = [] <;> simp [hd, ht]
          · have hne : ¬ (']'.toUInt8 == d) := fun h => hd (eq_of_beq h).symm
            simp [hd, hne]
      · intro d t hd
        exact if_neg (hrefuse d hd)
    · have hne : ¬ ('['.toUInt8 == c) := fun h => hc (eq_of_beq h).symm
      rw [if_neg hne, if_neg fun h => hc h.1, Option.map_none]

/-- What is before and what is after the first `=`. -/
def equation (line : Str) : Option (Str × Str) :=
  match line.dropWhile fun c => !(c == '='.toUInt8) with
  | [] => none
  | _ :: value => some (line.takeWhile fun c => !(c == '='.toUInt8), value)

theorem equation_eq_some {line key value : Str} :
    equation line = some (key, value) ↔ line = key ++ '='.toUInt8 :: value ∧ '='.toUInt8 ∉ key := by
  constructor
  · intro h
    have hsplit := List.takeWhile_append_dropWhile (p := fun c => !(c == '='.toUInt8)) (l := line)
    have hmem : ∀ c ∈ line.takeWhile fun c => !(c == '='.toUInt8), c ≠ '='.toUInt8 := by
      intro c hc heq
      have hpos := List.mem_takeWhile_imp hc
      simp [heq] at hpos
    unfold equation at h
    cases hdrop : line.dropWhile fun c => !(c == '='.toUInt8) with
    | nil => simp [hdrop] at h
    | cons c rest =>
      have hc : c = '='.toUInt8 := by simpa using Pattern.head_of_dropWhile hdrop
      simp only [hdrop, Option.some.injEq, Prod.mk.injEq] at h
      obtain ⟨rfl, rfl⟩ := h
      rw [hdrop, hc] at hsplit
      exact ⟨hsplit.symm, fun hin => hmem _ hin rfl⟩
  · rintro ⟨rfl, hkey⟩
    have hpos : ∀ c ∈ key, (!(c == '='.toUInt8)) = true := by
      intro c hc
      have hne : c ≠ '='.toUInt8 := fun heq => hkey (heq ▸ hc)
      simp [hne]
    unfold equation
    rw [List.dropWhile_append_of_pos hpos, List.takeWhile_append_of_pos hpos]
    simp

private theorem do_match_assignment (s : Str) :
    do_match res_mgr.assignment s = (equation s).map fun kv => [kv.1, kv.2] := by
  show Pattern.maxExpand (singlematch (.set true [.char '='])) _ s = _
  rw [singlematch_not_equals, Pattern.maxExpand_eq_of_none]
  · have htake := Pattern.take_dropWhile (fun c => !(c == '='.toUInt8)) s
    unfold equation
    cases hdrop : s.dropWhile fun c => !(c == '='.toUInt8) with
    | nil => rfl
    | cons c value =>
      have hc : c = '='.toUInt8 := by simpa using Pattern.head_of_dropWhile hdrop
      rw [hdrop] at htake
      have hvalue : Pattern.maxExpand (fun _ => true) (fun e => some (push_captures s e
          ([s.take (s.length - (c :: value).length)] ++ [value.take (value.length - e.length)]))) value =
          some [s.take (s.length - (c :: value).length), value] := by
        refine Pattern.maxExpand_of_some ?_
        have hnil : value.dropWhile (fun _ => true) = [] := by simp
        rw [hnil]
        simp [push_captures]
      show (if ('='.toUInt8 == c) then _ else none) = _
      rw [if_pos (by rw [hc]; exact beq_self_eq_true _)]
      refine hvalue.trans ?_
      rw [htake, Option.map_some]
  · intro c t hc
    have hne : ¬ ('='.toUInt8 == c) := by
      intro h
      rw [← eq_of_beq h] at hc
      exact absurd hc (by decide)
    exact if_neg hne

theorem str_match_assignment (s : Str) :
    str_match s res_mgr.assignment = (equation s).map fun kv => [kv.1, kv.2] := by
  have hscan : str_match s res_mgr.assignment = Pattern.minExpand (fun _ => true) (do_match res_mgr.assignment) s :=
    rfl
  rw [hscan]
  cases heq : equation s with
  | some kv =>
    refine Pattern.minExpand_of_some ?_
    rw [do_match_assignment, heq]
    rfl
  | none =>
    -- no `=`, so none further on
    refine Pattern.minExpand_eq_none fun a b hsplit => ?_
    rw [do_match_assignment]
    cases hb : equation b with
    | none => rfl
    | some kv =>
      obtain ⟨key, value⟩ := kv
      have hmem : '='.toUInt8 ∈ s := by
        rw [hsplit, (equation_eq_some.1 hb).1]
        simp
      have hdrop : s.dropWhile (fun c => !(c == '='.toUInt8)) = [] := by
        unfold equation at heq
        cases h : s.dropWhile fun c => !(c == '='.toUInt8) with
        | nil => rfl
        | cons c t => simp [h] at heq
      have hall := List.dropWhile_eq_nil_iff.1 hdrop _ hmem
      simp at hall

/-- White space inside a text is left, that around it is not. -/
private theorem trim_of_word {w : Str} (hw : ∀ c ∈ w, isspace c = false) {b : Str} (hb : b.all isspace) :
    (w ++ b).rdropWhile isspace = w := by
  induction b using List.reverseRecOn with
  | nil =>
    rw [List.append_nil, List.rdropWhile_eq_self_iff]
    intro hne
    simpa using hw _ (List.getLast_mem hne)
  | append_singleton b c ih =>
    rw [List.all_append, Bool.and_eq_true] at hb
    have hc : isspace c := by simpa using hb.2
    rw [← List.append_assoc, List.rdropWhile_concat_pos _ _ _ hc, ih hb.1]

/-- `(%S*)%s*$` -/
private theorem run_word (s b : Str) :
    Pattern.run singlematch (.capture (.single (.esc 'S') .max .done) (.single (.esc 's') .max .done))
      (fun e caps => if e = [] then some (push_captures s [] caps) else none) b [] =
      if (b.dropWhile fun c => !isspace c).all isspace then some [b.takeWhile fun c => !isspace c] else none := by
  show Pattern.maxExpand (singlematch (.esc 'S')) _ b = _
  have hrest := fun e : Str => run_spaces_end (push_captures s []) e [b.take (b.length - e.length)]
  rw [singlematch_nonspace, Pattern.maxExpand_eq_of_none]
  · refine (hrest _).trans ?_
    rw [Pattern.take_dropWhile]
    rfl
  · intro c t hc
    refine (hrest (c :: t)).trans (if_neg ?_)
    rw [List.all_cons, Bool.and_eq_true]
    intro h
    simp [h.1] at hc

theorem str_match_word (s : Str) :
    str_match s res_mgr.word = if (trim s).all fun c => !isspace c then some [trim s] else none := by
  have hanchor : str_match s res_mgr.word = do_match res_mgr.word s := rfl
  rw [hanchor, do_match_of_dollar rfl]
  show Pattern.maxExpand (singlematch (.esc 's')) _ s = _
  rw [singlematch_space]
  have hsplit := List.takeWhile_append_dropWhile (p := fun c => !isspace c) (l := s.dropWhile isspace)
  have hword : ∀ c ∈ (s.dropWhile isspace).takeWhile fun c => !isspace c, isspace c = false := by
    intro c hc
    simpa using List.mem_takeWhile_imp hc
  by_cases hb : ((s.dropWhile isspace).dropWhile fun c => !isspace c).all isspace
  · -- after the first word there are only spaces: the word is all of the trimmed text
    have htrim : trim s = (s.dropWhile isspace).takeWhile fun c => !isspace c := by
      have hcut := trim_of_word hword hb
      rw [hsplit] at hcut
      exact hcut
    have hall : (trim s).all fun c => !isspace c := by
      rw [htrim, List.all_eq_true]
      intro c hc
      simp [hword c hc]
    rw [if_pos hall, htrim]
    refine Pattern.maxExpand_of_some ?_
    refine (run_word s _).trans ?_
    rw [if_pos hb]
  · have hinner : ¬ ((trim s).all fun c => !isspace c) := by
      intro hall
      rw [List.all_eq_true] at hall
      have hends : trim s ++ (s.dropWhile isspace).rtakeWhile isspace = s.dropWhile isspace :=
        List.rdropWhile_append_rtakeWhile
      apply hb
      rw [← hends, List.dropWhile_append_of_pos hall, List.all_eq_true]
      intro c hc
      exact List.mem_rtakeWhile_imp ((List.dropWhile_suffix _).subset hc)
    rw [if_neg hinner]
    -- no shorter run of leading spaces helps either: a space is no part of a word
    refine Pattern.maxExpand_eq_none fun a b hs ha => ?_
    refine (run_word s b).trans (if_neg fun hall => hb ?_)
    have hdrop : s.dropWhile isspace = b.dropWhile isspace := by
      rw [hs, List.dropWhile_append_of_pos ha]
    rw [hdrop]
    cases b with
    | nil => rfl
    | cons c t =>
      by_cases hc : isspace c
      · have hrest : (c :: t).dropWhile isspace = [] := by
          rw [List.dropWhile_cons_of_neg (by simp [hc])] at hall
          exact List.dropWhile_eq_nil_iff.2 (List.all_eq_true.1 hall)
        rw [hrest]
        rfl
      · rw [List.dropWhile_cons_of_neg hc]
        exact hall

end LibeventServer.Lua

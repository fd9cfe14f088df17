import LibeventServer.Lib.Runs
import LibeventServer.Lua.Ini

/-!
# What an INI file loads to

A line is read as what it says (`readLine`); the last line for a key of a section counts (`given`).  `load_ini`
returns a table that holds these values exactly when the keys are single words and the names of the sections stay
clear of the keys in front of them (`reads_iff`).
-/

namespace LibeventServer.Lua.res_mgr

open Runs

/-- What a line says: nothing, the name of a section, a key and its value, or what is not understood. -/
inductive Line where
  | blank
  | header (name : Str)
  | assign (key value : Str)
  | other
  deriving DecidableEq

def readLine (fline : Str) : Line :=
  let line := trim fline
  match line with
  | [] => .blank
  | c :: _ =>
    if c = ';'.toUInt8 ∨ c = '#'.toUInt8 then .blank
    else match sectionName line with
      | some name => .header name
      | none => match equation line with
        | some (key, value) => .assign (trim key) (trim value)
        | none => .other

/-- The value of the last line for the key `k` in the section `s`, or in front of every section; the lines are in the
section `cur`. -/
def given (s : Option Str) (k : Str) : Option Str → List Line → Option Str
  | _, [] => none
  | _, .header name :: lines => given s k (some name) lines
  | cur, .assign key value :: lines => (given s k cur lines).or (if cur = s ∧ key = k then some value else none)
  | cur, _ :: lines => given s k cur lines

/-- A line that does not count assigns to another key, if it stands in the section. -/
private theorem given_assign_none {s cur : Option Str} {k key value : Str} {lines : List Line}
    (h : given s k cur (.assign key value :: lines) = none) : given s k cur lines = none ∧ (cur = s → key ≠ k) := by
  rw [given, Option.or_eq_none_iff] at h
  refine ⟨h.1, fun hs hk => ?_⟩
  have hvalue := h.2
  simp [hs, hk] at hvalue

/-- A key without white space. -/
def IsWord (k : Str) : Prop := ∀ c ∈ k, isspace c = false

instance (k : Str) : Decidable (IsWord k) := List.decidableBAll (fun c => isspace c = false) k

/-! ### A turn, by what the line says -/

section

variable {N : Type} [DecidableEq N] [NatCast N] (H : Host N) (path : Str)

/-- A turn of the loop on a line that says this. -/
def Line.turn (σ : Ini N) (line : Line) : Except Raised (Ini N) :=
  let σ := { σ with line_counter := σ.line_counter + 1 }
  match line with
  | .blank => .ok σ
  | .header name => .ok ((σ.enter name).complain path)
  | .assign key value => σ.store (if IsWord key then .str key else .nil) (convert H (.str value))
  | .other => .ok (σ.complain path)

private theorem equation_of_sectionName {line name : Str} (h : sectionName line = some name) :
    equation line = none := by
  obtain ⟨hline, hname⟩ := sectionName_eq_some.1 h
  cases heq : equation line with
  | none => rfl
  | some kv =>
    obtain ⟨key, value⟩ := kv
    have hmem : '='.toUInt8 ∈ line := by
      rw [(equation_eq_some.1 heq).1]
      simp
    rw [hline] at hmem
    simp only [List.mem_cons, List.mem_append, List.not_mem_nil, or_false, List.cons_append] at hmem
    rcases hmem with hmem | hmem | hmem
    · exact absurd hmem (by decide)
    · exact absurd (hname _ hmem) (by decide)
    · exact absurd hmem (by decide)

omit [DecidableEq N] [NatCast N] in
private theorem first_word (key : Str) :
    (first (str_match key word) : Value N) = if IsWord (trim key) then .str (trim key) else .nil := by
  rw [str_match_word]
  have hiff : ((trim key).all fun c => !isspace c) ↔ IsWord (trim key) := by
    rw [List.all_eq_true]
    simp [IsWord]
  by_cases h : IsWord (trim key)
  · rw [if_pos (hiff.2 h), if_pos h]
    rfl
  · rw [if_neg (mt hiff.1 h), if_neg h]
    rfl

private theorem turn_eq (σ : Ini N) (fline : Str) : turn H path σ fline = Line.turn H path σ (readLine fline) := by
  unfold turn readLine
  rw [str_match_trimmed]
  simp only [str_match_comment, str_match_header, str_match_assignment, first_word, str_match_trimmed]
  cases hline : trim fline with
  | nil => simp [Line.turn]
  | cons c rest =>
    by_cases hc : c = ';'.toUInt8 ∨ c = '#'.toUInt8
    · simp [hc, Line.turn]
    · have hlen : 0 < (c :: rest).length := by simp
      simp only [hc, if_false, Option.isNone_none, hlen, true_and, if_true]
      cases hname : sectionName (c :: rest) with
      | some name => simp [equation_of_sectionName hname, Line.turn]
      | none =>
        cases heq : equation (c :: rest) with
        | none => simp [Line.turn]
        | some kv => simp [Line.turn, first]

/-! ### What a turn changes -/

/-- The value under a string in a table with these entries. -/
def entry (entries : List (Value N × Value N)) (k : Str) : Value N := Value.rawget entries (.str k)

omit [NatCast N] in
@[simp] theorem entry_nil (k : Str) : entry ([] : List (Value N × Value N)) k = .nil := rfl

omit [NatCast N] in
@[simp] theorem entry_cons (key k : Str) (v : Value N) (entries : List (Value N × Value N)) :
    entry ((.str key, v) :: entries) k = if key = k then v else entry entries k := by
  have heq : (Value.str key : Value N).rawequal (.str k) = (key == k) := rfl
  unfold entry Value.rawget
  by_cases h : key = k
  · rw [List.find?_cons_of_pos (by rw [heq]; exact beq_iff_eq.2 h), if_pos h]
  · rw [List.find?_cons_of_neg (by rw [heq]; simp [h]), if_neg h]

omit [DecidableEq N] [NatCast N] in
/-- What `t[section] or {}` is, is true. -/
private theorem truthy_or_table (v : Value N) : (if v.truthy then v else .table []).truthy := by
  by_cases h : v.truthy
  · rw [if_pos h]
    exact h
  · rw [if_neg h]
    rfl

variable {H path} {σ σ₁ : Ini N}

private theorem turn_blank (h : Line.turn H path σ .blank = .ok σ₁) : σ₁.section_ = σ.section_ ∧ σ₁.t = σ.t := by
  cases h
  exact ⟨rfl, rfl⟩

private theorem turn_other (h : Line.turn H path σ .other = .ok σ₁) : σ₁.section_ = σ.section_ ∧ σ₁.t = σ.t := by
  cases h
  exact ⟨rfl, rfl⟩

private theorem turn_header {s : Str} (h : Line.turn H path σ (.header s) = .ok σ₁) :
    σ₁.section_ = some s ∧
      ∀ k, entry σ₁.t k =
        if s = k then (if (entry σ.t s).truthy then entry σ.t s else .table []) else entry σ.t k := by
  cases h
  exact ⟨rfl, fun k => entry_cons s k _ σ.t⟩

/-- The key was a word, and what was assigned to was a table. -/
private theorem turn_assign {key value : Str} (h : Line.turn H path σ (.assign key value) = .ok σ₁) :
    IsWord key ∧ σ₁.section_ = σ.section_ ∧ match σ.section_ with
      | none => ∀ k, entry σ₁.t k = if key = k then convert H (.str value) else entry σ.t k
      | some s => ∃ entries, entry σ.t s = .table entries ∧ ∀ k, entry σ₁.t k =
          if s = k then .table ((.str key, convert H (.str value)) :: entries) else entry σ.t k := by
  simp only [Line.turn, Ini.store] at h
  cases hs : σ.section_ with
  | none =>
    rw [hs] at h
    by_cases hkey : IsWord key
    · rw [if_pos hkey] at h
      cases h
      exact ⟨hkey, rfl, fun k => entry_cons key k _ σ.t⟩
    · rw [if_neg hkey] at h
      cases h
  | some s =>
    rw [hs] at h
    cases ht : entry σ.t s with
    | table entries =>
      have ht' : Value.rawget σ.t (.str s) = .table entries := ht
      simp only [ht'] at h
      by_cases hkey : IsWord key
      · rw [if_pos hkey] at h
        cases h
        exact ⟨hkey, rfl, entries, ht, fun k => entry_cons s k _ σ.t⟩
      · rw [if_neg hkey] at h
        cases h
    | _ =>
      have ht' : Value.rawget σ.t (.str s) = _ := ht
      simp only [ht'] at h
      cases h

/-! ### The last line for a key -/

/-- The section after the lines, which are in the section `cur`. -/
def under : Option Str → List Line → Option Str
  | cur, [] => cur
  | _, .header name :: lines => under (some name) lines
  | cur, _ :: lines => under cur lines

/-- A value that is given stands on a line in the section, and nothing is given after it. -/
private theorem given_split {s cur : Option Str} {k v : Str} {lines : List Line} (h : given s k cur lines = some v) :
    ∃ before after, lines = before ++ .assign k v :: after ∧ under cur before = s ∧ given s k s after = none := by
  induction lines generalizing cur with
  | nil => cases h
  | cons line lines ih =>
    have hlater : ∀ cur', given s k cur' lines = some v → (∀ before, under cur (line :: before) = under cur' before) →
        ∃ before after, line :: lines = before ++ .assign k v :: after ∧ under cur before = s ∧
          given s k s after = none := by
      intro cur' h' hunder
      obtain ⟨before, after, hsplit, hs, hnone⟩ := ih h'
      exact ⟨line :: before, after, by rw [hsplit, List.cons_append], by rw [hunder, hs], hnone⟩
    cases line with
    | blank => exact hlater cur h fun _ => rfl
    | other => exact hlater cur h fun _ => rfl
    | header name => exact hlater (some name) h fun _ => rfl
    | assign key value =>
      rw [given] at h
      cases hnext : given s k cur lines with
      | some w =>
        rw [hnext, Option.some_or] at h
        exact hlater cur (hnext.trans h) fun _ => rfl
      | none =>
        rw [hnext, Option.none_or] at h
        split at h
        · rename_i hthis
          obtain ⟨rfl, rfl⟩ := hthis
          cases h
          exact ⟨[], lines, rfl, rfl, hnext⟩
        · cases h

/-- A section other than the one at the start has its header. -/
private theorem header_mem_of_under {cur : Option Str} {name : Str} {lines : List Line}
    (h : under cur lines = some name) (hcur : cur ≠ some name) : .header name ∈ lines := by
  induction lines generalizing cur with
  | nil => exact absurd h hcur
  | cons line lines ih =>
    cases line with
    | header s =>
      by_cases hs : s = name
      · rw [hs]
        exact List.mem_cons_self
      · exact List.mem_cons_of_mem _ (ih h fun heq => hs (Option.some.inj heq))
    | _ => exact List.mem_cons_of_mem _ (ih h hcur)

/-- Behind a header there is nothing in front of the sections. -/
private theorem given_none_of_section (k s : Str) (lines : List Line) : given none k (some s) lines = none := by
  induction lines generalizing s with
  | nil => rfl
  | cons line lines ih => cases line <;> simp [given, ih]

/-! ### What a run of the loop leaves -/

variable {σ' : Ini N} {line : Line} {lines : List Line}

private theorem run_section (h : lines.foldlM (Line.turn H path) σ = .ok σ') :
    σ'.section_ = under σ.section_ lines := by
  refine (foldlM_keeps (P := fun τ rest => under τ.section_ rest = under σ.section_ lines) ?_ rfl h)
  intro τ line rest τ₁ hτ hturn
  rw [← hτ]
  cases line with
  | blank => exact congrArg (under · rest) (turn_blank hturn).1
  | other => exact congrArg (under · rest) (turn_other hturn).1
  | header name => exact congrArg (under · rest) (turn_header hturn).1
  | assign key value => exact congrArg (under · rest) (turn_assign hturn).2.1

/-- The keys of a run that returns are words. -/
private theorem run_words (h : lines.foldlM (Line.turn H path) σ = .ok σ') {key value : Str}
    (hmem : .assign key value ∈ lines) :
    IsWord key := by
  obtain ⟨before, after, rfl⟩ := List.append_of_mem hmem
  obtain ⟨σ₁, σ₂, -, hturn, -⟩ := foldlM_split_ok.1 h
  exact (turn_assign hturn).1

/-- In a section, a value that is true stays. -/
private theorem turn_truthy {k : Str} (hturn : Line.turn H path σ line = .ok σ₁) (hsec : σ.section_ ≠ none)
    (hk : (entry σ.t k).truthy) : σ₁.section_ ≠ none ∧ (entry σ₁.t k).truthy := by
  cases line with
  | blank =>
    obtain ⟨hs, ht⟩ := turn_blank hturn
    rw [hs, ht]
    exact ⟨hsec, hk⟩
  | other =>
    obtain ⟨hs, ht⟩ := turn_other hturn
    rw [hs, ht]
    exact ⟨hsec, hk⟩
  | header s =>
    obtain ⟨hs, ht⟩ := turn_header hturn
    refine ⟨by simp [hs], ?_⟩
    rw [ht]
    by_cases heq : s = k
    · subst heq
      simp [hk]
    · simp [heq, hk]
  | assign key value =>
    obtain ⟨-, hs, ht⟩ := turn_assign hturn
    rw [hs]
    refine ⟨hsec, ?_⟩
    obtain ⟨s, hcur⟩ := Option.ne_none_iff_exists'.1 hsec
    rw [hcur] at ht
    obtain ⟨entries, -, ht⟩ := ht
    rw [ht]
    by_cases heq : s = k
    · rw [if_pos heq]
      rfl
    · rw [if_neg heq]
      exact hk

/-- The name of a section is the key of a value that is true. -/
private theorem run_header {k : Str} (h : lines.foldlM (Line.turn H path) σ = .ok σ') (hk : .header k ∈ lines) :
    (entry σ'.t k).truthy := by
  obtain ⟨before, after, rfl⟩ := List.append_of_mem hk
  obtain ⟨σ₁, σ₂, -, hturn, hrest⟩ := foldlM_split_ok.1 h
  obtain ⟨hs, ht⟩ := turn_header hturn
  have htrue : (entry σ₂.t k).truthy := by
    rw [ht, if_pos rfl]
    exact truthy_or_table _
  have hstart : σ₂.section_ ≠ none ∧ (entry σ₂.t k).truthy := ⟨by simp [hs], htrue⟩
  refine (foldlM_keeps (P := fun (τ : Ini N) _ => τ.section_ ≠ none ∧ (entry τ.t k).truthy) ?_ hstart hrest).2
  intro τ line rest τ₁ hτ hturn
  exact turn_truthy hturn hτ.1 hτ.2

/-- A key of a section to which nothing more is assigned keeps its value. -/
private theorem turn_inner_keep {s k : Str} (hturn : Line.turn H path σ line = .ok σ₁)
    (hkey : given none s σ.section_ (line :: lines) = none)
    (hk : given (some s) k σ.section_ (line :: lines) = none) {entries : List (Value N × Value N)}
    (ht : entry σ.t s = .table entries) :
    given none s σ₁.section_ lines = none ∧ given (some s) k σ₁.section_ lines = none ∧
      ∃ entries', entry σ₁.t s = .table entries' ∧ entry entries' k = entry entries k := by
  cases line with
  | blank =>
    obtain ⟨hs, ht₁⟩ := turn_blank hturn
    rw [hs, ht₁]
    exact ⟨hkey, hk, entries, ht, rfl⟩
  | other =>
    obtain ⟨hs, ht₁⟩ := turn_other hturn
    rw [hs, ht₁]
    exact ⟨hkey, hk, entries, ht, rfl⟩
  | header name =>
    obtain ⟨hs, ht₁⟩ := turn_header hturn
    rw [hs]
    refine ⟨hkey, hk, entries, ?_, rfl⟩
    rw [ht₁]
    by_cases heq : name = s
    · subst heq
      simp [ht, Value.truthy]
    · simp [heq, ht]
  | assign key value =>
    obtain ⟨-, hs, ht₁⟩ := turn_assign hturn
    obtain ⟨hkey', hne⟩ := given_assign_none hkey
    obtain ⟨hk', hne'⟩ := given_assign_none hk
    rw [hs]
    refine ⟨hkey', hk', ?_⟩
    -- an assignment outside of every section, or in another one, leaves the table of `s`
    cases hcur : σ.section_ with
    | none =>
      rw [hcur] at ht₁
      exact ⟨entries, by rw [ht₁, if_neg (hne hcur), ht], rfl⟩
    | some cur =>
      rw [hcur] at ht₁
      obtain ⟨old, hold, ht₁⟩ := ht₁
      by_cases heq : cur = s
      · subst heq
        have hentries : old = entries := Value.table.inj (hold.symm.trans ht)
        exact ⟨_, by rw [ht₁, if_pos rfl], by rw [entry_cons, if_neg (hne' hcur), hentries]⟩
      · exact ⟨entries, by rw [ht₁, if_neg heq, ht], rfl⟩

/-- The last line for a key of a section counts. -/
private theorem run_inner {s k v : Str} (h : lines.foldlM (Line.turn H path) σ = .ok σ')
    (hk : given (some s) k σ.section_ lines = some v) :
    ∃ entries, entry σ'.t s = .table entries ∧ entry entries k = convert H (.str v) := by
  obtain ⟨before, after, rfl, hunder, hnone⟩ := given_split hk
  obtain ⟨σ₁, σ₂, hbefore, hturn, hafter⟩ := foldlM_split_ok.1 h
  obtain ⟨-, hs, ht⟩ := turn_assign hturn
  have hcur : σ₁.section_ = some s := (run_section hbefore).trans hunder
  rw [hcur] at hs ht
  obtain ⟨old, -, ht⟩ := ht
  have hstart : given none s σ₂.section_ after = none ∧ given (some s) k σ₂.section_ after = none ∧
      ∃ entries, entry σ₂.t s = .table entries ∧ entry entries k = convert H (.str v) := by
    rw [hs]
    exact ⟨given_none_of_section s s after, hnone, _, by rw [ht, if_pos rfl], by rw [entry_cons, if_pos rfl]⟩
  refine (foldlM_keeps (P := fun (τ : Ini N) rest => given none s τ.section_ rest = none ∧
    given (some s) k τ.section_ rest = none ∧
      ∃ entries, entry τ.t s = .table entries ∧ entry entries k = convert H (.str v)) ?_ hstart hafter).2.2
  rintro τ line rest τ₁ ⟨hfront, hrest, entries, htable, hvalue⟩ hturn
  obtain ⟨hfront₁, hrest₁, entries₁, htable₁, hsame⟩ := turn_inner_keep hturn hfront hrest htable
  exact ⟨hfront₁, hrest₁, entries₁, htable₁, hsame.trans hvalue⟩

/-- A value that is no table stays, unless a section takes its place. -/
private theorem turn_top_keep {k : Str} (hturn : Line.turn H path σ line = .ok σ₁)
    (hk : given none k σ.section_ (line :: lines) = none) (htable : ∀ entries, entry σ.t k ≠ .table entries)
    (htrue : .header k ∈ line :: lines → (entry σ.t k).truthy) :
    given none k σ₁.section_ lines = none ∧ entry σ₁.t k = entry σ.t k := by
  cases line with
  | blank =>
    obtain ⟨hs, ht⟩ := turn_blank hturn
    rw [hs, ht]
    exact ⟨hk, rfl⟩
  | other =>
    obtain ⟨hs, ht⟩ := turn_other hturn
    rw [hs, ht]
    exact ⟨hk, rfl⟩
  | header name =>
    obtain ⟨hs, ht⟩ := turn_header hturn
    rw [hs, ht]
    refine ⟨hk, ?_⟩
    by_cases heq : name = k
    · subst heq
      have htruthy := htrue List.mem_cons_self
      rw [if_pos rfl, if_pos htruthy]
    · rw [if_neg heq]
  | assign key value =>
    obtain ⟨-, hs, ht⟩ := turn_assign hturn
    obtain ⟨hk', hne⟩ := given_assign_none hk
    rw [hs]
    refine ⟨hk', ?_⟩
    cases hcur : σ.section_ with
    | none =>
      rw [hcur] at ht
      rw [ht, if_neg (hne hcur)]
    | some cur =>
      rw [hcur] at ht
      obtain ⟨old, hold, ht⟩ := ht
      -- the key of the open section holds a table, so it is not `k`
      have hne : cur ≠ k := by
        rintro rfl
        exact htable old hold
      rw [ht, if_neg hne]

omit [NatCast N] in
private theorem convert_str (v : Str) :
    convert H (.str v) = match H.luaO_str2num v with
      | some x => .num x
      | none => if v = literal "true" then .bool true else if v = literal "false" then .bool false else .str v := by
  have hstr : ∀ w, (Value.str v : Value N).rawequal (.str w) = (v == w) := fun _ => rfl
  have hnumber : ∀ x w, (Value.num x : Value N).rawequal (.str w) = false := fun _ _ => rfl
  have hbool : ∀ b w, (Value.bool b : Value N).rawequal (.str w) = false := fun _ _ => rfl
  have hnil : (Value.nil : Value N).truthy = false := rfl
  have htruthy : ∀ x, (Value.num x : Value N).truthy = true := fun _ => rfl
  cases hnum : H.luaO_str2num v with
  | some x =>
    have hto : tonumber H (.str v) = .num x := by simp [tonumber, hnum]
    simp [convert, hto, htruthy, hnumber]
  | none =>
    have hto : tonumber H (.str v) = .nil := by simp [tonumber, hnum]
    simp only [convert, hto, hnil, Bool.false_eq_true, if_false, hstr, beq_iff_eq]
    by_cases h : v = literal "true"
    · simp [h, hbool]
    · simp [h, hstr]

omit [NatCast N] in
/-- A value of a line is no table. -/
private theorem convert_ne_table (v : Str) (entries : List (Value N × Value N)) :
    convert H (.str v) ≠ .table entries := by
  rw [convert_str]
  cases H.luaO_str2num v with
  | some x => simp
  | none =>
    dsimp only
    split_ifs <;> simp

/-- The last line for a key in front of the sections counts, unless a section takes its place. -/
private theorem run_top {k v : Str} (h : lines.foldlM (Line.turn H path) σ = .ok σ')
    (hk : given none k σ.section_ lines = some v) (htrue : .header k ∈ lines → (convert H (.str v)).truthy) :
    entry σ'.t k = convert H (.str v) := by
  obtain ⟨before, after, rfl, hunder, hnone⟩ := given_split hk
  obtain ⟨σ₁, σ₂, hbefore, hturn, hafter⟩ := foldlM_split_ok.1 h
  obtain ⟨-, hs, ht⟩ := turn_assign hturn
  have hcur : σ₁.section_ = none := (run_section hbefore).trans hunder
  rw [hcur] at hs ht
  have hstart : given none k σ₂.section_ after = none ∧ (.header k ∈ after → (convert H (.str v)).truthy) ∧
      entry σ₂.t k = convert H (.str v) := by
    rw [hs, ht, if_pos rfl]
    exact ⟨hnone, fun hmem => htrue (by simp [hmem]), rfl⟩
  refine (foldlM_keeps (P := fun (τ : Ini N) rest => given none k τ.section_ rest = none ∧
    (.header k ∈ rest → (convert H (.str v)).truthy) ∧ entry τ.t k = convert H (.str v)) ?_ hstart hafter).2.2
  rintro τ line rest τ₁ ⟨hrest, hheader, hvalue⟩ hturn
  obtain ⟨hrest₁, hsame⟩ := turn_top_keep hturn hrest (by rw [hvalue]; exact convert_ne_table v) (by rwa [hvalue])
  exact ⟨hrest₁, fun hmem => hheader (List.mem_cons_of_mem line hmem), hsame.trans hvalue⟩

/-- The keys to come are words, a section to come is not the key of another value, and the current one is open. -/
structure Ready (σ : Ini N) (lines : List Line) : Prop where
  words : ∀ key value, .assign key value ∈ lines → IsWord key
  front : ∀ s k v, given (some s) k σ.section_ lines = some v → given none s σ.section_ lines = none
  table : ∀ s k v, given (some s) k σ.section_ lines = some v → (entry σ.t s).truthy →
    ∃ entries, entry σ.t s = .table entries
  current : ∀ s, σ.section_ = some s → (entry σ.t s).truthy

omit [NatCast N] in
private theorem Ready.same {line : Line} (h : Ready σ (line :: lines))
    (hline : ∀ s k, given s k σ.section_ (line :: lines) =
    given s k σ.section_ lines) (hs : σ₁.section_ = σ.section_) (ht : σ₁.t = σ.t) : Ready σ₁ lines where
  words key value hmem := h.words key value (List.mem_cons_of_mem line hmem)
  front s k v hk := by
    rw [hs] at hk ⊢
    rw [← hline]
    exact h.front s k v (by rw [hline, hk])
  table s k v hk := by
    rw [ht]
    exact h.table s k v (by rw [hline, ← hs, hk])
  current s hs' := by
    rw [ht]
    exact h.current s (hs ▸ hs')

private theorem Ready.header {name : Str} (h : Ready σ (.header name :: lines))
    (hturn : Line.turn H path σ (.header name) = .ok σ₁) : Ready σ₁ lines := by
  obtain ⟨hs, ht⟩ := turn_header hturn
  refine ⟨fun key value hmem => h.words key value (List.mem_cons_of_mem _ hmem), ?_, fun s k v hk => ?_,
    fun s hs' => ?_⟩
  · rw [hs]
    exact h.front
  · rw [hs] at hk
    have htable := h.table s k v hk
    rw [ht]
    by_cases heq : name = s
    · subst heq
      by_cases hold : (entry σ.t name).truthy
      · rw [if_pos rfl, if_pos hold]
        exact htable
      · rw [if_pos rfl, if_neg hold]
        exact fun _ => ⟨[], rfl⟩
    · rw [if_neg heq]
      exact htable
  · rw [hs] at hs'
    cases hs'
    rw [ht, if_pos rfl]
    exact truthy_or_table _

private theorem Ready.assign {key value : Str} (h : Ready σ (.assign key value :: lines))
    (hturn : Line.turn H path σ (.assign key value) = .ok σ₁) : Ready σ₁ lines := by
  obtain ⟨-, hs, ht⟩ := turn_assign hturn
  have hfull : ∀ s k v, given (some s) k σ₁.section_ lines = some v →
      given (some s) k σ.section_ (.assign key value :: lines) = some v := by
    intro s k v hk
    rw [given, ← hs, hk, Option.some_or]
  have hfront : ∀ s k v, given (some s) k σ₁.section_ lines = some v → given none s σ₁.section_ lines = none ∧
      ¬ (σ₁.section_ = none ∧ key = s) := by
    intro s k v hk
    obtain ⟨hnone, hne⟩ := given_assign_none (h.front s k v (hfull s k v hk))
    rw [hs]
    exact ⟨hnone, fun hthis => hne hthis.1 hthis.2⟩
  refine ⟨fun k v hmem => h.words k v (List.mem_cons_of_mem _ hmem), fun s k v hk => (hfront s k v hk).1,
    fun s k v hk => ?_, fun s hs' => ?_⟩
  · have htable := h.table s k v (hfull s k v hk)
    cases hcur : σ.section_ with
    | none =>
      rw [hcur] at hs ht
      have hne : key ≠ s := fun heq => (hfront s k v hk).2 ⟨hs, heq⟩
      rw [ht, if_neg hne]
      exact htable
    | some cur =>
      rw [hcur] at ht
      obtain ⟨old, -, ht⟩ := ht
      rw [ht]
      by_cases heq : cur = s
      · rw [if_pos heq]
        exact fun _ => ⟨_, rfl⟩
      · rw [if_neg heq]
        exact htable
  · rw [← hs, hs'] at ht
    obtain ⟨old, -, ht⟩ := ht
    rw [ht, if_pos rfl]
    rfl

private theorem Ready.assign_ok {key value : Str} (h : Ready σ (.assign key value :: lines)) :
    ∃ σ₁, Line.turn H path σ (.assign key value) = .ok σ₁ := by
  have hword := h.words key value List.mem_cons_self
  cases hsec : σ.section_ with
  | none => simp [Line.turn, Ini.store, hsec, hword, settable, Except.map]
  | some cur =>
    have hgiven : ∃ v, given (some cur) key σ.section_ (.assign key value :: lines) = some v := by
      rw [given, if_pos ⟨hsec, rfl⟩]
      cases given (some cur) key σ.section_ lines <;> simp
    obtain ⟨v, hv⟩ := hgiven
    obtain ⟨entries, hentries⟩ := h.table cur key v hv (h.current cur hsec)
    have hentries' : Value.rawget σ.t (.str cur) = .table entries := hentries
    simp [Line.turn, Ini.store, hsec, hword, hentries', setindex, settable, Except.map]

/-- From such a state the loop returns. -/
private theorem Ready.returns (h : Ready σ lines) : ∃ σ', lines.foldlM (Line.turn H path) σ = .ok σ' := by
  refine foldlM_succeeds (P := Ready) (fun τ line rest hready => ?_) h
  cases line with
  | blank => exact ⟨_, rfl, hready.same (fun _ _ => rfl) rfl rfl⟩
  | other => exact ⟨_, rfl, hready.same (fun _ _ => rfl) rfl rfl⟩
  | header name =>
    have hok : Line.turn H path τ (.header name) = .ok _ := rfl
    exact ⟨_, hok, hready.header hok⟩
  | assign key value =>
    obtain ⟨τ₁, hturn⟩ := hready.assign_ok
    exact ⟨τ₁, hturn, hready.assign hturn⟩

/-! ### What is returned -/

/-- The names of sections are of letters, digits and spaces. -/
private theorem isword_of_header {fline name : Str} (h : readLine fline = .header name) : ∀ c ∈ name, isword c := by
  unfold readLine at h
  cases hline : trim fline with
  | nil => simp [hline] at h
  | cons c rest =>
    simp only [hline] at h
    split at h
    · cases h
    · cases hname : sectionName (c :: rest) with
      | some name' =>
        simp only [hname, Line.header.injEq] at h
        subst h
        exact (sectionName_eq_some.1 hname).2
      | none =>
        simp only [hname] at h
        cases heq : equation (c :: rest) <;> simp [heq] at h

variable (H) in
/-- A table is returned that holds, under each key of each section and under each key in front of them, the value of
the last line for it. -/
def Reads (r : Except Raised (Value N × List (List (Value N)))) (lines : List Line) : Prop :=
  ∃ t printed, r = .ok (.table t, printed) ∧
    (∀ s k v, (∀ c ∈ s, isword c) → IsWord k → given (some s) k none lines = some v →
      ∃ entries, entry t s = .table entries ∧ entry entries k = convert H (.str v)) ∧
    ∀ k v, IsWord k → given none k none lines = some v → entry t k = convert H (.str v)

variable (H) in
/-- The keys are words.  A key in front of the sections may be the name of a section only if its value is true and
nothing is assigned in the section. -/
structure Loads (lines : List Line) : Prop where
  words : ∀ key value, .assign key value ∈ lines → IsWord key
  kept : ∀ k v, given none k none lines = some v → .header k ∈ lines → (convert H (.str v)).truthy
  apart : ∀ k v, given none k none lines = some v → ∀ k', given (some k) k' none lines = none

variable {files : Str → Option Str} {string_split : Str → Str → List Str}

private theorem load_ini_eq {content : Str} (h : files path = some content) :
    load_ini H files string_split path =
      (((string_split content (literal "\n")).map readLine).foldlM (Line.turn H path)
        ⟨[], none, 0, (raw_open files path).2⟩).map fun σ => (.table σ.t, σ.printed) := by
  have hturn : turn H path = fun (σ : Ini N) fline => Line.turn H path σ (readLine fline) := by
    funext σ fline
    exact turn_eq H path σ fline
  have hmap := @List.foldlM_map _ _ _ _ _ readLine (Line.turn H path) (string_split content (literal "\n"))
    (⟨[], none, 0, (raw_open files path).2⟩ : Ini N)
  rw [hmap, ← hturn]
  unfold load_ini
  simp only [raw_open, h]

omit [NatCast N] in
private theorem Loads.ready (h : Loads H lines) (printed : List (List (Value N))) :
    Ready (⟨[], none, 0, printed⟩ : Ini N) lines where
  words := h.words
  front s k v hk := by
    cases hfront : given none s none lines with
    | none => rfl
    | some w =>
      have hnone := h.apart s w hfront k
      rw [hnone] at hk
      cases hk
  table s k v hk ht := by cases ht
  current s hs := by cases hs

/-- If the loader returns and the table holds what the file says, the names are kept apart. -/
private theorem loads_of_run {printed : List (List (Value N))}
    (hrun : lines.foldlM (Line.turn H path) (⟨[], none, 0, printed⟩ : Ini N) = .ok σ')
    (hheader : ∀ name, .header name ∈ lines → ∀ c ∈ name, isword c)
    (hinner : ∀ s k v, (∀ c ∈ s, isword c) → IsWord k → given (some s) k none lines = some v →
      ∃ entries, entry σ'.t s = .table entries ∧ entry entries k = convert H (.str v))
    (htop : ∀ k v, IsWord k → given none k none lines = some v → entry σ'.t k = convert H (.str v)) :
    Loads H lines := by
  have hwords : ∀ key value, .assign key value ∈ lines → IsWord key := fun _ _ hmem => run_words hrun hmem
  have hword : ∀ {s : Option Str} {k v}, given s k none lines = some v → IsWord k := by
    intro s k v hk
    obtain ⟨before, after, hsplit, -, -⟩ := given_split hk
    exact hwords k v (by simp [hsplit])
  refine ⟨hwords, fun k v hk hmem => ?_, fun k v hk k' => ?_⟩
  · rw [← htop k v (hword hk) hk]
    exact run_header hrun hmem
  · cases hk' : given (some k) k' none lines with
    | none => rfl
    | some w =>
      -- the section would be a table, and the value of the key is none
      obtain ⟨before, after, hsplit, hunder, -⟩ := given_split hk'
      have hname : .header k ∈ lines := by
        rw [hsplit]
        exact List.mem_append_left _ (header_mem_of_under hunder nofun)
      obtain ⟨entries, htable, -⟩ := hinner k k' w (hheader k hname) (hword hk') hk'
      rw [htop k v (hword hk) hk] at htable
      exact absurd htable (convert_ne_table v entries)

/-- The loader returns what the file says exactly when the keys are words and the sections stay clear of the keys in
front of them. -/
theorem reads_iff {content : Str} (h : files path = some content) :
    Reads H (load_ini H files string_split path) ((string_split content (literal "\n")).map readLine) ↔
      Loads H ((string_split content (literal "\n")).map readLine) := by
  have hheader : ∀ name, .header name ∈ (string_split content (literal "\n")).map readLine →
    ∀ c ∈ name, isword c := by
    intro name hmem
    obtain ⟨fline, -, hread⟩ := List.mem_map.1 hmem
    exact isword_of_header hread
  rw [load_ini_eq h]
  generalize (string_split content (literal "\n")).map readLine = lines at hheader ⊢
  constructor
  · rintro ⟨t, printed, hok, hinner, htop⟩
    cases hrun : lines.foldlM (Line.turn H path) (⟨[], none, 0, (raw_open files path).2⟩ : Ini N) with
    | error e =>
      rw [hrun] at hok
      cases hok
    | ok σ' =>
      rw [hrun] at hok
      cases hok
      exact loads_of_run hrun hheader hinner htop
  · intro hloads
    obtain ⟨σ', hrun⟩ : ∃ σ', lines.foldlM (Line.turn H path) (⟨[], none, 0, (raw_open files path).2⟩ : Ini N) =
      .ok σ' := (hloads.ready _).returns
    refine ⟨σ'.t, σ'.printed, by rw [hrun]; rfl, fun s k v _ _ hk => ?_, fun k v _ hk => ?_⟩
    · exact run_inner hrun hk
    · exact run_top hrun hk (hloads.kept k v hk)

end

/-- The pieces between the separators, which are single characters here. -/
def pieces (content sep : Str) : List Str := content.splitOn (sep.headD 0)

/-- A key in front of the sections, a comment, and a section. -/
def settings : Str := literal "port = a=b\n# s = c\n[s]\nport = true"

theorem settings_read : Reads (Host.raising : Host Nat)
    (load_ini (Host.raising : Host Nat) (fun _ => some settings) pieces (literal "conf.ini"))
    ((pieces settings (literal "\n")).map readLine) := by
  refine (@reads_iff Nat _ _ Host.raising (literal "conf.ini") (fun _ => some settings) pieces settings rfl).2 ?_
  have hlines : (pieces settings (literal "\n")).map readLine =
      [.assign (literal "port") (literal "a=b"), .blank, .header (literal "s"),
        .assign (literal "port") (literal "true")] := by decide
  have hne : literal "s" ≠ literal "port" := by decide
  rw [hlines]
  refine ⟨?_, ?_, ?_⟩
  · intro key value hmem
    simp only [List.mem_cons, Line.assign.injEq, List.not_mem_nil, or_false, reduceCtorEq, false_or] at hmem
    rcases hmem with ⟨rfl, -⟩ | ⟨rfl, -⟩ <;> decide
  · intro k v hk hmem
    have hkey : literal "port" = k := by
      by_contra hno
      simp [given, hno] at hk
    simp [← hkey, hne.symm] at hmem
  · intro k v hk k'
    have hkey : literal "port" = k := by
      by_contra hno
      simp [given, hno] at hk
    simp [given, ← hkey, hne]

/-- White space inside a key. -/
def twoWords : Str := literal "a b = c"

theorem twoWords_raise : load_ini (Host.raising : Host Nat) (fun _ => some twoWords) pieces (literal "conf.ini") =
      .error .index_is_nil ∧
    ¬ Reads (Host.raising : Host Nat)
      (load_ini (Host.raising : Host Nat) (fun _ => some twoWords) pieces (literal "conf.ini"))
      ((pieces twoWords (literal "\n")).map readLine) := by
  have hraise : load_ini (Host.raising : Host Nat) (fun _ => some twoWords) pieces (literal "conf.ini") =
      .error .index_is_nil := rfl
  refine ⟨hraise, ?_⟩
  rw [hraise]
  rintro ⟨t, printed, hok, -⟩
  cases hok

end LibeventServer.Lua.res_mgr

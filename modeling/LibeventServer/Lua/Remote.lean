import LibeventServer.Lua.Main
import LibeventServer.Lua.MessagePack
import Mathlib.Data.Set.Finite.Basic

/-!
# Remote calls

A call through a proxy sends `{method_name, {...}}`; the receiver takes the method from `data[1]` and the arguments
from `table.unpack(data[2])`.  Every argument arrives under its number, but how many there are is read off the length
of the table, and that is any border: an index with a value before one without.

`keeps_iff`: a call keeps its arguments, whatever border the length operator gives, exactly when none of them is `nil`
and the receiver has room for them.
-/

namespace LibeventServer.Lua

/-- `{method_name, {...}}` -/
def callMessage (method_name : List UInt8) (args : List (Value ℝ)) : Value ℝ :=
  .table (fromList [.str method_name, .table (fromList args)])

/-- The message after it has been packed and unpacked, both its tables built anew. -/
noncomputable def arrived (method_name : List UInt8) (args : List (Value ℝ)) : Value ℝ :=
  .table (rebuild (fromList [.str method_name, .table (rebuild (fromList args))]))

/-! ### Borders -/

/-- What the length operator may give for a table. -/
structure Border (tbl : List (Value ℝ × Value ℝ)) (n : ℕ) : Prop where
  last : n = 0 ∨ Value.rawget tbl (.num (n : ℝ)) ≠ .nil
  next : Value.rawget tbl (.num ((n + 1 : ℕ) : ℝ)) = .nil

/-- The operator gives a border of every table. -/
def IsLength (border : List (Value ℝ × Value ℝ) → ℕ) : Prop := ∀ tbl, Border tbl (border tbl)

private theorem exists_rawget_nil (tbl : List (Value ℝ × Value ℝ)) :
    ∃ n : ℕ, Value.rawget tbl (.num ((n + 1 : ℕ) : ℝ)) = .nil := by
  by_contra hnone
  push Not at hnone
  -- otherwise the table has infinitely many keys
  have hkeys : ∀ n : ℕ, Value.num ((n + 1 : ℕ) : ℝ) ∈ {k | k ∈ tbl.map Prod.fst} := by
    intro n
    have hn := hnone n
    unfold Value.rawget at hn
    split at hn
    · rename_i e he
      have hek := rawequal_num.1
        (List.find?_some (p := fun e : Value ℝ × Value ℝ => e.1.rawequal (.num ((n + 1 : ℕ) : ℝ))) he)
      exact List.mem_map.2 ⟨e, List.mem_of_find?_eq_some he, hek⟩
    · exact absurd rfl hn
  have hinj : Function.Injective fun n : ℕ => (Value.num ((n + 1 : ℕ) : ℝ) : Value ℝ) := by
    intro m n h
    have := Nat.cast_injective (Value.num.inj h)
    omega
  exact Set.infinite_of_injective_forall_mem hinj hkeys (List.finite_toSet _)

/-- The least border. -/
noncomputable def firstBorder (tbl : List (Value ℝ × Value ℝ)) : ℕ :=
  @Nat.find _ (Classical.decPred _) (exists_rawget_nil tbl)

private theorem firstBorder_le {tbl : List (Value ℝ × Value ℝ)} {n : ℕ}
    (h : Value.rawget tbl (.num ((n + 1 : ℕ) : ℝ)) = .nil) : firstBorder tbl ≤ n :=
  @Nat.find_min' _ (Classical.decPred _) (exists_rawget_nil tbl) n h

private theorem isLength_firstBorder : IsLength firstBorder := by
  intro tbl
  refine ⟨?_, @Nat.find_spec _ (Classical.decPred _) (exists_rawget_nil tbl)⟩
  rcases Nat.eq_zero_or_pos (firstBorder tbl) with h | h
  · exact Or.inl h
  · right
    obtain ⟨n, hn⟩ : ∃ n, firstBorder tbl = n + 1 := ⟨firstBorder tbl - 1, by omega⟩
    rw [hn]
    intro hnil
    have := firstBorder_le hnil
    omega

/-- The borders of the table in which a list without `nil` arrives. -/
private theorem border_rebuild {args : List (Value ℝ)} (hargs : ∀ a ∈ args, a ≠ .nil) {n : ℕ}
    (h : Border (rebuild (fromList args)) n) : n = args.length := by
  obtain ⟨hlast, hnext⟩ := h
  rw [rawget_rebuild] at hnext
  rcases lt_trichotomy n args.length with hlt | heq | hgt
  · rw [List.getElem?_eq_getElem hlt, Option.getD_some] at hnext
    exact absurd hnext (hargs _ (List.getElem_mem hlt))
  · exact heq
  · obtain ⟨m, rfl⟩ : ∃ m, n = m + 1 := ⟨n - 1, by omega⟩
    rw [rawget_rebuild, List.getElem?_eq_none (by omega)] at hlast
    rcases hlast with h | h
    · omega
    · exact absurd rfl h

/-! ### A call -/

/-- The receiver finds the method and the arguments of the call. -/
def Kept (H : Host ℝ) (method_name : List UInt8) (args : List (Value ℝ)) : Prop :=
  ∃ data, H.msgpack_unpack (H.msgpack_pack (callMessage method_name args)) = some data ∧
    data.index (.num 1) = some (.str method_name) ∧ arguments H data = some args

/-- The same, whatever border the length operator gives. -/
def Keeps (H : Host ℝ) (method_name : List UInt8) (args : List (Value ℝ)) : Prop :=
  ∀ border, IsLength border → Kept { H with border := border } method_name args

/-- `table.unpack` can return `n` values. -/
def Fits (H : Host ℝ) (n : ℕ) : Prop := n = 0 ∨ n < 2 ^ 31 ∧ H.lua_checkstack n = true

variable {H : Host ℝ} {method_name : List UInt8} {args : List (Value ℝ)}

private theorem pushed_rebuild (n : ℕ) :
    table_unpack.pushed H n (fun i => Value.rawget (rebuild (fromList args)) (.num ((i + 1 : ℕ) : ℝ))) = some args ↔
      n = args.length ∧ Fits H n := by
  unfold table_unpack.pushed
  simp only [rawget_rebuild]
  by_cases h0 : n = 0
  · subst h0
    simp only [if_true, Option.some.injEq, Fits, true_or, and_true]
    exact ⟨fun h => by rw [← h]; rfl, fun h => (List.length_eq_zero_iff.1 h.symm).symm⟩
  · rw [if_neg h0]
    by_cases hroom : 2 ^ 31 - 1 ≤ n - 1 ∨ ¬ H.lua_checkstack n = true
    · rw [if_pos hroom]
      constructor
      · nofun
      · rintro ⟨-, hfits⟩
        rcases hfits with h | ⟨hlt, hcheck⟩
        · exact absurd h h0
        · rcases hroom with hroom | hroom
          · omega
          · exact absurd hcheck hroom
    · rw [if_neg hroom, Option.some.injEq]
      push Not at hroom
      constructor
      · intro h
        have hlen := congrArg List.length h
        rw [List.length_map, List.length_range] at hlen
        exact ⟨hlen, Or.inr ⟨by omega, hroom.2⟩⟩
      · rintro ⟨rfl, -⟩
        refine List.ext_getElem (by simp) fun i h _ => ?_
        rw [List.length_map, List.length_range] at h
        rw [List.getElem_map, List.getElem_range, List.getElem?_eq_getElem h, Option.getD_some]

/-- A call is kept when the length of the table is the number of its arguments. -/
private theorem kept_iff_border (hpack : H.msgpack_unpack (H.msgpack_pack (callMessage method_name args)) =
    some (arrived method_name args)) :
    Kept H method_name args ↔ H.border (rebuild (fromList args)) = args.length ∧ Fits H args.length := by
  have hname : (arrived method_name args).index (.num 1) = some (.str method_name) := by
    have hget := rawget_rebuild [.str method_name, .table (rebuild (fromList args))] 0
    rw [Nat.zero_add, Nat.cast_one] at hget
    exact congrArg some hget
  have hargs : (arrived method_name args).index (.num 2) = some (.table (rebuild (fromList args))) := by
    have hget := rawget_rebuild [.str method_name, .table (rebuild (fromList args))] 1
    rw [show ((1 + 1 : ℕ) : ℝ) = 2 by norm_num] at hget
    exact congrArg some hget
  have harguments : arguments H (arrived method_name args) = table_unpack.pushed H
      (H.border (rebuild (fromList args)))
      (fun i => Value.rawget (rebuild (fromList args)) (.num ((i + 1 : ℕ) : ℝ))) := by
    rw [arguments, hargs]
    rfl
  unfold Kept
  rw [hpack]
  constructor
  · rintro ⟨data, hdata, -, hkept⟩
    cases hdata
    rw [harguments, pushed_rebuild] at hkept
    exact ⟨hkept.1, hkept.1 ▸ hkept.2⟩
  · rintro ⟨hborder, hfits⟩
    refine ⟨_, rfl, hname, ?_⟩
    rw [harguments, pushed_rebuild]
    exact ⟨hborder, hborder.symm ▸ hfits⟩

/-- A call keeps its arguments exactly when none of them is `nil` and there is room for them. -/
theorem keeps_iff (hpack : H.msgpack_unpack (H.msgpack_pack (callMessage method_name args)) =
    some (arrived method_name args)) :
    Keeps H method_name args ↔ (∀ a ∈ args, a ≠ .nil) ∧ Fits H args.length := by
  have hiff : ∀ border, Kept { H with border := border } method_name args ↔
      border (rebuild (fromList args)) = args.length ∧ Fits H args.length :=
    fun border => kept_iff_border (H := { H with border := border }) hpack
  constructor
  · intro h
    obtain ⟨hlen, hfits⟩ := (hiff firstBorder).1 (h firstBorder isLength_firstBorder)
    refine ⟨fun a ha hnil => ?_, hfits⟩
    -- the first `nil` ends the table early
    obtain ⟨i, hi, hia⟩ := List.getElem_of_mem ha
    have hle : firstBorder (rebuild (fromList args)) ≤ i := by
      refine firstBorder_le ?_
      rw [rawget_rebuild, List.getElem?_eq_getElem hi, Option.getD_some, hia, hnil]
    omega
  · rintro ⟨hargs, hfits⟩ border hborder
    exact (hiff border).2 ⟨border_rebuild hargs (hborder _), hfits⟩

/-! ### Two calls -/

/-- Libraries that know one message, the call `sync(args)`, which is packed as `bytes`. -/
noncomputable def callHost (bytes : List UInt8) (args : List (Value ℝ)) : Host ℝ where
  msgpack_unpack msg := if msg = bytes then some (arrived (literal "sync") args) else none
  msgpack_pack _ := bytes
  luaO_str2num _ := none
  border := firstBorder
  lua_checkstack n := n ≤ 1000000

private theorem callHost_pack (bytes : List UInt8) (args : List (Value ℝ)) :
    (callHost bytes args).msgpack_unpack ((callHost bytes args).msgpack_pack (callMessage (literal "sync") args)) =
      some (arrived (literal "sync") args) :=
  if_pos rfl

/-- `sync(1, 2)` arrives. -/
theorem sync_two_numbers_kept :
    Keeps (callHost [0x92, 0xa4, 0x73, 0x79, 0x6e, 0x63, 0x92, 0x01, 0x02] [.num 1, .num 2]) (literal "sync")
      [.num 1, .num 2] := by
  refine (keeps_iff (callHost_pack _ _)).2 ⟨?_, ?_⟩
  · simp
  · exact Or.inr ⟨by norm_num, by simp [callHost]⟩

/-- `sync(1, nil)` arrives as `sync(1)`. -/
theorem sync_nil_not_kept :
    IsLength (callHost [0x92, 0xa4, 0x73, 0x79, 0x6e, 0x63, 0x91, 0x01] [.num 1, .nil]).border ∧
      ¬ Kept (callHost [0x92, 0xa4, 0x73, 0x79, 0x6e, 0x63, 0x91, 0x01] [.num 1, .nil]) (literal "sync")
        [.num 1, .nil] := by
  refine ⟨isLength_firstBorder, fun h => ?_⟩
  obtain ⟨hborder, -⟩ := (kept_iff_border (callHost_pack _ _)).1 h
  have hle : firstBorder (rebuild (fromList [.num 1, .nil])) ≤ 1 := by
    refine firstBorder_le ?_
    rw [rawget_rebuild]
    rfl
  have hlen : firstBorder (rebuild (fromList [.num 1, .nil])) = 2 := hborder
  omega

end LibeventServer.Lua

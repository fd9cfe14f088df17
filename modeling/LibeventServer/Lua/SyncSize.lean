import LibeventServer.Lua.Calls
import LibeventServer.Lua.PackedSize
import Mathlib.Data.Finmap

/-!
# How long the sync message is

`tick` packs one entry for each connected client: a number of at most 32 bits and a table with the numbers `x`, `y`,
`r` and `angle`, of which `r` is 50.  A message for `n` clients has between `10 + 17 * n` and `10 + 46 * n` bytes, two
less up to 15 clients (`between_syncCall`).
-/

namespace LibeventServer.Lua

open MessagePack Rounding

section

variable {K : Type} [Field K] [LinearOrder K] [FloorRing K]

mutual

/-- The value with its numbers as they are stored. -/
def Value.store : Value K → Value Number
  | .nil => .nil
  | .bool b => .bool b
  | .num x => .num (.store x)
  | .str s => .str s
  | .table entries => .table (storeEntries entries)

def storeEntries : List (Value K × Value K) → List (Value Number × Value Number)
  | [] => []
  | (k, v) :: entries => (k.store, v.store) :: storeEntries entries

end

/-- The libraries with the `msgpack.pack` of `src/msgpack/MessagePack.lua`, for values it packs. -/
def Host.withMessagePack (H : Host K) : Host K :=
  { H with msgpack_pack := fun v => (MessagePack.pack v.store).toOption.getD [] }

private theorem storeEntries_eq (entries : List (Value K × Value K)) :
    storeEntries entries = entries.map fun e => (e.1.store, e.2.store) := by
  induction entries with
  | nil => rfl
  | cons e entries ih => rw [storeEntries, ih, List.map_cons]

end

/-! ### Numbers that are stored -/

private theorem store_intCast {n : ℤ} (h : |n| ≤ 2 ^ 53) : Number.store ((n : ℤ) : ℝ) = .finite n := by
  have hrep : Representable 53 (-1074) ((n : ℤ) : ℚ) := representable_intCast (by norm_num) (by norm_num) h
  have hself : toDouble ((n : ℤ) : ℝ) = n := by
    have := toNearest_of_representable (K := ℝ) hrep
    rwa [Rat.cast_intCast] at this
  have hlt : |((n : ℤ) : ℚ)| < 2 ^ 1024 := by
    have hcast : |((n : ℤ) : ℚ)| ≤ 2 ^ 53 := by exact_mod_cast h
    exact hcast.trans_lt (pow_lt_pow_right₀ one_lt_two (by norm_num))
  rw [Number.store, hself, if_pos hlt]

private theorem store_natCast {n : ℕ} (h : n ≤ 2 ^ 53) : Number.store (n : ℝ) = .finite (n : ℤ) := by
  have := store_intCast (n := n) (by rw [abs_of_nonneg (by omega)]; exact_mod_cast h)
  rwa [Int.cast_natCast] at this

private theorem valid_store (x : ℝ) : (Number.store x).Valid := by
  rw [Number.store]
  split
  · exact Or.inl ⟨representable_toNearest (by norm_num) x, ‹_›⟩
  · trivial

private theorem between_store (x : ℝ) : Between 1 9 (packValue (Value.num x).store) := between_number (valid_store x)

/-- A number of clients or of a connection. -/
private theorem between_number_natCast {n : ℕ} (h : n ≤ 4294967295) :
    Between 1 5 (packValue (Value.num (n : ℝ)).store) := by
  have hsize := between_store n
  rw [Value.store, store_natCast (by omega)] at hsize ⊢
  rw [packValue, number_intCast (by rw [abs_of_nonneg (by omega)]; omega)] at hsize ⊢
  obtain ⟨bytes, hbytes, hle, -⟩ := hsize
  exact ⟨bytes, hbytes, hle, length_unsigned_of_lt (by omega) hbytes⟩

/-! ### The entries of `data` -/

private theorem between_literal (s : String) (hs : (literal s).length ≤ 31) :
    Between ((literal s).length + 1) ((literal s).length + 1) (packValue (Value.str (literal s) : Value ℝ).store) :=
  between_string hs

/-- An entry of `data`. -/
private theorem between_toValue {p : Packed ℝ} (hr : p.r = 50) : Between 17 41 (packValue p.toValue.store) := by
  have hr' : Between 1 1 (packValue (Value.num p.r).store) := by
    have hstore : Number.store (50 : ℝ) = .finite (50 : ℤ) := store_natCast (n := 50) (by norm_num)
    rw [hr, Value.store, hstore, packValue, number_intCast (by norm_num)]
    exact between_char [50] (by simp)
  have hshape : packers.shape [(.str (literal "x") : Value Number), .str (literal "y"), .str (literal "r"),
      .str (literal "angle")] = (true, 4) := by
    simp [packers.shape, packers.shapeStep]
  have hmap : packValue p.toValue.store = packers.map (packEntries (storeEntries [(.str (literal "x"), .num p.x),
      (.str (literal "y"), .num p.y), (.str (literal "r"), .num p.r), (.str (literal "angle"), .num p.angle)]))
      4 := by
    rw [Packed.toValue, Value.store, packValue, packers._table]
    simp only [storeEntries, packEntries, List.map_cons, List.map_nil, Value.store, hshape, if_true]
  have hfields : Between 16 40 (inTurn ((packEntries (storeEntries [(.str (literal "x"), .num p.x),
      (.str (literal "y"), .num p.y), (.str (literal "r"), .num p.r),
      (.str (literal "angle"), .num p.angle)])).flatMap fun e => [e.key, e.val])) := by
    simp only [storeEntries, packEntries, List.flatMap_cons, List.flatMap_nil, List.cons_append, List.nil_append]
    exact between_inTurn_cons (between_literal "x" (by decide)) <| between_inTurn_cons (between_store p.x) <|
      between_inTurn_cons (between_literal "y" (by decide)) <| between_inTurn_cons (between_store p.y) <|
      between_inTurn_cons (between_literal "r" (by decide)) <| between_inTurn_cons hr' <|
      between_inTurn_cons (between_literal "angle" (by decide)) <| between_inTurn_cons (between_store p.angle)
      between_inTurn_nil
  rw [hmap]
  exact between_map (by norm_num) hfields

/-! ### The message -/

variable {T : Traversals ℝ} {data : Finmap fun _ : UInt32 => Packed ℝ}

/-- The entries of `data` in the order in which they are packed. -/
noncomputable def dataEntries (T : Traversals ℝ) (data : Finmap fun _ : UInt32 => Packed ℝ) :
    List (Value ℝ × Value ℝ) :=
  (T.data.order data.keys).filterMap fun vfd => (data.lookup vfd).map fun p => (Value.num (number vfd), p.toValue)

private theorem mem_dataEntries {e : Value ℝ × Value ℝ} (h : e ∈ dataEntries T data) :
    ∃ vfd p, data.lookup vfd = some p ∧ e = (.num (number vfd), p.toValue) := by
  obtain ⟨vfd, -, he⟩ := List.mem_filterMap.1 h
  obtain ⟨p, hp, rfl⟩ := Option.map_eq_some_iff.1 he
  exact ⟨vfd, p, hp, rfl⟩

private theorem map_fst_dataEntries (T : Traversals ℝ) (data : Finmap fun _ : UInt32 => Packed ℝ) :
    (dataEntries T data).map Prod.fst = (T.data.order data.keys).map fun vfd => .num (number vfd) := by
  have hmem : ∀ vfd ∈ T.data.order data.keys, vfd ∈ data :=
    fun vfd hv => Finmap.mem_keys.1 ((T.data.mem_order _ _).1 hv)
  unfold dataEntries
  generalize T.data.order data.keys = l at hmem
  induction l with
  | nil => rfl
  | cons vfd l ih =>
    obtain ⟨p, hp⟩ := Finmap.mem_iff.1 (hmem vfd (by simp))
    rw [List.filterMap_cons_some (by rw [hp, Option.map_some]), List.map_cons, List.map_cons,
      ih fun v hv => hmem v (by simp [hv])]

private theorem length_dataEntries (T : Traversals ℝ) (data : Finmap fun _ : UInt32 => Packed ℝ) :
    (dataEntries T data).length = data.keys.card := by
  rw [← List.length_map Prod.fst, map_fst_dataEntries, List.length_map, T.data.length_order]

private theorem store_number (vfd : UInt32) :
    (Value.num (number vfd : ℝ)).store = .num (.finite (vfd.toNat : ℤ)) := by
  have hlt := vfd.toNat_lt
  rw [Value.store, number, store_natCast (by omega)]

private theorem between_data (hr : ∀ v p, data.lookup v = some p → p.r = 50) (hn : data.keys.card ≤ 4294967295) :
    Between (headerSize data.keys.card + data.keys.card * 17) (headerSize data.keys.card + data.keys.card * 46)
      (packValue (Value.table (dataEntries T data)).store) := by
  have hfst : (storeEntries (dataEntries T data)).map Prod.fst =
      (T.data.order data.keys).map fun vfd => .num (.finite (vfd.toNat : ℤ)) := by
    rw [storeEntries_eq, List.map_map]
    refine (List.map_map (f := Prod.fst) (g := Value.store)).symm.trans ?_
    rw [map_fst_dataEntries, List.map_map]
    exact List.map_congr_left fun vfd _ => store_number vfd
  have hlen : (storeEntries (dataEntries T data)).length = data.keys.card := by
    rw [storeEntries_eq, List.length_map, length_dataEntries]
  have hmem : ∀ e ∈ storeEntries (dataEntries T data), ∃ vfd p, data.lookup vfd = some p ∧
      e = ((Value.num (number vfd : ℝ)).store, p.toValue.store) := by
    intro e he
    rw [storeEntries_eq] at he
    obtain ⟨e', he', rfl⟩ := List.mem_map.1 he
    obtain ⟨vfd, p, hp, rfl⟩ := mem_dataEntries he'
    exact ⟨vfd, p, hp, rfl⟩
  -- distinct ids are stored as distinct keys
  have hnodup : ((storeEntries (dataEntries T data)).map Prod.fst).Nodup := by
    rw [hfst]
    refine (T.data.nodup _).map fun v v' heq => ?_
    have hcast : ((v.toNat : ℤ) : ℚ) = (v'.toNat : ℤ) := Number.finite.inj (Value.num.inj heq)
    exact UInt32.toNat_inj.1 (by exact_mod_cast hcast)
  have hisKey : ∀ e ∈ storeEntries (dataEntries T data), IsKey e.1 := by
    intro e he
    obtain ⟨vfd, p, -, rfl⟩ := hmem e he
    rw [store_number]
    exact Number.noConfusion
  have hintegers : ∀ k ∈ (storeEntries (dataEntries T data)).map Prod.fst, ∃ n : ℤ, k = .num (.finite n) := by
    intro k hk
    rw [hfst] at hk
    obtain ⟨vfd, -, rfl⟩ := List.mem_map.1 hk
    exact ⟨_, rfl⟩
  have hkeys : ∀ e ∈ storeEntries (dataEntries T data), Between 1 5 (packValue e.1) := by
    intro e he
    obtain ⟨vfd, p, -, rfl⟩ := hmem e he
    have hlt := vfd.toNat_lt
    exact between_number_natCast (by omega)
  have hvals : ∀ e ∈ storeEntries (dataEntries T data), Between 17 41 (packValue e.2) := by
    intro e he
    obtain ⟨vfd, p, hp, rfl⟩ := hmem e he
    exact between_toValue (hr vfd p hp)
  have htable := between_table (hlen ▸ hn) hnodup hisKey (fun _ => hintegers) hkeys hvals
  rw [hlen] at htable
  exact htable

/-- A table with the one entry `1`. -/
private theorem between_singleton {lo hi : ℕ} {v : Value Number} (h : Between lo hi (packValue v)) :
    Between (1 + lo) (1 + hi) (packValue (.table [(.num (.finite 1), v)])) := by
  have hshape : packers.shape [(.num (.finite 1) : Value Number)] = (false, 1) := by
    norm_num [packers.shape, packers.shapeStep, Number.gt]
  have helement : packers.element (packEntries [(.num (.finite 1), v)]) 1 = packValue v := by
    simp [packers.element, packEntries, Value.rawequal]
  have hitems : Between lo hi (inTurn ((List.range 1).map fun i => packers.element
      (packEntries [(.num (.finite 1), v)]) (i + 1))) := by
    rw [← helement] at h
    exact between_inTurn_cons h between_inTurn_nil
  have harray := between_array (by norm_num) hitems
  rw [packValue, packers._table]
  simp only [packEntries, List.map_cons, List.map_nil, hshape] at harray ⊢
  exact harray

/-- The message for `n` clients. -/
theorem between_syncCall (hr : ∀ v p, data.lookup v = some p → p.r = 50) (hn : data.keys.card ≤ 4294967295) :
    Between (7 + headerSize data.keys.card + data.keys.card * 17)
    (7 + headerSize data.keys.card + data.keys.card * 46) (MessagePack.pack (syncCall T data).store) := by
  have hone : Number.store (1 : ℝ) = .finite 1 := by
    have := store_natCast (n := 1) (by norm_num)
    simpa using this
  have htwo : Number.store (2 : ℝ) = .finite 2 := by
    have := store_natCast (n := 2) (by norm_num)
    simpa using this
  have hsync : Between 5 5 (packValue (.str (literal "sync") : Value Number)) := between_string (by decide)
  have hdata := between_singleton (between_data (T := T) hr hn)
  have hstore : (syncCall T data).store = .table [(.num (.finite 1), .str (literal "sync")),
      (.num (.finite 2), .table [(.num (.finite 1), (Value.table (dataEntries T data)).store)])] := by
    simp only [syncCall, Value.store, storeEntries, hone, htwo, dataEntries]
  rw [hstore]
  generalize
    (Value.table [(.num (.finite 1), (Value.table (dataEntries T data)).store)] : Value Number) = v at hdata ⊢
  have hshape : packers.shape [(.num (.finite 1) : Value Number), .num (.finite 2)] = (false, 2) := by
    norm_num [packers.shape, packers.shapeStep, Number.gt]
  have helements : (List.range 2).map (fun i => packers.element
      (packEntries [(.num (.finite 1), .str (literal "sync")), (.num (.finite 2), v)]) (i + 1)) =
        [packValue (.str (literal "sync")), packValue v] := by
    norm_num [List.range_succ, packers.element, packEntries, Value.rawequal]
  have hturn := between_inTurn_cons hsync (between_inTurn_cons hdata between_inTurn_nil)
  rw [← helements] at hturn
  have harray := between_array (n := 2) (by norm_num) hturn
  rw [MessagePack.pack, packValue, packers._table]
  simp only [packEntries, List.map_cons, List.map_nil, hshape] at harray ⊢
  have hheader : headerSize 2 = 1 := rfl
  rw [hheader] at harray
  exact harray.mono (by omega) (by omega)

end LibeventServer.Lua

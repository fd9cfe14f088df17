import Mathlib.Data.List.OfFn

/-!
# Arrays of C characters

`char a[n]` with signed characters.  A copy into the array that does not fit has no meaning in C++ and no value here
(`store`); likewise a read past its end (`load`).
-/

/-- A C array `char a[n]`. -/
def CharArray (n : Nat) : Type := Fin n → Int8

namespace CharArray

variable {n : Nat}

/-- An array of zeros. -/
def zero : CharArray n := fun _ => 0

/-- The array with the bytes `src` from offset `off` on. -/
def overwrite (a : CharArray n) (off : Nat) (src : List UInt8) : CharArray n := fun i =>
  if off ≤ i.val ∧ i.val < off + src.length then (src.getD (i.val - off) 0).toInt8 else a i

/-- Copy the bytes `src` into the array from offset `off` on, when they fit. -/
def store (a : CharArray n) (off : Nat) (src : List UInt8) : Option (CharArray n) :=
  if off + src.length ≤ n then some (a.overwrite off src) else none

/-- The first `len` bytes of the array, when it has that many. -/
def load (a : CharArray n) (len : Nat) : Option (List UInt8) :=
  if h : len ≤ n then some (List.ofFn fun i : Fin len => (a ⟨i, by omega⟩).toUInt8) else none

/-- `a[i] = c`. -/
def put (a : CharArray n) (i : Fin n) (c : Int8) : CharArray n := fun j => if j = i then c else a j

theorem store_of_le (a : CharArray n) {off : Nat} {src : List UInt8} (h : off + src.length ≤ n) :
    a.store off src = some (a.overwrite off src) := by
  simp [store, h]

theorem store_of_lt (a : CharArray n) {off : Nat} {src : List UInt8} (h : n < off + src.length) :
    a.store off src = none := by
  simp [store, Nat.not_le.2 h]

theorem exists_load (a : CharArray n) {len : Nat} (h : len ≤ n) : ∃ l, a.load len = some l := ⟨_, dif_pos h⟩

theorem overwrite_zero_apply (a : CharArray n) {src : List UInt8} {i : Fin n} (h : i.val < src.length) :
    a.overwrite 0 src i = src[i.val].toInt8 := by
  simp [overwrite, h]

theorem load_overwrite (a : CharArray n) (src : List UInt8) (h : src.length ≤ n) :
    (a.overwrite 0 src).load src.length = some src := by
  simp only [load, h, ↓reduceDIte, Option.some.injEq]
  apply List.ext_getElem
  · simp
  · intro i h1 h2
    simp [overwrite_zero_apply a (i := ⟨i, by omega⟩) h2]

/-- Reading back two bytes put in front of what was copied behind them. -/
theorem load_put_put_overwrite (a : CharArray n) {src : List UInt8} (h : 2 + src.length ≤ n) (lo hi : UInt8) :
    (((a.overwrite 2 src).put ⟨0, by omega⟩ lo.toInt8).put ⟨1, by omega⟩ hi.toInt8).load (2 + src.length) =
      some (lo :: hi :: src) := by
  simp only [load, h, ↓reduceDIte, Option.some.injEq]
  apply List.ext_getElem
  · simp; omega
  · intro i h1 h2
    match i, h2 with
    | 0, _ => simp [put]
    | 1, _ => simp [put]
    | i + 2, h2 =>
      have hi : i < src.length := by simpa using h2
      simp [put, overwrite, hi]

end CharArray

import Mathlib.Data.List.Basic

/-!
# Byte memory

Memory is a function from offsets to bytes; `slice` reads from it and `write` writes to it.  Where a block of memory
ends is up to its user.
-/

/-- Memory, by offset. -/
abbrev Bytes : Type := Nat → UInt8

namespace Bytes

/-- The `n` bytes from `i` on. -/
def slice (m : Bytes) (i n : Nat) : List UInt8 := (List.range n).map fun j => m (i + j)

/-- The memory with the bytes `bs` from `i` on. -/
def write (m : Bytes) (i : Nat) (bs : List UInt8) : Bytes := fun j =>
  if i ≤ j ∧ j < i + bs.length then bs.getD (j - i) 0 else m j

variable (m : Bytes)

@[simp] theorem length_slice (i n : Nat) : (m.slice i n).length = n := by simp [slice]

@[simp] theorem slice_zero (i : Nat) : m.slice i 0 = [] := rfl

@[simp] theorem getElem_slice {i n j : Nat} (hj : j < (m.slice i n).length) : (m.slice i n)[j] = m (i + j) := by
  simp [slice]

theorem slice_add (i n k : Nat) : m.slice i (n + k) = m.slice i n ++ m.slice (i + n) k := by
  simp [slice, List.range_add, Nat.add_assoc]

theorem take_slice (i n k : Nat) : (m.slice i n).take k = m.slice i (min k n) := by
  apply List.ext_getElem
  · simp
  · intro j h₁ h₂
    simp

theorem drop_slice (i n k : Nat) : (m.slice i n).drop k = m.slice (i + k) (n - k) := by
  apply List.ext_getElem
  · simp
  · intro j h₁ h₂
    simp [Nat.add_assoc]

theorem slice_congr {m' : Bytes} {i n : Nat} (h : ∀ j < n, m' (i + j) = m (i + j)) : m'.slice i n = m.slice i n := by
  apply List.ext_getElem
  · simp
  · intro j h₁ h₂
    simp only [getElem_slice]
    exact h j (by simpa using h₁)

@[simp] theorem write_nil (i : Nat) : m.write i [] = m := by
  funext j
  simp only [write, List.length_nil]
  split
  · omega
  · rfl

/-- What was written is read back. -/
theorem slice_write (i : Nat) (bs : List UInt8) : (m.write i bs).slice i bs.length = bs := by
  apply List.ext_getElem
  · simp
  · intro j h₁ h₂
    simp [write, h₂]

/-- What lies before is not changed. -/
theorem slice_write_of_le {i n k : Nat} (h : i + n ≤ k) (bs : List UInt8) :
    (m.write k bs).slice i n = m.slice i n := by
  refine m.slice_congr fun j hj => ?_
  simp only [write]
  split
  · omega
  · rfl

/-- Writing behind what was read makes it longer. -/
theorem slice_write_append (i n : Nat) (bs : List UInt8) :
    (m.write (i + n) bs).slice i (n + bs.length) = m.slice i n ++ bs := by
  rw [slice_add, slice_write, slice_write_of_le m (Nat.le_refl _)]

end Bytes

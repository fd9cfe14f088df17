import Mathlib.Data.List.Infix

/-!
# Transducers fed in chunks

A transducer reads symbols one at a time and emits outputs.  Feeding a word in two parts is feeding it at once
(`feedAll_append`), so what a transducer emits does not depend on how its input is cut.

A chunked reader that gives up whenever a chunk leaves the transducer in a state that is not `clean` (`feedChunks`)
agrees with the uncut run exactly when no cut falls at an unclean state (`feedChunks_isSome_iff`).
-/

/-- A deterministic transducer. -/
structure Transducer (σ α β : Type*) where
  feed : σ → α → σ × List β

namespace Transducer

variable {σ α β : Type*} (T : Transducer σ α β)

/-- Read a word: the state reached and the outputs emitted on the way. -/
def feedAll (s : σ) : List α → σ × List β
  | [] => (s, [])
  | a :: l => ((feedAll (T.feed s a).1 l).1, (T.feed s a).2 ++ (feedAll (T.feed s a).1 l).2)

@[simp] theorem feedAll_nil (s : σ) : T.feedAll s [] = (s, []) := rfl

theorem feedAll_append (s : σ) (l l' : List α) : T.feedAll s (l ++ l') =
    ((T.feedAll (T.feedAll s l).1 l').1, (T.feedAll s l).2 ++ (T.feedAll (T.feedAll s l).1 l').2) := by
  induction l generalizing s with
  | nil => rfl
  | cons a l ih => simp only [List.cons_append, feedAll, ih, List.append_assoc]

/-- Read chunk by chunk and give up after the first chunk that ends at a state that is not clean. -/
def feedChunks (clean : σ → Bool) (s : σ) : List (List α) → Option σ × List β
  | [] => (some s, [])
  | c :: cs =>
    if clean (T.feedAll s c).1 then
      ((feedChunks clean (T.feedAll s c).1 cs).1,
        (T.feedAll s c).2 ++ (feedChunks clean (T.feedAll s c).1 cs).2)
    else (none, (T.feedAll s c).2)

variable {T} {clean : σ → Bool}

/-- A chunked run that is not given up is the uncut run. -/
theorem feedAll_of_feedChunks {s s' : σ} {cs : List (List α)} (h : (T.feedChunks clean s cs).1 = some s') :
    T.feedAll s cs.flatten = (s', (T.feedChunks clean s cs).2) := by
  induction cs generalizing s with
  | nil => simp_all [feedChunks]
  | cons c cs ih =>
    simp only [feedChunks] at h ⊢
    by_cases hc : clean (T.feedAll s c).1
    · simp only [hc, ↓reduceIte] at h ⊢
      rw [List.flatten_cons, feedAll_append, ih h]
    · simp [hc] at h

/-- A chunked run from a clean state is not given up exactly when every cut falls at a clean state. -/
theorem feedChunks_isSome_iff {s : σ} (hs : clean s) (cs : List (List α)) :
    (T.feedChunks clean s cs).1.isSome ↔ ∀ i, clean (T.feedAll s (cs.take i).flatten).1 := by
  induction cs generalizing s with
  | nil => simp [feedChunks, hs]
  | cons c cs ih =>
    simp only [feedChunks]
    by_cases hc : clean (T.feedAll s c).1
    · simp only [hc, ↓reduceIte, ih hc]
      constructor
      · intro h i
        cases i with
        | zero => simpa using hs
        | succ i => simpa [feedAll_append] using h i
      · intro h i
        simpa [feedAll_append] using h (i + 1)
    · simp only [hc, Bool.false_eq_true, ↓reduceIte, Option.isSome_none, false_iff, not_forall]
      exact ⟨1, by simpa using hc⟩

/-- A chunked run whose cuts all fall at clean states is the uncut run. -/
theorem feedChunks_of_clean {s : σ} (hs : clean s) {cs : List (List α)}
    (h : ∀ i, clean (T.feedAll s (cs.take i).flatten).1) :
    T.feedChunks clean s cs = (some (T.feedAll s cs.flatten).1, (T.feedAll s cs.flatten).2) := by
  obtain ⟨s', hs'⟩ := Option.isSome_iff_exists.1 ((feedChunks_isSome_iff hs cs).2 h)
  rw [feedAll_of_feedChunks hs', ← hs']

end Transducer

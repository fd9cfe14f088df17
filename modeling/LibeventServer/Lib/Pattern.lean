import Mathlib.Data.List.DropRight

/-!
# Patterns with repetitions and captures

A pattern is matched against a list from its first element on, by backtracking.  What remains of the list and what was
captured is handed to a continuation, which may refuse it.

* `maxExpand`: as many elements of a class as there are, then fewer and fewer; `minExpand`: none, then more and more.
* `maxExpand_eq_of_none`, `minExpand_true_of_all`: the cases in which the search finds what is wanted without trying.
-/

/-- How often an element of the class is wanted: once, as often as possible, as rarely as possible. -/
inductive Repetition where
  | one
  | max
  | min

/-- A pattern over classes `C`: classes with their repetitions, and captures, one after the other. -/
inductive Pattern (C : Type*) where
  | done
  | single (cl : C) (rep : Repetition) (rest : Pattern C)
  | capture (body rest : Pattern C)

namespace Pattern

variable {α β C : Type*}

/-- Give `k` the rest after as many elements with `p` as possible; if it refuses, after one less, and so on. -/
def maxExpand (p : α → Bool) (k : List α → Option β) : List α → Option β
  | [] => k []
  | c :: s => if p c then (maxExpand p k s).or (k (c :: s)) else k (c :: s)

/-- Give `k` the whole list; if it refuses, and the first element has `p`, the list without it, and so on. -/
def minExpand (p : α → Bool) (k : List α → Option β) : List α → Option β
  | [] => k []
  | c :: s => (k (c :: s)).or (if p c then minExpand p k s else none)

/-- Match the pattern from the first element on; `caps` is what was captured before. -/
def run (mem : C → α → Bool) : Pattern C → (List α → List (List α) → Option β) → List α → List (List α) → Option β
  | done, k, s, caps => k s caps
  | single _ .one _, _, [], _ => none
  | single cl .one rest, k, c :: s, caps => if mem cl c then run mem rest k s caps else none
  | single cl .max rest, k, s, caps => maxExpand (mem cl) (fun e => run mem rest k e caps) s
  | single cl .min rest, k, s, caps => minExpand (mem cl) (fun e => run mem rest k e caps) s
  | capture body rest, k, s, caps =>
    run mem body (fun e inner => run mem rest k e (caps ++ s.take (s.length - e.length) :: inner)) s []

/-! ### The longest repetition -/

section

variable {p : α → Bool} {k : List α → Option β}

/-- The first attempt succeeds. -/
theorem maxExpand_of_some {s : List α} {b : β} (h : k (s.dropWhile p) = some b) : maxExpand p k s = some b := by
  induction s with
  | nil => exact h
  | cons c s ih =>
    rw [maxExpand]
    by_cases hc : p c
    · rw [List.dropWhile_cons_of_pos hc] at h
      rw [if_pos hc, ih h, Option.some_or]
    · rw [List.dropWhile_cons_of_neg hc] at h
      rw [if_neg hc, h]

/-- When what follows refuses to begin with an element of the class, only the first attempt counts. -/
theorem maxExpand_eq_of_none (h : ∀ c t, p c → k (c :: t) = none) (s : List α) :
    maxExpand p k s = k (s.dropWhile p) := by
  induction s with
  | nil => rfl
  | cons c s ih =>
    rw [maxExpand]
    by_cases hc : p c
    · rw [if_pos hc, ih, h c s hc, Option.or_none, List.dropWhile_cons_of_pos hc]
    · rw [if_neg hc, List.dropWhile_cons_of_neg hc]

/-- Every attempt fails. -/
theorem maxExpand_eq_none {s : List α} (h : ∀ a b, s = a ++ b → (∀ c ∈ a, p c) → k b = none) :
    maxExpand p k s = none := by
  induction s with
  | nil => exact h [] [] rfl (by simp)
  | cons c s ih =>
    have hk : k (c :: s) = none := h [] (c :: s) rfl (by simp)
    rw [maxExpand]
    by_cases hc : p c
    · have hs : maxExpand p k s = none := by
        refine ih fun a b hsplit ha => h (c :: a) b (by rw [hsplit, List.cons_append]) fun d hd => ?_
        rcases List.mem_cons.1 hd with rfl | hd
        · exact hc
        · exact ha d hd
      rw [if_pos hc, hs, hk, Option.or_none]
    · rw [if_neg hc, hk]

/-- Elements of the class up to the end. -/
theorem maxExpand_end (x : β) (s : List α) :
    maxExpand p (fun e => if e = [] then some x else none) s = if s.all p then some x else none := by
  rw [maxExpand_eq_of_none fun c t _ => if_neg (List.cons_ne_nil c t)]
  by_cases hs : s.all p
  · rw [if_pos hs, if_pos]
    rw [List.dropWhile_eq_nil_iff]
    exact List.all_eq_true.1 hs
  · rw [if_neg hs, if_neg]
    intro hnil
    exact hs (List.all_eq_true.2 (List.dropWhile_eq_nil_iff.1 hnil))

/-! ### The shortest repetition -/

/-- The first attempt succeeds. -/
theorem minExpand_of_some {s : List α} {b : β} (h : k s = some b) : minExpand p k s = some b := by
  cases s with
  | nil => exact h
  | cons c s => rw [minExpand, h, Option.some_or]

/-- Every attempt fails. -/
theorem minExpand_eq_none {s : List α} (h : ∀ a b, s = a ++ b → k b = none) : minExpand p k s = none := by
  induction s with
  | nil => exact h [] [] rfl
  | cons c s ih =>
    have hs : minExpand p k s = none := ih fun a b hsplit => h (c :: a) b (by rw [hsplit, List.cons_append])
    rw [minExpand, h [] (c :: s) rfl, hs, Option.none_or, ite_self]

theorem rtakeWhile_cons (q : α → Bool) (c : α) (s : List α) :
    (c :: s).rtakeWhile q = if (c :: s).all q then c :: s else s.rtakeWhile q := by
  by_cases h : (c :: s).all q
  · rw [if_pos h, List.rtakeWhile_eq_self_iff]
    exact List.all_eq_true.1 h
  · rw [if_neg h]
    induction s using List.reverseRecOn with
    | nil =>
      have hc : ¬ q c := by simpa using h
      have heq := List.rtakeWhile_concat_neg (l := []) q c hc
      exact heq
    | append_singleton s d ih =>
      by_cases hd : q d
      · have hs : ¬ ((c :: s).all q) := by
          intro hs
          apply h
          simp only [List.all_cons, List.all_append, Bool.and_eq_true] at hs ⊢
          exact ⟨hs.1, hs.2, by simpa using hd⟩
        rw [← List.cons_append, List.rtakeWhile_concat_pos q _ d hd, ih hs, List.rtakeWhile_concat_pos q _ d hd]
      · rw [← List.cons_append, List.rtakeWhile_concat_neg q _ d hd, List.rtakeWhile_concat_neg q _ d hd]

/-- When what follows wants elements with `q` up to the end, it gets them all. -/
theorem minExpand_true_of_all {q : α → Bool} {g : List α → β} (h : ∀ t, k t = if t.all q then some (g t) else none)
    (s : List α) : minExpand (fun _ => true) k s = some (g (s.rtakeWhile q)) := by
  induction s with
  | nil => exact h []
  | cons c s ih =>
    rw [minExpand, h, rtakeWhile_cons]
    by_cases hs : (c :: s).all q
    · rw [if_pos hs, if_pos hs, Option.some_or]
    · rw [if_neg hs, if_neg hs, Option.none_or, if_pos rfl, ih]

end

/-! ### What a capture holds -/

theorem head_of_dropWhile {p : α → Bool} {s t : List α} {c : α} (h : s.dropWhile p = c :: t) : p c = false := by
  have hhead := @List.head_dropWhile_not _ p s (by simp [h])
  simpa [h] using hhead

theorem take_of_append {s a b : List α} (h : a ++ b = s) : s.take (s.length - b.length) = a := by
  subst h
  simp

theorem take_dropWhile (p : α → Bool) (s : List α) : s.take (s.length - (s.dropWhile p).length) = s.takeWhile p :=
  take_of_append List.takeWhile_append_dropWhile

theorem take_rtakeWhile (q : α → Bool) (s : List α) : s.take (s.length - (s.rtakeWhile q).length) = s.rdropWhile q :=
  take_of_append List.rdropWhile_append_rtakeWhile

end Pattern

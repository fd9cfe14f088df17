import LibeventServer.Lib.Program
import Mathlib.Data.List.Basic

/-!
# Programs that read a sequence

A `Reading` asks for so many elements at a time, goes on with them, and ends with a value or an error.  It says
nothing about where the elements come from.

* `parse`: run it on a list; the result comes with the rest of the list.  `exists_read` is the frame rule: what was
  read does not depend on what comes behind it.
* `RaisesOnly`, `Returns`: the errors and values of a program, with a rule for `>>=`.
* `runOn fetch`: run it on a machine that fetches elements from a state.
* `Serves`: the machine fetches what a list would give.  Then running on the machine is parsing the list
  (`runOn_of_parse_ok`, `runOn_of_parse_error`), whatever the program.
-/

/-- A program that reads elements `β` and returns an `α` or raises an `ε`. -/
inductive Reading (β ε α : Type) where
  | done (a : α)
  | raise (e : ε)
  | read (n : Nat) (k : List β → Reading β ε α)

namespace Reading

variable {β ε α γ : Type}

protected def bind : Reading β ε α → (α → Reading β ε γ) → Reading β ε γ
  | done a, f => f a
  | raise e, _ => raise e
  | read n k, f => read n fun l => (k l).bind f

instance instMonad : Monad (Reading β ε) where
  pure := done
  bind := Reading.bind

@[simp] theorem pure_eq (a : α) : (pure a : Reading β ε α) = done a := rfl

@[simp] theorem done_bind (a : α) (f : α → Reading β ε γ) : (done a >>= f) = f a := rfl

@[simp] theorem raise_bind (e : ε) (f : α → Reading β ε γ) : ((raise e : Reading β ε α) >>= f) = raise e := rfl

@[simp] theorem read_bind (n : Nat) (k : List β → Reading β ε α) (f : α → Reading β ε γ) :
    (read n k >>= f) = read n fun l => k l >>= f := rfl

/-- The next `n` elements. -/
def next (n : Nat) : Reading β ε (List β) := read n done

/-! ### On a list -/

/-- Run a program on a list: the value and the rest of the list.  The error `missing` is that of a list that ends too
early. -/
def parse (missing : ε) : Reading β ε α → List β → Except ε (α × List β)
  | done a, l => .ok (a, l)
  | raise e, _ => .error e
  | read n k, l => if n ≤ l.length then (k (l.take n)).parse missing (l.drop n) else .error missing

variable {missing : ε} {p : Reading β ε α} {l r : List β} {a : α} {e : ε}

@[simp] theorem parse_done : (done a : Reading β ε α).parse missing l = .ok (a, l) := rfl

@[simp] theorem parse_raise : (raise e : Reading β ε α).parse missing l = .error e := rfl

theorem parse_read {n : Nat} {k : List β → Reading β ε α} (h : n ≤ l.length) :
    (read n k).parse missing l = (k (l.take n)).parse missing (l.drop n) := by
  rw [parse, if_pos h]

theorem parse_read_short {n : Nat} {k : List β → Reading β ε α} (h : l.length < n) :
    (read n k).parse missing l = .error missing := by
  rw [parse, if_neg (Nat.not_le_of_gt h)]

/-- A read of exactly the elements in front. -/
theorem parse_read_append {k : List β → Reading β ε α} {u : List β} {n : Nat} (hu : u.length = n) (l : List β) :
    (read n k).parse missing (u ++ l) = (k u).parse missing l := by
  rw [parse_read (by simp [← hu]), List.take_left' hu, List.drop_left' hu]

theorem parse_bind_ok {f : α → Reading β ε γ} (h : p.parse missing l = .ok (a, r)) :
    (p >>= f).parse missing l = (f a).parse missing r := by
  induction p generalizing l with
  | done b =>
    cases h
    rfl
  | raise e => cases h
  | read n k ih =>
    by_cases hn : n ≤ l.length
    · rw [parse_read hn] at h
      rw [read_bind, parse_read hn]
      exact ih _ h
    · rw [parse_read_short (Nat.lt_of_not_le hn)] at h
      cases h

theorem parse_bind_error {f : α → Reading β ε γ} (h : p.parse missing l = .error e) :
    (p >>= f).parse missing l = .error e := by
  induction p generalizing l with
  | done b => cases h
  | raise e' =>
    cases h
    rfl
  | read n k ih =>
    by_cases hn : n ≤ l.length
    · rw [parse_read hn] at h
      rw [read_bind, parse_read hn]
      exact ih _ h
    · rw [parse_read_short (Nat.lt_of_not_le hn)] at h
      cases h
      rw [read_bind, parse_read_short (Nat.lt_of_not_le hn)]

theorem of_parse_bind_ok {f : α → Reading β ε γ} {c : γ} (h : (p >>= f).parse missing l = .ok (c, r)) :
    ∃ a r₁, p.parse missing l = .ok (a, r₁) ∧ (f a).parse missing r₁ = .ok (c, r) := by
  cases hp : p.parse missing l with
  | error e =>
    rw [parse_bind_error hp] at h
    cases h
  | ok x =>
    rw [parse_bind_ok hp] at h
    exact ⟨x.1, x.2, rfl, h⟩

theorem of_parse_bind_error {f : α → Reading β ε γ} (h : (p >>= f).parse missing l = .error e) :
    p.parse missing l = .error e ∨ ∃ a r, p.parse missing l = .ok (a, r) ∧ (f a).parse missing r = .error e := by
  cases hp : p.parse missing l with
  | error e' =>
    rw [parse_bind_error hp] at h
    cases h
    exact Or.inl rfl
  | ok x =>
    rw [parse_bind_ok hp] at h
    exact Or.inr ⟨x.1, x.2, rfl, h⟩

theorem parse_bind_congr {p' : Reading β ε α} {f f' : α → Reading β ε γ} (hp : p.parse missing l = p'.parse missing l)
    (hf : ∀ a r, p.parse missing l = .ok (a, r) → (f a).parse missing r = (f' a).parse missing r) :
    (p >>= f).parse missing l = (p' >>= f').parse missing l := by
  cases h : p.parse missing l with
  | error e => rw [parse_bind_error h, parse_bind_error (hp.symm.trans h)]
  | ok x => rw [parse_bind_ok h, parse_bind_ok (hp.symm.trans h), hf _ _ h]

/-- A program that returns has read the front of the list, and would have done the same with anything behind it. -/
theorem exists_read (h : p.parse missing l = .ok (a, r)) :
    ∃ u, l = u ++ r ∧ ∀ t, p.parse missing (u ++ t) = .ok (a, t) := by
  induction p generalizing l with
  | done b =>
    cases h
    exact ⟨[], rfl, fun t => rfl⟩
  | raise e => cases h
  | read n k ih =>
    by_cases hn : n ≤ l.length
    · rw [parse_read hn] at h
      obtain ⟨u, hu, hframe⟩ := ih _ h
      have hlen : (l.take n).length = n := List.length_take_of_le hn
      refine ⟨l.take n ++ u, ?_, fun t => ?_⟩
      · rw [List.append_assoc, ← hu, List.take_append_drop]
      · rw [List.append_assoc, parse_read_append hlen]
        exact hframe t
    · rw [parse_read_short (Nat.lt_of_not_le hn)] at h
      cases h

theorem length_of_parse_ok (h : p.parse missing l = .ok (a, r)) : r.length ≤ l.length := by
  obtain ⟨u, rfl, -⟩ := exists_read h
  simp

/-- An error that is not `missing` is raised whatever comes behind. -/
theorem parse_error_append (h : p.parse missing l = .error e) (hne : e ≠ missing) (t : List β) :
    p.parse missing (l ++ t) = .error e := by
  induction p generalizing l with
  | done b => cases h
  | raise e' => exact h
  | read n k ih =>
    by_cases hn : n ≤ l.length
    · rw [parse_read hn] at h
      rw [parse_read (Nat.le_trans hn (by simp)), List.take_append_of_le_length hn, List.drop_append_of_le_length hn]
      exact ih _ h
    · rw [parse_read_short (Nat.lt_of_not_le hn)] at h
      cases h
      exact absurd rfl hne

/-! ### What a program can raise and return -/

/-- On lists of at most `L` elements, an error is one with `P`. -/
def RaisesOnly (missing : ε) (P : ε → Prop) (L : Nat) (p : Reading β ε α) : Prop :=
  ∀ l e, l.length ≤ L → p.parse missing l = .error e → P e

/-- Whatever the list, a value that is returned has `Q`. -/
def Returns (missing : ε) (Q : α → Prop) (p : Reading β ε α) : Prop :=
  ∀ l a r, p.parse missing l = .ok (a, r) → Q a

variable {P : ε → Prop} {L : Nat} {Q : α → Prop} {f : α → Reading β ε γ}

theorem raisesOnly_done (a : α) : RaisesOnly missing P L (done a : Reading β ε α) := by
  intro l e hl h
  cases h

theorem raisesOnly_raise (he : P e) : RaisesOnly missing P L (raise e : Reading β ε α) := by
  intro l e' hl h
  cases h
  exact he

/-- What is read is gone for what comes after it. -/
theorem raisesOnly_read (h : P missing) {n : Nat} {k : List β → Reading β ε α}
    (hk : n ≤ L → ∀ u, RaisesOnly missing P (L - n) (k u)) : RaisesOnly missing P L (read n k) := by
  intro l e hl he
  by_cases hn : n ≤ l.length
  · rw [parse_read hn] at he
    exact hk (Nat.le_trans hn hl) _ _ e (by rw [List.length_drop]; omega) he
  · rw [parse_read_short (Nat.lt_of_not_le hn)] at he
    cases he
    exact h

theorem raisesOnly_next (h : P missing) (n : Nat) : RaisesOnly missing P L (next n : Reading β ε (List β)) :=
  raisesOnly_read h fun _ u => raisesOnly_done u

theorem RaisesOnly.bind (hp : RaisesOnly missing P L p) (hf : ∀ a, RaisesOnly missing P L (f a)) :
    RaisesOnly missing P L (p >>= f) := by
  intro l e hl h
  rcases of_parse_bind_error h with h | ⟨a, r, ha, h⟩
  · exact hp l e hl h
  · exact hf a r e (Nat.le_trans (length_of_parse_ok ha) hl) h

theorem returns_done (ha : Q a) : Returns missing Q (done a : Reading β ε α) := by
  intro l b r h
  cases h
  exact ha

theorem returns_raise (e : ε) : Returns missing Q (raise e : Reading β ε α) := by
  intro l b r h
  cases h

theorem returns_true (p : Reading β ε α) : Returns missing (fun _ => True) p := fun _ _ _ _ => trivial

theorem returns_next (n : Nat) : Returns missing (fun u => u.length = n) (next n : Reading β ε (List β)) := by
  intro l u r h
  by_cases hn : n ≤ l.length
  · rw [next, parse_read hn] at h
    cases h
    exact List.length_take_of_le hn
  · rw [next, parse_read_short (Nat.lt_of_not_le hn)] at h
    cases h

theorem Returns.bind {R : γ → Prop} (hp : Returns missing Q p) (hf : ∀ a, Q a → Returns missing R (f a)) :
    Returns missing R (p >>= f) := by
  intro l c r h
  obtain ⟨a, r₁, ha, hc⟩ := of_parse_bind_ok h
  exact hf a (hp l a r₁ ha) r₁ c r hc

/-! ### On a machine -/

variable {σ : Type}

/-- Run a program on a machine: `fetch n` gives the next `n` elements and changes the state, or raises. -/
def runOn (fetch : Nat → EStateM ε σ (List β)) : Reading β ε α → EStateM ε σ α
  | done a => pure a
  | raise e => throw e
  | read n k => fetch n >>= fun l => (k l).runOn fetch

/-- In the states with `Good` the machine fetches from the list `rest`, and raises `missing` where that is too short.
-/
structure Serves (fetch : Nat → EStateM ε σ (List β)) (missing : ε) (Good : σ → Prop) (rest : σ → List β) : Prop where
  enough : ∀ n s, Good s → n ≤ (rest s).length →
    ∃ s', fetch n s = .ok ((rest s).take n) s' ∧ Good s' ∧ rest s' = (rest s).drop n
  short : ∀ n s, Good s → (rest s).length < n → ∃ s', fetch n s = .error missing s'

variable {fetch : Nat → EStateM ε σ (List β)} {Good : σ → Prop} {rest : σ → List β} {s : σ}

theorem runOn_of_parse_ok (h : Serves fetch missing Good rest) (hs : Good s)
    (hp : p.parse missing (rest s) = .ok (a, r)) : ∃ s', p.runOn fetch s = .ok a s' ∧ Good s' ∧ rest s' = r := by
  induction p generalizing s with
  | done b =>
    cases hp
    exact ⟨s, rfl, hs, rfl⟩
  | raise e => cases hp
  | read n k ih =>
    by_cases hn : n ≤ (rest s).length
    · rw [parse_read hn] at hp
      obtain ⟨s₁, hfetch, hs₁, hrest⟩ := h.enough n s hs hn
      rw [← hrest] at hp
      obtain ⟨s', hrun, hs', hr⟩ := ih _ hs₁ hp
      exact ⟨s', (EStateM.bind_ok hfetch).trans hrun, hs', hr⟩
    · rw [parse_read_short (Nat.lt_of_not_le hn)] at hp
      cases hp

theorem runOn_of_parse_error (h : Serves fetch missing Good rest) (hs : Good s)
    (hp : p.parse missing (rest s) = .error e) : ∃ s', p.runOn fetch s = .error e s' := by
  induction p generalizing s with
  | done b => cases hp
  | raise e' =>
    cases hp
    exact ⟨s, rfl⟩
  | read n k ih =>
    by_cases hn : n ≤ (rest s).length
    · rw [parse_read hn] at hp
      obtain ⟨s₁, hfetch, hs₁, hrest⟩ := h.enough n s hs hn
      rw [← hrest] at hp
      obtain ⟨s', hrun⟩ := ih _ hs₁ hp
      exact ⟨s', (EStateM.bind_ok hfetch).trans hrun⟩
    · rw [parse_read_short (Nat.lt_of_not_le hn)] at hp
      cases hp
      obtain ⟨s', hfetch⟩ := h.short n s hs (Nat.lt_of_not_le hn)
      exact ⟨s', EStateM.bind_error hfetch⟩

end Reading

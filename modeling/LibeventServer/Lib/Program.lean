import Mathlib.Init

/-!
# Programs that may stop at a fault

Rules for `EStateM ε σ`: a program changes a state `σ` and returns, or stops at a fault `ε` in the state it had
reached.

* `bind_ok`, `bind_error`: a sequence runs its first part and goes on from there.
* `Turns P f l`: `P` holds before each turn of a loop.
* `Keeps P m`: a run of the program that starts with `P` and returns ends with `P`.
* `Moves R m`: however a run of the program ends, `R` relates its first and its last state.
* `Avoids bad P m`: a run of the program that starts with `P` does not stop at a bad fault, and ends with `P`.
* `attempt caught m`: run `m` and go on after the faults that can be caught, in the state they left.
* `part view put m`: run `m` on a part of the state.
* `Simulates R m m'`: from related states the two programs end alike, in related states.
* `Covers m m'`: what `m` returns from a state, `m'` returns from it too.
-/

namespace EStateM

variable {ε σ α β : Type}

theorem bind_ok {m : EStateM ε σ α} {f : α → EStateM ε σ β} {s s' : σ} {a : α} (h : m s = .ok a s') :
    (m >>= f) s = f a s' := by
  show EStateM.bind m f s = f a s'
  simp [EStateM.bind, h]

theorem bind_error {m : EStateM ε σ α} {f : α → EStateM ε σ β} {s s' : σ} {e : ε} (h : m s = .error e s') :
    (m >>= f) s = .error e s' := by
  show EStateM.bind m f s = .error e s'
  simp [EStateM.bind, h]

theorem get_bind (f : σ → EStateM ε σ β) (s : σ) : ((get : EStateM ε σ σ) >>= f) s = f s s := rfl

theorem modify_bind (g : σ → σ) (f : PUnit → EStateM ε σ β) (s : σ) :
    ((modify g : EStateM ε σ PUnit) >>= f) s = f ⟨⟩ (g s) := rfl

@[simp] theorem pure_apply (a : α) (s : σ) : (pure a : EStateM ε σ α) s = .ok a s := rfl

theorem of_bind_ok {m : EStateM ε σ α} {f : α → EStateM ε σ β} {s s' : σ} {b : β} (h : (m >>= f) s = .ok b s') :
    ∃ a s₁, m s = .ok a s₁ ∧ f a s₁ = .ok b s' := by
  cases hr : m s with
  | ok a s₁ =>
    rw [bind_ok hr] at h
    exact ⟨a, s₁, rfl, h⟩
  | error e s₁ =>
    rw [bind_error hr] at h
    cases h

/-- A program that ends with `pure a` returns nothing but `a`. -/
theorem eq_of_bind_pure {m : EStateM ε σ α} {b b' : β} {s s' : σ}
    (h : (m >>= fun _ => pure b) s = .ok b' s') : b' = b := by
  obtain ⟨a, s₁, -, h⟩ := of_bind_ok h
  cases h
  rfl

/-- A loop whose body does nothing in `s` does nothing. -/
theorem forM_noop {f : α → EStateM ε σ Unit} {s : σ} {l : List α} (h : ∀ a ∈ l, f a s = .ok () s) :
    l.forM f s = .ok () s := by
  induction l with
  | nil => rfl
  | cons a l ih =>
    show (f a >>= fun _ => l.forM f) s = _
    rw [bind_ok (h a List.mem_cons_self)]
    exact ih fun b hb => h b (List.mem_cons_of_mem a hb)

theorem forM_cons (f : α → EStateM ε σ Unit) (a : α) (l : List α) : (a :: l).forM f = f a >>= fun _ => l.forM f := rfl

/-- `P` holds before each turn of a loop. -/
def Turns (P : α → σ → Prop) (f : α → EStateM ε σ Unit) (l : List α) (s : σ) : Prop :=
  ∀ done a rest s₁, l = done ++ a :: rest → done.forM f s = .ok () s₁ → P a s₁

theorem turns_cons {P : α → σ → Prop} {f : α → EStateM ε σ Unit} {a : α} {l : List α} {s : σ} :
    Turns P f (a :: l) s ↔ P a s ∧ ∀ s₁, f a s = .ok () s₁ → Turns P f l s₁ := by
  constructor
  · intro h
    refine ⟨h [] a l s rfl rfl, fun s₁ ha done b rest s₂ hl hdone => ?_⟩
    exact h (a :: done) b rest s₂ (by rw [hl, List.cons_append]) ((bind_ok ha).trans hdone)
  · rintro ⟨ha, hl⟩ done b rest s₁ hsplit hdone
    cases done with
    | nil =>
      cases hsplit
      cases hdone
      exact ha
    | cons a' done =>
      rw [List.cons_append, List.cons.injEq] at hsplit
      obtain ⟨rfl, hsplit⟩ := hsplit
      rw [forM_cons] at hdone
      obtain ⟨_, s₂, ha₂, hdone⟩ := of_bind_ok hdone
      exact hl s₂ ha₂ done b rest s₁ hsplit hdone

/-- A program on the part of the state that `view` shows and `put` puts back. -/
def part {τ : Type} (view : σ → τ) (put : τ → σ → σ) (m : EStateM ε τ α) : EStateM ε σ α := fun s =>
  match m (view s) with
  | .ok a t => .ok a (put t s)
  | .error e t => .error e (put t s)

theorem part_ok {τ : Type} {view : σ → τ} {put : τ → σ → σ} {m : EStateM ε τ α} {s : σ} {a : α} {t : τ}
    (h : m (view s) = .ok a t) : part view put m s = .ok a (put t s) := by
  rw [part, h]

/-- The state in which a program returned or stopped. -/
def Result.state : EStateM.Result ε σ α → σ
  | .ok _ s => s
  | .error _ s => s

@[simp] theorem Result.state_ok (a : α) (s : σ) : (EStateM.Result.ok a s : Result ε σ α).state = s := rfl
@[simp] theorem Result.state_error (e : ε) (s : σ) : (EStateM.Result.error e s : Result ε σ α).state = s := rfl

/-- A run of `m` that starts with `P` and returns ends with `P`. -/
def Keeps (P : σ → Prop) (m : EStateM ε σ α) : Prop := ∀ s a s', P s → m s = .ok a s' → P s'

variable {P : σ → Prop}

theorem Keeps.pure (a : α) : Keeps P (pure a : EStateM ε σ α) := by
  intro s b s' hs h
  cases h
  exact hs

theorem Keeps.bind {m : EStateM ε σ α} {f : α → EStateM ε σ β} (hm : Keeps P m) (hf : ∀ a, Keeps P (f a)) :
    Keeps P (m >>= f) := by
  intro s b s' hs h
  obtain ⟨a, s₁, hr, h⟩ := of_bind_ok h
  exact hf a s₁ b s' (hm s a s₁ hs hr) h

theorem Keeps.get : Keeps P (get : EStateM ε σ σ) := by
  intro s a s' hs h
  cases h
  exact hs

theorem Keeps.ite {c : Prop} [Decidable c] {m m' : EStateM ε σ α} (hm : Keeps P m) (hm' : Keeps P m') :
    Keeps P (if c then m else m') := by
  split
  · exact hm
  · exact hm'

theorem Keeps.part {τ : Type} {view : σ → τ} {put : τ → σ → σ} {m : EStateM ε τ α} (h : ∀ t s, P s → P (put t s)) :
    Keeps P (part view put m) := by
  intro s a s' hs hrun
  unfold EStateM.part at hrun
  split at hrun
  · cases hrun
    exact h _ s hs
  · cases hrun

theorem Keeps.forM {f : α → EStateM ε σ Unit} {l : List α} (h : ∀ a ∈ l, Keeps P (f a)) : Keeps P (l.forM f) := by
  induction l with
  | nil => exact Keeps.pure ()
  | cons a l ih => exact (h a List.mem_cons_self).bind fun _ => ih fun b hb => h b (List.mem_cons_of_mem a hb)

/-- However a run of `m` ends, `R` relates its first and its last state. -/
def Moves (R : σ → σ → Prop) (m : EStateM ε σ α) : Prop := ∀ s, R s (m s).state

variable {R : σ → σ → Prop}

theorem Moves.pure (hrefl : ∀ s, R s s) (a : α) : Moves R (pure a : EStateM ε σ α) := hrefl

theorem Moves.throw (hrefl : ∀ s, R s s) (e : ε) : Moves R (throw e : EStateM ε σ α) := hrefl

theorem Moves.bind (htrans : ∀ s₁ s₂ s₃, R s₁ s₂ → R s₂ s₃ → R s₁ s₃) {m : EStateM ε σ α} {f : α → EStateM ε σ β}
    (hm : Moves R m) (hf : ∀ a, Moves R (f a)) : Moves R (m >>= f) := by
  intro s
  have hs := hm s
  cases hr : m s with
  | ok a s₁ =>
    rw [hr] at hs
    rw [bind_ok hr]
    exact htrans s s₁ _ hs (hf a s₁)
  | error e s₁ =>
    rw [hr] at hs
    rw [bind_error hr]
    exact hs

theorem Moves.forM (hrefl : ∀ s, R s s) (htrans : ∀ s₁ s₂ s₃, R s₁ s₂ → R s₂ s₃ → R s₁ s₃) {f : α → EStateM ε σ Unit}
    (h : ∀ a, Moves R (f a)) (l : List α) : Moves R (l.forM f) := by
  induction l with
  | nil => exact Moves.pure hrefl ()
  | cons a l ih => exact Moves.bind htrans (h a) fun _ => ih

/-- A run of `m` that starts with `P` ends with `P`, returning or at a fault that is not bad. -/
def Avoids (bad : ε → Prop) (P : σ → Prop) (m : EStateM ε σ α) : Prop :=
  ∀ s, P s → P (m s).state ∧ ∀ e s', m s = .error e s' → ¬ bad e

variable {bad : ε → Prop}

theorem Avoids.pure (a : α) : Avoids bad P (pure a : EStateM ε σ α) := fun _ hs => ⟨hs, fun _ _ h => nomatch h⟩

theorem Avoids.throw {e : ε} (he : ¬ bad e) : Avoids bad P (throw e : EStateM ε σ α) := by
  intro s hs
  refine ⟨hs, fun e' s' h => ?_⟩
  cases h
  exact he

theorem Avoids.bind {m : EStateM ε σ α} {f : α → EStateM ε σ β} (hm : Avoids bad P m) (hf : ∀ a, Avoids bad P (f a)) :
    Avoids bad P (m >>= f) := by
  intro s hs
  obtain ⟨hP, hbad⟩ := hm s hs
  cases hr : m s with
  | ok a s₁ =>
    rw [hr] at hP
    rw [bind_ok hr]
    exact hf a s₁ hP
  | error e s₁ =>
    rw [hr] at hP
    rw [bind_error hr]
    refine ⟨hP, fun e' s' h => ?_⟩
    cases h
    exact hbad e s₁ hr

/-- The rest of the program may count on what the first part returns. -/
theorem Avoids.bind_of_returns {Q : α → Prop} {m : EStateM ε σ α} {f : α → EStateM ε σ β} (hm : Avoids bad P m)
    (hQ : ∀ s a s', P s → m s = .ok a s' → Q a) (hf : ∀ a, Q a → Avoids bad P (f a)) : Avoids bad P (m >>= f) := by
  intro s hs
  obtain ⟨hP, hbad⟩ := hm s hs
  cases hr : m s with
  | ok a s₁ =>
    rw [hr] at hP
    rw [bind_ok hr]
    exact hf a (hQ s a s₁ hs hr) s₁ hP
  | error e s₁ =>
    rw [hr] at hP
    rw [bind_error hr]
    refine ⟨hP, fun e' s' h => ?_⟩
    cases h
    exact hbad e s₁ hr

/-- Run `m` and go on, also after a fault that can be caught. -/
def attempt {μ : Type} (caught : ε → Option μ) (m : EStateM ε σ α) : EStateM ε σ (Except μ α) := fun s =>
  match m s with
  | .ok a s' => .ok (.ok a) s'
  | .error e s' =>
    match caught e with
    | some msg => .ok (.error msg) s'
    | none => .error e s'

section

variable {μ : Type} {caught : ε → Option μ} {m : EStateM ε σ α} {s s' : σ}

theorem attempt_ok {a : α} (h : m s = .ok a s') : attempt caught m s = .ok (.ok a) s' := by
  rw [attempt, h]

theorem attempt_error {e : ε} {msg : μ} (h : m s = .error e s') (he : caught e = some msg) :
    attempt caught m s = .ok (.error msg) s' := by
  simp only [attempt, h, he]

theorem attempt_uncaught {e : ε} (h : m s = .error e s') (he : caught e = none) :
    attempt caught m s = .error e s' := by
  simp only [attempt, h, he]

theorem state_attempt : (attempt caught m s).state = (m s).state := by
  unfold attempt
  cases m s with
  | ok a s' => rfl
  | error e s' =>
    simp only
    cases caught e <;> rfl

theorem Avoids.attempt (hm : Avoids bad P m) : Avoids bad P (EStateM.attempt caught m) := by
  intro s hs
  obtain ⟨hP, hbad⟩ := hm s hs
  rw [state_attempt]
  refine ⟨hP, fun e' s' h => ?_⟩
  cases hr : m s with
  | ok a s₁ =>
    rw [attempt_ok hr] at h
    cases h
  | error e s₁ =>
    simp only [EStateM.attempt, hr] at h
    cases hc : caught e with
    | some msg => simp [hc] at h
    | none =>
      simp only [hc] at h
      cases h
      exact hbad _ _ hr

theorem Moves.attempt (hm : Moves R m) : Moves R (EStateM.attempt caught m) := by
  intro s
  rw [state_attempt]
  exact hm s

end

/-! ### Programs on related states -/

section

variable {τ : Type}

/-- Both programs returned the same, or both stopped at the same fault, and the states are related. -/
inductive Result.Alike (R : σ → τ → Prop) : EStateM.Result ε σ α → EStateM.Result ε τ α → Prop
  | ok (a : α) {s : σ} {t : τ} (h : R s t) : Alike R (.ok a s) (.ok a t)
  | error (e : ε) {s : σ} {t : τ} (h : R s t) : Alike R (.error e s) (.error e t)

theorem Result.Alike.state {R : σ → τ → Prop} {r : EStateM.Result ε σ α} {r' : EStateM.Result ε τ α}
    (h : r.Alike R r') : R r.state r'.state := by
  cases h with
  | ok a h => exact h
  | error e h => exact h

/-- From related states the programs end alike. -/
def Simulates (R : σ → τ → Prop) (m : EStateM ε σ α) (m' : EStateM ε τ α) : Prop :=
  ∀ s t, R s t → (m s).Alike R (m' t)

variable {R : σ → τ → Prop} {m : EStateM ε σ α} {m' : EStateM ε τ α}

theorem Simulates.pure (a : α) : Simulates R (pure a : EStateM ε σ α) (pure a) := fun _ _ h => Result.Alike.ok a h

theorem Simulates.throw (e : ε) : Simulates R (throw e : EStateM ε σ α) (throw e) :=
  fun _ _ h => Result.Alike.error e h

theorem Simulates.bind {f : α → EStateM ε σ β} {f' : α → EStateM ε τ β} (hm : Simulates R m m')
    (hf : ∀ a, Simulates R (f a) (f' a)) : Simulates R (m >>= f) (m' >>= f') := by
  intro s t h
  have hst := hm s t h
  show (EStateM.bind m f s).Alike R (EStateM.bind m' f' t)
  unfold EStateM.bind
  generalize m s = r at hst ⊢
  generalize m' t = r' at hst ⊢
  cases hst with
  | ok a h₁ => exact hf a _ _ h₁
  | error e h₁ => exact Result.Alike.error e h₁

theorem Simulates.attempt {μ : Type} {caught : ε → Option μ} (hm : Simulates R m m') :
    Simulates R (EStateM.attempt caught m) (EStateM.attempt caught m') := by
  intro s t h
  have hst := hm s t h
  unfold EStateM.attempt
  generalize m s = r at hst ⊢
  generalize m' t = r' at hst ⊢
  cases hst with
  | ok a h₁ => exact Result.Alike.ok (Except.ok a) h₁
  | error e h₁ =>
    dsimp only
    cases caught e with
    | some msg => exact Result.Alike.ok (Except.error msg) h₁
    | none => exact Result.Alike.error e h₁

end

/-! ### Programs that return more often -/

/-- What `m` returns from a state, `m'` returns from it too. -/
def Covers (m m' : EStateM ε σ α) : Prop := ∀ s a s', m s = .ok a s' → m' s = .ok a s'

theorem Covers.refl (m : EStateM ε σ α) : Covers m m := fun _ _ _ h => h

theorem Covers.throw (e : ε) (m : EStateM ε σ α) : Covers (throw e) m := fun _ _ _ h => nomatch h

theorem Covers.bind {m m' : EStateM ε σ α} {f f' : α → EStateM ε σ β} (hm : Covers m m')
    (hf : ∀ a, Covers (f a) (f' a)) : Covers (m >>= f) (m' >>= f') := by
  intro s b s' h
  obtain ⟨a, s₁, hr, h⟩ := of_bind_ok h
  rw [bind_ok (hm s a s₁ hr)]
  exact hf a s₁ b s' h

theorem Covers.forM {f f' : α → EStateM ε σ Unit} (h : ∀ a, Covers (f a) (f' a)) (l : List α) :
    Covers (l.forM f) (l.forM f') := by
  induction l with
  | nil => exact Covers.refl _
  | cons a l ih => exact (h a).bind fun _ => ih

end EStateM

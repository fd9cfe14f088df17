import Mathlib.Data.List.Basic
import Mathlib.Logic.Relation

/-!
# Runs of a deterministic system

A system is a function `step : σ → α → σ`; a run is the list of the actions taken.

* `Always`: a property of every state a run passes through; `Along`: a condition on every step of a run, that is
  on the state before the step and the action.
* `always_iff_along`: if a step from a good state leads to a good state exactly when it meets the condition, then a
  run passes through good states only exactly when all its steps meet the condition.
* `foldlM_keeps`, `foldlM_succeeds`: the same for steps that may fail.
* `keeps_of_reflTransGen`, `acc_of_rank`: the invariant and the termination rule for a step that is a relation.
-/

namespace Runs

variable {σ α : Type*} (step : σ → α → σ)

/-- The state after the actions `l`. -/
def run (s : σ) (l : List α) : σ := l.foldl step s

/-- `P` holds of every state the run passes through, the first and the last included. -/
def Always (P : σ → Prop) : σ → List α → Prop
  | s, [] => P s
  | s, a :: l => P s ∧ Always P (step s a) l

/-- Every step of the run is taken from a state and by an action that meet `C`. -/
def Along (C : σ → α → Prop) : σ → List α → Prop
  | _, [] => True
  | s, a :: l => C s a ∧ Along C (step s a) l

@[simp] theorem run_nil (s : σ) : run step s [] = s := rfl

@[simp] theorem run_cons (s : σ) (a : α) (l : List α) : run step s (a :: l) = run step (step s a) l := rfl

theorem run_append (s : σ) (l l' : List α) : run step s (l ++ l') = run step (run step s l) l' :=
  List.foldl_append

variable {step}

/-- What relates the states before and after every step, relates those before and after a run. -/
theorem run_rel {R : σ → σ → Prop} (hrefl : ∀ s, R s s) (htrans : ∀ s₁ s₂ s₃, R s₁ s₂ → R s₂ s₃ → R s₁ s₃)
    (hstep : ∀ s a, R s (step s a)) (s : σ) (l : List α) : R s (run step s l) := by
  induction l generalizing s with
  | nil => exact hrefl s
  | cons a l ih => exact htrans s (step s a) _ (hstep s a) (ih (step s a))

/-- What every step that meets `C` keeps, a run whose steps meet `C` has in every state it passes through. -/
theorem Along.always {P : σ → Prop} {C : σ → α → Prop} (hstep : ∀ s a, P s → C s a → P (step s a))
    {s : σ} (hs : P s) {l : List α} (hl : Along step C s l) : Always step P s l := by
  induction l generalizing s with
  | nil => exact hs
  | cons a l ih => exact ⟨hs, ih (hstep s a hs hl.1) hl.2⟩

theorem along_congr {C D : σ → α → Prop} (h : ∀ s a, C s a ↔ D s a) (s : σ) (l : List α) :
    Along step C s l ↔ Along step D s l := by
  induction l generalizing s with
  | nil => exact Iff.rfl
  | cons a l ih => exact and_congr (h s a) (ih (step s a))

/-- A condition that implies another from the states with an invariant. -/
theorem Along.mono_of_invariant {I : σ → Prop} {C D : σ → α → Prop} (hkeep : ∀ s a, I s → I (step s a))
    (h : ∀ s a, I s → C s a → D s a) {s : σ} (hs : I s) {l : List α} (hl : Along step C s l) : Along step D s l := by
  induction l generalizing s with
  | nil => trivial
  | cons a l ih => exact ⟨h s a hs hl.1, ih (hkeep s a hs) hl.2⟩

theorem along_append {C : σ → α → Prop} (s : σ) (l l' : List α) :
    Along step C s (l ++ l') ↔ Along step C s l ∧ Along step C (run step s l) l' := by
  induction l generalizing s with
  | nil => simp [Along]
  | cons a l ih =>
    rw [List.cons_append, run_cons]
    simp only [Along, ih, and_assoc]

/-- What every step keeps, every state of a run has. -/
theorem Always.of_invariant {P : σ → Prop} (hstep : ∀ s a, P s → P (step s a)) {s : σ} (hs : P s) (l : List α) :
    Always step P s l := by
  induction l generalizing s with
  | nil => exact hs
  | cons a l ih => exact ⟨hs, ih (hstep s a hs)⟩

theorem Always.mono {P Q : σ → Prop} (h : ∀ s, P s → Q s) {s : σ} {l : List α} (hl : Always step P s l) :
    Always step Q s l := by
  induction l generalizing s with
  | nil => exact h s hl
  | cons a l ih => exact ⟨h s hl.1, ih hl.2⟩

theorem Always.first {P : σ → Prop} {s : σ} {l : List α} (hl : Always step P s l) : P s := by
  cases l with
  | nil => exact hl
  | cons a l => exact hl.1

theorem Always.last {P : σ → Prop} {s : σ} {l : List α} (hl : Always step P s l) : P (run step s l) := by
  induction l generalizing s with
  | nil => exact hl
  | cons a l ih => exact ih hl.2

theorem Always.append {P : σ → Prop} {s : σ} {l l' : List α} (hl : Always step P s l)
    (hl' : Always step P (run step s l) l') : Always step P s (l ++ l') := by
  induction l generalizing s with
  | nil => exact hl'
  | cons a l ih => exact ⟨hl.1, ih hl.2 hl'⟩

/-- A property kept by the steps into states with `P` holds at the end of a run that stays in `P`. -/
theorem Always.run_invariant {P Q : σ → Prop} (hstep : ∀ s a, Q s → P (step s a) → Q (step s a))
    {s : σ} (hs : Q s) {l : List α} (hl : Always step P s l) : Q (run step s l) := by
  induction l generalizing s with
  | nil => exact hs
  | cons a l ih => exact ih (hstep s a hs hl.2.first) hl.2

/-- Let a step allowed by `L` from a state with the invariant `I` be good exactly when it meets `C`, and let such
steps that meet `C` keep `I`.  Then a run of allowed steps passes through good states only exactly when each of its
steps meets `C`. -/
theorem always_iff_along_of_allowed {I P : σ → Prop} {L C : σ → α → Prop}
    (hstep : ∀ s a, I s → L s a → (P (step s a) ↔ C s a)) (hkeep : ∀ s a, I s → L s a → C s a → I (step s a))
    {s : σ} (hi : I s) (hs : P s) {l : List α} (hl : Along step L s l) : Always step P s l ↔ Along step C s l := by
  induction l generalizing s with
  | nil => simp [Always, Along, hs]
  | cons a l ih =>
    obtain ⟨ha, hl⟩ := hl
    constructor
    · rintro ⟨_, hgood⟩
      have hc := (hstep s a hi ha).1 hgood.first
      exact ⟨hc, (ih (hkeep s a hi ha hc) hgood.first hl).1 hgood⟩
    · rintro ⟨hc, hrest⟩
      exact ⟨hs, (ih (hkeep s a hi ha hc) ((hstep s a hi ha).2 hc) hl).2 hrest⟩

theorem along_true (s : σ) (l : List α) : Along step (fun _ _ => True) s l := by
  induction l generalizing s with
  | nil => trivial
  | cons a l ih => exact ⟨trivial, ih (step s a)⟩

/-- The same when every step is allowed. -/
theorem always_iff_along_of_invariant {I P : σ → Prop} {C : σ → α → Prop}
    (hstep : ∀ s a, I s → (P (step s a) ↔ C s a)) (hkeep : ∀ s a, I s → C s a → I (step s a))
    {s : σ} (hi : I s) (hs : P s) (l : List α) : Always step P s l ↔ Along step C s l :=
  always_iff_along_of_allowed (fun s a h _ => hstep s a h) (fun s a h _ hc => hkeep s a h hc) hi hs (along_true s l)

/-- The same when being good is itself the invariant. -/
theorem always_iff_along {P : σ → Prop} {C : σ → α → Prop} (hstep : ∀ s a, P s → (P (step s a) ↔ C s a))
    {s : σ} (hs : P s) (l : List α) : Always step P s l ↔ Along step C s l :=
  always_iff_along_of_invariant hstep (fun s a h hc => (hstep s a h).2 hc) hs hs l

/-! ### Steps that may fail -/

section

variable {ε : Type*} {f : σ → α → Except ε σ} {s s' : σ} {a : α} {l l' : List α}

theorem foldlM_cons_ok : (a :: l).foldlM f s = .ok s' ↔ ∃ s₁, f s a = .ok s₁ ∧ l.foldlM f s₁ = .ok s' := by
  rw [List.foldlM_cons]
  cases hstep : f s a with
  | error e => simp [bind, Except.bind]
  | ok s₁ => simp [bind, Except.bind]

theorem foldlM_append_ok : (l ++ l').foldlM f s = .ok s' ↔ ∃ s₁, l.foldlM f s = .ok s₁ ∧ l'.foldlM f s₁ = .ok s' := by
  rw [List.foldlM_append]
  cases hrun : l.foldlM f s with
  | error e => simp [bind, Except.bind]
  | ok s₁ => simp [bind, Except.bind]

theorem foldlM_split_ok : (l ++ a :: l').foldlM f s = .ok s' ↔
    ∃ s₁ s₂, l.foldlM f s = .ok s₁ ∧ f s₁ a = .ok s₂ ∧ l'.foldlM f s₂ = .ok s' := by
  rw [foldlM_append_ok]
  simp only [foldlM_cons_ok, exists_and_left]

/-- What holds of a state and the steps to come, and is kept by every step that succeeds, holds at the end. -/
theorem foldlM_keeps {P : σ → List α → Prop} (hstep : ∀ s a l s₁, P s (a :: l) → f s a = .ok s₁ → P s₁ l) (hs : P s l)
    (h : l.foldlM f s = .ok s') : P s' [] := by
  induction l generalizing s with
  | nil =>
    cases h
    exact hs
  | cons a l ih =>
    obtain ⟨s₁, ha, hl⟩ := foldlM_cons_ok.1 h
    exact ih (hstep s a l s₁ hs ha) hl

/-- A run succeeds when its next step always does. -/
theorem foldlM_succeeds {P : σ → List α → Prop} (hstep : ∀ s a l, P s (a :: l) → ∃ s₁, f s a = .ok s₁ ∧ P s₁ l)
    (hs : P s l) : ∃ s', l.foldlM f s = .ok s' := by
  induction l generalizing s with
  | nil => exact ⟨s, rfl⟩
  | cons a l ih =>
    obtain ⟨s₁, ha, hrest⟩ := hstep s a l hs
    obtain ⟨s', hl⟩ := ih hrest
    exact ⟨s', foldlM_cons_ok.2 ⟨s₁, ha, hl⟩⟩

end

/-! ### Steps that are a relation -/

section

variable {R : σ → σ → Prop} {I : σ → Prop} {s s' : σ}

/-- What every step keeps holds at the end of every chain of steps. -/
theorem keeps_of_reflTransGen (hstep : ∀ s s', I s → R s s' → I s') (hs : I s) (h : Relation.ReflTransGen R s s') :
    I s' := by
  induction h with
  | refl => exact hs
  | tail _ hR ih => exact hstep _ _ ih hR

/-- Steps that keep an invariant and lower a rank have no infinite chain. -/
theorem acc_of_rank {rank : σ → Nat} (hstep : ∀ s s', I s → R s s' → I s' ∧ rank s' < rank s) (hs : I s) :
    Acc (fun s' s => R s s') s := by
  generalize hn : rank s = n
  induction n using Nat.strongRecOn generalizing s with
  | ind n ih =>
    refine Acc.intro s fun s' hR => ?_
    obtain ⟨hs', hlt⟩ := hstep s s' hs hR
    exact ih (rank s') (hn ▸ hlt) hs' rfl

end

end Runs

import LibeventServer.Lib.Program
import Mathlib.Logic.Relation

/-!
# Loops with a variable

`loop test body hang` is `while (test a) body`, run with fuel.  The body takes the loop variable and gives its next
value, or nothing when it leaves the loop.

* `Turn`, `Reaches`: from one test to the next, and to any later one.
* `Leaves x r`: the loop ends with `r` at the test `x` or in the turn after it.
* `Reaches.simulated`: a simulation of the turns is a simulation of all the tests.
* `loop_ends`: when the turns are simulated by states with a rank that each of them lowers, the loop ends, and what it
  ends with does not depend on the fuel, if that exceeds the rank.
-/

namespace Loop

open Relation

variable {ε σ α : Type} (test : α → Prop) (body : α → EStateM ε σ (Option α))

/-- `while (test a) body`.  The loop stops at `hang` when its fuel is spent. -/
def loop [DecidablePred test] (hang : ε) : Nat → α → EStateM ε σ Unit
  | 0, _ => throw hang
  | fuel + 1, a =>
    if test a then do
      match ← body a with
      | some a => loop hang fuel a
      | none => pure ()
    else pure ()

/-- From the test of `x` the loop goes on to that of `y`; a test is the variable and the state. -/
def Turn (x y : α × σ) : Prop := test x.1 ∧ body x.1 x.2 = .ok (some y.1) y.2

/-- The loop comes from the test of `x` to that of `y`. -/
def Reaches (x y : α × σ) : Prop := ReflTransGen (Turn test body) x y

/-- At the test of `x` or in the turn after it the loop ends with `r`. -/
inductive Leaves : α × σ → EStateM.Result ε σ Unit → Prop
  | done {a : α} {s : σ} (ha : ¬ test a) : Leaves (a, s) (.ok () s)
  | returned {a : α} {s s' : σ} (ha : test a) (h : body a s = .ok none s') : Leaves (a, s) (.ok () s')
  | fault {a : α} {s s' : σ} {e : ε} (ha : test a) (h : body a s = .error e s') : Leaves (a, s) (.error e s')

/-- At each test the loop goes on or ends. -/
theorem turn_or_leaves (x : α × σ) : (∃ y, Turn test body x y) ∨ ∃ r, Leaves test body x r := by
  obtain ⟨a, s⟩ := x
  by_cases ha : test a
  · cases h : body a s with
    | ok o s' =>
      cases o with
      | some a' => exact Or.inl ⟨(a', s'), ha, h⟩
      | none => exact Or.inr ⟨_, .returned ha h⟩
    | error e s' => exact Or.inr ⟨_, .fault ha h⟩
  · exact Or.inr ⟨_, .done ha⟩

variable {test body} {hang : ε} {x y : α × σ} {r : EStateM.Result ε σ Unit}

theorem loop_turn [DecidablePred test] (h : Turn test body x y) (fuel : Nat) :
    loop test body hang (fuel + 1) x.1 x.2 = loop test body hang fuel y.1 y.2 := by
  rw [loop, if_pos h.1, EStateM.bind_ok h.2]

theorem loop_leaves [DecidablePred test] (h : Leaves test body x r) (fuel : Nat) :
    loop test body hang (fuel + 1) x.1 x.2 = r := by
  cases h with
  | done ha =>
    rw [loop, if_neg ha]
    rfl
  | returned ha h =>
    rw [loop, if_pos ha, EStateM.bind_ok h]
    rfl
  | fault ha h => rw [loop, if_pos ha, EStateM.bind_error h]

section

variable {β : Type*} {Sim : α × σ → β → Prop} {T : β → β → Prop}

theorem Reaches.simulated (hsim : ∀ x y u, Sim x u → Turn test body x y → ∃ u', T u u' ∧ Sim y u') {u : β}
    (hx : Sim x u) (h : Reaches test body x y) : ∃ u', ReflTransGen T u u' ∧ Sim y u' := by
  induction h with
  | refl => exact ⟨u, .refl, hx⟩
  | tail _ hturn ih =>
    obtain ⟨u₁, hu₁, hsim₁⟩ := ih
    obtain ⟨u₂, hT, hsim₂⟩ := hsim _ _ u₁ hsim₁ hturn
    exact ⟨u₂, hu₁.tail hT, hsim₂⟩

/-- By induction on a bound of the rank. -/
theorem loop_ends [DecidablePred test] (hang : ε) (rank : β → Nat)
    (hsim : ∀ x y u, Sim x u → Turn test body x y → ∃ u', Sim y u' ∧ rank u' < rank u) {u : β} (hx : Sim x u) :
    ∃ y r, Reaches test body x y ∧ Leaves test body y r ∧
      ∀ fuel, rank u < fuel → loop test body hang fuel x.1 x.2 = r := by
  generalize hn : rank u = n
  induction n using Nat.strongRecOn generalizing x u with
  | ind n ih =>
    rcases turn_or_leaves test body x with ⟨y, hturn⟩ | ⟨r, hr⟩
    · obtain ⟨u', hy, hlt⟩ := hsim x y u hx hturn
      obtain ⟨z, r, hz, hr, hloop⟩ := ih (rank u') (hn ▸ hlt) hy rfl
      refine ⟨z, r, hz.head hturn, hr, fun fuel hfuel => ?_⟩
      obtain ⟨fuel', rfl⟩ : ∃ fuel', fuel = fuel' + 1 := ⟨fuel - 1, by omega⟩
      rw [loop_turn hturn]
      exact hloop fuel' (by omega)
    · refine ⟨x, r, .refl, hr, fun fuel hfuel => ?_⟩
      obtain ⟨fuel', rfl⟩ : ∃ fuel', fuel = fuel' + 1 := ⟨fuel - 1, by omega⟩
      exact loop_leaves hr fuel'

end

end Loop

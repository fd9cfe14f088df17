import LibeventServer.Lib.Reading

/-!
# Streams of items

A decoder takes one item off the front of a list.  `parseAll` takes items until the list is empty or the decoder
raises; `drain` calls an iterator until it has no more.  An iterator that gives what the decoder takes (`Iterates`)
gives what `parseAll` does (`drain_eq_parseAll`), however it gets its elements.
-/

namespace Reading

variable {β ε α σ : Type}

/-- The items of a list in turn, and the error that ends them, if one does; `none` when the fuel is spent. -/
def parseAll (decode : List β → Except ε (α × List β)) : Nat → List β → Option (List α × Option ε)
  | 0, _ => none
  | _ + 1, [] => some ([], none)
  | fuel + 1, b :: l =>
    match decode (b :: l) with
    | .ok (a, r) => (parseAll decode fuel r).map fun x => (a :: x.1, x.2)
    | .error e => some ([], some e)

/-- A loop over an iterator: the items it gives until it gives none, and the error that ends the loop, if one does. -/
def drain (next : EStateM ε σ (Option α)) : Nat → σ → Option (List α × Option ε)
  | 0, _ => none
  | fuel + 1, s =>
    match next s with
    | .ok (some a) s' => (drain next fuel s').map fun x => (a :: x.1, x.2)
    | .ok none _ => some ([], none)
    | .error e _ => some ([], some e)

/-- In the states with `Good` the iterator gives the next item of the list `rest`. -/
structure Iterates (next : EStateM ε σ (Option α)) (decode : List β → Except ε (α × List β)) (Good : σ → Prop)
    (rest : σ → List β) : Prop where
  stop : ∀ s, Good s → rest s = [] → ∃ s', next s = .ok none s'
  item : ∀ s a r, Good s → rest s ≠ [] → decode (rest s) = .ok (a, r) →
    ∃ s', next s = .ok (some a) s' ∧ Good s' ∧ rest s' = r
  raise : ∀ s e, Good s → rest s ≠ [] → decode (rest s) = .error e → ∃ s', next s = .error e s'

variable {next : EStateM ε σ (Option α)} {decode : List β → Except ε (α × List β)} {Good : σ → Prop}
  {rest : σ → List β}

theorem parseAll_ok {fuel : Nat} {l r : List β} {a : α} (hl : l ≠ []) (h : decode l = .ok (a, r)) :
    parseAll decode (fuel + 1) l = (parseAll decode fuel r).map fun x => (a :: x.1, x.2) := by
  cases l with
  | nil => exact absurd rfl hl
  | cons b l => rw [parseAll, h]

theorem parseAll_error {fuel : Nat} {l : List β} {e : ε} (hl : l ≠ []) (h : decode l = .error e) :
    parseAll decode (fuel + 1) l = some ([], some e) := by
  cases l with
  | nil => exact absurd rfl hl
  | cons b l => rw [parseAll, h]

/-- An iterator is as good as the list it goes over. -/
theorem drain_eq_parseAll (h : Iterates next decode Good rest) (fuel : Nat) {s : σ} (hs : Good s) :
    drain next fuel s = parseAll decode fuel (rest s) := by
  induction fuel generalizing s with
  | zero => rfl
  | succ fuel ih =>
    by_cases hrest : rest s = []
    · obtain ⟨s', hnext⟩ := h.stop s hs hrest
      rw [drain, hnext, hrest, parseAll]
    · cases hdecode : decode (rest s) with
      | error e =>
        obtain ⟨s', hnext⟩ := h.raise s e hs hrest hdecode
        rw [drain, hnext, parseAll_error hrest hdecode]
      | ok x =>
        obtain ⟨s', hnext, hs', hr⟩ := h.item s x.1 x.2 hs hrest hdecode
        rw [drain, hnext, parseAll_ok hrest hdecode, ← hr, ← ih hs']

/-- When every item takes an element, fuel for each element is enough. -/
theorem exists_parseAll (hdecode : ∀ l a r, decode l = .ok (a, r) → r.length < l.length) {fuel : Nat} {l : List β}
    (hl : l.length < fuel) : ∃ x, parseAll decode fuel l = some x := by
  induction fuel generalizing l with
  | zero => omega
  | succ fuel ih =>
    by_cases hnil : l = []
    · rw [hnil]
      exact ⟨_, rfl⟩
    · cases h : decode l with
      | error e => exact ⟨_, parseAll_error hnil h⟩
      | ok x =>
        have hlt := hdecode l x.1 x.2 h
        obtain ⟨y, hy⟩ := ih (l := x.2) (by omega)
        rw [parseAll_ok hnil h, hy]
        exact ⟨_, rfl⟩

/-- Codes of items, one behind the other, are read as these items; what comes behind is read afterwards. -/
theorem parseAll_append {codes : List (List β × α)}
    (hcodes : ∀ c ∈ codes, c.1 ≠ [] ∧ ∀ t, decode (c.1 ++ t) = .ok (c.2, t)) (fuel : Nat) (t : List β) :
    parseAll decode (codes.length + fuel) ((codes.map Prod.fst).flatten ++ t) =
      (parseAll decode fuel t).map fun x => (codes.map Prod.snd ++ x.1, x.2) := by
  induction codes with
  | nil => simp
  | cons c codes ih =>
    have hc := hcodes c List.mem_cons_self
    have hne : c.1 ++ ((codes.map Prod.fst).flatten ++ t) ≠ [] := by simp [hc.1]
    rw [List.length_cons, Nat.add_right_comm, List.map_cons, List.flatten_cons, List.append_assoc,
      parseAll_ok hne (hc.2 _), ih fun d hd => hcodes d (List.mem_cons_of_mem _ hd), Option.map_map]
    rfl

end Reading

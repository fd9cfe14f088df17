import LibeventServer.Lib.Pairs
import LibeventServer.Lib.Tally
import LibeventServer.Lua.BattleRoom

/-!
# The hit phase

The phase visits each pair of clients once, from the one the outer loop comes to first (`hitAll_eq_visits`).  It
leaves positions and radii, so what a visit adds to a client does not depend on the visits before it: a client gets
`HIT_A` under one angle for each client it overlaps with (`lookup_hitAll`).
-/

namespace LibeventServer.Lua

open Pairs

section

variable {N : Type} [Field N] [LinearOrder N]

/-- The client after `HIT_A` has been added under these angles. -/
def Client.struck (c : Client N) (angles : List N) : Client N :=
  { c with vTbl := angles.foldl (fun vTbl angle => addv vTbl angle HIT_A) c.vTbl }

@[simp] theorem Client.struck_nil (c : Client N) : c.struck [] = c := rfl

theorem Client.struck_struck (c : Client N) (l l' : List N) : (c.struck l).struck l' = c.struck (l ++ l') := by
  simp only [Client.struck, List.foldl_append]

end

variable {N : Type} [Field N] [LinearOrder N] [LuaMath N]

/-- The local `len`. -/
def len (c1 c2 : Client N) : N := c1.r + c2.r - LuaMath.sqrt ((c1.x - c2.x) ^ 2 + (c1.y - c2.y) ^ 2)

/-- The local `_a`. -/
def hitAngle (c1 c2 : Client N) : N :=
  let a := |c1.y - c2.y|
  let b := |c1.x - c2.x|
  let _a := if b = 0 then PI / 2 else LuaMath.atan (a / b)
  if (c1.y - c2.y) * (c1.x - c2.x) < 0 then PI - _a else _a

/-- The angle under which a visit adds to one of its two clients, the `first` one or the other. -/
def push (first : Bool) (own other : Client N) : Option N :=
  if first then
    if len own other > 0 then some (if own.y > other.y then hitAngle own other else hitAngle own other + PI) else none
  else
    if len other own > 0 then some (if other.y > own.y then hitAngle other own + PI else hitAngle other own) else none

@[simp] theorem push_struck_left (first : Bool) (c d : Client N) (l : List N) :
    push first (c.struck l) d = push first c d := rfl

@[simp] theorem push_struck_right (first : Bool) (c d : Client N) (l : List N) :
    push first c (d.struck l) = push first c d := rfl

theorem hitPair_eq (c1 c2 : Client N) :
    hitPair c1 c2 = (c1.struck (push true c1 c2).toList, c2.struck (push false c2 c1).toList) := by
  unfold hitPair push
  by_cases hlen : len c1 c2 > 0
  · by_cases hy : c1.y > c2.y <;> simp [hlen, hy, if_pos (show c1.r + c2.r - _ > 0 from hlen),
      Client.struck, hitAngle]
  · simp [hlen, if_neg (show ¬ c1.r + c2.r - _ > 0 from hlen)]

/-! ### One visit -/

/-- The visit of a pair. -/
def hitVisit (t : Finmap fun _ : UInt32 => Client N) (p : UInt32 × UInt32) : Finmap fun _ : UInt32 => Client N :=
  match t.lookup p.1, t.lookup p.2 with
  | some c1, some c2 => (t.insert p.1 (hitPair c1 c2).1).insert p.2 (hitPair c1 c2).2
  | _, _ => t

/-- The angle under which the visit `p` adds to the client `c` of `u`. -/
def visitPush (t : Finmap fun _ : UInt32 => Client N) (u : UInt32) (c : Client N) (p : UInt32 × UInt32) : Option N :=
  if p.1 = u then (t.lookup p.2).bind (push true c)
  else if p.2 = u then (t.lookup p.1).bind (push false c)
  else none

private theorem lookup_hitVisit (t : Finmap fun _ : UInt32 => Client N) {p : UInt32 × UInt32}
    (hp : p.1 ≠ p.2) (u : UInt32) :
    (hitVisit t p).lookup u = (t.lookup u).map fun c => c.struck (visitPush t u c p).toList := by
  obtain ⟨v, w⟩ := p
  unfold hitVisit visitPush
  by_cases hv : v = u
  · subst hv
    cases h1 : t.lookup v with
    | none => simp [h1]
    | some c1 =>
      cases h2 : t.lookup w with
      | none => simp [h1]
      | some c2 => simp [Finmap.lookup_insert_of_ne _ hp, hitPair_eq]
  · by_cases hw : w = u
    · subst hw
      cases h1 : t.lookup v with
      | none => simp [hv]
      | some c1 =>
        cases h2 : t.lookup w with
        | none => simp [h2]
        | some c2 => simp [hv, hitPair_eq]
    · -- a client that is not visited
      cases t.lookup v <;> cases t.lookup w <;>
        simp [hv, hw, Finmap.lookup_insert_of_ne _ (Ne.symm hv), Finmap.lookup_insert_of_ne _ (Ne.symm hw)]

@[simp] theorem visitPush_struck (t : Finmap fun _ : UInt32 => Client N) (u : UInt32) (c : Client N) (l : List N) :
    visitPush t u (c.struck l) = visitPush t u c := rfl

private theorem visitPush_hitVisit (t : Finmap fun _ : UInt32 => Client N) {p : UInt32 × UInt32}
    (hp : p.1 ≠ p.2) (u : UInt32)
    (c : Client N) (q : UInt32 × UInt32) : visitPush (hitVisit t p) u c q = visitPush t u c q := by
  unfold visitPush
  rw [lookup_hitVisit t hp, lookup_hitVisit t hp]
  cases t.lookup q.1 <;> cases t.lookup q.2 <;> simp

/-- A client after some visits. -/
private theorem lookup_foldl_hitVisit {l : List (UInt32 × UInt32)} (hl : ∀ p ∈ l, p.1 ≠ p.2)
    (t : Finmap fun _ : UInt32 => Client N) (u : UInt32) :
    (l.foldl hitVisit t).lookup u = (t.lookup u).map fun c => c.struck (l.filterMap (visitPush t u c)) := by
  induction l generalizing t with
  | nil => simp
  | cons p l ih =>
    have hp := hl p (by simp)
    rw [List.foldl_cons, ih fun q hq => hl q (by simp [hq]), lookup_hitVisit t hp, Option.map_map]
    congr 1
    funext c
    have hpush : visitPush (hitVisit t p) u (c.struck (visitPush t u c p).toList) = visitPush t u c := by
      funext q
      rw [visitPush_hitVisit t hp, visitPush_struck]
    rw [Function.comp_apply, hpush, Client.struck_struck]
    cases h : visitPush t u c p <;> simp [h]

/-! ### The visits of the phase -/

/-- The pairs in the order in which the phase visits them. -/
def hitOrder (T : Traversals N) (keys : Finset UInt32) : List (UInt32 × UInt32) :=
  visits (fun vfd => (T.hitInner vfd).order keys) [] (T.hit.order keys)

private theorem flagged_insert (flag : Finmap fun _ : UInt32 => Finset UInt32) (u w a b : UInt32) :
    flagged (flag.insert u (insert w ((flag.lookup u).getD ∅))) a b = true ↔
      flagged flag a b = true ∨ a = u ∧ b = w := by
  unfold flagged
  by_cases ha : a = u
  · subst ha
    cases flag.lookup a <;> simp [or_comm]
  · simp [ha, Finmap.lookup_insert_of_ne flag ha]

private theorem hitStep_visit {u w : UInt32} {flag : Finmap fun _ : UInt32 => Finset UInt32}
    {t : Finmap fun _ : UInt32 => Client N} (h : u ≠ w ∧ ¬ flagged flag w u) :
    hitStep u (flag, t) w = (flag.insert u (insert w ((flag.lookup u).getD ∅)), hitVisit t (u, w)) := by
  rw [hitStep, if_pos h, hitVisit]
  cases t.lookup u <;> cases t.lookup w <;> rfl

private theorem hitStep_skip {u w : UInt32}
    {s : (Finmap fun _ : UInt32 => Finset UInt32) × Finmap fun _ : UInt32 => Client N}
    (h : ¬ (u ≠ w ∧ ¬ flagged s.1 w u)) : hitStep u s w = s := by
  rw [hitStep, if_neg h]

/-- The inner loop body, which also notes the pair that it tests. -/
def hitStepTested (vfd : UInt32)
    (s : ((Finmap fun _ : UInt32 => Finset UInt32) × Finmap fun _ : UInt32 => Client N) × List (UInt32 × UInt32))
    (_vfd : UInt32) :
    ((Finmap fun _ : UInt32 => Finset UInt32) × Finmap fun _ : UInt32 => Client N) × List (UInt32 × UInt32) :=
  (hitStep vfd s.1 _vfd, if vfd ≠ _vfd ∧ ¬ flagged s.1.1 _vfd vfd then s.2 ++ [(vfd, _vfd)] else s.2)

/-- The phase, with the pairs that it tests. -/
def hitAllTested (T : Traversals N) (clients : Finmap fun _ : UInt32 => Client N) :
    ((Finmap fun _ : UInt32 => Finset UInt32) × Finmap fun _ : UInt32 => Client N) × List (UInt32 × UInt32) :=
  (T.hit.order clients.keys).foldl
    (fun s vfd => ((T.hitInner vfd).order clients.keys).foldl (hitStepTested vfd) s) ((∅, clients), [])

theorem hitAllTested_fst (T : Traversals N) (t : Finmap fun _ : UInt32 => Client N) :
    (hitAllTested T t).1.2 = hitAll T t := by
  have hinner : ∀ (vfd : UInt32) (l : List UInt32)
      (s : ((Finmap fun _ : UInt32 => Finset UInt32) × Finmap fun _ : UInt32 => Client N) × List (UInt32 × UInt32)),
      (l.foldl (hitStepTested vfd) s).1 = l.foldl (hitStep vfd) s.1 :=
    fun vfd l s => (List.foldl_hom Prod.fst fun _ _ => rfl).symm
  have houter : ∀ (l : List UInt32)
      (s : ((Finmap fun _ : UInt32 => Finset UInt32) × Finmap fun _ : UInt32 => Client N) × List (UInt32 × UInt32)),
      (l.foldl (fun s vfd => ((T.hitInner vfd).order t.keys).foldl (hitStepTested vfd) s) s).1 =
        l.foldl (fun s vfd => ((T.hitInner vfd).order t.keys).foldl (hitStep vfd) s) s.1 :=
    fun l s => (List.foldl_hom Prod.fst fun s vfd => (hinner vfd _ s).symm).symm
  rw [hitAllTested, houter, hitAll]

/-- The inner loop, when the flags say which clients the outer loop is done with. -/
private theorem foldl_hitStep {u : UInt32} (done l : List UInt32)
    (flag : Finmap fun _ : UInt32 => Finset UInt32) (t : Finmap fun _ : UInt32 => Client N)
    (tested : List (UInt32 × UInt32)) (hflag : ∀ w ∈ l, w ≠ u → (flagged flag w u = true ↔ w ∈ done)) :
    (l.foldl (hitStepTested u) ((flag, t), tested)).1.2 =
        ((l.filter fun w => w ≠ u ∧ w ∉ done).map fun w => (u, w)).foldl hitVisit t ∧
      (l.foldl (hitStepTested u) ((flag, t), tested)).2 =
        tested ++ (l.filter fun w => w ≠ u ∧ w ∉ done).map (fun w => (u, w)) ∧
      ∀ a b, flagged (l.foldl (hitStepTested u) ((flag, t), tested)).1.1 a b = true ↔
        flagged flag a b = true ∨ a = u ∧ b ∈ l ∧ b ≠ u ∧ b ∉ done := by
  induction l generalizing flag t tested with
  | nil => simp
  | cons w l ih =>
    have hcond : (u ≠ w ∧ ¬ flagged flag w u) ↔ w ≠ u ∧ w ∉ done := by
      rw [ne_comm]
      refine and_congr_right fun hne => ?_
      rw [hflag w (by simp) hne]
    by_cases hw : w ≠ u ∧ w ∉ done
    · -- the flag that is set is in the row of `u`, which the rest of the loop does not ask
      have hflag' : ∀ v ∈ l, v ≠ u →
          (flagged (flag.insert u (insert w ((flag.lookup u).getD ∅))) v u = true ↔ v ∈ done) := by
        intro v hv hvu
        rw [flagged_insert, hflag v (by simp [hv]) hvu]
        simp [hvu]
      obtain ⟨htbl, htested, hrows⟩ := ih _ (hitVisit t (u, w)) (tested ++ [(u, w)]) hflag'
      rw [List.foldl_cons, hitStepTested, hitStep_visit (hcond.2 hw), if_pos (hcond.2 hw),
        List.filter_cons_of_pos (by simpa using hw)]
      refine ⟨htbl, ?_, fun a b => ?_⟩
      · rw [htested, List.append_assoc]
        rfl
      · rw [hrows, flagged_insert, List.mem_cons]
        constructor
        · rintro ((h | ⟨rfl, rfl⟩) | ⟨rfl, hb, hne⟩)
          · exact Or.inl h
          · exact Or.inr ⟨rfl, Or.inl rfl, hw⟩
          · exact Or.inr ⟨rfl, Or.inr hb, hne⟩
        · rintro (h | ⟨rfl, rfl | hb, hne⟩)
          · exact Or.inl (Or.inl h)
          · exact Or.inl (Or.inr ⟨rfl, rfl⟩)
          · exact Or.inr ⟨rfl, hb, hne⟩
    · -- a client is not tested with itself, nor with one that the outer loop is done with
      obtain ⟨htbl, htested, hrows⟩ := ih flag t tested fun v hv => hflag v (by simp [hv])
      rw [List.foldl_cons, hitStepTested, hitStep_skip (mt hcond.1 hw), if_neg (mt hcond.1 hw),
        List.filter_cons_of_neg (by simpa using hw)]
      refine ⟨htbl, htested, fun a b => ?_⟩
      rw [hrows, List.mem_cons]
      constructor
      · rintro (h | ⟨rfl, hb, hne⟩)
        · exact Or.inl h
        · exact Or.inr ⟨rfl, Or.inr hb, hne⟩
      · rintro (h | ⟨rfl, rfl | hb, hne⟩)
        · exact Or.inl h
        · exact absurd hne hw
        · exact Or.inr ⟨rfl, hb, hne⟩

/-- The outer loop: its flags say of each client whether it is done with. -/
private theorem foldl_hitAll {keys : Finset UInt32} {inner : UInt32 → List UInt32} {done outer : List UInt32}
    (hnodup : outer.Nodup) (hdone : ∀ u ∈ outer, u ∉ done) (hinner : ∀ u v, v ∈ inner u ↔ v ∈ keys)
    (houter : ∀ u ∈ outer, u ∈ keys) (flag : Finmap fun _ : UInt32 => Finset UInt32)
    (t : Finmap fun _ : UInt32 => Client N) (tested : List (UInt32 × UInt32))
    (hflag : ∀ w ∈ keys, ∀ u ∈ outer, w ≠ u → (flagged flag w u = true ↔ w ∈ done)) :
    (outer.foldl (fun s vfd => (inner vfd).foldl (hitStepTested vfd) s) ((flag, t), tested)).1.2 =
        (visits inner done outer).foldl hitVisit t ∧
      (outer.foldl (fun s vfd => (inner vfd).foldl (hitStepTested vfd) s) ((flag, t), tested)).2 =
        tested ++ visits inner done outer := by
  induction outer generalizing done flag t tested with
  | nil => exact ⟨rfl, (List.append_nil _).symm⟩
  | cons u outer ih =>
    obtain ⟨hu, hnodup⟩ := List.nodup_cons.1 hnodup
    obtain ⟨htbl, htested, hrows⟩ := foldl_hitStep (u := u) done (inner u) flag t tested
      fun w hw hne => hflag w ((hinner u w).1 hw) u (by simp) hne
    rw [List.foldl_cons, visits, List.foldl_append, ← htbl, ← List.append_assoc, ← htested]
    refine ih hnodup ?_ (fun v hv => houter v (by simp [hv])) _ _ _ ?_
    · intro v hv
      rw [List.mem_cons, not_or]
      exact ⟨fun h => hu (h ▸ hv), hdone v (by simp [hv])⟩
    · intro w hw v hv hne
      rw [hrows, hflag w hw v (by simp [hv]) hne, List.mem_cons]
      constructor
      · rintro (h | ⟨rfl, -⟩)
        · exact Or.inr h
        · exact Or.inl rfl
      · rintro (rfl | h)
        · exact Or.inr ⟨rfl, (hinner _ v).2 (houter v (by simp [hv])), Ne.symm hne, hdone v (by simp [hv])⟩
        · exact Or.inl h

/-- The phase visits the pairs that it tests. -/
theorem hitAllTested_eq (T : Traversals N) (t : Finmap fun _ : UInt32 => Client N) :
    (hitAllTested T t).1.2 = (hitOrder T t.keys).foldl hitVisit t ∧ (hitAllTested T t).2 = hitOrder T t.keys := by
  have hloops :=
    foldl_hitAll (T.hit.nodup t.keys) (fun _ _ => List.not_mem_nil) (fun u v => (T.hitInner u).mem_order _ v)
    (fun u hu => (T.hit.mem_order _ u).1 hu) ∅ t [] fun w _ u _ _ => by simp [flagged]
  rwa [List.nil_append] at hloops

theorem hitAll_eq_visits (T : Traversals N) (t : Finmap fun _ : UInt32 => Client N) :
    hitAll T t = (hitOrder T t.keys).foldl hitVisit t := by
  rw [← hitAllTested_fst, (hitAllTested_eq T t).1]

/-! ### What a client gets -/

/-- The angles under which the phase adds to the client `c` of `u`, in the order of the visits. -/
def pushes (T : Traversals N) (t : Finmap fun _ : UInt32 => Client N) (u : UInt32) (c : Client N) : List N :=
  (partners u (hitOrder T t.keys)).filterMap fun v =>
    (t.lookup v).bind (push (decide (Before (T.hit.order t.keys) u v)) c)

theorem lookup_hitAll (T : Traversals N) (t : Finmap fun _ : UInt32 => Client N) (u : UInt32) :
    (hitAll T t).lookup u = (t.lookup u).map fun c => c.struck (pushes T t u c) := by
  have hinner : ∀ u ∈ T.hit.order t.keys, ∀ v, v ∈ (T.hitInner u).order t.keys ↔ v ∈ T.hit.order t.keys :=
    fun u _ v => by rw [(T.hitInner u).mem_order, T.hit.mem_order]
  have hne : ∀ p ∈ hitOrder T t.keys, p.1 ≠ p.2 := by
    rintro ⟨a, b⟩ hp
    obtain ⟨-, -, hbefore⟩ := (mem_visits (T.hit.nodup _) hinner a b).1 hp
    intro hab
    cases (hab : a = b)
    exact lt_irrefl _ hbefore
  rw [hitAll_eq_visits, lookup_foldl_hitVisit hne]
  congr 1
  funext c
  rw [pushes, hitOrder, ← filterMap_visits (T.hit.nodup _) hinner fun first v => (t.lookup v).bind (push first c)]
  rfl

omit [Field N] [LinearOrder N] [LuaMath N] in
/-- A client meets each of the others once. -/
theorem partners_hitOrder (T : Traversals N) {t : Finmap fun _ : UInt32 => Client N} {u : UInt32} (hu : u ∈ t) :
    (partners u (hitOrder T t.keys)).Perm (t.keys.erase u).toList := by
  have hinner : ∀ u ∈ T.hit.order t.keys, ∀ v, v ∈ (T.hitInner u).order t.keys ↔ v ∈ T.hit.order t.keys :=
    fun u _ v => by rw [(T.hitInner u).mem_order, T.hit.mem_order]
  have hu' : u ∈ T.hit.order t.keys := (T.hit.mem_order _ u).2 (Finmap.mem_keys.2 hu)
  have hperm := partners_perm (T.hit.nodup _) (fun u _ => (T.hitInner u).nodup _) hinner hu'
  refine hperm.trans ((List.perm_ext_iff_of_nodup ((T.hit.nodup _).erase u) (Finset.nodup_toList _)).2 fun v => ?_)
  rw [(T.hit.nodup _).mem_erase_iff, T.hit.mem_order, Finset.mem_toList, Finset.mem_erase]

end LibeventServer.Lua

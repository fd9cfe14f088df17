import LibeventServer.Lua.Impulse
import LibeventServer.Lua.Phases

/-!
# The orders of a tick

A tick traverses tables in orders Lua leaves open.  The result depends on them in two places: `synthesis` combines
speeds in the order it meets them, which is seen when there are more than two, and the hit phase treats two clients of
one height by which of them it comes to first.

`orderFree_iff`: where no client has more than two speeds, the order of a tick matters exactly when it brings two
clients of one height to overlap.
-/

namespace LibeventServer.Lua

open Pairs

/-- What a tick computes of a client: its position and its speeds. -/
def Client.motion (c : Client ℝ) : ℝ × ℝ × Finmap fun _ : ℝ => ℝ := (c.x, c.y, c.vTbl)

/-- A tick computes the same position and the same speeds of every client in all orders. -/
def OrderFree (H : Host ℝ) (s : State ℝ) : Prop :=
  ∀ T T' reply reply' v, (((Tick H T s).final reply).clients.lookup v).map Client.motion =
    (((Tick H T' s).final reply').clients.lookup v).map Client.motion

/-! ### At most two speeds -/

private theorem synthesisStep_comm (tbl : Finmap fun _ : ℝ => ℝ) (a b : ℝ) :
    synthesisStep tbl (synthesisStep tbl none a) b = synthesisStep tbl (synthesisStep tbl none b) a := by
  unfold synthesisStep
  cases ha : tbl.lookup a with
  | none => cases hb : tbl.lookup b <;> simp
  | some v =>
    cases hb : tbl.lookup b with
    | none => simp
    | some w =>
      have hsum : ∀ k : ℝ, v ^ 2 + w ^ 2 + 2 * v * w * k = w ^ 2 + v ^ 2 + 2 * w * v * k := fun k => by ring
      simp only [abs_sub_comm a b, hsum]

private theorem synthesis_of_card_le_two (e e' : Enumeration ℝ) {tbl : Finmap fun _ : ℝ => ℝ}
    (h : tbl.keys.card ≤ 2) :
    synthesis e tbl = synthesis e' tbl := by
  rw [synthesis, synthesis, Enumeration.foldl_of_card_le_two e e' h (synthesisStep_comm tbl)]

private theorem move_of_card_le_two (e e' : Enumeration ℝ) {c : Client ℝ} (h : c.vTbl.keys.card ≤ 2) :
    move e c = move e' c := by
  simp only [move]
  rw [synthesis_of_card_le_two e e' h, next_synthesis e e' e']

/-! ### Clients of one height -/

/-- The movement brings two clients of one height to overlap, and one of them is still in the arena. -/
def LevelHit (s : State ℝ) : Prop :=
  ∃ u v c d, u ≠ v ∧ s.clients.lookup u = some c ∧ s.clients.lookup v = some d ∧
    Overlapping (c.landed default) (d.landed default) ∧ (c.landed default).y = (d.landed default).y ∧
    (c.landed default).InArena

section

variable {c d : Client ℝ} {t : Finmap fun _ : UInt32 => Client ℝ} {u v : UInt32}

/-- Clients that do not overlap at one height get the same whichever is visited first. -/
private theorem push_first (h : ¬ (Overlapping c d ∧ c.y = d.y)) (first : Bool) : push first c d = push true c d := by
  by_cases hy : c.y = d.y
  · have hlen : ¬ len c d > 0 := fun hlen => h ⟨len_pos_iff.1 hlen, hy⟩
    have hlen' : ¬ len d c > 0 := fun hlen => h ⟨overlapping_comm.1 (len_pos_iff.1 hlen), hy⟩
    cases first <;> simp [push, hlen, hlen']
  · rw [push_of_ne first hy, push_of_ne true hy]

/-- What a client gets under an angle, summed over the others. -/
private theorem count_pushes (T : Traversals ℝ) (hu : u ∈ t) (c : Client ℝ) (angle : ℝ) :
    (pushes T t u c).count angle = ∑ v ∈ t.keys.erase u,
      if (t.lookup v).bind (push (decide (Before (T.hit.order t.keys) u v)) c) = some angle then 1 else 0 := by
  have hcount : ∀ (f : UInt32 → Option ℝ) (l : List UInt32),
      (l.filterMap f).count angle = (l.map fun v => if f v = some angle then 1 else 0).sum := by
    intro f l
    induction l with
    | nil => rfl
    | cons v l ih =>
      rw [List.map_cons, List.sum_cons, ← ih]
      cases hv : f v with
      | none => simp [hv]
      | some a =>
        rw [List.filterMap_cons_some hv, List.count_cons, add_comm]
        simp
  rw [pushes, hcount, ((partners_hitOrder T hu).map _).sum_eq, Finset.sum_map_toList]

/-- Without an overlap at its height a client gets the same in all orders. -/
private theorem struck_pushes_eq (hu : t.lookup u = some c)
    (h : ∀ v d, v ≠ u → t.lookup v = some d → ¬ (Overlapping c d ∧ c.y = d.y)) (T T' : Traversals ℝ) :
    c.struck (pushes T t u c) = c.struck (pushes T' t u c) := by
  have hmem : u ∈ t := Finmap.mem_of_lookup_eq_some hu
  have hpush : ∀ T : Traversals ℝ, pushes T t u c =
      (partners u (hitOrder T t.keys)).filterMap fun v => (t.lookup v).bind (push true c) := by
    intro T
    refine List.filterMap_congr fun v hv => ?_
    have hv' := (partners_hitOrder T hmem).mem_iff.1 hv
    rw [Finset.mem_toList, Finset.mem_erase] at hv'
    cases hd : t.lookup v with
    | none => rfl
    | some d => exact push_first (h v d hv'.1 hd) _
  have hperm : (pushes T t u c).Perm (pushes T' t u c) := by
    rw [hpush T, hpush T']
    exact ((partners_hitOrder T hmem).trans (partners_hitOrder T' hmem).symm).filterMap _
  have htbl := Tally.foldl_add_perm hperm HIT_A c.vTbl
  rw [Client.struck, Client.struck]
  congr 1

/-- Equal speeds were struck equally often under every angle. -/
private theorem count_eq_of_struck_vTbl_eq {l l' : List ℝ} (h : (c.struck l).vTbl = (c.struck l').vTbl) (angle : ℝ) :
    l.count angle = l'.count angle := by
  have hget : ∀ l : List ℝ, ((c.struck l).vTbl.lookup angle).getD 0 =
      (c.vTbl.lookup angle).getD 0 + l.count angle • (HIT_A : ℝ) :=
    fun l => Tally.getD_lookup_foldl_add l HIT_A c.vTbl angle
  have hsum := hget l
  rw [h, hget, add_right_inj, nsmul_eq_mul, nsmul_eq_mul] at hsum
  have hne : (HIT_A : ℝ) ≠ 0 := by norm_num [HIT_A]
  exact (Nat.cast_inj.1 (mul_right_cancel₀ hne hsum)).symm

/-- With an overlap at its height a client gets more to the left when it is visited first than when the other is. -/
private theorem count_pushes_lt (huv : u ≠ v) (hu : t.lookup u = some c) (hv : t.lookup v = some d)
    (hover : Overlapping c d) (hy : c.y = d.y) :
    (pushes (hitFirst v t.keys) t u c).count ((if c.x = d.x then Real.pi / 2 else 0) + Real.pi) <
      (pushes (hitFirst u t.keys) t u c).count ((if c.x = d.x then Real.pi / 2 else 0) + Real.pi) := by
  have hmemu : u ∈ t := Finmap.mem_of_lookup_eq_some hu
  have hmemv : v ∈ t := Finmap.mem_of_lookup_eq_some hv
  have hpi := Real.pi_pos
  rw [count_pushes _ hmemu, count_pushes _ hmemu]
  refine Finset.sum_lt_sum (fun w hw => ?_) ⟨v, by simp [Ne.symm huv, Finmap.mem_keys, hmemv], ?_⟩
  · -- the others: what they add in one of the orders they add when `u` is first
    rw [Finset.mem_erase, Finmap.mem_keys] at hw
    obtain ⟨e, he⟩ := Finmap.mem_iff.1 hw.2
    rw [he, Option.bind_some, Option.bind_some,
      decide_eq_true (before_hitFirst (Finmap.mem_keys.2 hmemu) (Ne.symm hw.1))]
    by_cases hlevel : Overlapping c e ∧ c.y = e.y
    · rw [push_level _ hlevel.1 hlevel.2, push_level _ hlevel.1 hlevel.2]
      simp only [Option.some.injEq]
      cases decide (Before ((hitFirst v t.keys).hit.order t.keys) u w) with
      | true => exact le_rfl
      | false =>
        rw [if_neg]
        · exact Nat.zero_le _
        · simp only [Bool.false_eq_true, if_false, add_zero]
          split <;> split <;> intro heq <;> linarith
    · rw [push_first hlevel]
  · have hnot : ¬ Before ((hitFirst v t.keys).hit.order t.keys) u v :=
      not_before_of_before (before_hitFirst (Finmap.mem_keys.2 hmemv) (Ne.symm huv))
    rw [hv, Option.bind_some, Option.bind_some, push_level _ hover hy, push_level _ hover hy,
      decide_eq_true (before_hitFirst (Finmap.mem_keys.2 hmemu) huv), decide_eq_false hnot]
    simp [hpi.ne']

end

/-! ### A tick -/

private theorem level_move (e e' : Enumeration ℝ) (c d : Client ℝ) :
    Overlapping (move e c) (move e' d) ∧ (move e c).y = (move e' d).y ↔
      Overlapping (c.landed e) (d.landed e') ∧ (c.landed e).y = (d.landed e').y := by
  obtain ⟨hx, hy, hr⟩ := move_place e c
  obtain ⟨hx', hy', hr'⟩ := move_place e' d
  rw [Overlapping, Overlapping, hx, hy, hr, hx', hy', hr']

variable {H : Host ℝ} {s : State ℝ}

private theorem moveAll_of_card_le_two (hs : ∀ v c, s.clients.lookup v = some c → c.vTbl.keys.card ≤ 2)
    (T T' : Traversals ℝ) : (moveAll T s.clients).1 = (moveAll T' s.clients).1 := by
  apply Finmap.ext_lookup
  intro v
  rw [lookup_moveAll, lookup_moveAll]
  cases hc : s.clients.lookup v with
  | none => rfl
  | some c => rw [Option.map_some, Option.map_some, move_of_card_le_two (T.vTbl v) (T'.vTbl v) (hs v c hc)]

private theorem lookup_final_tick_of_card_le_two (hs : ∀ v c, s.clients.lookup v = some c → c.vTbl.keys.card ≤ 2)
    (hall : ∀ v ∈ s.clients, (target H s.clients v).isSome) (T : Traversals ℝ) (reply : Int64 → List UInt8 → Bool)
    (v : UInt32) :
    ((Tick H T s).final reply).clients.lookup v = (s.clients.lookup v).map fun c =>
      out ((move default c).struck (pushes T (moveAll default s.clients).1 v (move default c))) := by
  rw [lookup_final_tick hall, moveAll_of_card_le_two hs T default, lookup_moveAll, Option.map_map]
  rfl

/-- Where no client has more than two speeds, the order of a tick does not matter exactly when it brings no two
clients of one height to overlap, or does not get as far as the hit phase. -/
theorem orderFree_iff (H : Host ℝ) (hs : ∀ v c, s.clients.lookup v = some c → c.vTbl.keys.card ≤ 2) :
    OrderFree H s ↔ ¬ (LevelHit s ∧ ∀ v ∈ s.clients, (target H s.clients v).isSome) := by
  have hmoved : ∀ {v c}, s.clients.lookup v = some c →
      (moveAll default s.clients).1.lookup v = some (move default c) := by
    intro v c hv
    rw [lookup_moveAll, hv]
    rfl
  constructor
  · rintro hfree ⟨⟨u, v, c, d, huv, hu, hv, hover, hy, harena⟩, hall⟩
    -- the two orders in which one of the two clients comes first
    obtain ⟨hover', hy'⟩ := (level_move default default c d).2 ⟨hover, hy⟩
    have hlt := count_pushes_lt huv (hmoved hu) (hmoved hv) hover' hy'
    have harena' : ∀ l, out ((move default c).struck l) = (move default c).struck l :=
      fun l => out_of_inArena ((inArena_struck _ l).2 ((inArena_move default c).2 harena))
    have hsame :=
      hfree (hitFirst v (moveAll default s.clients).1.keys) (hitFirst u (moveAll default s.clients).1.keys)
      (fun _ _ => true) (fun _ _ => true) u
    rw [lookup_final_tick_of_card_le_two hs hall, lookup_final_tick_of_card_le_two hs hall, hu, Option.map_some,
      Option.map_some, Option.map_some, Option.map_some, Option.some.injEq, harena', harena'] at hsame
    have htbl := congrArg (fun m : ℝ × ℝ × Finmap fun _ : ℝ => ℝ => m.2.2) hsame
    simp only [Client.motion] at htbl
    exact absurd (count_eq_of_struck_vTbl_eq htbl _) (Nat.ne_of_lt hlt)
  · intro hnot T T' reply reply' v
    by_cases hall : ∀ v ∈ s.clients, (target H s.clients v).isSome
    · have hlevel : ¬ LevelHit s := fun h => hnot ⟨h, hall⟩
      rw [lookup_final_tick_of_card_le_two hs hall, lookup_final_tick_of_card_le_two hs hall]
      cases hv : s.clients.lookup v with
      | none => rfl
      | some c =>
        rw [Option.map_some, Option.map_some, Option.map_some, Option.map_some]
        by_cases harena : (move default c).InArena
        · have hno : ∀ w d, w ≠ v → (moveAll default s.clients).1.lookup w = some d →
              ¬ (Overlapping (move default c) d ∧ (move default c).y = d.y) := by
            intro w d' hw hd' hhit
            rw [lookup_moveAll, Option.map_eq_some_iff] at hd'
            obtain ⟨d, hd, rfl⟩ := hd'
            obtain ⟨hover, hy⟩ := (level_move _ _ c d).1 hhit
            exact hlevel ⟨v, w, c, d, Ne.symm hw, hv, hd, hover, hy, (inArena_move default c).1 harena⟩
          rw [struck_pushes_eq (hmoved hv) hno T T']
        · rw [out_of_not_inArena fun h => harena ((inArena_struck _ _).1 h),
            out_of_not_inArena fun h => harena ((inArena_struck _ _).1 h)]
          rfl
    · rw [final_tick_of_raises hall, final_tick_of_raises hall, moveAll_of_card_le_two hs T T']

/-- One client above the other: the order does not matter. -/
theorem orderFree_above : OrderFree Host.raising ⟨pairAt 0 30⟩ := by
  have hcases : ∀ {v c}, (pairAt 0 30).lookup v = some c →
      v = 1 ∧ c = Client.at 1 0 30 ∨ v = 2 ∧ c = Client.at 2 0 0 := by
    intro v c hv
    by_cases h2 : v = 2
    · subst h2
      rw [lookup_pairAt_two, Option.some.injEq] at hv
      exact Or.inr ⟨rfl, hv.symm⟩
    · have hmem := Finmap.mem_of_lookup_eq_some hv
      rw [pairAt, Finmap.mem_insert, Finmap.mem_singleton] at hmem
      obtain rfl := hmem.resolve_left h2
      rw [lookup_pairAt_one, Option.some.injEq] at hv
      exact Or.inl ⟨rfl, hv.symm⟩
  have hempty : ∀ v c, (pairAt 0 30).lookup v = some c → c.vTbl = ∅ := by
    intro v c hv
    rcases hcases hv with ⟨-, rfl⟩ | ⟨-, rfl⟩ <;> rfl
  refine (orderFree_iff Host.raising fun v c hv => ?_).2 ?_
  · rw [hempty v c hv, Finmap.keys_empty]
    exact Nat.zero_le _
  · rintro ⟨⟨u, v, c, d, huv, hu, hv, -, hy, -⟩, -⟩
    rw [Client.landed_of_empty (hempty u c hu), Client.landed_of_empty (hempty v d hv)] at hy
    rcases hcases hu with ⟨rfl, rfl⟩ | ⟨rfl, rfl⟩ <;> rcases hcases hv with ⟨rfl, rfl⟩ | ⟨rfl, rfl⟩
    · exact huv rfl
    · norm_num [Client.at] at hy
    · norm_num [Client.at] at hy
    · exact huv rfl

/-! ### Three speeds -/

/-- A new client with the speed 1 to the right, up and to the left. -/
noncomputable def threeSpeeds : Client ℝ :=
  { Client._init (.num (number 1)) with
    vTbl := ((Finmap.singleton 0 1).insert (Real.pi / 2) 1).insert Real.pi 1 }

private theorem synthesisStep_some {tbl : Finmap fun _ : ℝ => ℝ} {a b v w : ℝ} (hb : tbl.lookup b = some w)
    (hab : |a - b| ≤ Real.pi) :
    synthesisStep tbl (some (a, v)) b =
      some (|a - b|, Real.sqrt (v ^ 2 + w ^ 2 + 2 * v * w * Real.cos |a - b|)) := by
  rw [synthesisStep, hb]
  simp only [show ¬ |a - b| > (PI : ℝ) from not_lt.2 hab, if_false]
  rfl

/-- The result of a synthesis in the order `l`. -/
private theorem landed_listed {c : Client ℝ} {l : List ℝ} (hl : l.Nodup)
    (hmem : ∀ k, k ∈ l ↔ k ∈ c.vTbl.keys) {p : ℝ × ℝ} (hfold : l.foldl (synthesisStep c.vTbl) none = some p) :
    c.landed (Enumeration.listed l) = advance (some p) c := by
  have hsynthesis : synthesis (Enumeration.listed l) c.vTbl = Finmap.singleton p.1 p.2 := by
    rw [synthesis, Enumeration.order_listed hl hmem, hfold]
  rw [Client.landed, hsynthesis, next, Finmap.keys_singleton, Enumeration.order_singleton]
  simp

private theorem threeSpeeds_lookup {a : ℝ} (ha : a = 0 ∨ a = Real.pi / 2 ∨ a = Real.pi) :
    threeSpeeds.vTbl.lookup a = some 1 := by
  have hpi := Real.pi_pos
  have hhalf : Real.pi / 2 ≠ Real.pi := by linarith
  have hzero : (0 : ℝ) ≠ Real.pi / 2 := by positivity
  rcases ha with rfl | rfl | rfl
  · rw [threeSpeeds, Finmap.lookup_insert_of_ne _ hpi.ne, Finmap.lookup_insert_of_ne _ hzero,
      Finmap.lookup_singleton_eq]
  · rw [threeSpeeds, Finmap.lookup_insert_of_ne _ hhalf, Finmap.lookup_insert]
  · rw [threeSpeeds, Finmap.lookup_insert]

private theorem threeSpeeds_first (a : ℝ) (ha : a = 0 ∨ a = Real.pi / 2 ∨ a = Real.pi) :
    synthesisStep threeSpeeds.vTbl none a = some (a, 1) := by
  rw [synthesisStep, threeSpeeds_lookup ha]

/-- To the right, up, left: the sum of the first two is taken to be up, and so is the whole. -/
private theorem threeSpeeds_fold_up :
    [0, Real.pi / 2, Real.pi].foldl (synthesisStep threeSpeeds.vTbl) none = some (Real.pi / 2, Real.sqrt 3) := by
  have hpi := Real.pi_pos
  have hfirst : |0 - Real.pi / 2| = Real.pi / 2 := by rw [zero_sub, abs_neg, abs_of_pos (by positivity)]
  have hsecond : |Real.pi / 2 - Real.pi| = Real.pi / 2 := by rw [abs_of_neg (by linarith)]; ring
  rw [List.foldl_cons, threeSpeeds_first 0 (Or.inl rfl), List.foldl_cons,
    synthesisStep_some (threeSpeeds_lookup (Or.inr (Or.inl rfl))) (by rw [hfirst]; linarith), List.foldl_cons,
    List.foldl_nil, hfirst, synthesisStep_some (threeSpeeds_lookup (Or.inr (Or.inr rfl))) (by rw [hsecond]; linarith),
    hsecond, Real.cos_pi_div_two]
  norm_num

/-- To the right, left, up: the first two cancel. -/
private theorem threeSpeeds_fold_left :
    [0, Real.pi, Real.pi / 2].foldl (synthesisStep threeSpeeds.vTbl) none = some (Real.pi / 2, 1) := by
  have hpi := Real.pi_pos
  have hfirst : |0 - Real.pi| = Real.pi := by rw [zero_sub, abs_neg, abs_of_pos hpi]
  have hsecond : |Real.pi - Real.pi / 2| = Real.pi / 2 := by rw [abs_of_pos (by linarith)]; ring
  rw [List.foldl_cons, threeSpeeds_first 0 (Or.inl rfl), List.foldl_cons,
    synthesisStep_some (threeSpeeds_lookup (Or.inr (Or.inr rfl))) (by rw [hfirst]), List.foldl_cons,
    List.foldl_nil, hfirst, synthesisStep_some (threeSpeeds_lookup (Or.inr (Or.inl rfl))) (by rw [hsecond]; linarith),
    hsecond, Real.cos_pi, Real.cos_pi_div_two]
  norm_num

/-- The traversals in which `synthesis` goes over each `vTbl` in the order `e`. -/
noncomputable def synthesisOrder (e : Enumeration ℝ) : Traversals ℝ :=
  { (default : Traversals ℝ) with vTbl := fun _ => e }

/-- Where a tick brings the client, when its speeds are taken to be `value` upwards. -/
private theorem threeSpeeds_final {e : Enumeration ℝ} {value : ℝ}
    (hland : threeSpeeds.landed e = advance (some (Real.pi / 2, value)) threeSpeeds) (h0 : 0 ≤ value)
    (h1 : value ≤ 320) :
    (((Tick Host.raising (synthesisOrder e) ⟨Finmap.singleton 1 threeSpeeds⟩).final
      fun _ _ => true).clients.lookup 1).map Client.y = some value := by
  have hall : ∀ v ∈ (Finmap.singleton 1 threeSpeeds : Finmap fun _ : UInt32 => Client ℝ),
      (target Host.raising (Finmap.singleton 1 threeSpeeds) v).isSome := by
    intro v hv
    rw [Finmap.mem_singleton] at hv
    subst hv
    rw [target, proxies, Finmap.lookup_singleton_eq]
    exact Option.isSome_of_eq_some (luaL_checkinteger_number (H := Host.raising) 1)
  have hx : (move e threeSpeeds).x = 0 := by
    rw [(move_place e threeSpeeds).1, hland]
    show (0 : ℝ) + value * Real.cos (Real.pi / 2) = 0
    rw [Real.cos_pi_div_two, mul_zero, add_zero]
  have hy : (move e threeSpeeds).y = value := by
    rw [(move_place e threeSpeeds).2.1, hland]
    show (0 : ℝ) + value * Real.sin (Real.pi / 2) = value
    rw [Real.sin_pi_div_two, mul_one, zero_add]
  have harena : (move e threeSpeeds).InArena := by
    constructor <;> simp only [hx, hy] <;> linarith
  have hfinal := lookup_final_tick (s := ⟨Finmap.singleton 1 threeSpeeds⟩) hall (synthesisOrder e) (fun _ _ => true) 1
  rw [lookup_moveAll, Finmap.lookup_singleton_eq, Option.map_some, Option.map_some] at hfinal
  rw [hfinal, Option.map_some, Option.some.injEq]
  exact (congrArg Client.y (out_of_inArena ((inArena_struck (move e threeSpeeds) _).2 harena))).trans hy

/-- With three speeds one client comes to different places in different orders. -/
theorem threeSpeeds_not_orderFree : ¬ OrderFree Host.raising ⟨Finmap.singleton 1 threeSpeeds⟩ := by
  intro hfree
  have hpi := Real.pi_pos
  have hzero : (0 : ℝ) ≠ Real.pi / 2 := by positivity
  have hkeys : ∀ k, k ∈ threeSpeeds.vTbl.keys ↔ k = Real.pi ∨ k = Real.pi / 2 ∨ k = 0 := by
    intro k
    rw [Finmap.mem_keys, threeSpeeds, Finmap.mem_insert, Finmap.mem_insert, Finmap.mem_singleton]
  have hup : threeSpeeds.landed (Enumeration.listed [0, Real.pi / 2, Real.pi]) =
      advance (some (Real.pi / 2, Real.sqrt 3)) threeSpeeds := by
    refine landed_listed ?_ (fun k => ?_) threeSpeeds_fold_up
    · refine List.nodup_cons.2 ⟨?_, List.nodup_cons.2 ⟨?_, List.nodup_singleton _⟩⟩
      · simp [hpi.ne, hzero]
      · rw [List.mem_singleton]
        linarith
    · rw [hkeys]
      simp only [List.mem_cons, List.not_mem_nil, or_false]
      tauto
  have hleft : threeSpeeds.landed (Enumeration.listed [0, Real.pi, Real.pi / 2]) =
      advance (some (Real.pi / 2, 1)) threeSpeeds := by
    refine landed_listed ?_ (fun k => ?_) threeSpeeds_fold_left
    · refine List.nodup_cons.2 ⟨?_, List.nodup_cons.2 ⟨?_, List.nodup_singleton _⟩⟩
      · simp [hpi.ne, hzero]
      · rw [List.mem_singleton]
        linarith
    · rw [hkeys]
      simp only [List.mem_cons, List.not_mem_nil, or_false]
      tauto
  have hsqrt : Real.sqrt 3 ≤ 2 := Real.sqrt_le_iff.2 ⟨by norm_num, by norm_num⟩
  have hsame := congrArg (Option.map fun m : ℝ × ℝ × Finmap fun _ : ℝ => ℝ => m.2.1)
    (hfree (synthesisOrder (Enumeration.listed [0, Real.pi / 2, Real.pi]))
      (synthesisOrder (Enumeration.listed [0, Real.pi, Real.pi / 2])) (fun _ _ => true) (fun _ _ => true) 1)
  rw [Option.map_map, Option.map_map] at hsame
  have hy := (threeSpeeds_final hup (Real.sqrt_nonneg 3) (by linarith)).symm.trans
    (hsame.trans (threeSpeeds_final hleft (by norm_num) (by norm_num)))
  rw [Option.some.injEq, Real.sqrt_eq_one] at hy
  norm_num at hy

end LibeventServer.Lua

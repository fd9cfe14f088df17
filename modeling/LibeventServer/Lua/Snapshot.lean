import LibeventServer.Lua.Speeds

/-!
# What the clients are shown

A tick broadcasts the positions after the movement.  They are those the tick ends with unless a client has left the
arena: then the last phase puts it back to the middle, after the others have been shown it outside.

How far a client is carried is a matter of its speeds before the tick: they are combined one after the other, and a
speed is a vector (`displacement`).  `shown_iff`: in a run every snapshot agrees with the state exactly as long as no
client stands so that its displacement leads out of the arena; where each client is farther from the walls than its
speeds add up to, none does.
-/

namespace LibeventServer.Lua

open Runs

variable {H : Host ℝ} {s : State ℝ}

/-- The table a tick broadcasts. -/
noncomputable def snapshot (T : Traversals ℝ) (s : State ℝ) : Finmap fun _ : UInt32 => Packed ℝ :=
  (moveAll T s.clients).2

/-- The call is no tick that completes, or all its messages carry its snapshot, and the snapshot gives for every
connected client a position inside the arena, which is where the client is when the tick ends. -/
def Shown (H : Host ℝ) (s : State ℝ) : Call ℝ → Prop
  | .Tick T reply => (Tick H T s).Returns reply →
      (∀ m ∈ (Tick H T s).sent reply, m.2 = H.msgpack_pack (syncCall T (snapshot T s))) ∧
      ∀ v c, ((Tick H T s).final reply).clients.lookup v = some c →
        ∃ p, (snapshot T s).lookup v = some p ∧ |p.x| ≤ 480 ∧ |p.y| ≤ 320 ∧ p.x = c.x ∧ p.y = c.y
  | _ => True

/-! ### How far a client is carried -/

/-- The length of a vector. -/
noncomputable def magnitude (i : ℝ × ℝ) : ℝ := Real.sqrt (i.1 ^ 2 + i.2 ^ 2)

/-- The speed that these entries come to from the speed `v` under the angle `a`: an entry is added as a vector is, and
the sum is then taken to be under the angle between the two. -/
noncomputable def resultant (a v : ℝ) : List (ℝ × ℝ) → ℝ
  | [] => v
  | (b, w) :: rest => resultant (between a b) (magnitude (v • direction a + w • direction b)) rest

/-- The vector by which a client with these speeds, each under its angle, is carried. -/
noncomputable def displacement : List (ℝ × ℝ) → ℝ × ℝ
  | [] => 0
  | (a, v) :: rest => resultant a v rest • direction (carried (a :: rest.map Prod.fst))

/-- The entries of a table in their order. -/
noncomputable def entryList (order : Enumeration ℝ) (tbl : Finmap fun _ : ℝ => ℝ) : List (ℝ × ℝ) :=
  (order.order tbl.keys).map fun angle => (angle, (tbl.lookup angle).getD 0)

/-- The call is no tick that completes, or every client stands so that its displacement ends in the arena. -/
def StaysIn (H : Host ℝ) (s : State ℝ) : Call ℝ → Prop
  | .Tick T reply => (Tick H T s).Returns reply → ∀ v c, s.clients.lookup v = some c →
      |c.x + (displacement (entryList (T.vTbl v) c.vTbl)).1| ≤ 480 ∧
        |c.y + (displacement (entryList (T.vTbl v) c.vTbl)).2| ≤ 320
  | _ => True

/-- The call is no tick, or every client is at least as far from the walls as its speeds add up to. -/
def KeepsDistance (s : State ℝ) : Call ℝ → Prop
  | .Tick _ _ => ∀ v c, s.clients.lookup v = some c → |c.x| + speed c.vTbl ≤ 480 ∧ |c.y| + speed c.vTbl ≤ 320
  | _ => True

section

variable {e : Enumeration ℝ} {tbl : Finmap fun _ : ℝ => ℝ}

private theorem foldl_synthesisStep_resultant {l : List ℝ} (hmem : ∀ b ∈ l, b ∈ tbl) (a v : ℝ) :
    l.foldl (synthesisStep tbl) (some (a, v)) =
      some (l.foldl between a, resultant a v (l.map fun b => (b, (tbl.lookup b).getD 0))) := by
  induction l generalizing a v with
  | nil => rfl
  | cons b l ih =>
    obtain ⟨w, hw⟩ := Finmap.mem_iff.1 (hmem b List.mem_cons_self)
    rw [List.foldl_cons, synthesisStep_between hw, ih fun b hb => hmem b (List.mem_cons_of_mem _ hb), List.foldl_cons,
      List.map_cons, resultant, hw, Option.getD_some, law_of_cosines]
    rfl

/-- The movement carries a client by its displacement. -/
private theorem landed_eq (e : Enumeration ℝ) (c : Client ℝ) :
    (c.landed e).x = c.x + (displacement (entryList e c.vTbl)).1 ∧
      (c.landed e).y = c.y + (displacement (entryList e c.vTbl)).2 := by
  have hmem : ∀ a ∈ e.order c.vTbl.keys, a ∈ c.vTbl := fun a ha => Finmap.mem_keys.1 ((e.mem_order _ a).1 ha)
  rw [Client.landed, synthesis, entryList]
  cases horder : e.order c.vTbl.keys with
  | nil =>
    rw [List.foldl_nil, next_empty]
    exact ⟨(add_zero _).symm, (add_zero _).symm⟩
  | cons a rest =>
    rw [horder] at hmem
    obtain ⟨v, hv⟩ := Finmap.mem_iff.1 (hmem a List.mem_cons_self)
    rw [List.foldl_cons, synthesisStep_none hv,
      foldl_synthesisStep_resultant fun b hb => hmem b (List.mem_cons_of_mem _ hb)]
    simp only [next_singleton, List.map_cons, displacement, carried, List.map_map, hv, Option.getD_some,
      Function.comp_def, List.map_id']
    exact ⟨rfl, rfl⟩

/-- A client is carried no farther than its speeds add up to. -/
private theorem landed_within_speed {c : Client ℝ} (hpos : NonNegative c.vTbl) (e : Enumeration ℝ) :
    |(c.landed e).x| ≤ |c.x| + speed c.vTbl ∧ |(c.landed e).y| ≤ |c.y| + speed c.vTbl := by
  rcases synthesis_cases hpos e with hempty | ⟨angle, value, hvalue, hle, hsynthesis⟩
  · have hspeed : speed c.vTbl = 0 := by rw [hempty, speed, Tally.total_empty]
    rw [Client.landed_of_empty hempty, hspeed, add_zero, add_zero]
    exact ⟨le_rfl, le_rfl⟩
  · have hpart : ∀ r : ℝ, |r| ≤ 1 → |value * r| ≤ speed c.vTbl := by
      intro r hr
      calc |value * r| = value * |r| := by rw [abs_mul, abs_of_nonneg hvalue]
        _ ≤ value := mul_le_of_le_one_right hvalue hr
        _ ≤ speed c.vTbl := hle
    rw [Client.landed, hsynthesis, next_singleton]
    exact ⟨(abs_add_le _ _).trans (add_le_add_right (hpart _ (Real.abs_cos_le_one angle)) _),
      (abs_add_le _ _).trans (add_le_add_right (hpart _ (Real.abs_sin_le_one angle)) _)⟩

/-- A client is moved to a place in the arena exactly when its displacement ends there. -/
private theorem inArena_move_iff (e : Enumeration ℝ) (c : Client ℝ) : (move e c).InArena ↔
    |c.x + (displacement (entryList e c.vTbl)).1| ≤ 480 ∧ |c.y + (displacement (entryList e c.vTbl)).2| ≤ 320 := by
  obtain ⟨hx, hy⟩ := landed_eq e c
  rw [inArena_move, ← hx, ← hy, abs_le, abs_le]
  exact ⟨fun h => ⟨⟨h.x_ge, h.x_le⟩, h.y_ge, h.y_le⟩, fun h => ⟨h.1.1, h.1.2, h.2.1, h.2.2⟩⟩

end

private theorem staysIn_of_keepsDistance (hpos : ∀ v c, s.clients.lookup v = some c → NonNegative c.vTbl)
    {call : Call ℝ} (h : KeepsDistance s call) : StaysIn H s call := by
  cases call with
  | Tick T reply =>
    intro _ v c hv
    obtain ⟨hx, hy⟩ := h v c hv
    obtain ⟨hx', hy'⟩ := landed_within_speed (hpos v c hv) (T.vTbl v)
    obtain ⟨hxd, hyd⟩ := landed_eq (T.vTbl v) c
    rw [← hxd, ← hyd]
    exact ⟨hx'.trans hx, hy'.trans hy⟩
  | _ => trivial

/-! ### What is shown -/

private theorem sent_snapshot (T : Traversals ℝ) {reply : Int64 → List UInt8 → Bool}
    (h : (Tick H T s).Returns reply) :
    ∀ m ∈ (Tick H T s).sent reply, m.2 = H.msgpack_pack (syncCall T (snapshot T s)) := by
  have htarget : ∀ v ∈ s.clients, target H s.clients v = some ((target H s.clients v).getD 0) := by
    intro v hv
    obtain ⟨n, hn⟩ := Option.isSome_iff_exists.1 ((tick_returns_iff reply T s).1 h v hv)
    rw [hn, Option.getD_some]
  intro m hm
  rw [Tick, tick_sent reply T s htarget, List.mem_map] at hm
  obtain ⟨v, -, rfl⟩ := hm
  rfl

/-- The entry of a client in the snapshot, and its record when the tick ends. -/
private theorem lookup_snapshot {T : Traversals ℝ} {reply : Int64 → List UInt8 → Bool}
    (h : (Tick H T s).Returns reply) {v : UInt32} {c : Client ℝ} (hv : s.clients.lookup v = some c) :
    (snapshot T s).lookup v = some (pack (move (T.vTbl v) c)) ∧
      ∃ l, ((Tick H T s).final reply).clients.lookup v = some (out ((move (T.vTbl v) c).struck l)) := by
  rw [snapshot, moveAll_data, lookup_final_tick ((tick_returns_iff reply T s).1 h), lookup_moveAll, hv]
  exact ⟨rfl, _, rfl⟩

private theorem shown_iff_staysIn (s : State ℝ) (call : Call ℝ) : Shown H s call ↔ StaysIn H s call := by
  cases call with
  | HandleConnect v => exact Iff.rfl
  | HandleDisConnect v => exact Iff.rfl
  | HandleEvent v msg => exact Iff.rfl
  | Tick T reply =>
    refine forall_congr' fun hret => ⟨?_, ?_⟩
    · rintro ⟨-, hshown⟩ v c hv
      obtain ⟨hsnap, l, hfinal⟩ := lookup_snapshot hret hv
      obtain ⟨p, hp, hx, hy, -, -⟩ := hshown v _ hfinal
      rw [hsnap, Option.some.injEq] at hp
      subst hp
      obtain ⟨hx1, hx2⟩ := abs_le.1 hx
      obtain ⟨hy1, hy2⟩ := abs_le.1 hy
      exact (inArena_move_iff (T.vTbl v) c).1 ⟨hx1, hx2, hy1, hy2⟩
    · intro hstays
      refine ⟨sent_snapshot T hret, fun v c' hfinal => ?_⟩
      have hmem : v ∈ s.clients := by
        have hfinal' := hfinal
        rw [lookup_final_tick ((tick_returns_iff reply T s).1 hret), lookup_moveAll, Option.map_map,
          Option.map_eq_some_iff] at hfinal'
        obtain ⟨c, hc, -⟩ := hfinal'
        exact Finmap.mem_of_lookup_eq_some hc
      obtain ⟨c, hv⟩ := Finmap.mem_iff.1 hmem
      obtain ⟨hsnap, l, hfinal'⟩ := lookup_snapshot hret hv
      have harena := (inArena_move_iff (T.vTbl v) c).2 (hstays v c hv)
      rw [hfinal', Option.some.injEq, out_of_inArena ((inArena_struck _ l).2 harena)] at hfinal
      subst hfinal
      exact ⟨_, hsnap, abs_le.2 ⟨harena.x_ge, harena.x_le⟩, abs_le.2 ⟨harena.y_ge, harena.y_le⟩, rfl, rfl⟩

/-- The snapshots of a run agree with the states its ticks end in exactly when in no tick that completes the
displacement of a client leads out of the arena; in particular when in every tick each client is at least as far from
the walls as its speeds add up to. -/
theorem shown_iff (H : Host ℝ) (calls : List (Call ℝ)) :
    (Along (State.step H) (Shown H) State.init calls ↔ Along (State.step H) (StaysIn H) State.init calls) ∧
      (Along (State.step H) KeepsDistance State.init calls → Along (State.step H) (Shown H) State.init calls) := by
  have hshown : Along (State.step H) (Shown H) State.init calls ↔ Along (State.step H) (StaysIn H) State.init calls :=
    along_congr shown_iff_staysIn State.init calls
  refine ⟨hshown, fun h => hshown.2 ?_⟩
  refine h.mono_of_invariant (I := fun s => ∀ v c, s.clients.lookup v = some c → NonNegative c.vTbl)
    (fun s call hs => step_nonNegative hs call) (fun s call hs => staysIn_of_keepsDistance hs) ?_
  intro v c hc
  simp [State.init] at hc

/-! ### A client that runs out of the arena -/

/-- The MessagePack bytes of `{"cmd", {{press = true}}}`. -/
def pressMsg : List UInt8 := [0x92, 0xa3, 0x63, 0x6d, 0x64, 0x91, 0x81, 0xa5, 0x70, 0x72, 0x65, 0x73, 0x73, 0xc3]

/-- The MessagePack bytes of `{"cmd", {{press = false}}}`. -/
def releaseMsg : List UInt8 := [0x92, 0xa3, 0x63, 0x6d, 0x64, 0x91, 0x81, 0xa5, 0x70, 0x72, 0x65, 0x73, 0x73, 0xc2]

/-- `{"cmd", {{press = press}}}` -/
noncomputable def cmdCall (press : Bool) : Value ℝ :=
  .table [(.num 1, .str (literal "cmd")), (.num 2, .table [(.num 1, .table [(.str (literal "press"), .bool press)])])]

/-- Libraries that know `pressMsg` and `releaseMsg` and no other message. -/
noncomputable def buttonHost : Host ℝ := .knowing [(pressMsg, cmdCall true), (releaseMsg, cmdCall false)]

private theorem buttonHost_pressMsg : buttonHost.msgpack_unpack pressMsg = some (cmdCall true) := by
  simp [buttonHost, Host.knowing]

theorem buttonHost_releaseMsg : buttonHost.msgpack_unpack releaseMsg = some (cmdCall false) := by
  have hne : (releaseMsg == pressMsg) = false := by decide
  simp [buttonHost, Host.knowing, List.lookup_cons, hne]

theorem handleEvent_cmdCall {msg : List UInt8} {press : Bool}
    (hmsg : buttonHost.msgpack_unpack msg = some (cmdCall press)) {v : UInt32} {c c' : Client ℝ}
    (hv : s.clients.lookup v = some c) (hcmd : c.cmd (.table [(.str (literal "press"), .bool press)]) = some c') :
    handleEvent buttonHost v msg s = some { s with clients := s.clients.insert v c' } := by
  have hname : literal "cmd" ≠ literal "_init" := by decide
  have hfirst : (cmdCall press).index (.num 1) = some (.str (literal "cmd")) := by
    simp [cmdCall, Value.index, Value.rawget, Value.rawequal]
  have hargs : arguments buttonHost (cmdCall press) = some [.table [(.str (literal "press"), .bool press)]] := by
    simp [arguments, cmdCall, buttonHost, Host.knowing, Value.index, Value.rawget, Value.rawequal, table_unpack,
      table_unpack.pushed]
  have hmethod : Client.method (.str (literal "cmd") : Value ℝ) = some .cmd := by
    simp [Client.method, Value.rawequal, hname]
  simp [handleEvent, hmsg, hfirst, hmethod, hargs, getClientByVfd, hv, Client.invoke, hcmd]

/-- Client 1 after it has pressed its button. -/
noncomputable def pressed : Client ℝ := { Client._init (.num (number 1)) with press := .bool true, d := -1 }

/-- Client 1 after `n + 1` more ticks. -/
noncomputable def runner (n : ℕ) : Client ℝ :=
  { pressed with x := n * (n + 1) / 2, vTbl := Finmap.singleton 0 (n + 1 : ℝ) }

theorem pressed_state : run (State.step buttonHost) State.init [.HandleConnect 1, .HandleEvent 1 pressMsg] =
    ⟨Finmap.singleton 1 pressed⟩ := by
  have hconnect : State.step buttonHost State.init (.HandleConnect 1) =
      ⟨Finmap.singleton 1 (Client._init (.num (number 1)))⟩ := rfl
  have hcmd : (Client._init (.num (number 1)) : Client ℝ).cmd (.table [(.str (literal "press"), .bool true)]) =
      some pressed := by
    simp [Client.cmd, Value.index, Value.rawget, Value.rawequal, Value.truthy, pressed, Client._init]
  have hevent := handleEvent_cmdCall (s := ⟨Finmap.singleton 1 (Client._init (.num (number 1)))⟩) buttonHost_pressMsg
    Finmap.lookup_singleton_eq hcmd
  rw [run_cons, run_cons, run_nil, hconnect]
  simp only [State.step, HandleEvent, hevent, LuaRun.final, Finmap.insert_singleton_eq]

private theorem lookup_singleton (v u : UInt32) (c : Client ℝ) :
    (Finmap.singleton v c : Finmap fun _ : UInt32 => Client ℝ).lookup u = if u = v then some c else none := by
  by_cases hu : u = v
  · subst hu
    rw [Finmap.lookup_singleton_eq, if_pos rfl]
  · rw [if_neg hu, Finmap.lookup_eq_none, Finmap.mem_singleton]
    exact hu

/-- A client that is alone is hit by no other. -/
private theorem tick_alone {v : UInt32} {c : Client ℝ} (h : (luaL_checkinteger H c.call).isSome) (T : Traversals ℝ)
    (reply : Int64 → List UInt8 → Bool) :
    (Tick H T ⟨Finmap.singleton v c⟩).final reply = ⟨Finmap.singleton v (out (move (T.vTbl v) c))⟩ := by
  have hall : ∀ u ∈ (Finmap.singleton v c : Finmap fun _ : UInt32 => Client ℝ),
      (target H (Finmap.singleton v c) u).isSome := by
    intro u hu
    rw [Finmap.mem_singleton] at hu
    subst hu
    rw [target, proxies, Finmap.lookup_singleton_eq]
    exact h
  have hmoved : (moveAll T (Finmap.singleton v c)).1 = Finmap.singleton v (move (T.vTbl v) c) := by
    apply Finmap.ext_lookup
    intro u
    rw [lookup_moveAll, lookup_singleton, lookup_singleton]
    split
    · rename_i hu
      rw [hu, Option.map_some]
    · rfl
  have hpushes : ∀ c' : Client ℝ, pushes T (Finmap.singleton v c') v c' = [] := by
    intro c'
    have hmem : v ∈ (Finmap.singleton v c' : Finmap fun _ : UInt32 => Client ℝ) := (Finmap.mem_singleton v v c').2 rfl
    have hperm := partners_hitOrder T hmem
    rw [Finmap.keys_singleton, Finset.erase_singleton, Finset.toList_empty] at hperm
    rw [pushes, Finmap.keys_singleton, hperm.eq_nil]
    rfl
  refine congrArg State.mk (Finmap.ext_lookup fun u => ?_)
  have hfinal := lookup_final_tick (s := ⟨Finmap.singleton v c⟩) hall T reply u
  rw [hmoved, lookup_singleton] at hfinal
  rw [hfinal, lookup_singleton]
  split
  · rename_i hu
    rw [hu, Option.map_some, hpushes, Client.struck_nil]
  · rfl

private theorem move_pressed (e : Enumeration ℝ) : move e pressed = runner 0 := by
  have hsynthesis : synthesis e pressed.vTbl = ∅ := synthesis_empty e
  have hadd : addv (∅ : Finmap fun _ : ℝ => ℝ) 0 PRESS_A = Finmap.singleton 0 1 := by
    simp only [addv, PRESS_A, Finmap.lookup_empty, Option.getD_none, zero_add]
    rfl
  simp only [move, hsynthesis, next_empty]
  simp [slow, advance, turn, pressed, runner, Client._init, Value.truthy, hadd]

/-- The client accelerates: it keeps its angle while the button is pressed. -/
private theorem move_runner (e : Enumeration ℝ) (n : ℕ) : move e (runner n) = runner (n + 1) := by
  have hadd : addv (Finmap.singleton (0 : ℝ) (n + 1 : ℝ)) 0 PRESS_A = Finmap.singleton 0 (n + 1 + 1 : ℝ) := by
    simp [addv, PRESS_A, Finmap.insert_singleton_eq]
  have hx : (n : ℝ) * (n + 1) / 2 + (n + 1) = (n + 1) * (n + 1 + 1) / 2 := by ring
  have hcos : LuaMath.cos (0 : ℝ) = 1 := Real.cos_zero
  have hsin : LuaMath.sin (0 : ℝ) = 0 := Real.sin_zero
  simp only [move, runner, synthesis_singleton, next_singleton]
  simp [slow, advance, turn, pressed, Client._init, Value.truthy, hadd, hcos, hsin, hx]

private theorem runner_inArena {n : ℕ} (h : n ≤ 30) : (runner n).InArena := by
  have hn : (n : ℝ) ≤ 30 := by exact_mod_cast h
  have h0 : (0 : ℝ) ≤ n := Nat.cast_nonneg n
  have hx : (runner n).x = n * (n + 1) / 2 := rfl
  have hy : (runner n).y = 0 := rfl
  constructor
  · rw [hx]; nlinarith
  · rw [hx]; nlinarith
  · rw [hy]; norm_num
  · rw [hy]; norm_num

theorem run_ticks {n : ℕ} (h : n ≤ 30) :
    run (State.step buttonHost) ⟨Finmap.singleton 1 pressed⟩
      (List.replicate (n + 1) (.Tick default fun _ _ => true)) = ⟨Finmap.singleton 1 (runner n)⟩ := by
  have hcall : ∀ c : Client ℝ, c.call = .num (number 1) → (luaL_checkinteger buttonHost c.call).isSome := by
    intro c hc
    rw [hc, luaL_checkinteger_number]
    rfl
  induction n with
  | zero =>
    show (Tick buttonHost default ⟨Finmap.singleton 1 pressed⟩).final _ = _
    rw [tick_alone (hcall pressed rfl), move_pressed, out_of_inArena (runner_inArena h)]
  | succ n ih =>
    rw [List.replicate_succ', run_append, ih (by omega)]
    show (Tick buttonHost default ⟨Finmap.singleton 1 (runner n)⟩).final _ = _
    rw [tick_alone (hcall (runner n) rfl), move_runner, out_of_inArena (runner_inArena h)]

/-- The 32nd tick with the button pressed carries the client out of the arena, and shows it there. -/
theorem runner_not_shown :
    ¬ Along (State.step buttonHost) (Shown buttonHost) State.init
      ([.HandleConnect 1, .HandleEvent 1 pressMsg] ++ List.replicate 31 (.Tick default fun _ _ => true) ++
        [.Tick default fun _ _ => true]) := by
  rw [along_append, run_append, pressed_state, run_ticks (n := 30) le_rfl]
  rintro ⟨-, hshown, -⟩
  rw [shown_iff_staysIn] at hshown
  have hret : (Tick buttonHost default ⟨Finmap.singleton 1 (runner 30)⟩).Returns fun _ _ => true := by
    refine (tick_returns_iff (H := buttonHost) (fun _ _ => true) default _).2 fun v hv => ?_
    rw [Finmap.mem_singleton] at hv
    subst hv
    rw [target, proxies, Finmap.lookup_singleton_eq]
    exact Option.isSome_of_eq_some (luaL_checkinteger_number (H := buttonHost) 1)
  -- it stands at `x = 465` with the speed 31
  have harena := (inArena_move_iff _ _).2 (hshown hret 1 (runner 30) Finmap.lookup_singleton_eq)
  rw [move_runner] at harena
  have hx : (runner (30 + 1)).x = 496 := by
    show ((30 + 1 : ℕ) : ℝ) * ((30 + 1 : ℕ) + 1) / 2 = 496
    norm_num
  have hle := harena.x_le
  rw [hx] at hle
  norm_num at hle

end LibeventServer.Lua

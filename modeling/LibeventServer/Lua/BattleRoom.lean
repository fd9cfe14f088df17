import LibeventServer.Lua.Client
import LibeventServer.World
import Mathlib.Algebra.Order.Group.Unbundled.Abs

/-!
# `src/module/battle_room.lua`

`tick` goes over all clients four times: it moves and packs them, syncs them, pushes apart those that overlap, and
puts those that left the arena back to its middle.  The order of each of these traversals is open (`Traversals`).

The phases touch neither ids nor proxies: `proxies` is the same before and after each of them.
-/

namespace LibeventServer.Lua

/-- The orders in which `pairs` visits the tables a tick traverses: `clients` in each phase, in the inner loop of the
hit phase once for each client, the table `data` when it is packed, and each client's `vTbl`. -/
structure Traversals (N : Type) where
  move : Enumeration UInt32
  data : Enumeration UInt32
  sync : Enumeration UInt32
  hit : Enumeration UInt32
  hitInner : UInt32 → Enumeration UInt32
  out : Enumeration UInt32
  vTbl : UInt32 → Enumeration N

noncomputable instance {N : Type} : Inhabited (Traversals N) :=
  ⟨⟨default, default, default, default, fun _ => default, default, fun _ => default⟩⟩

/-- The value of the key `vfd` of `clients`. -/
def number {N : Type} [NatCast N] (vfd : UInt32) : N := (vfd.toNat : N)

section

variable {N : Type} [Field N] [LuaMath N]

/-- `math.pi` -/
def PI : N := LuaMath.pi

/-- `PI*1.0/50` -/
def ANGLE : N := PI * 1 / 50

def PRESS_A : N := 1

def SLOW_A : N := 1

def HIT_A : N := 5

end

section

variable {N : Type} [Field N] [LinearOrder N] [LuaMath N]

/-! ### Tables of speeds -/

/-- The loop body of `synthesis`: the angle and value so far, and the next entry. -/
def synthesisStep (tbl : Finmap fun _ : N => N) (s : Option (N × N)) (_angle : N) : Option (N × N) :=
  match tbl.lookup _angle with
  | none => s
  | some _value =>
    match s with
    | none => some (_angle, _value)
    | some (angle, value) =>
      let a := |angle - _angle|
      let a := if a > PI then 2 * PI - a else a
      some (a, LuaMath.sqrt (value ^ 2 + _value ^ 2 + 2 * value * _value * LuaMath.cos a))

def synthesis (order : Enumeration N) (tbl : Finmap fun _ : N => N) : Finmap fun _ : N => N :=
  match (order.order tbl.keys).foldl (synthesisStep tbl) none with
  | some (angle, value) => Finmap.singleton angle value
  | none => ∅

/-- `next(tbl)` -/
def next (order : Enumeration N) (tbl : Finmap fun _ : N => N) : Option (N × N) :=
  (order.order tbl.keys).head?.bind fun angle => (tbl.lookup angle).map fun value => (angle, value)

def addv (vTbl : Finmap fun _ : N => N) (angle value : N) : Finmap fun _ : N => N :=
  vTbl.insert angle ((vTbl.lookup angle).getD 0 + value)

def subv (vTbl : Finmap fun _ : N => N) (angle value : N) : Finmap fun _ : N => N :=
  match vTbl.lookup angle with
  | none => vTbl
  | some v => if v - value ≤ 0 then vTbl.erase angle else vTbl.insert angle (v - value)

/-! ### The first phase -/

/-- `if angle then ... end`, first time: the client moves. -/
def advance (first : Option (N × N)) (client : Client N) : Client N :=
  match first with
  | some (angle, value) =>
    { client with
      x := client.x + value * LuaMath.cos angle
      y := client.y + value * LuaMath.sin angle }
  | none => client

/-- `if client.press then ... else ... end` -/
def turn (client : Client N) : Client N :=
  if client.press.truthy then { client with vTbl := addv client.vTbl client.angle PRESS_A }
  else { client with angle := client.angle + ANGLE * client.d }

/-- `if angle then ... end`, second time. -/
def slow (first : Option (N × N)) (client : Client N) : Client N :=
  match first with
  | some (angle, _) =>
    if angle ≠ client.angle then { client with vTbl := subv client.vTbl angle SLOW_A } else client
  | none => client

/-- The loop body up to `-- pack`. -/
def move (order : Enumeration N) (client : Client N) : Client N :=
  let client := { client with vTbl := synthesis order client.vTbl }
  let first := next order client.vTbl
  slow first (turn (advance first client))

/-- An entry of `data`.  `client.v` is `nil`, so the entry has no field `v`. -/
structure Packed (N : Type) where
  x : N
  y : N
  r : N
  angle : N

def pack (client : Client N) : Packed N :=
  { x := client.x, y := client.y, r := client.r, angle := client.angle / PI * 180 }

/-- The loop body of the first phase. -/
def movePack (order : UInt32 → Enumeration N) (vfd : UInt32) (client : Client N) : Client N × Packed N :=
  (move (order vfd) client, pack (move (order vfd) client))

/-- The first phase: the clients and `data`. -/
def moveAll (T : Traversals N) (clients : Finmap fun _ : UInt32 => Client N) :
    (Finmap fun _ : UInt32 => Client N) × (Finmap fun _ : UInt32 => Packed N) :=
  (T.move.order clients.keys).foldl (Table.visit (movePack T.vTbl)) (clients, ∅)

/-! ### The second phase -/

def Packed.toValue (p : Packed N) : Value N :=
  .table [(.str (literal "x"), .num p.x), (.str (literal "y"), .num p.y), (.str (literal "r"), .num p.r),
    (.str (literal "angle"), .num p.angle)]

/-- `{"sync", {data}}` -/
def syncCall (T : Traversals N) (data : Finmap fun _ : UInt32 => Packed N) : Value N :=
  let entries := (T.data.order data.keys).filterMap fun vfd =>
    (data.lookup vfd).map fun p => (Value.num (number vfd), p.toValue)
  .table [(.num 1, .str (literal "sync")), (.num 2, .table [(.num 1, .table entries)])]

/-- `client.call.sync(data)` for each client: the proxy packs the call and passes it to `Net.send`, which raises when
the proxy's `vfd` is no integer. -/
def syncAll [FloorRing N] (H : Host N) (msg : List UInt8) (clients : Finmap fun _ : UInt32 => Client N)
    (rest : LuaRun (State N)) : List UInt32 → LuaRun (State N)
  | [] => rest
  | vfd :: order =>
    match clients.lookup vfd with
    | none => syncAll H msg clients rest order
    | some client =>
      match luaL_checkinteger H client.call with
      | none => .raised ⟨clients⟩
      | some n => .send n msg fun _ => syncAll H msg clients rest order

/-! ### The third phase -/

/-- Two clients that overlap are given opposite speeds. -/
def hitPair (c1 c2 : Client N) : Client N × Client N :=
  let len := c1.r + c2.r - LuaMath.sqrt ((c1.x - c2.x) ^ 2 + (c1.y - c2.y) ^ 2)
  if len > 0 then
    let a := |c1.y - c2.y|
    let b := |c1.x - c2.x|
    let _a := if b = 0 then PI / 2 else LuaMath.atan (a / b)
    let _a := if (c1.y - c2.y) * (c1.x - c2.x) < 0 then PI - _a else _a
    if c1.y > c2.y then
      ({ c1 with vTbl := addv c1.vTbl _a HIT_A }, { c2 with vTbl := addv c2.vTbl (_a + PI) HIT_A })
    else
      ({ c1 with vTbl := addv c1.vTbl (_a + PI) HIT_A }, { c2 with vTbl := addv c2.vTbl _a HIT_A })
  else (c1, c2)

/-- `flag[vfd] and flag[vfd][_vfd]` -/
def flagged (flag : Finmap fun _ : UInt32 => Finset UInt32) (vfd _vfd : UInt32) : Bool :=
  match flag.lookup vfd with
  | some s => _vfd ∈ s
  | none => false

/-- The inner loop body, for the state `flag` and the clients. -/
def hitStep (vfd : UInt32) (s : (Finmap fun _ : UInt32 => Finset UInt32) × (Finmap fun _ : UInt32 => Client N))
    (_vfd : UInt32) : (Finmap fun _ : UInt32 => Finset UInt32) × (Finmap fun _ : UInt32 => Client N) :=
  if vfd ≠ _vfd ∧ ¬ flagged s.1 _vfd vfd then
    let flag := s.1.insert vfd (insert _vfd ((s.1.lookup vfd).getD ∅))
    match s.2.lookup vfd, s.2.lookup _vfd with
    | some c1, some c2 =>
      (flag, (s.2.insert vfd (hitPair c1 c2).1).insert _vfd (hitPair c1 c2).2)
    | _, _ => (flag, s.2)
  else s

def hitAll (T : Traversals N) (clients : Finmap fun _ : UInt32 => Client N) : Finmap fun _ : UInt32 => Client N :=
  ((T.hit.order clients.keys).foldl
    (fun s vfd => ((T.hitInner vfd).order clients.keys).foldl (hitStep vfd) s) (∅, clients)).2

/-! ### The fourth phase -/

/-- A client outside the arena goes back to the middle. -/
def out (c : Client N) : Client N :=
  if c.x > 960 / 2 ∨ c.x < -960 / 2 ∨ c.y > 640 / 2 ∨ c.y < -640 / 2 then { c with x := 0, y := 0, vTbl := ∅ } else c

def outAll (T : Traversals N) (clients : Finmap fun _ : UInt32 => Client N) : Finmap fun _ : UInt32 => Client N :=
  Table.forEach (T.out.order clients.keys) (fun _ => out) clients

/-- `tick()` -/
def tick [FloorRing N] (H : Host N) (T : Traversals N) (s : State N) : LuaRun (State N) :=
  let clients := (moveAll T s.clients).1
  let data := (moveAll T s.clients).2
  syncAll H (H.msgpack_pack (syncCall T data)) clients (.returned ⟨outAll T (hitAll T clients)⟩)
    (T.sync.order clients.keys)

/-! ### Ids and proxies -/

private theorem move_ids (order : Enumeration N) (c : Client N) :
    (move order c).vfd = c.vfd ∧ (move order c).call = c.call := by
  have hadvance : ∀ first (c : Client N), (advance first c).vfd = c.vfd ∧ (advance first c).call = c.call := by
    intro first c
    cases first <;> exact ⟨rfl, rfl⟩
  have hturn : ∀ c : Client N, (turn c).vfd = c.vfd ∧ (turn c).call = c.call := by
    intro c
    unfold turn
    split <;> exact ⟨rfl, rfl⟩
  have hslow : ∀ first (c : Client N), (slow first c).vfd = c.vfd ∧ (slow first c).call = c.call := by
    intro first c
    unfold slow
    split
    · split <;> exact ⟨rfl, rfl⟩
    · exact ⟨rfl, rfl⟩
  simp only [move, hslow, hturn, hadvance, and_self]

theorem moveAll_proxies (T : Traversals N) (t : Finmap fun _ : UInt32 => Client N) :
    proxies (moveAll T t).1 = proxies t := by
  rw [moveAll, Table.foldl_visit_fst]
  exact proxies_forEach (T.move.nodup _) fun v c => move_ids (T.vTbl v) c

/-- `data` has one entry for each client, with its position after the move. -/
theorem moveAll_data (T : Traversals N) (t : Finmap fun _ : UInt32 => Client N) (v : UInt32) :
    (moveAll T t).2.lookup v = ((moveAll T t).1.lookup v).map pack := by
  rw [moveAll, Table.lookup_foldl_visit_snd (T.move.nodup _), Table.foldl_visit_fst,
    Table.lookup_forEach (T.move.nodup _)]
  simp only [T.move.mem_order, Finmap.mem_keys, and_self, Finmap.lookup_empty]
  by_cases hv : v ∈ t
  · simp [hv, movePack, Function.comp_def]
  · simp [hv, Finmap.lookup_eq_none.2 hv]

theorem moveAll_data_keys (T : Traversals N) (t : Finmap fun _ : UInt32 => Client N) :
    (moveAll T t).2.keys = t.keys := by
  rw [← keys_eq_of_proxies (moveAll_proxies T t)]
  ext v
  rw [Finmap.mem_keys, Finmap.mem_keys, ← Finmap.lookup_isSome, ← Finmap.lookup_isSome, moveAll_data,
    Option.isSome_map]

private theorem hitPair_ids (c1 c2 : Client N) :
    ((hitPair c1 c2).1.vfd = c1.vfd ∧ (hitPair c1 c2).1.call = c1.call) ∧
      (hitPair c1 c2).2.vfd = c2.vfd ∧ (hitPair c1 c2).2.call = c2.call := by
  unfold hitPair
  simp only
  split
  · split <;> exact ⟨⟨rfl, rfl⟩, rfl, rfl⟩
  · exact ⟨⟨rfl, rfl⟩, rfl, rfl⟩

private theorem hitStep_proxies (vfd _vfd : UInt32)
    (s : (Finmap fun _ : UInt32 => Finset UInt32) × (Finmap fun _ : UInt32 => Client N)) :
    proxies (hitStep vfd s _vfd).2 = proxies s.2 := by
  unfold hitStep
  split
  · rename_i hne
    cases h1 : s.2.lookup vfd with
    | none => rfl
    | some c1 =>
      cases h2 : s.2.lookup _vfd with
      | none => rfl
      | some c2 =>
        have h2' : (s.2.insert vfd (hitPair c1 c2).1).lookup _vfd = some c2 := by
          rw [Finmap.lookup_insert_of_ne _ (Ne.symm hne.1), h2]
        simp only
        rw [proxies_insert_of_ids h2' (hitPair_ids c1 c2).2, proxies_insert_of_ids h1 (hitPair_ids c1 c2).1]
  · rfl

private theorem foldl_hitStep_proxies (vfd : UInt32) (l : List UInt32)
    (s : (Finmap fun _ : UInt32 => Finset UInt32) × (Finmap fun _ : UInt32 => Client N)) :
    proxies (l.foldl (hitStep vfd) s).2 = proxies s.2 := by
  induction l generalizing s with
  | nil => rfl
  | cons _vfd l ih => rw [List.foldl_cons, ih, hitStep_proxies]

theorem hitAll_proxies (T : Traversals N) (t : Finmap fun _ : UInt32 => Client N) :
    proxies (hitAll T t) = proxies t := by
  have houter : ∀ (l : List UInt32)
      (s : (Finmap fun _ : UInt32 => Finset UInt32) × (Finmap fun _ : UInt32 => Client N)),
      proxies (l.foldl (fun s vfd => ((T.hitInner vfd).order t.keys).foldl (hitStep vfd) s) s).2 =
        proxies s.2 := by
    intro l
    induction l with
    | nil => exact fun _ => rfl
    | cons vfd l ih =>
      intro s
      rw [List.foldl_cons, ih, foldl_hitStep_proxies]
  exact houter _ _

end

section

variable {N : Type} [Field N] [LinearOrder N]

private theorem out_ids (c : Client N) : (out c).vfd = c.vfd ∧ (out c).call = c.call := by
  unfold out
  split <;> exact ⟨rfl, rfl⟩

theorem outAll_proxies (T : Traversals N) (t : Finmap fun _ : UInt32 => Client N) :
    proxies (outAll T t) = proxies t :=
  proxies_forEach (T.out.nodup _) fun _ c => out_ids c

theorem lookup_outAll (T : Traversals N) (t : Finmap fun _ : UInt32 => Client N) (v : UInt32) :
    (outAll T t).lookup v = (t.lookup v).map out := by
  rw [outAll, Table.lookup_forEach (T.out.nodup _)]
  simp only [T.out.mem_order, Finmap.mem_keys]
  split
  · rfl
  · rename_i hv
    rw [Finmap.lookup_eq_none.2 hv, Option.map_none]

end

end LibeventServer.Lua

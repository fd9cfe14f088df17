import LibeventServer.Connections
import LibeventServer.Lua.Calls

/-!
# Sending a message

`NetLib.send` copies the message to `write_msg` behind the two header bytes and queues both; it does not compare the
length with the size of the buffer.  `send_iff`: on a live connection it queues one frame of the message, or nothing,
exactly when the message has at most `max_body_length` bytes; a longer one runs over the end of `write_msg`.

The integer it is called with is narrowed to an id, so that integers outside the range of the ids stand for ids too.
`addressed_iff`: the message goes where the integer says exactly when the integer is in that range, or the id it is
narrowed to is not in use.
-/

namespace LibeventServer

open Runs

variable {σ : Type}

/-- The id `v` is that of a live connection: its client `c` is registered at address `p`, and `e` is the bufferevent
of `c`. -/
structure World.Connected (w : World σ) (v : UInt32) (p : Nat) (c : Client) (e : Bufferevent) : Prop where
  registered : w.AllClients.lookup v = some p
  client : w.clients.cell p = some c
  bev : w.bevs.cell c.bev = some e

/-- The bytes queued on each live bufferevent. -/
def World.output (w : World σ) (b : Nat) : Option (List UInt8) := (w.bevs.cell b).map Bufferevent.output

/-- The bytes `f` are queued on `b` and no bytes on any other bufferevent. -/
def Queued (w w' : World σ) (b : Nat) (f : List UInt8) : Prop :=
  w'.output = Function.update w.output b ((w.output b).map (· ++ f))

/-- What sending `msg` on bufferevent `b` should come to: `true` with one frame queued that decodes to `msg`, or
`false` with nothing queued. -/
def AllOrNothing (w : World σ) (b : Nat) (msg : List UInt8) : EStateM.Result Fault (World σ) Bool → Prop
  | .ok true w' => ∃ f, readFrame f = some (msg, []) ∧ Queued w w' b f
  | .ok false w' => w'.output = w.output
  | .error _ _ => False

/-- In a sound world every registered id is connected. -/
private theorem Control.Sound.connected {w : World σ} (hw : w.control.Sound) {v : UInt32} {p : Nat}
    (hv : w.AllClients.lookup v = some p) : ∃ c e, w.Connected v p c e ∧ c.vfd = v := by
  obtain ⟨k, l, hk, hkv, hl, -⟩ := hw v p hv
  obtain ⟨c, hc, rfl⟩ := Option.map_eq_some_iff.1 hk
  obtain ⟨e, he, rfl⟩ := Option.map_eq_some_iff.1 hl
  exact ⟨c, e, ⟨hv, hc, he⟩, hkv⟩

/-- The decoder agrees with `readFrame`; of an empty body it needs to see a byte that follows. -/
theorem feedAll_of_readFrame {bs body rest : List UInt8} (h : readFrame bs = some (body, rest))
    (hne : body ≠ [] ∨ rest ≠ []) (n : Nat) :
    decoder.feedAll ⟨false, n, []⟩ bs = ((decoder.feedAll ⟨false, body.length, []⟩ rest).1,
      body :: (decoder.feedAll ⟨false, body.length, []⟩ rest).2) := by
  match bs with
  | [] => cases h
  | [_] => cases h
  | lo :: hi :: l =>
    simp only [readFrame, Option.ite_none_right_eq_some, Option.some.injEq, Prod.mk.injEq] at h
    obtain ⟨hle, rfl, rfl⟩ := h
    have hl : l ≠ [] := by
      rintro rfl
      simp at hne
    rw [feedAll_header, feedAll_body hle hl, List.length_take, Nat.min_eq_left hle]

/-! ### One message -/

private theorem Queued.of_write {w w' : World σ} {b : Nat} {f : List UInt8}
    (h : w'.bevs = w.bevs.update b fun e => { e with output := e.output ++ f }) : Queued w w' b f := by
  funext q
  by_cases hq : q = b
  · subst hq
    simp [World.output, h, Function.comp_def]
  · simp [World.output, h, Heap.update_cell_of_ne _ _ hq, hq]

private theorem NetLib_send_of_le {w : World σ} {n : Int64} {p : Nat} {c : Client} {e : Bufferevent}
    (h : w.Connected n.toUInt64.toUInt32 p c e) {msg : List UInt8} (hmsg : msg.length ≤ max_body_length) :
    ∃ w', NetLib_send n msg w = .ok true w' ∧ Queued w w' c.bev (frame msg) := by
  obtain ⟨m, hm⟩ := do_write_of_le h.client h.bev hmsg
  unfold NetLib_send
  rw [EStateM.bind_ok (queryClient_toInt32 _ w), h.registered]
  rw [EStateM.bind_ok (show sendTo msg (some p) w = _ from hm)]
  exact ⟨_, rfl, Queued.of_write rfl⟩

/-- `NetLib.send` of a longer message overflows `write_msg`. -/
private theorem not_allOrNothing_of_lt {w : World σ} {n : Int64} {p : Nat} {c : Client} {e : Bufferevent}
    (h : w.Connected n.toUInt64.toUInt32 p c e) {msg : List UInt8} (hmsg : max_body_length < msg.length) :
    ¬ AllOrNothing w c.bev msg (NetLib_send n msg w) := by
  have hoverflow : NetLib_send n msg w = .error .overflow w := by
    unfold NetLib_send
    rw [EStateM.bind_ok (queryClient_toInt32 _ w), h.registered]
    rw [EStateM.bind_error (show sendTo msg (some p) w = _ from do_write_of_lt h.client hmsg)]
  rw [hoverflow]
  exact id

/-- A message handed to `NetLib.send` for a live connection is sent whole or not at all exactly when it fits the
buffer. -/
theorem send_iff {w : World σ} {n : Int64} {p : Nat} {c : Client} {e : Bufferevent}
    (h : w.Connected n.toUInt64.toUInt32 p c e) (msg : List UInt8) :
    AllOrNothing w c.bev msg (NetLib_send n msg w) ↔ msg.length ≤ max_body_length := by
  constructor
  · intro hall
    by_contra hlt
    exact not_allOrNothing_of_lt h (by omega) hall
  · intro hle
    obtain ⟨w', hw', hqueued⟩ := NetLib_send_of_le h hle
    rw [hw']
    have hlt : msg.length < 65536 := by
      unfold max_body_length at hle
      omega
    have hread := readFrame_frame hlt []
    rw [List.append_nil] at hread
    exact ⟨frame msg, hread, hqueued⟩

/-! ### A message too long -/

/-- The server has accepted one connection. -/
noncomputable def oneConnection : World (Lua.State ℝ) :=
  (run (Process.step (Lua.mainScripts Lua.Host.raising)) (.running (World.init Lua.State.init)) [.accept 0]).world

theorem run_oneConnection : run (Process.step (Lua.mainScripts Lua.Host.raising))
    (.running (World.init (Lua.State.init : Lua.State ℝ))) [.accept 0] = .running oneConnection := rfl

theorem oneConnection_connected : oneConnection.Connected 1 0 (.new 0 1 0) ⟨1, [], []⟩ where
  registered := by decide +kernel
  client := rfl
  bev := rfl

theorem oneConnection_open : oneConnection.bevs.cell 0 ≠ none := by
  rw [show oneConnection.bevs.cell 0 = _ from oneConnection_connected.bev]
  simp

/-- One byte is sent as it should be. -/
theorem send_one_byte : AllOrNothing oneConnection 0 [65] (NetLib_send 1 [65] oneConnection) :=
  (send_iff (n := 1) oneConnection_connected [65]).2 (by decide)

/-- A message of 8193 bytes is not. -/
theorem send_too_long : ¬ AllOrNothing oneConnection 0 (List.replicate 8193 0)
    (NetLib_send 1 (List.replicate 8193 0) oneConnection) := by
  have hlt : max_body_length < (List.replicate 8193 (0 : UInt8)).length := by
    rw [List.length_replicate]
    decide
  exact not_allOrNothing_of_lt (n := 1) oneConnection_connected hlt

/-! ### The address -/

/-- What `NetLib.send(n, msg)` should come to: `true` with one frame of the message queued on the connection with the
id `n`, if there is one, and otherwise `false` with nothing queued. -/
def Addressed (w : World σ) (n : Int64) (msg : List UInt8) : EStateM.Result Fault (World σ) Bool → Prop
  | .ok ok w' =>
    (∀ v ∈ w.AllClients, (v.toNat : ℤ) = n.toInt →
        ok = true ∧ ∃ p c e f, w.Connected v p c e ∧ readFrame f = some (msg, []) ∧ Queued w w' c.bev f) ∧
      ((∀ v ∈ w.AllClients, (v.toNat : ℤ) ≠ n.toInt) → ok = false ∧ w'.output = w.output)
  | .error _ _ => False

/-- What is left of an integer that is narrowed to an id. -/
private theorem toNat_narrowed (n : Int64) : (n.toUInt64.toUInt32.toNat : ℤ) = n.toInt % 2 ^ 32 := by
  have hnat : n.toUInt64.toUInt32.toNat = n.toBitVec.toNat % 2 ^ 32 := UInt64.toNat_toUInt32 n.toUInt64
  have hint : n.toInt = if 2 * n.toBitVec.toNat < 2 ^ 64 then (n.toBitVec.toNat : ℤ) else n.toBitVec.toNat - 2 ^ 64 :=
    BitVec.toInt_eq_toNat_cond n.toBitVec
  rw [hnat, hint]
  split <;> omega

private theorem narrowed_eq_iff {n : Int64} {v : UInt32} :
    (v.toNat : ℤ) = n.toInt ↔ v = n.toUInt64.toUInt32 ∧ 0 ≤ n.toInt ∧ n.toInt < 2 ^ 32 := by
  have hnarrowed := toNat_narrowed n
  have hlt := v.toNat_lt
  constructor
  · intro h
    refine ⟨UInt32.toNat_inj.1 ?_, by omega, by omega⟩
    omega
  · rintro ⟨rfl, h0, h1⟩
    omega

/-- A message goes where the integer says exactly when the integer is an id, or is narrowed to one that is not in use.
-/
theorem addressed_iff {w : World σ} (hw : w.control.Sound) (n : Int64) {msg : List UInt8}
    (hmsg : msg.length ≤ max_body_length) : Addressed w n msg (NetLib_send n msg w) ↔
      (0 ≤ n.toInt ∧ n.toInt < 2 ^ 32) ∨ n.toUInt64.toUInt32 ∉ w.AllClients := by
  cases hv : w.AllClients.lookup n.toUInt64.toUInt32 with
  | none =>
    have hmem := Finmap.lookup_eq_none.1 hv
    have hsend : NetLib_send n msg w = .ok false { w with sends := w.sends ++ [(n, false)] } := by
      unfold NetLib_send
      rw [EStateM.bind_ok (queryClient_toInt32 _ w), hv]
      rfl
    rw [hsend]
    refine ⟨fun _ => Or.inr hmem, fun _ => ⟨fun v hv' heq => ?_, fun _ => ⟨rfl, rfl⟩⟩⟩
    exact absurd ((narrowed_eq_iff.1 heq).1 ▸ hv') hmem
  | some p =>
    have hmem := Finmap.mem_of_lookup_eq_some hv
    obtain ⟨c, e, hc, -⟩ := hw.connected hv
    obtain ⟨w', hsend, hqueued⟩ := NetLib_send_of_le hc hmsg
    rw [hsend]
    constructor
    · rintro ⟨-, hother⟩
      -- the message has been sent to the connection, so the integer is its id
      by_contra hnot
      push Not at hnot
      refine absurd (hother fun v _ heq => ?_).1 (by simp)
      obtain ⟨-, h0, h1⟩ := narrowed_eq_iff.1 heq
      exact absurd h1 (not_lt.2 (hnot.1 h0))
    · rintro (hrange | hnot)
      · refine ⟨fun v _ heq => ⟨rfl, p, c, e, frame msg, ?_, ?_, hqueued⟩, fun hother => ?_⟩
        · rw [(narrowed_eq_iff.1 heq).1]
          exact hc
        · have hlt : msg.length < 65536 := by
            unfold max_body_length at hmsg
            omega
          rw [← List.append_nil (frame msg)]
          exact readFrame_frame hlt []
        · exact absurd (narrowed_eq_iff.2 ⟨rfl, hrange⟩) (hother _ hmem)
      · exact absurd hmem hnot

private theorem oneConnection_sound : oneConnection.control.Sound := by
  intro v p hv
  have hmem : v = 1 := by
    have hkeys : oneConnection.control.AllClients = Finmap.singleton 1 0 := by decide +kernel
    rw [hkeys] at hv
    exact (Finmap.mem_singleton v 1 0).1 (Finmap.mem_of_lookup_eq_some hv)
  subst hmem
  have hp : (some 0 : Option Nat) = some p := oneConnection_connected.registered.symm.trans hv
  cases hp
  exact ⟨_, _, rfl, rfl, rfl, rfl⟩

/-- The id of the connection. -/
theorem one_addressed : Addressed oneConnection 1 [65] (NetLib_send 1 [65] oneConnection) :=
  (addressed_iff oneConnection_sound 1 (by decide)).2 (Or.inl (by decide))

/-- An integer that is the id of no connection: the message goes to connection 1. -/
theorem wrapped_not_addressed :
    ¬ Addressed oneConnection 4294967297 [65] (NetLib_send 4294967297 [65] oneConnection) := by
  have hnarrowed : (4294967297 : Int64).toUInt64.toUInt32 = 1 := by decide
  obtain ⟨w', hsend, -⟩ := NetLib_send_of_le (n := 4294967297) (hnarrowed ▸ oneConnection_connected)
    (show [(65 : UInt8)].length ≤ max_body_length by decide)
  rw [hsend]
  rintro ⟨-, hother⟩
  refine absurd (hother fun v _ heq => ?_).1 (by simp)
  have hlt := v.toNat_lt
  have hint : (4294967297 : Int64).toInt = 4294967297 := by decide
  omega

/-! ### A list of messages -/

/-- `do_write` of the messages, one after the other. -/
def writeAll (this : Nat) : List (List UInt8) → Cpp σ Unit
  | [] => pure ()
  | msg :: msgs => do
    let _ ← do_write this msg
    writeAll this msgs

/-- The messages are queued as a stream of frames. -/
theorem writeAll_output {p : Nat} {msgs : List (List UInt8)} (hmsgs : ∀ msg ∈ msgs, msg.length ≤ max_body_length) :
    ∀ {w : World σ} {c : Client} {e : Bufferevent}, w.clients.cell p = some c → w.bevs.cell c.bev = some e →
      ∃ w', writeAll p msgs w = .ok () w' ∧ w'.output c.bev = some (e.output ++ stream msgs) := by
  induction msgs with
  | nil =>
    intro w c e hc hb
    exact ⟨w, rfl, by simp [World.output, hb]⟩
  | cons msg msgs ih =>
    intro w c e hc hb
    obtain ⟨m, hm⟩ := do_write_of_le hc hb (hmsgs msg (by simp))
    unfold writeAll
    rw [EStateM.bind_ok hm]
    have hc₁ := Heap.update_cell_of_some (p := p) (f := fun c : Client => { c with write_msg := m }) hc
    have hb₁ := Heap.update_cell_of_some (p := c.bev)
      (f := fun b : Bufferevent => { b with output := b.output ++ frame msg }) hb
    rw [if_pos rfl] at hc₁ hb₁
    obtain ⟨w', hw', hout⟩ := ih (fun msg' hmsg' => hmsgs msg' (by simp [hmsg'])) (w := { w with
      clients := w.clients.update p fun c => { c with write_msg := m }
      bevs := w.bevs.update c.bev fun b => { b with output := b.output ++ frame msg } }) hc₁ hb₁
    refine ⟨w', hw', hout.trans ?_⟩
    simp [stream]

end LibeventServer

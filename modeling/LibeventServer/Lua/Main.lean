import LibeventServer.Lua.BattleRoom

/-!
# `src/main.lua`

The handlers the server calls.  `mainScripts` are the scripts the server runs.

`HandleEvent` is the one handler that reads what a peer sent.  It raises before it has changed anything, or it
replaces the object of the sender: by a new one when the message calls `_init`, and otherwise by what `cmd` makes of
it (`handleEvent_cases`).
-/

namespace LibeventServer.Lua

variable {N : Type} [Field N] [LinearOrder N] (H : Host N)

def getClientByVfd (s : State N) (vfd : UInt32) : Option (Client N) := s.clients.lookup vfd

/-- `table.unpack(data[2])` -/
def arguments (data : Value N) : Option (List (Value N)) := (data.index (.num 2)).bind (table_unpack H)

/-- The body of `HandleEvent`; nothing when it raises. -/
def handleEvent (vfd : UInt32) (msg : List UInt8) (s : State N) : Option (State N) := do
  let data ← H.msgpack_unpack msg
  let method_name ← data.index (.num 1)
  match getClientByVfd s vfd, Client.method method_name with
  | some c, some method =>
    let args ← arguments H data
    let c ← c.invoke method args
    return { s with clients := s.clients.insert vfd c }
  | _, _ => return s

def HandleEvent (vfd : UInt32) (msg : List UInt8) (s : State N) : LuaRun (State N) :=
  match handleEvent H vfd msg s with
  | some s => .returned s
  | none => .raised s

/-- `clients[vfd] = client.client(vfd)` -/
def HandleConnect (vfd : UInt32) (s : State N) : LuaRun (State N) :=
  .returned { s with clients := s.clients.insert vfd (Client._init (.num (number vfd))) }

/-- `clients[vfd] = nil` -/
def HandleDisConnect (vfd : UInt32) (s : State N) : LuaRun (State N) :=
  .returned { s with clients := s.clients.erase vfd }

def Tick [FloorRing N] [LuaMath N] (T : Traversals N) (s : State N) : LuaRun (State N) := tick H T s

/-- The scripts of the server. -/
def mainScripts [FloorRing N] [LuaMath N] : Scripts (State N) (Traversals N) where
  HandleConnect := HandleConnect
  HandleEvent := HandleEvent H
  HandleDisConnect := HandleDisConnect
  Tick := Tick H

/-- `clients = {}` -/
def State.init : State N := ⟨∅⟩

/-- The argument of a message that calls `_init`. -/
def initArgument (msg : List UInt8) : Option (Value N) := do
  let data ← H.msgpack_unpack msg
  let method_name ← data.index (.num 1)
  let args ← arguments H data
  if Client.method method_name = some ._init then some (args.head?.getD .nil) else none

/-- What a message can do: nothing, or replace the object of a connected sender, by a new one if it calls `_init` and
else through `cmd`. -/
theorem handleEvent_cases (vfd : UInt32) (msg : List UInt8) (s : State N) :
    (handleEvent H vfd msg s = none ∨ handleEvent H vfd msg s = some s) ∧
        (vfd ∈ s.clients → initArgument H msg = none) ∨
      ∃ c c', s.clients.lookup vfd = some c ∧
        handleEvent H vfd msg s = some { s with clients := s.clients.insert vfd c' } ∧
        ((∃ arg, initArgument H msg = some arg ∧ c' = Client._init arg) ∨
          initArgument H msg = none ∧ ∃ arg, c.cmd arg = some c') := by
  unfold handleEvent initArgument getClientByVfd
  cases hdata : H.msgpack_unpack msg with
  | none => simp
  | some data =>
    cases hname : data.index (.num 1) with
    | none => simp [hname]
    | some name =>
      cases hc : s.clients.lookup vfd with
      | none =>
        have hmem : vfd ∉ s.clients := Finmap.lookup_eq_none.1 hc
        simp [hname, hmem]
      | some c =>
        simp only [hname, Option.bind_eq_bind, Option.bind_some]
        cases hm : Client.method name with
        | none => simp
        | some m =>
          simp only
          cases harg : arguments H data with
          | none => simp
          | some args =>
            cases m with
            | _init =>
              right
              exact ⟨c, Client._init (args.head?.getD .nil), rfl, rfl, Or.inl ⟨args.head?.getD .nil, rfl, rfl⟩⟩
            | cmd =>
              simp only [Option.bind_some, Client.invoke]
              cases hcmd : c.cmd (args.head?.getD .nil) with
              | none => exact Or.inl ⟨Or.inl rfl, fun _ => rfl⟩
              | some c' => exact Or.inr ⟨c, c', rfl, rfl, Or.inr ⟨rfl, args.head?.getD .nil, hcmd⟩⟩

end LibeventServer.Lua

import Synapi.Extension
import Mathlib.Data.List.Induction

/-!
The plugin's hooks on client events, and the clients of the game server.
-/

namespace Synapi

open Replay

inductive ClientEvent where
  | connect (client userid : Int32)
  | postAdminCheck (client : Int32) (name networkId : CString)
  | playerScore (userid score : Int32)
  | playerChangename (userid : Int32) (newname : CString)
  | disconnect (client : Int32)

structure Client where
  index : Int32
  userid : Int32
  connection : ℕ
  checked : Bool
  deriving DecidableEq

/-- The clients on the server; connections are numbered in the order they are made. -/
structure Engine where
  clients : List Client
  connections : ℕ

namespace Engine

def empty : Engine := ⟨[], 0⟩

def after (s : Engine) : ClientEvent → Engine
  | .connect client userid =>
    ⟨⟨client, userid, s.connections, false⟩ :: s.clients, s.connections + 1⟩
  | .postAdminCheck client _ _ =>
    { s with clients := s.clients.map (fun c => { c with checked := c.checked || c.index == client }) }
  | .playerScore _ _ | .playerChangename _ _ => s
  | .disconnect client => { s with clients := s.clients.filter (fun c => c.index != client) }

def subject (s : Engine) : ClientEvent → Option Client
  | .connect _ _ => none
  | .postAdminCheck client _ _ | .disconnect client => s.clients.find? (fun c => c.index == client)
  | .playerScore userid _ | .playerChangename userid _ =>
    s.clients.find? (fun c => c.userid == userid)

/-- The events the engine can deliver: indices and userids are free to be
taken again once their client has left. -/
def Delivers (s : Engine) (e : ClientEvent) : Prop :=
  match e with
  | .connect client userid => ∀ c ∈ s.clients, c.index ≠ client ∧ c.userid ≠ userid
  | .postAdminCheck _ _ _ => ∃ c, s.subject e = some c ∧ c.checked = false
  | .playerScore _ _ | .playerChangename _ _ => ∃ c, s.subject e = some c ∧ c.checked = true
  | .disconnect _ => ∃ c, s.subject e = some c

end Engine

section Hooks

-- SourceMod's copy of a text into a buffer of the given size.
variable (clip : ℕ → CString → CString)

def onClientPostAdminCheck (client : Int32) (name networkId : CString) : Native :=
  .newPlayer client 0 (clip 64 networkId) (clip 64 name)

def onClientDisconnect (client : Int32) : Native := .deletePlayer client

def eventPlayerScore (userid score : Int32) : Native := .updatePlayerScore userid score

def eventPlayerChangeName (userid : Int32) (newname : CString) : Native :=
  .updatePlayerName userid (clip 64 newname)

-- The plugin has no hook for a client that connects.
def ClientEvent.hook : ClientEvent → Option Native
  | .connect _ _ => none
  | .postAdminCheck client name networkId => some (onClientPostAdminCheck clip client name networkId)
  | .playerScore userid score => some (eventPlayerScore userid score)
  | .playerChangename userid newname => some (eventPlayerChangeName clip userid newname)
  | .disconnect client => some (onClientDisconnect client)

end Hooks

inductive PlayerRequest where
  | new | update | delete
  deriving DecidableEq

def SynapiOption.internalId : SynapiOption → Option Int32
  | .playerInternalId id => some id
  | _ => none

def LibraryCall.playerRequest : LibraryCall → Option (Int32 × PlayerRequest)
  | .newPlayer options => (options.findSome? SynapiOption.internalId).map (·, .new)
  | .updatePlayer internalId _ => some (internalId, .update)
  | .deletePlayer internalId => some (internalId, .delete)
  | _ => none

def HandleEvent.playerRequest : HandleEvent → Option (Int32 × PlayerRequest)
  | .called _ call => call.playerRequest
  | _ => none

/-- A player request, and the connection of the client it was made for. -/
structure Issued where
  connection : Option ℕ
  id : Int32
  request : PlayerRequest
  deriving DecidableEq

structure Server where
  engine : Engine
  g : SynAPI
  issued : List Issued

def Server.deliver (clip : ℕ → CString → CString) (s : Server) (e : ClientEvent) : Server :=
  let g := match e.hook clip with
    | some native => (native.invoke s.g).2
    | none => s.g
  let requests := (g.events.drop s.g.events.length).filterMap HandleEvent.playerRequest
  { engine := s.engine.after e
    g := g
    issued := s.issued ++
      requests.map (fun r => ⟨(s.engine.subject e).map Client.connection, r.1, r.2⟩) }

/-- An empty server, with the extension in any state, after a sequence of client events. -/
def served (clip : ℕ → CString → CString) (g : SynAPI) (events : List ClientEvent) : Server :=
  events.foldl (Server.deliver clip) ⟨.empty, g, []⟩

def ClientEvent.request : ClientEvent → Option (Int32 × PlayerRequest)
  | .connect _ _ => none
  | .postAdminCheck client _ _ => some (client, .new)
  | .playerScore userid _ | .playerChangename userid _ => some (userid, .update)
  | .disconnect client => some (client, .delete)

variable {clip : ℕ → CString → CString}

theorem newEvents_call (g : SynAPI) (c : LibraryCall) :
    ((g.call c).events.drop g.events.length).filterMap HandleEvent.playerRequest =
      c.playerRequest.toList := by
  rw [SynAPI.call, List.drop_left]
  cases h : c.playerRequest <;> simp [HandleEvent.playerRequest, h]

theorem deliver_issued (s : Server) (e : ClientEvent) :
    (s.deliver clip e).issued = s.issued ++ e.request.toList.map
      (fun r => ⟨(s.engine.subject e).map Client.connection, r.1, r.2⟩) := by
  cases e with
  | connect client userid => simp [Server.deliver, ClientEvent.hook, ClientEvent.request]
  | _ =>
    simp only [Server.deliver, ClientEvent.hook]
    congr 2
    exact newEvents_call s.g _

theorem served_snoc (g : SynAPI) (events : List ClientEvent) (e : ClientEvent) :
    served clip g (events ++ [e]) = (served clip g events).deliver clip e := by
  rw [served, List.foldl_append]
  rfl

theorem served_engine (g : SynAPI) (events : List ClientEvent) :
    (served clip g events).engine = replay Engine.after .empty events := by
  induction events using List.reverseRecOn with
  | nil => rfl
  | append_singleton events e ih =>
    rw [served_snoc, replay_append, ← ih]
    rfl

end Synapi

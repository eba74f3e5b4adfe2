import Synapi.Calls
import Synapi.Library.Replay

/-!
The SourceMod extension: its game frame hook, its natives, and the calls they
make of the library.
-/

namespace Synapi

open Replay Text

inductive LibraryCall where
  | free
  | url (url hostHeader : CString)
  | queued
  | perform
  | newServer
  | updateServer (options : List SynapiOption)
  | newPlayer (options : List SynapiOption)
  | updatePlayer (internalId : Int32) (options : List SynapiOption)
  | deletePlayer (internalId : Int32)
  | heartbeat

/-- Handles are numbered in the order in which `synapi_init` returns them. -/
inductive HandleEvent where
  | returned (apiKey : Option CString) (poolSize : Int32) (handle : ℕ)
  | stored (old : Option ℕ) (handle : ℕ)
  | called (handle : Option ℕ) (call : LibraryCall)
  | keyRead (handle : ℕ)

structure SynAPI where
  handle : Option ℕ
  returned : ℕ
  events : List HandleEvent

namespace SynAPI

def sdkOnLoad : SynAPI := ⟨none, 0, []⟩

def call (g : SynAPI) (c : LibraryCall) : SynAPI :=
  { g with events := g.events ++ [.called g.handle c] }

-- `g_synapi.handle = synapi_init(api_key, pool_size)`
def init (g : SynAPI) (apiKey : Option CString) (poolSize : Int32) : SynAPI :=
  { handle := some g.returned
    returned := g.returned + 1
    events := g.events ++ [.returned apiKey poolSize g.returned] ++ [.stored g.handle g.returned] }

def gameFrame (g : SynAPI) : SynAPI :=
  match g.handle with
  | some _ => g.call .perform
  | none => g

end SynAPI

def extensionUrl : CString := literal "http://127.0.0.1"

def extensionHostHeader : CString := literal "Host: api.serversyn.local"

/-! The natives, with the value each returns. -/

section Natives

variable (g : SynAPI)

def smSynapiInit (poolSize : Int32) : Int32 × SynAPI :=
  (1, (g.init none poolSize).call (.url extensionUrl extensionHostHeader))

def smSynapiInitWithApiKey (apiKey : CString) (poolSize : Int32) : Int32 × SynAPI :=
  (1, (g.init (some apiKey) poolSize).call (.url extensionUrl extensionHostHeader))

-- The key is read straight from the handle, without a call; `copyApiKey` is the
-- copy into the array of the plugin.
def smSynapiGetApiKey : Int32 × SynAPI :=
  match g.handle with
  | some handle => (1, { g with events := g.events ++ [.keyRead handle] })
  | none => (1, g)

def smSynapiFree : Int32 × SynAPI :=
  match g.handle with
  | some _ => (1, g.call .free)
  | none => (1, g)

/-- `pending` is what the library answers. -/
def smSynapiQueued (pending : Int32) : Int32 × SynAPI := (pending, g.call .queued)

def smSynapiNewServer : Int32 × SynAPI := (1, g.call .newServer)

def smSynapiUpdateServer (slots : Int32) (gameIdentifier ip port name : CString) :
    Int32 × SynAPI :=
  (1, g.call (.updateServer [.serverGame gameIdentifier, .serverIp ip, .serverPort port,
    .serverName name, .serverSlots slots]))

def smSynapiUpdateServerName (name : CString) : Int32 × SynAPI :=
  (1, g.call (.updateServer [.serverName name]))

def smSynapiUpdateServerLevel (levelName : CString) : Int32 × SynAPI :=
  (1, g.call (.updateServer [.serverLevel levelName]))

def smSynapiNewPlayer (internalId score : Int32) (networkIdentifier name : CString) :
    Int32 × SynAPI :=
  (1, g.call (.newPlayer [.playerInternalId internalId, .playerScore score, .playerName name,
    .playerNetworkId networkIdentifier]))

def smSynapiUpdatePlayerScore (internalId score : Int32) : Int32 × SynAPI :=
  (1, g.call (.updatePlayer internalId [.playerScore score]))

def smSynapiUpdatePlayerName (internalId : Int32) (name : CString) : Int32 × SynAPI :=
  (1, g.call (.updatePlayer internalId [.playerName name]))

def smSynapiDeletePlayer (internalId : Int32) : Int32 × SynAPI :=
  (1, g.call (.deletePlayer internalId))

def smSynapiHeartbeat : Int32 × SynAPI := (1, g.call .heartbeat)

end Natives

inductive Native where
  | init (poolSize : Int32)
  | initWithApiKey (apiKey : CString) (poolSize : Int32)
  | getApiKey
  | free
  | queued (pending : Int32)
  | newServer
  | updateServer (slots : Int32) (gameIdentifier ip port name : CString)
  | updateServerName (name : CString)
  | updateServerLevel (levelName : CString)
  | newPlayer (internalId score : Int32) (networkIdentifier name : CString)
  | updatePlayerScore (internalId score : Int32)
  | updatePlayerName (internalId : Int32) (name : CString)
  | deletePlayer (internalId : Int32)
  | heartbeat

def Native.invoke (g : SynAPI) : Native → Int32 × SynAPI
  | .init poolSize => smSynapiInit g poolSize
  | .initWithApiKey apiKey poolSize => smSynapiInitWithApiKey g apiKey poolSize
  | .getApiKey => smSynapiGetApiKey g
  | .free => smSynapiFree g
  | .queued pending => smSynapiQueued g pending
  | .newServer => smSynapiNewServer g
  | .updateServer slots gameIdentifier ip port name =>
    smSynapiUpdateServer g slots gameIdentifier ip port name
  | .updateServerName name => smSynapiUpdateServerName g name
  | .updateServerLevel levelName => smSynapiUpdateServerLevel g levelName
  | .newPlayer internalId score networkIdentifier name =>
    smSynapiNewPlayer g internalId score networkIdentifier name
  | .updatePlayerScore internalId score => smSynapiUpdatePlayerScore g internalId score
  | .updatePlayerName internalId name => smSynapiUpdatePlayerName g internalId name
  | .deletePlayer internalId => smSynapiDeletePlayer g internalId
  | .heartbeat => smSynapiHeartbeat g

inductive Entry where
  | gameFrame
  | native (n : Native)

def Entry.enter (g : SynAPI) : Entry → SynAPI
  | .gameFrame => g.gameFrame
  | .native n => (n.invoke g).2

/-- The extension after a sequence of entries, from `SDK_OnLoad` on. -/
def entered (entries : List Entry) : SynAPI := entries.foldl Entry.enter .sdkOnLoad

theorem entered_snoc (entries : List Entry) (e : Entry) :
    entered (entries ++ [e]) = e.enter (entered entries) := by
  rw [entered, List.foldl_append]
  rfl

end Synapi

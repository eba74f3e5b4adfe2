import Synapi.Library.SlotTable
import Synapi.Library.FormEncoding

/-!
The state the library works on: the handle (`synapi.h`), the two globals of
`synapi.c`, libcurl's side of the multi handle, and the calls made so far.
-/

namespace Synapi

structure Block (α : Type) where
  addr : ℕ
  val : α
  deriving DecidableEq

inductive SynapiOption where
  | serverSlots (slots : Int32)
  | serverGame (game : CString)
  | serverIp (ip : CString)
  | serverPort (port : CString)
  | serverName (name : CString)
  | serverLevel (level : CString)
  | playerName (name : CString)
  | playerScore (score : Int32)
  | playerScoreModifier (modifier : Int32)
  | playerInternalId (id : Int32)
  | playerNetworkId (id : CString)

inductive SynapiMethod where
  | get | post | put | delete
  deriving DecidableEq

inductive SynapiAction where
  | serversNew | serversUpdate | playersNew | playersUpdate | playersDelete | heartbeat
  deriving DecidableEq

-- The field `url` is left out: `synapi_build_url` writes it and only the same
-- `synapi_send` reads it, before it frees the record.
structure SynapiRequest where
  addr : ℕ
  query : Block Bytes
  headers : Option (Block (List Bytes))
  method : SynapiMethod
  action : SynapiAction
  apiKeyRequest : Bool
  userData : Int32
  deriving DecidableEq

structure SynapiCurlHandle where
  addr : ℕ
  handle : Option ℕ
  headers : Option (Block (List Bytes))
  deriving DecidableEq

structure SynapiT (poolSize : ℤ) where
  apiKeySet : Bool
  apiKey : CharArray 256
  encodedApiKey : Option (Block Bytes)
  baseUrl : CharArray 256
  hostHeader : CharArray 256
  pool : SlotTable SynapiCurlHandle poolSize.toNat
  requests : SlotTable SynapiRequest poolSize.toNat

structure HandleView where
  apiKeySet : Bool
  apiKey : Bytes
  encodedApiKey : Option Bytes
  baseUrl : Bytes
  hostHeader : Bytes
  deriving DecidableEq

def SynapiT.view {poolSize : ℤ} (h : SynapiT poolSize) : HandleView where
  apiKeySet := h.apiKeySet
  apiKey := h.apiKey.str
  encodedApiKey := h.encodedApiKey.map (·.val)
  baseUrl := h.baseUrl.str
  hostHeader := h.hostHeader.str

/-! libcurl -/

inductive EasyOption where
  | url (url : Bytes)
  | copyPostFields (query : Bytes)
  | httpHeader (headers : Block (List Bytes))
  | post
  | customRequest (name : Bytes)
  | writeFunction
  | writeData
  deriving DecidableEq

structure Easy where
  id : ℕ
  options : List EasyOption
  deriving DecidableEq

inductive TransferResult where
  | transportError (code : ℕ)
  | response (status : ℕ)
  deriving DecidableEq

structure CurlMsg where
  easyHandle : ℕ
  result : TransferResult
  deriving DecidableEq

/-- A transfer that has ended stays added until it is removed; its message
waits in `messages` until it is read. -/
structure Multi where
  added : List Easy
  completed : List ℕ
  messages : List CurlMsg

inductive Progress where
  | chunk (handle : ℕ) (data : Bytes)
  | done (handle : ℕ) (result : TransferResult)
  deriving DecidableEq

structure Timeval where
  sec : ℤ
  usec : ℤ
  deriving DecidableEq

/-! Calls and memory -/

/-- A request handed to `curl_multi_add_handle`, with the handle as it then was. -/
structure Sent where
  request : SynapiRequest
  url : Bytes
  easy : Option Easy
  accepted : Bool
  view : HandleView
  deriving DecidableEq

inductive Event where
  | malloc (addr : ℕ)
  | free (addr : ℕ)
  | easyInit (handle : Option ℕ)
  | easyCleanup (handle : Option ℕ)
  | setopt (handle : Option ℕ) (options : List EasyOption)
  | multiAddHandle (sent : Sent)
  | multiRemoveHandle (handle : ℕ)
  | multiCleanup
  | multiTimeout (timeo : ℤ)
  | multiFdset
  | select (timeout : Timeval)
  | multiPerform
  | multiInfoRead (msg : Option CurlMsg)
  | apiKey (view : HandleView)
  | apiKeyWrite (handle : ℕ) (data : Bytes) (view : HandleView)
  | url (view : HandleView)
  | queued (request : SynapiRequest) (slot : ℕ)
  | rejected (request : SynapiRequest)
  deriving DecidableEq

inductive Fault where
  | poolExhausted
  | outOfBounds
  | nullPointer
  | stillRunning
  deriving DecidableEq

structure World (poolSize : ℤ) where
  i : ℤ
  multiPerformCounter : ℤ
  fresh : ℕ
  handle : SynapiT poolSize
  multi : Multi
  trace : List Event

variable {p : ℤ}

namespace World

def view (w : World p) : HandleView := w.handle.view

def emit (w : World p) (e : Event) : World p := { w with trace := w.trace ++ [e] }

-- Address `w.fresh`; no address is handed out twice.
def malloc (w : World p) : World p :=
  { w with fresh := w.fresh + 1, trace := w.trace ++ [.malloc w.fresh] }

def free (w : World p) (addr : ℕ) : World p := w.emit (.free addr)

def freeAll {α : Type} (w : World p) (block : Option (Block α)) : World p :=
  { w with trace := w.trace ++ (block.map (fun b => Event.free b.addr)).toList }

end World

def inBounds {α : Type} : Option α → Except Fault α
  | some a => .ok a
  | none => .error .outOfBounds

def nonNull {α : Type} : Option α → Except Fault α
  | some a => .ok a
  | none => .error .nullPointer

-- The conversion to `size_t`.
def sizeT (n : ℤ) : ℕ := (n % 2 ^ 64).toNat

-- The conversion of a `size_t` to `int`.
def toInt (n : ℕ) : ℤ := Int.bmod n (2 ^ 32)

theorem sizeT_natCast {n : ℕ} (h : n < 2 ^ 64) : sizeT n = n := by
  unfold sizeT
  omega

theorem toInt_natCast {n : ℕ} (h : n < 2 ^ 31) : toInt n = n := by
  unfold toInt
  rw [Int.bmod_eq_of_le] <;> omega

end Synapi

import Synapi.ApiKey

/-!
The texts of a request: `synapi_build_query_string` and `synapi_build_url`.
-/

namespace Synapi

open Runs Text

variable {p : ℤ}

structure QueryBuffer where
  text : Bytes
  size : ℤ
  deriving DecidableEq

def bufferMax : ℕ := 2048

-- `sizeof(buffer)`, where `buffer` is a `char*`.
def sizeofBuffer : ℤ := 8

def QueryBuffer.strncat (b : QueryBuffer) (src : Bytes) (bound : ℤ) (added : ℤ) :
    Except Fault QueryBuffer := do
  let text ← inBounds (Text.strncat bufferMax b.text src (sizeT bound))
  .ok ⟨text, b.size + added⟩

def QueryBuffer.clamp (b : QueryBuffer) (src : Bytes) : ℤ :=
  let size := toInt src.length
  if size > bufferMax - b.size then bufferMax - b.size else size

def QueryBuffer.clampedCat (b : QueryBuffer) (src : Bytes) : Except Fault QueryBuffer :=
  b.strncat src (b.clamp src) (b.clamp src)

-- `value` may be NULL, which `strlen` reads.
def synapiAddParameter (b : QueryBuffer) (attr : Bytes) (value : Option Bytes) :
    Except Fault QueryBuffer := do
  let b ← b.clampedCat attr
  b.clampedCat (← inBounds value)

def SynapiOption.attr : SynapiOption → Bytes
  | .serverSlots _ => ascii "server[server_profile_attributes][slots]="
  | .serverGame _ => ascii "server[server_profile_attributes][game_identifier]="
  | .serverIp _ => ascii "server[server_profile_attributes][ip]="
  | .serverPort _ => ascii "server[server_profile_attributes][port]="
  | .serverName _ => ascii "server[server_profile_attributes][name]="
  | .serverLevel _ => ascii "server[server_profile_attributes][level_name]="
  | .playerName _ => ascii "server_player[name]="
  | .playerScore _ => ascii "server_player[score]="
  | .playerScoreModifier _ => ascii "server_player[score_modifier]="
  | .playerInternalId _ => ascii "server_player[internal_id]="
  | .playerNetworkId _ => ascii "server_player[network_identifier]="

/-- `curl_escape(arg, strlen(arg))`. The length is an `int`: 0 stands for the
whole string, and there is no memory for a negative one. -/
def curlEscapeArg (s : CString) : Option Bytes :=
  let inlength := toInt s.val.length
  if inlength < 0 then none
  else if inlength = 0 then some (curlEscape s.val)
  else some (curlEscape (s.val.take inlength.toNat))

/-- The argument `value` of `synapi_add_parameter`. -/
def SynapiOption.encoded : SynapiOption → Option Bytes
  | .serverSlots n | .playerScore n | .playerScoreModifier n | .playerInternalId n =>
    some (snprintf 63 (decimal n.toInt))
  | .serverGame s | .serverIp s | .serverPort s | .serverName s | .serverLevel s
  | .playerName s | .playerNetworkId s => curlEscapeArg s

/-- The same for lengths that an `int` can hold. -/
def SynapiOption.text : SynapiOption → Bytes
  | .serverSlots n | .playerScore n | .playerScoreModifier n | .playerInternalId n =>
    snprintf 63 (decimal n.toInt)
  | .serverGame s | .serverIp s | .serverPort s | .serverName s | .serverLevel s
  | .playerName s | .playerNetworkId s => curlEscape s.val

/-- The `&` before a parameter that is not the first. -/
def separate (b : QueryBuffer) (bound : ℤ) : Except Fault QueryBuffer :=
  if b.size > 1 then b.strncat (ascii "&") bound 1 else .ok b

def addOption (b : QueryBuffer) (option : SynapiOption) : Except Fault QueryBuffer := do
  let b ← separate b (sizeofBuffer - (b.size + 1))
  synapiAddParameter b option.attr option.encoded

def addOptions (b : QueryBuffer) : List SynapiOption → Except Fault QueryBuffer
  | [] => .ok b
  | option :: options => do addOptions (← addOption b option) options

def SynapiMethod.name : SynapiMethod → Bytes
  | .get => ascii "get"
  | .post => ascii "post"
  | .put => ascii "put"
  | .delete => ascii "delete"

def addMethod (b : QueryBuffer) : SynapiMethod → Except Fault QueryBuffer
  | .get => .ok b
  | .post => synapiAddParameter b (ascii "_method=") (some (ascii "post"))
  | .put => synapiAddParameter b (ascii "_method=") (some (ascii "put"))
  | .delete => synapiAddParameter b (ascii "_method=") (some (ascii "delete"))

def optionsText : Option (List SynapiOption) → Except Fault QueryBuffer
  | none => .ok ⟨[], 0⟩
  | some options => addOptions ⟨[], 1⟩ options

def synapiBuildQueryString (method : SynapiMethod) (options : Option (List SynapiOption)) :
    Except Fault Bytes := do
  let b ← optionsText options
  let b ← separate b 1
  let b ← addMethod b method
  .ok (b.text.take b.size.toNat)

def synapiBuildUrl (w : World p) (request : SynapiRequest) : Except Fault Bytes := do
  let base ← inBounds w.handle.baseUrl.read
  let encoded := nonNull (w.handle.encodedApiKey.map (·.val))
  let text ← match request.action with
    | .serversNew => .ok (base ++ ascii "/servers")
    | .serversUpdate => do .ok (base ++ ascii "/servers/" ++ (← encoded))
    | .playersNew => do .ok (base ++ ascii "/servers/" ++ (← encoded) ++ ascii "/server_players")
    | .playersUpdate => do
      .ok (base ++ ascii "/servers/" ++ (← encoded) ++ ascii "/server_players/" ++
        decimal request.userData.toInt)
    | .playersDelete => do
      .ok (base ++ ascii "/servers/" ++ (← encoded) ++ ascii "/server_players/" ++
        decimal request.userData.toInt)
    | .heartbeat => do .ok (base ++ ascii "/servers/" ++ (← encoded))
  .ok (snprintf 255 text)

def urlOf (action : SynapiAction) (base key : Bytes) (userData : Int32) : Bytes :=
  match action with
  | .serversNew => base ++ ascii "/servers"
  | .serversUpdate | .heartbeat => base ++ ascii "/servers/" ++ key
  | .playersNew => base ++ ascii "/servers/" ++ key ++ ascii "/server_players"
  | .playersUpdate | .playersDelete =>
    base ++ ascii "/servers/" ++ key ++ ascii "/server_players/" ++ decimal userData.toInt

theorem synapiBuildUrl_keyed (w : World p) (request : SynapiRequest) {key : Block Bytes}
    (hb : w.handle.baseUrl.Terminated) (hk : w.handle.encodedApiKey = some key) :
    synapiBuildUrl w request = .ok (snprintf 255
      (urlOf request.action w.handle.baseUrl.str key.val request.userData)) := by
  unfold synapiBuildUrl
  rw [CharArray.read_of_terminated hb, hk]
  cases ha : request.action <;> rfl

theorem synapiBuildUrl_new (w : World p) (request : SynapiRequest)
    (hb : w.handle.baseUrl.Terminated) (ha : request.action = .serversNew) :
    synapiBuildUrl w request = .ok (snprintf 255 (w.handle.baseUrl.str ++ ascii "/servers")) := by
  unfold synapiBuildUrl
  rw [CharArray.read_of_terminated hb, ha]
  rfl

theorem synapiBuildQueryString_null (method : SynapiMethod) (h : method ≠ .get) :
    synapiBuildQueryString method none = .ok (ascii "_method=" ++ method.name) := by
  cases method with
  | get => exact absurd rfl h
  | post => decide
  | put => decide
  | delete => decide

end Synapi

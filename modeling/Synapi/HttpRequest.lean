import Synapi.LongQueries
import Synapi.RequestUrl

/-!
The HTTP request that libcurl makes of the options of an easy handle, and what
the API reads in it.
-/

namespace Synapi

open Text FormEncoding

/-! libcurl's side -/

inductive HttpReq where
  | none | get | post | postForm | put | head | custom
  deriving DecidableEq

/-- The fields of `data->set` that the options of a send write and `Curl_http` reads. -/
structure UserDefined where
  url : Option Bytes
  postfields : Option Bytes
  httpreq : HttpReq
  customrequest : Option Bytes
  optNoBody : Bool
  headers : List Bytes
  deriving DecidableEq

def curlInitUserdefined : UserDefined := ⟨none, none, .get, none, false, []⟩

-- The write callback and its data are no part of the request.
def curlSetopt (data : UserDefined) : EasyOption → UserDefined
  | .url url => { data with url := some url }
  | .copyPostFields query => { data with postfields := some query, httpreq := .post }
  | .httpHeader headers => { data with headers := headers.val }
  | .post => { data with httpreq := .post, optNoBody := false }
  | .customRequest name => { data with customrequest := some name }
  | .writeFunction | .writeData => data

def Easy.userDefined (easy : Easy) : UserDefined :=
  easy.options.foldl curlSetopt curlInitUserdefined

structure HttpRequest where
  request : Bytes
  url : Bytes
  headers : List Bytes
  body : Bytes
  deriving DecidableEq

def requestName (data : UserDefined) : Bytes :=
  match data.customrequest with
  | some request => request
  | none =>
    if data.optNoBody then ascii "HEAD"
    else match data.httpreq with
      | .post | .postForm => ascii "POST"
      | .put => ascii "PUT"
      | .head => ascii "HEAD"
      | _ => ascii "GET"

-- ISSPACE: blank, tab, line feed, vertical tab, form feed, carriage return.
def isSpace (b : UInt8) : Bool := b == 32 || (9 ≤ b && b ≤ 13)

/-- A header without a value is not sent, except one that ends in its `;`. -/
def customHeader (header : Bytes) : Option Bytes :=
  if 58 ∈ header then
    if (((header.dropWhile (· ≠ 58)).drop 1).dropWhile isSpace) = [] then none else some header
  else if header.dropWhile (· ≠ 59) = [59] then some (header.dropLast ++ [58])
  else none

def curlAddCustomHeaders (data : UserDefined) : List Bytes := data.headers.filterMap customHeader

-- The body of the branch `HTTPREQ_POST`.
def curlHttp (data : UserDefined) : Option HttpRequest :=
  data.url.map (fun url =>
    { request := requestName data
      url := url
      headers := curlAddCustomHeaders data
      body := if data.httpreq = .post then data.postfields.getD [] else [] })

/-! The API's side -/

inductive Resource where
  | servers
  | server (key : Bytes)
  | serverPlayers (key : Bytes)
  | serverPlayer (key : Bytes) (id : ℤ)
  deriving DecidableEq

/-- A request as the API means it. -/
structure RestRequest where
  method : SynapiMethod
  resource : Resource
  headers : List Bytes
  parameters : List (Bytes × Bytes)
  deriving DecidableEq

def methodOf (request : Bytes) : Option SynapiMethod :=
  if request = ascii "POST" then some .post
  else if request = ascii "PUT" then some .put
  else if request = ascii "DELETE" then some .delete
  else if request = ascii "GET" then some .get
  else none

def route : List Bytes → Option Resource
  | [servers] => if servers = ascii "servers" then some .servers else none
  | [servers, key] => if servers = ascii "servers" then some (.server (percentDecode key)) else none
  | [servers, key, players] =>
    if servers = ascii "servers" ∧ players = ascii "server_players" then
      some (.serverPlayers (percentDecode key))
    else none
  | [servers, key, players, id] =>
    if servers = ascii "servers" ∧ players = ascii "server_players" then
      (parseDecimal id).map (.serverPlayer (percentDecode key))
    else none
  | _ => none

def resourceOf (base url : Bytes) : Option Resource :=
  if base <+: url then route ((url.drop base.length).splitOn 47).tail else none

/-- The method on the request line and the parameter `_method` have to agree. -/
def HttpRequest.read (base : Bytes) (r : HttpRequest) : Option RestRequest :=
  match methodOf r.request, resourceOf base r.url with
  | some method, some resource =>
    if (parse r.body).getLast? = some (ascii "_method", method.name) then
      some ⟨method, resource, r.headers, (parse r.body).dropLast⟩
    else none
  | _, _ => none

/-! The path -/

def pathParts (action : SynapiAction) (key : Bytes) (id : Int32) : List Bytes :=
  match action with
  | .serversNew => [ascii "servers"]
  | .serversUpdate | .heartbeat => [ascii "servers", key]
  | .playersNew => [ascii "servers", key, ascii "server_players"]
  | .playersUpdate | .playersDelete =>
    [ascii "servers", key, ascii "server_players", decimal id.toInt]

def SynapiAction.resource (action : SynapiAction) (key : Bytes) (id : Int32) : Resource :=
  match action with
  | .serversNew => .servers
  | .serversUpdate | .heartbeat => .server key
  | .playersNew => .serverPlayers key
  | .playersUpdate | .playersDelete => .serverPlayer key id.toInt

theorem slash_notMem_percentEncode (s : Bytes) : (47 : UInt8) ∉ percentEncode s := by
  intro h
  rcases mem_percentEncode h with h | h
  · exact absurd h (by decide)
  · exact absurd h (by decide)

theorem slash_notMem_decimal (z : ℤ) : (47 : UInt8) ∉ decimal z := by
  intro h
  rcases mem_decimal h with h | h
  · exact absurd h (by decide)
  · exact absurd h.1 (by decide)

theorem urlOf_parts (action : SynapiAction) (base key : Bytes) (id : Int32) :
    urlOf action base key id = base ++ [47].intercalate ([] :: pathParts action key id) := by
  have servers : ascii "/servers" = 47 :: ascii "servers" := by decide
  have server : ascii "/servers/" = 47 :: (ascii "servers" ++ [47]) := by decide
  have collection : ascii "/server_players" = 47 :: ascii "server_players" := by decide
  have players : ascii "/server_players/" = 47 :: (ascii "server_players" ++ [47]) := by decide
  cases action <;>
    simp [urlOf, pathParts, List.intercalate, List.intersperse, servers, server, collection, players]

theorem pathParts_plain (action : SynapiAction) (key : Bytes) (id : Int32) :
    ∀ part ∈ [] :: pathParts action (percentEncode key) id, (47 : UInt8) ∉ part := by
  have servers : (47 : UInt8) ∉ ascii "servers" := by decide
  have players : (47 : UInt8) ∉ ascii "server_players" := by decide
  have encoded := slash_notMem_percentEncode key
  have digits := slash_notMem_decimal id.toInt
  cases action <;> simp [pathParts, servers, players, encoded, digits]

theorem route_parts (action : SynapiAction) (key : Bytes) (id : Int32) :
    route (pathParts action (percentEncode key) id) = some (action.resource key id) := by
  cases action <;>
    simp [pathParts, route, SynapiAction.resource, percentDecode_percentEncode,
      parseDecimal_decimal]

theorem resourceOf_urlOf (action : SynapiAction) (base key : Bytes) (id : Int32) :
    resourceOf base (urlOf action base (curlEscape key) id) = some (action.resource key id) := by
  have parts := List.splitOn_intercalate (47 : UInt8) (pathParts_plain action key id) (by simp)
  rw [resourceOf, urlOf_parts, if_pos (List.prefix_append _ _), List.drop_left]
  change route ((([47].intercalate ([] :: pathParts action (percentEncode key) id)).splitOn 47).tail) = _
  rw [parts, List.tail_cons]
  exact route_parts action key id

/-! The body -/

def optionMeaning (options : List SynapiOption) : List (Bytes × Bytes) :=
  options.map (fun option => (option.name, option.value))

theorem queryText_render {method : SynapiMethod} (hm : method ≠ .get)
    (options : List SynapiOption) :
    queryText options method = render (queryPairs options method) := by
  have last : trailer method = ascii "_method=" ++ method.name := by
    cases method with
    | get => exact absurd rfl hm
    | _ => rfl
  rw [queryText, last, queryPairs, render_snoc, renderPair]
  rfl

theorem parse_queryText {method : SynapiMethod} (hm : method ≠ .get)
    (options : List SynapiOption) :
    parse (queryText options method) =
      optionMeaning options ++ [(ascii "_method", method.name)] := by
  rw [queryText_render hm, parse_query]
  rfl

/-! The options of a send -/

def hostHeaders (request : SynapiRequest) : List Bytes :=
  match request.headers with
  | some headers => headers.val.filterMap customHeader
  | none => []

def methodKeyword : SynapiMethod → Bytes
  | .get | .post => ascii "POST"
  | .put => ascii "PUT"
  | .delete => ascii "DELETE"

/-- Also a request of the method `get`, which no call makes, would be a POST. -/
theorem curlHttp_sendOptions (id : ℕ) (request : SynapiRequest) (url : Bytes) :
    curlHttp (Easy.userDefined ⟨id, sendOptions request url⟩) =
      some ⟨methodKeyword request.method, url, hostHeaders request, request.query.val⟩ := by
  cases hh : request.headers <;> cases hm : request.method <;> cases ha : request.apiKeyRequest <;>
    simp [Easy.userDefined, sendOptions, hh, hm, ha, curlSetopt, curlInitUserdefined, curlHttp,
      requestName, methodKeyword, hostHeaders, curlAddCustomHeaders]

theorem methodOf_keyword {method : SynapiMethod} (hm : method ≠ .get) :
    methodOf (methodKeyword method) = some method := by
  cases method with
  | get => exact absurd rfl hm
  | _ => decide

/-- A request that neither limit has cut is read as it was meant. -/
theorem read_request {request : SynapiRequest} {options : List SynapiOption} (base key : Bytes)
    (hm : request.method ≠ .get) (hq : request.query.val = queryText options request.method) :
    HttpRequest.read base ⟨methodKeyword request.method,
        urlOf request.action base (curlEscape key) request.userData, hostHeaders request,
        request.query.val⟩ =
      some ⟨request.method, request.action.resource key request.userData, hostHeaders request,
        optionMeaning options⟩ := by
  simp only [HttpRequest.read, methodOf_keyword hm, resourceOf_urlOf, hq, parse_queryText hm,
    List.getLast?_append, List.getLast?_singleton, Option.some_or, if_true, List.dropLast_concat]

end Synapi

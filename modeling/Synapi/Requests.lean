import Synapi.Tables

/-!
`synapi_send` and `synapi_queue`. What the environment decides about a send is
an argument: whether `curl_easy_init` and `curl_multi_add_handle` succeed.
-/

namespace Synapi

open Runs CountedLoop Text

variable {p : ℤ}

structure SendEnv where
  easyInit : Bool
  multiAdd : Bool
  deriving DecidableEq

def sendOptions (request : SynapiRequest) (url : Bytes) : List EasyOption :=
  [.url url, .copyPostFields request.query.val] ++
    (match request.headers with
      | some headers => [.httpHeader headers]
      | none => []) ++
    (match request.method with
      | .get => []
      | .post => [.post]
      | .put => [.post, .customRequest (ascii "PUT")]
      | .delete => [.post, .customRequest (ascii "DELETE")]) ++
    (if request.apiKeyRequest then [.writeFunction, .writeData] else [])

def closeGate (w : World p) : Except Fault (World p) := do
  let a ← inBounds (w.handle.apiKey.store 0 0)
  .ok { w with handle := { w.handle with apiKeySet := false, apiKey := a } }

def Multi.add (m : Multi) (easy : Option Easy) (succeeds : Bool) : Multi :=
  if succeeds then { m with added := m.added ++ easy.toList } else m

def World.curlMultiAddHandle (w : World p) (request : SynapiRequest) (url : Bytes)
    (easy : Option Easy) (succeeds : Bool) : World p :=
  let sent : Sent := ⟨request, url, easy, succeeds && easy.isSome, w.view⟩
  { w with
    multi := w.multi.add easy succeeds
    trace := w.trace ++ [.multiAddHandle sent] }

def synapiSend (env : SendEnv) (w : World p) (request : SynapiRequest) :
    Except Fault (World p) := do
  let url ← synapiBuildUrl w request
  let (curl, w) ← synapiGetCurlHandle env.easyInit w
  let w := w.setPool (w.handle.pool.modify (isCurlHandle curl)
    (fun c => { c with headers := request.headers }))
  let options := sendOptions request url
  let w := w.emit (.setopt curl.handle options)
  let w ← if request.apiKeyRequest then closeGate w else .ok w
  let w := w.curlMultiAddHandle request url (curl.handle.map (⟨·, options⟩)) env.multiAdd
  synapiFreeRequest w request

def queueBody (request : SynapiRequest) (w : World p) : Except Fault (Flow (World p) ℤ) := do
  match ← entry w.handle.requests w.i with
  | none => .ok (.stop (w.setRequests (w.handle.requests.put w.i.toNat (some request))) w.i)
  | some _ => .ok (.next w)

def synapiQueue (env : SendEnv) (w : World p) (action : SynapiAction) (method : SynapiMethod)
    (apiKeyRequest : Bool) (userData : Int32) (options : Option (List SynapiOption)) :
    Except Fault (ℤ × World p) := do
  let addr := w.fresh
  let w := w.malloc
  let hostHeader ← inBounds w.handle.hostHeader.read
  let headers := ⟨w.fresh, [hostHeader]⟩
  let w := w.malloc
  let text ← synapiBuildQueryString method options
  let query := ⟨w.fresh, text⟩
  let w := w.malloc
  let request : SynapiRequest :=
    { addr, query, headers := some headers, method, action, apiKeyRequest, userData }
  if apiKeyRequest then
    let w ← synapiSend env w request
    .ok (0, w)
  else
    match ← poolLoop (queueBody request) w with
    | .stop w k => .ok (k, w.emit (.queued request k.toNat))
    | .next w => .ok (-1, w.emit (.rejected request))

/-! What a send does -/

def newCurl (env : SendEnv) (w : World p) (request : SynapiRequest) : SynapiCurlHandle :=
  ⟨w.fresh, if env.easyInit then some (w.fresh + 1) else none, request.headers⟩

def newEasy (env : SendEnv) (w : World p) (request : SynapiRequest) (url : Bytes) : Option Easy :=
  (newCurl env w request).handle.map (⟨·, sendOptions request url⟩)

def newSent (env : SendEnv) (w : World p) (request : SynapiRequest) (url : Bytes)
    (view : HandleView) : Sent :=
  ⟨request, url, newEasy env w request url,
    env.multiAdd && (newEasy env w request url).isSome, view⟩

def sendEvents (env : SendEnv) (w : World p) (request : SynapiRequest) (url : Bytes)
    (view : HandleView) : List Event :=
  [.malloc w.fresh, .easyInit (newCurl env w request).handle,
    .setopt (newCurl env w request).handle (sendOptions request url),
    .multiAddHandle (newSent env w request url view),
    .free request.query.addr, .free request.addr]

def World.sendWaiting (w : World p) (env : SendEnv) (request : SynapiRequest) (url : Bytes)
    (k : ℕ) : World p :=
  { w with
    i := p.toNat
    fresh := w.fresh + 2
    handle := { w.handle with
      pool := w.handle.pool.put k (some (newCurl env w request))
      requests := w.handle.requests.clear (isRequest request) }
    multi := w.multi.add (newEasy env w request url) env.multiAdd
    trace := w.trace ++ sendEvents env w request url w.view }

/-- A registration handed to libcurl; `a` is the key array with its first byte cleared. -/
def World.sendNew (w : World p) (env : SendEnv) (request : SynapiRequest) (url : Bytes) (k : ℕ)
    (a : CharArray 256) : World p :=
  { w with
    i := k
    fresh := w.fresh + 2
    handle := { w.handle with
      apiKeySet := false
      apiKey := a
      pool := w.handle.pool.put k (some (newCurl env w request)) }
    multi := w.multi.add (newEasy env w request url) env.multiAdd
    trace := w.trace ++ sendEvents env w request url w.view.cleared }

section Send

variable {env : SendEnv} {w : World p} {request : SynapiRequest} {url : Bytes} {k : ℕ}

theorem synapiSend_full (hurl : synapiBuildUrl w request = .ok url)
    (hk : w.handle.pool.lowestFree = none) : synapiSend env w request = .error .poolExhausted := by
  rw [synapiSend, hurl, ok_bind, synapiGetCurlHandle_full _ hk]
  rfl

theorem pool_of_send (env : SendEnv) (request : SynapiRequest) (hk : w.handle.pool.lowestFree = some k)
    (fresh : ∀ c ∈ w.handle.pool.occupants, c.addr < w.fresh) :
    let curl : SynapiCurlHandle :=
      ⟨w.fresh, if env.easyInit then some (w.fresh + 1) else none, none⟩
    (w.handle.pool.put k (some curl)).modify (isCurlHandle curl)
      (fun c => { c with headers := request.headers }) =
        w.handle.pool.put k (some (newCurl env w request)) := by
  intro curl
  apply SlotTable.modify_put_self (SlotTable.lowestFree_some hk).1
  · simp [isCurlHandle]
  · intro c hc
    have := fresh c hc
    simp only [isCurlHandle, curl, decide_eq_false_iff_not]
    omega

theorem synapiSend_waiting (hurl : synapiBuildUrl w request = .ok url)
    (hk : w.handle.pool.lowestFree = some k)
    (fresh : ∀ c ∈ w.handle.pool.occupants, c.addr < w.fresh)
    (hr : request.apiKeyRequest = false) :
    synapiSend env w request = .ok (w.sendWaiting env request url k) := by
  have pool := pool_of_send env request hk fresh
  rw [synapiSend, hurl, ok_bind, synapiGetCurlHandle_free env.easyInit hk, ok_bind]
  simp only [hr, Bool.false_eq_true, if_false, ok_bind]
  rw [synapiFreeRequest_keyed _ hr]
  apply congrArg Except.ok
  simp only [World.setPool, pool]
  simp only [World.sendWaiting, World.freeRequest, World.free, World.emit, World.setRequests,
    World.setI, World.curlMultiAddHandle, World.curlEasyInit, World.malloc, sendEvents,
    List.append_assoc, List.cons_append, List.nil_append]
  rfl

theorem synapiSend_new (env : SendEnv) (hurl : synapiBuildUrl w request = .ok url)
    (hk : w.handle.pool.lowestFree = some k)
    (fresh : ∀ c ∈ w.handle.pool.occupants, c.addr < w.fresh)
    (hr : request.apiKeyRequest = true) :
    ∃ a, a.str = [] ∧ synapiSend env w request = .ok (w.sendNew env request url k a) := by
  have pool := pool_of_send env request hk fresh
  obtain ⟨a, ha, hs, -⟩ := CharArray.store_zero (a := w.handle.apiKey) (k := 0) (by omega)
  have hs' : a.str = [] := hs.trans List.take_zero
  refine ⟨a, hs', ?_⟩
  rw [synapiSend, hurl, ok_bind, synapiGetCurlHandle_free env.easyInit hk, ok_bind]
  simp only [hr, if_true, closeGate, World.setPool, World.emit, pool, World.curlEasyInit,
    World.malloc, World.setI, ha, inBounds, ok_bind]
  rw [synapiFreeRequest_new _ hr]
  apply congrArg Except.ok
  simp only [World.sendNew, World.freeRequest, World.free, World.emit, World.curlMultiAddHandle,
    sendEvents, List.append_assoc, List.cons_append, List.nil_append, World.view, SynapiT.view,
    HandleView.cleared, hs']
  rfl

end Send

/-! What queueing does -/

section Queue

variable {w : World p} {k : ℕ} {request : SynapiRequest}

theorem queueBody_skip {r : SynapiRequest} (h : w.handle.requests.slot k = some (some r)) :
    queueBody request (w.setI k) = .ok (.next (w.setI k)) := by
  have he : entry (w.setI k).handle.requests (w.setI k).i = .ok (some r) := entry_natCast h
  rw [queueBody, he]
  rfl

theorem queueLoop_free (request : SynapiRequest) (h : w.handle.requests.lowestFree = some k) :
    poolLoop (queueBody request) w = .ok (.stop
      ((w.setI k).setRequests (w.handle.requests.put k (some request))) k) := by
  obtain ⟨hk, hs, below⟩ := SlotTable.lowestFree_some h
  have he : entry (w.setI k).handle.requests (w.setI k).i = .ok none := entry_natCast hs
  apply poolLoop_stop (fun k => w.setI k) rfl (fun _ => rfl) hk
  · intro j hj
    obtain ⟨r, hr⟩ := below j hj
    exact ⟨_, queueBody_skip hr, rfl⟩
  · rw [queueBody, he]
    rfl

theorem queueLoop_full (request : SynapiRequest) (h : w.handle.requests.lowestFree = none) :
    poolLoop (queueBody request) w = .ok (.next (w.setI p.toNat)) := by
  apply poolLoop_all (fun k => w.setI k) rfl (fun _ => rfl)
  intro j hj
  obtain ⟨r, hr⟩ := SlotTable.lowestFree_none h hj
  exact ⟨_, queueBody_skip hr, rfl⟩

/-- The request record `synapi_queue` builds; it and its parts get the next three addresses. -/
def newRequest (w : World p) (action : SynapiAction) (method : SynapiMethod)
    (apiKeyRequest : Bool) (userData : Int32) (query : Bytes) : SynapiRequest where
  addr := w.fresh
  headers := some ⟨w.fresh + 1, [w.handle.hostHeader.str]⟩
  query := ⟨w.fresh + 2, query⟩
  method := method
  action := action
  apiKeyRequest := apiKeyRequest
  userData := userData

def World.built (w : World p) : World p :=
  { w with
    fresh := w.fresh + 3
    trace := w.trace ++ [.malloc w.fresh, .malloc (w.fresh + 1), .malloc (w.fresh + 2)] }

theorem built_malloc (w : World p) : w.malloc.malloc.malloc = w.built := by
  simp only [World.malloc, World.built, List.append_assoc, List.cons_append, List.nil_append]

variable {env : SendEnv} {action : SynapiAction} {method : SynapiMethod} {userData : Int32}
  {options : Option (List SynapiOption)} {query : Bytes}

theorem synapiQueue_new (hh : w.handle.hostHeader.Terminated)
    (hq : synapiBuildQueryString method options = .ok query) :
    synapiQueue env w action method true userData options = (do
      let w' ← synapiSend env w.built (newRequest w action method true userData query)
      .ok (0, w')) := by
  have hr : w.malloc.handle.hostHeader.read = some w.handle.hostHeader.str :=
    CharArray.read_of_terminated hh
  simp only [synapiQueue, hr, inBounds, ok_bind, hq, built_malloc, if_true]
  rfl

theorem synapiQueue_accept (hh : w.handle.hostHeader.Terminated)
    (hq : synapiBuildQueryString method options = .ok query)
    (hk : w.handle.requests.lowestFree = some k) :
    let request := newRequest w action method false userData query
    synapiQueue env w action method false userData options = .ok ((k : ℤ),
      ((w.built.setI k).setRequests (w.handle.requests.put k (some request))).emit
        (.queued request k)) := by
  intro request
  have hr : w.malloc.handle.hostHeader.read = some w.handle.hostHeader.str :=
    CharArray.read_of_terminated hh
  have loop := queueLoop_free (w := w.built) request hk
  simp only [synapiQueue, hr, inBounds, ok_bind, hq, built_malloc, Bool.false_eq_true, if_false]
  change (do
    match ← poolLoop (queueBody request) w.built with
    | .stop w k => .ok (k, w.emit (.queued request k.toNat))
    | .next w => .ok (-1, w.emit (.rejected request))) = _
  rw [loop]
  rfl

theorem synapiQueue_reject (hh : w.handle.hostHeader.Terminated)
    (hq : synapiBuildQueryString method options = .ok query)
    (hk : w.handle.requests.lowestFree = none) :
    let request := newRequest w action method false userData query
    synapiQueue env w action method false userData options =
      .ok (-1, (w.built.setI p.toNat).emit (.rejected request)) := by
  intro request
  have hr : w.malloc.handle.hostHeader.read = some w.handle.hostHeader.str :=
    CharArray.read_of_terminated hh
  have loop := queueLoop_full (w := w.built) request hk
  simp only [synapiQueue, hr, inBounds, ok_bind, hq, built_malloc, Bool.false_eq_true, if_false]
  change (do
    match ← poolLoop (queueBody request) w.built with
    | .stop w k => .ok (k, w.emit (.queued request k.toNat))
    | .next w => .ok (-1, w.emit (.rejected request))) = _
  rw [loop]
  rfl

end Queue

end Synapi

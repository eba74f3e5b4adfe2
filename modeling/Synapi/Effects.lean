import Synapi.Invariant
import Mathlib.Logic.Relation

/-!
What the calls do, said once: every call is a sequence of the effects below,
and what each effect preserves holds of every handle that can be reached.
-/

namespace Synapi

open Runs Relation

variable {p : ℤ}

/-- Says nothing of an accepted request, a transfer or the strings. -/
def Event.silent : Event → Bool
  | .malloc _ | .free _ | .easyInit _ | .easyCleanup _ | .setopt _ _ | .multiRemoveHandle _
  | .multiCleanup | .multiTimeout _ | .multiFdset | .select _ | .multiPerform
  | .multiInfoRead none | .rejected _ => true
  | _ => false

def marks (events : List Event) : List Event := events.filter (fun e => !e.silent)

def Event.created : Event → Option ℕ
  | .malloc addr => some addr
  | .easyInit handle => handle
  | _ => none

def Event.released : Event → Option ℕ
  | .free addr => some addr
  | .easyCleanup handle => handle
  | _ => none

def createdBy (events : List Event) : List ℕ := events.filterMap Event.created

def releasedBy (events : List Event) : List ℕ := events.filterMap Event.released

/-- No object comes or goes, unless a request is turned away. -/
def Idle (events : List Event) : Prop :=
  (∀ e ∈ events, e.created = none ∧ e.released = none) ∨ ∃ request, .rejected request ∈ events

def Call.keyed : Call → Option (SynapiAction × SynapiMethod × Int32 × Option (List SynapiOption))
  | .updateServer options => some (.serversUpdate, .put, 0, some options)
  | .newPlayer options => some (.playersNew, .post, 0, some options)
  | .updatePlayer internalId options => some (.playersUpdate, .put, internalId, some options)
  | .deletePlayer internalId => some (.playersDelete, .delete, internalId, none)
  | .heartbeat => some (.heartbeat, .put, 0, none)
  | _ => none

def Event.sent : Event → Option Sent
  | .multiAddHandle sent => some sent
  | _ => none

def sents (trace : List Event) : List Sent := trace.filterMap Event.sent

def World.reap (w : World p) (msg : CurlMsg) (curl : SynapiCurlHandle) : World p :=
  ((w.curlMultiInfoRead.curlMultiRemoveHandle msg.easyHandle).setPool
    (w.handle.pool.clear (isCurlHandle curl))).freeCurlHandle curl

/-- An effect of the call `c` on the handle `w₀`; the first two worlds say where
the call began and where the effect does. -/
inductive Effect (c : Call) (w₀ : World p) : World p → World p → Prop
  | counters (w : World p) (i n : ℤ) :
      Effect c w₀ w { w with i := i, multiPerformCounter := n }
  | silent (w : World p) (events : List Event) (h : marks events = []) (hi : Idle events) (n : ℕ) :
      Effect c w₀ w { w with fresh := w.fresh + n, trace := w.trace ++ events }
  | queue {action method userData options query k}
      (hc : c.keyed = some (action, method, userData, options))
      (hq : synapiBuildQueryString method options = .ok query)
      (hk : w₀.handle.requests.lowestFree = some k) :
      Effect c w₀ w₀ (((w₀.built.setI k).setRequests (w₀.handle.requests.put k
        (some (newRequest w₀ action method false userData query)))).emit
          (.queued (newRequest w₀ action method false userData query) k))
  | send {env request key j k} (hc : c = .perform env) (hset : w₀.handle.apiKeySet = true)
      (hkey : w₀.handle.encodedApiKey = some key)
      (hj : w₀.handle.requests.lowestUsed = some j)
      (hr : w₀.handle.requests.slot j = some (some request))
      (hk : w₀.handle.pool.lowestFree = some k) :
      Effect c w₀ w₀ (w₀.sendWaiting env.send request (Text.snprintf 255
        (urlOf request.action w₀.handle.baseUrl.str key.val request.userData)) k)
  | register {env query a k} (hc : c = .newServer env) (ha : a.str = [])
      (hk : w₀.handle.pool.lowestFree = some k) :
      Effect c w₀ w₀ (w₀.built.sendNew env (newRequest w₀ .serversNew .post true 0 query)
        (Text.snprintf 255 (w₀.handle.baseUrl.str ++ Text.ascii "/servers")) k a)
  | setKey {newApiKey size a} (hc : c = .apiKey newApiKey size)
      (ha : a.str = storedKey newApiKey size) (ta : a.Terminated) :
      Effect c w₀ w₀ ((w₀.withApiKey a).emit (.apiKey (w₀.withApiKey a).view))
  | setUrl {url hostHeader base host} (hc : c = .url url hostHeader)
      (hb : base.str = url.val.take 255) (hh : host.str = hostHeader.val.take 255)
      (tb : base.Terminated) (th : host.Terminated) :
      Effect c w₀ w₀ (({ w₀ with handle := { w₀.handle with
          baseUrl := base, hostHeader := host } } : World p).emit
        (.url { w₀.view with baseUrl := base.str, hostHeader := host.str }))
  | write {env handle data a} (w : World p) (hc : c = .perform env)
      (hm : Progress.chunk handle data ∈ env.progress) (hrun : w.multi.Running handle)
      (hkey : w.multi.WritesKey handle) (hd : data ≠ []) (ha : a.str = chunkKey data)
      (ta : a.Terminated) :
      Effect c w₀ w ((w.withApiKey a).emit (.apiKeyWrite handle data (w.withApiKey a).view))
  | complete {env handle result} (w : World p) (hc : c = .perform env)
      (hrun : w.multi.Running handle) :
      Effect c w₀ w { w with multi := w.multi.complete handle result }
  | reap {env msg rest curl k} (w : World p) (hc : c = .perform env)
      (hm : w.multi.messages = msg :: rest) (hk : w.handle.pool.slot k = some (some curl))
      (hh : curl.handle = some msg.easyHandle) : Effect c w₀ w (w.reap msg curl)

variable {c : Call} {w₀ w w' : World p}

theorem keyed_action {action method userData options}
    (hc : c.keyed = some (action, method, userData, options)) : action ≠ .serversNew := by
  rintro rfl
  cases c <;> simp [Call.keyed] at hc

/-! What the effects say -/

theorem marks_append (first second : List Event) :
    marks (first ++ second) = marks first ++ marks second :=
  List.filter_append _ _

theorem marks_silent {trace events : List Event} (h : marks events = []) :
    marks (trace ++ events) = marks trace ++ [] := by
  rw [marks_append, h]

theorem filterMap_marks {α : Type} {f : Event → Option α} (hf : ∀ e, e.silent = true → f e = none)
    (events : List Event) : (marks events).filterMap f = events.filterMap f := by
  rw [marks, List.filterMap_filter]
  refine congrArg (List.filterMap · events) (funext fun e => ?_)
  cases he : e.silent <;> simp [hf, he]

theorem mem_sents {sent : Sent} {trace : List Event} :
    sent ∈ sents trace ↔ .multiAddHandle sent ∈ trace := by
  rw [sents, List.mem_filterMap]
  constructor
  · rintro ⟨e, he, hs⟩
    cases e <;> cases hs
    exact he
  · exact fun h => ⟨_, h, rfl⟩

theorem marks_free {α : Type} (block : Option (Block α)) :
    marks (block.map (fun b => Event.free b.addr)).toList = [] := by
  cases block <;> rfl

theorem marks_emit (w : World p) (e : Event) :
    marks (w.emit e).trace = marks w.trace ++ marks [e] :=
  marks_append _ _

theorem marks_built (w : World p) : marks w.built.trace = marks w.trace :=
  (marks_append _ _).trans (List.append_nil _)

theorem marks_sendEvents (env : SendEnv) (w : World p) (request : SynapiRequest) (url : Bytes)
    (view : HandleView) : marks (sendEvents env w request url view) =
      [.multiAddHandle (newSent env w request url view)] := rfl

theorem marks_queue (w : World p) (t : SlotTable SynapiRequest p.toNat) (request : SynapiRequest)
    (k : ℕ) : marks (((w.built.setI k).setRequests t).emit (.queued request k)).trace =
      marks w.trace ++ [.queued request k] := by
  rw [marks_emit]
  exact congrArg (· ++ _) (marks_built w)

theorem marks_send (w : World p) (env : SendEnv) (request : SynapiRequest) (url : Bytes) (k : ℕ) :
    marks (w.sendWaiting env request url k).trace =
      marks w.trace ++ [.multiAddHandle (newSent env w request url w.view)] :=
  marks_append _ _

theorem marks_register (w : World p) (env : SendEnv) (request : SynapiRequest) (url : Bytes) (k : ℕ)
    (a : CharArray 256) : marks (w.built.sendNew env request url k a).trace = marks w.trace ++
      [.multiAddHandle (newSent env w.built request url w.view.cleared)] :=
  (marks_append _ _).trans (congrArg (· ++ _) (marks_built w))

theorem marks_withApiKey (w : World p) (a : CharArray 256) :
    marks (w.withApiKey a).trace = marks w.trace := by
  simp only [World.withApiKey, World.malloc, World.freeAll, marks_append, marks_free]
  simp [marks, Event.silent]

theorem marks_keyed {e : Event} (he : marks [e] = [e]) (w : World p) (a : CharArray 256) :
    marks ((w.withApiKey a).emit e).trace = marks w.trace ++ [e] := by
  rw [marks_emit, marks_withApiKey, he]

theorem marks_reap {w : World p} {msg : CurlMsg} {rest : List CurlMsg}
    (hm : w.multi.messages = msg :: rest) (curl : SynapiCurlHandle) :
    marks (w.reap msg curl).trace = marks w.trace ++ [.multiInfoRead (some msg)] := by
  simp only [World.reap, World.freeCurlHandle, World.free, World.freeAll, World.emit,
    World.setPool, World.curlMultiRemoveHandle, World.curlMultiInfoRead, marks_append, marks_free, hm]
  simp [marks, Event.silent]

/-! What the effects preserve -/

theorem newCurl_handle (env : SendEnv) (w : World p) (request : SynapiRequest) {x : ℕ}
    (h : (newCurl env w request).handle = some x) : x = w.fresh + 1 := by
  simp only [newCurl] at h
  split_ifs at h
  exact (Option.some.inj h).symm

theorem newEasy_id (env : SendEnv) (w : World p) (request : SynapiRequest) (url : Bytes) :
    (newEasy env w request url).map Easy.id = (newCurl env w request).handle := by
  simp [newEasy, Function.comp_def]

theorem KeyOk.withApiKey (w : World p) (a : CharArray 256) : (w.withApiKey a).view.KeyOk :=
  KeyOk.withKey w.view a.str

theorem Effect.inv (h : Effect c w₀ w w') (hw : Inv w) : Inv w' := by
  cases h with
  | counters => exact ⟨hw.key, hw.waiting, hw.flight⟩
  | silent _ _ _ _ n =>
    exact ⟨hw.key, hw.waiting.mono (Nat.le_add_right _ n), hw.flight.mono (Nat.le_add_right _ n)⟩
  | queue hc hq hk =>
    refine ⟨hw.key, ?_, hw.flight.mono (Nat.le_add_right _ 3)⟩
    exact hw.waiting.put (SlotTable.lowestFree_some hk).2.1 rfl ⟨rfl, keyed_action hc⟩
  | @send env request _ _ _ _ _ _ _ hr hk =>
    refine ⟨hw.key, (hw.waiting.clear _).mono (Nat.le_add_right _ 2), ?_⟩
    exact hw.flight.put _ (SlotTable.lowestFree_some hk).2.1 rfl
      (fun _ => newCurl_handle env.send w₀ request) (newEasy_id env.send w₀ request _)
  | @register env query a _ _ ha hk =>
    refine ⟨?_, hw.waiting.mono (Nat.le_add_right _ 5), ?_⟩
    · change HandleView.KeyOk { w₀.view with apiKeySet := false, apiKey := a.str }
      rw [ha]
      exact KeyOk.cleared w₀.view
    · exact (hw.flight.mono (Nat.le_add_right _ 3)).put _ (SlotTable.lowestFree_some hk).2.1 rfl
        (fun _ => newCurl_handle env w₀.built _) (newEasy_id env w₀.built _ _)
  | setKey hc ha =>
    exact ⟨KeyOk.withApiKey _ _, hw.waiting.mono (Nat.le_succ _), hw.flight.mono (Nat.le_succ _)⟩
  | setUrl => exact ⟨hw.key, hw.waiting, hw.flight⟩
  | write _ hc hm hrun hkey hd ha =>
    exact ⟨KeyOk.withApiKey _ _, hw.waiting.mono (Nat.le_succ _), hw.flight.mono (Nat.le_succ _)⟩
  | complete _ hc hrun => exact ⟨hw.key, hw.waiting, hw.flight.complete hrun _⟩
  | reap _ hc hm hk hh =>
    exact ⟨hw.key, hw.waiting,
      hw.flight.tail.remove (SlotTable.mem_occupants.mpr ⟨_, hk⟩) hh⟩

theorem Effect.addressed (h : Effect c w₀ w w') (hw : Addressed w) : Addressed w' := by
  cases h with
  | setUrl _ _ _ tb th => exact ⟨tb, th⟩
  | _ => exact ⟨hw.baseUrl, hw.hostHeader⟩

end Synapi

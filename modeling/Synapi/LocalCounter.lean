import Synapi.Reachable
import Synapi.Library.Lockstep

/-!
The functions with a counter of their own for each loop, and what the shared
one changes: nothing but the value it is left with.
-/

namespace Synapi

open Runs CountedLoop Lockstep Text

variable {p : ℤ} {ρ : Type}

namespace Local

/-- `for (int i = 0; i < handle->pool_size; i++) body`. -/
def poolLoop (body : ℕ → World p → Except Fault (Flow (World p) ρ)) (w : World p) :
    Except Fault (Flow (World p) ρ) :=
  localLoop body 0 p.toNat w

def getCurlHandleBody (easyInit : Bool) (i : ℕ) (w : World p) :
    Except Fault (Flow (World p) SynapiCurlHandle) := do
  match ← entry w.handle.pool i with
  | none =>
    let addr := w.fresh
    let w := w.malloc
    let handle := if easyInit then some w.fresh else none
    let w := w.curlEasyInit easyInit
    let curl : SynapiCurlHandle := ⟨addr, handle, none⟩
    .ok (.stop (w.setPool (w.handle.pool.put i (some curl))) curl)
  | some _ => .ok (.next w)

def synapiGetCurlHandle (easyInit : Bool) (w : World p) :
    Except Fault (SynapiCurlHandle × World p) := do
  match ← poolLoop (getCurlHandleBody easyInit) w with
  | .stop w curl => .ok (curl, w)
  | .next _ => .error .poolExhausted

def clearBody {α : Type} (table : World p → SlotTable α p.toNat)
    (set : World p → SlotTable α p.toNat → World p) (same : α → Bool) (i : ℕ) (w : World p) :
    Except Fault (Flow (World p) Unit) := do
  match ← entry (table w) i with
  | some a => if same a then .ok (.next (set w ((table w).put i none))) else .ok (.next w)
  | none => .ok (.next w)

def synapiFreeCurlHandle (w : World p) (curl : SynapiCurlHandle) : Except Fault (World p) := do
  match ← poolLoop (clearBody (·.handle.pool) World.setPool (isCurlHandle curl)) w with
  | .next w | .stop w () => .ok (w.freeCurlHandle curl)

def synapiFreeRequest (w : World p) (request : SynapiRequest) : Except Fault (World p) := do
  if request.apiKeyRequest then
    .ok (w.freeRequest request)
  else
    match ← poolLoop (clearBody (·.handle.requests) World.setRequests (isRequest request)) w with
    | .next w | .stop w () => .ok (w.freeRequest request)

def synapiSend (env : SendEnv) (w : World p) (request : SynapiRequest) :
    Except Fault (World p) := do
  let url ← synapiBuildUrl w request
  let (curl, w) ← synapiGetCurlHandle env.easyInit w
  let w := w.setPool (w.handle.pool.modify (isCurlHandle curl)
    (fun c => { c with headers := request.headers }))
  let options := sendOptions request url
  let w := w.emit (.setopt curl.handle options)
  let w ← if request.apiKeyRequest then closeGate w else .ok w
  let w := w.curlMultiAddHandle request url (curl.handle.map (⟨·, options⟩)) env.multiAdd
  synapiFreeRequest w request

def queueBody (request : SynapiRequest) (i : ℕ) (w : World p) :
    Except Fault (Flow (World p) ℤ) := do
  match ← entry w.handle.requests i with
  | none => .ok (.stop (w.setRequests (w.handle.requests.put i (some request))) i)
  | some _ => .ok (.next w)

def synapiQueue (env : SendEnv) (w : World p) (action : SynapiAction) (method : SynapiMethod)
    (apiKeyRequest : Bool) (userData : Int32) (options : Option (List SynapiOption)) :
    Except Fault (ℤ × World p) := do
  let addr := w.fresh
  let w := w.malloc
  let hostHeader ← inBounds w.handle.hostHeader.read
  let headers := ⟨w.fresh, [hostHeader]⟩
  let w := w.malloc
  let text ← synapiBuildQueryString method options
  let query := ⟨w.fresh, text⟩
  let w := w.malloc
  let request : SynapiRequest :=
    { addr, query, headers := some headers, method, action, apiKeyRequest, userData }
  if apiKeyRequest then
    let w ← synapiSend env w request
    .ok (0, w)
  else
    match ← poolLoop (queueBody request) w with
    | .stop w k => .ok (k, w.emit (.queued request k.toNat))
    | .next w => .ok (-1, w.emit (.rejected request))

def sendBody (env : SendEnv) (i : ℕ) (w : World p) : Except Fault (Flow (World p) Unit) := do
  match ← entry w.handle.requests i with
  | some request =>
    let w ← synapiSend env w request
    .ok (.stop w ())
  | none => .ok (.next w)

def reapBody (msg : CurlMsg) (i : ℕ) (w : World p) : Except Fault (Flow (World p) Unit) := do
  match ← entry w.handle.pool i with
  | some curl =>
    if some msg.easyHandle = curl.handle then
      let w := w.curlMultiRemoveHandle msg.easyHandle
      let w ← synapiFreeCurlHandle w curl
      .ok (.next w)
    else .ok (.next w)
  | none => .ok (.next w)

def sendOne (env : SendEnv) (w : World p) : Except Fault (World p) := do
  if w.handle.apiKeySet then
    match ← poolLoop (sendBody env) w with
    | .next w | .stop w () => .ok w
  else .ok w

def reapOne (w : World p) : Except Fault (World p) := do
  let existingHandle := w.multi.messages.head?
  let w := w.curlMultiInfoRead
  match existingHandle with
  | some msg =>
    match ← poolLoop (reapBody msg) w with
    | .next w | .stop w () => .ok w
  | none => .ok w

def synapiPerform (env : PerformEnv) (w : World p) : Except Fault (World p) := do
  let w ← sendOne env.send w
  let w := wait env.timeo env.select w
  let w ← drive env.progress w
  reapOne w

def countBody {α : Type} (table : World p → SlotTable α p.toNat) (i : ℕ) (s : World p × ℤ) :
    Except Fault (Flow (World p × ℤ) Unit) := do
  match ← entry (table s.1) i with
  | some _ => .ok (.next (s.1, s.2 + 1))
  | none => .ok (.next s)

def countLoop {α : Type} (table : World p → SlotTable α p.toNat) (s : World p × ℤ) :
    Except Fault (World p × ℤ) := do
  match ← localLoop (countBody table) 0 p.toNat s with
  | .next s | .stop s () => .ok s

def synapiQueued (w : World p) : Except Fault (World p × ℤ) := do
  let s ← if w.handle.apiKeySet then countLoop (·.handle.pool) (w, 0) else .ok (w, 0)
  countLoop (·.handle.requests) s

def keyed (w : World p) (action : SynapiAction) (method : SynapiMethod) (userData : Int32)
    (options : Option (List SynapiOption)) : Except Fault (ℤ × World p) :=
  synapiQueue ⟨true, true⟩ w action method false userData options

def step (w : World p) : Call → Except Fault (World p)
  | .newServer env => (synapiQueue env w .serversNew .post true 0 none).map Prod.snd
  | .updateServer options => (keyed w .serversUpdate .put 0 (some options)).map Prod.snd
  | .newPlayer options => (keyed w .playersNew .post 0 (some options)).map Prod.snd
  | .updatePlayer internalId options =>
    (keyed w .playersUpdate .put internalId (some options)).map Prod.snd
  | .deletePlayer internalId => (keyed w .playersDelete .delete internalId none).map Prod.snd
  | .heartbeat => (keyed w .heartbeat .put 0 none).map Prod.snd
  | .perform env => synapiPerform env w
  | .apiKey newApiKey size => setApiKey w newApiKey size
  | .url url hostHeader => synapiUrl w url hostHeader
  | .queued => (synapiQueued w).map Prod.fst

end Local

/-! What the two versions share -/

/-- The same but for the global `i`. -/
def Alike (w v : World p) : Prop := ∃ i, v = w.setI i

def AlikeResult {α : Type} (a b : α × World p) : Prop := a.1 = b.1 ∧ Alike a.2 b.2

theorem Alike.refl (w : World p) : Alike w w := ⟨w.i, rfl⟩

theorem Alike.setI {w v : World p} (h : Alike w v) (i : ℤ) : Alike (w.setI i) v := by
  obtain ⟨j, rfl⟩ := h
  exact ⟨j, rfl⟩

/-- Both loops are about to make the pass `k`. -/
structure AtPass (P : World p → Prop) (k : ℕ) (w v : World p) : Prop where
  counter : w.i = k
  holds : P w
  alike : Alike w v

/-- What a pass of the two loops may lead to. -/
inductive PoolPass (localBody : ℕ → World p → Except Fault (Flow (World p) ρ))
    (P : World p → Prop) (k : ℕ) : Flow (World p) ρ → Flow (World p) ρ → Prop
  | next {w v : World p} (h : AtPass P k w v) : PoolPass localBody P k (.next w) (.next v)
  | leave {w v : World p} (hi : p ≤ w.i + 1) (h : Alike w v)
      (rest : ∀ j : ℕ, k < j → j < p.toNat → localBody j v = .ok (.next v)) :
      PoolPass localBody P k (.next w) (.next v)
  | stop {w v : World p} (h : Alike w v) (r : ρ) : PoolPass localBody P k (.stop w r) (.stop v r)

theorem poolLoop_agree {body : World p → Except Fault (Flow (World p) ρ)}
    {localBody : ℕ → World p → Except Fault (Flow (World p) ρ)} {P : World p → Prop}
    (hP : ∀ w i, P w → P (w.setI i))
    (hbody : ∀ k w v, AtPass P k w v → Agree (PoolPass localBody P k) (body w) (localBody k v))
    {w v : World p} (hw : P w) (h : Alike w v) :
    Agree (SameFlow Alike) (poolLoop body w) (Local.poolLoop localBody v) := by
  have hguard : ∀ k w v, AtPass P k w v → (decide (w.i < p) = true ↔ k < p.toNat) := by
    intro k w v hpass
    rw [hpass.counter, decide_eq_true_eq]
    omega
  have hexit : ∀ w v, AtPass P p.toNat w v → Alike w v := fun w v hpass => hpass.alike
  refine agree_loop hguard hexit ?_ p.toNat (Nat.zero_add _) ⟨rfl, hP w 0 hw, h.setI 0⟩
  intro k hk w v hpass
  refine (hbody k w v hpass).mono (fun a b hab => ?_)
  cases hab with
  | @next w v hnext =>
    obtain ⟨hi, hP', halike⟩ := hnext
    refine .next ⟨?_, hP w _ hP', halike.setI _⟩
    change w.i + 1 = (k + 1 : ℕ)
    omega
  | @leave w v hi halike rest =>
    refine .leave ?_ (halike.setI _) rest
    rw [decide_eq_false_iff_not]
    exact Int.not_lt.mpr hi
  | stop halike r => exact .stop halike r

/-! The functions -/

theorem getCurlHandle_agree (easyInit : Bool) {w v : World p} (h : Alike w v) :
    Agree AlikeResult (synapiGetCurlHandle easyInit w) (Local.synapiGetCurlHandle easyInit v) := by
  have loop : Agree (SameFlow Alike) (poolLoop (getCurlHandleBody easyInit) w)
      (Local.poolLoop (Local.getCurlHandleBody easyInit) v) := by
    apply poolLoop_agree (P := fun _ => True) (fun _ _ _ => trivial) _ trivial h
    rintro k w v ⟨hi, -, i, rfl⟩
    rw [getCurlHandleBody, Local.getCurlHandleBody, hi]
    apply Agree.bind_same (entry w.handle.pool k)
    intro found
    cases found with
    | none =>
      have here : (w.malloc.curlEasyInit easyInit).i.toNat = k := by
        change w.i.toNat = k
        rw [hi, Int.toNat_natCast]
      simp only [here]
      exact .ok (.stop ⟨i, rfl⟩ _)
    | some c => exact .ok (.next ⟨hi, trivial, i, rfl⟩)
  apply loop.bind
  intro a b hab
  cases hab with
  | next => exact .error _
  | stop halike curl => exact .ok ⟨rfl, halike⟩

theorem clearLoop_agree {α : Type} (table : World p → SlotTable α p.toNat)
    (set : World p → SlotTable α p.toNat → World p) (same : α → Bool)
    (htable : ∀ (w : World p) (i : ℤ), table (w.setI i) = table w)
    (hi : ∀ (w : World p) (t : SlotTable α p.toNat), (set w t).i = w.i)
    (hset : ∀ (w : World p) (i : ℤ) (t : SlotTable α p.toNat), set (w.setI i) t = (set w t).setI i)
    {w v : World p} (h : Alike w v) :
    Agree (SameFlow Alike) (poolLoop (clearBody table set same) w)
      (Local.poolLoop (Local.clearBody table set same) v) := by
  apply poolLoop_agree (P := fun _ => True) (fun _ _ _ => trivial) _ trivial h
  rintro k w v ⟨hk, -, i, rfl⟩
  rw [clearBody, Local.clearBody, hk, htable]
  apply Agree.bind_same (entry (table w) k)
  intro found
  cases found with
  | none => exact .ok (.next ⟨hk, trivial, i, rfl⟩)
  | some a =>
    cases ha : same a with
    | true =>
      simp only [ha, if_true]
      exact .ok (.next ⟨(hi _ _).trans hk, trivial, i, hset _ _ _⟩)
    | false =>
      simp only [ha, Bool.false_eq_true, if_false]
      exact .ok (.next ⟨hk, trivial, i, rfl⟩)

theorem freeCurlHandle_agree (curl : SynapiCurlHandle) {w v : World p} (h : Alike w v) :
    Agree Alike (synapiFreeCurlHandle w curl) (Local.synapiFreeCurlHandle v curl) := by
  have loop := clearLoop_agree (·.handle.pool) World.setPool (isCurlHandle curl)
    (fun _ _ => rfl) (fun _ _ => rfl) (fun _ _ _ => rfl) h
  apply loop.bind
  intro a b hab
  cases hab with
  | next halike => obtain ⟨i, rfl⟩ := halike; exact .ok ⟨i, rfl⟩
  | stop halike => obtain ⟨i, rfl⟩ := halike; exact .ok ⟨i, rfl⟩

theorem freeRequest_agree (request : SynapiRequest) {w v : World p} (h : Alike w v) :
    Agree Alike (synapiFreeRequest w request) (Local.synapiFreeRequest v request) := by
  cases hnew : request.apiKeyRequest with
  | true =>
    simp only [synapiFreeRequest, Local.synapiFreeRequest, hnew, if_true]
    obtain ⟨i, rfl⟩ := h
    exact .ok ⟨i, rfl⟩
  | false =>
    simp only [synapiFreeRequest, Local.synapiFreeRequest, hnew, Bool.false_eq_true, if_false]
    have loop := clearLoop_agree (·.handle.requests) World.setRequests (isRequest request)
      (fun _ _ => rfl) (fun _ _ => rfl) (fun _ _ _ => rfl) h
    apply loop.bind
    intro a b hab
    cases hab with
    | next halike => obtain ⟨i, rfl⟩ := halike; exact .ok ⟨i, rfl⟩
    | stop halike => obtain ⟨i, rfl⟩ := halike; exact .ok ⟨i, rfl⟩

theorem closeGate_agree {w v : World p} (h : Alike w v) :
    Agree Alike (closeGate w) (closeGate v) := by
  obtain ⟨i, rfl⟩ := h
  exact Agree.bind_same (inBounds (w.handle.apiKey.store 0 0)) (fun a => .ok ⟨i, rfl⟩)

theorem send_agree (env : SendEnv) (request : SynapiRequest) {w v : World p} (h : Alike w v) :
    Agree Alike (synapiSend env w request) (Local.synapiSend env v request) := by
  have url : synapiBuildUrl v request = synapiBuildUrl w request := by
    obtain ⟨i, rfl⟩ := h
    rfl
  rw [synapiSend, Local.synapiSend, url]
  refine Agree.bind_same _ (fun url => (getCurlHandle_agree env.easyInit h).bind ?_)
  rintro ⟨curl, w⟩ ⟨_, v⟩ ⟨rfl, i, rfl⟩
  have last {w v : World p} (h : Alike w v) : Agree Alike
      (synapiFreeRequest (w.curlMultiAddHandle request url
        (curl.handle.map (⟨·, sendOptions request url⟩)) env.multiAdd) request)
      (Local.synapiFreeRequest (v.curlMultiAddHandle request url
        (curl.handle.map (⟨·, sendOptions request url⟩)) env.multiAdd) request) := by
    obtain ⟨i, rfl⟩ := h
    exact freeRequest_agree request ⟨i, rfl⟩
  cases hnew : request.apiKeyRequest with
  | true =>
    simp only [if_true]
    exact (closeGate_agree ⟨i, rfl⟩).bind (fun a b hab => last hab)
  | false =>
    simp only [Bool.false_eq_true, if_false]
    exact last ⟨i, rfl⟩

theorem queue_agree (env : SendEnv) (action : SynapiAction) (method : SynapiMethod)
    (apiKeyRequest : Bool) (userData : Int32) (options : Option (List SynapiOption)) {w v : World p}
    (h : Alike w v) : Agree AlikeResult
      (synapiQueue env w action method apiKeyRequest userData options)
      (Local.synapiQueue env v action method apiKeyRequest userData options) := by
  obtain ⟨i, rfl⟩ := h
  apply Agree.bind_same (inBounds w.handle.hostHeader.read)
  intro hostHeader
  apply Agree.bind_same (synapiBuildQueryString method options)
  intro text
  cases apiKeyRequest with
  | true =>
    apply Agree.bind (send_agree env _ ⟨i, rfl⟩)
    intro a b hab
    exact .ok ⟨rfl, hab⟩
  | false =>
    have loop (request : SynapiRequest) {w v : World p} (h : Alike w v) : Agree (SameFlow Alike)
        (poolLoop (queueBody request) w) (Local.poolLoop (Local.queueBody request) v) := by
      apply poolLoop_agree (P := fun _ => True) (fun _ _ _ => trivial) _ trivial h
      rintro k w v ⟨hk, -, i, rfl⟩
      rw [queueBody, Local.queueBody, hk, Int.toNat_natCast]
      apply Agree.bind_same (entry w.handle.requests k)
      intro found
      cases found with
      | none => exact .ok (.stop ⟨i, rfl⟩ _)
      | some r => exact .ok (.next ⟨hk, trivial, i, rfl⟩)
    apply Agree.bind (loop _ ⟨i, rfl⟩)
    intro a b hab
    cases hab with
    | next halike => obtain ⟨j, rfl⟩ := halike; exact .ok ⟨rfl, j, rfl⟩
    | stop halike k => obtain ⟨j, rfl⟩ := halike; exact .ok ⟨rfl, j, rfl⟩

theorem countLoop_agree {α : Type} (table : World p → SlotTable α p.toNat)
    (htable : ∀ (w : World p) (i : ℤ), table (w.setI i) = table w) {s t : World p × ℤ}
    (h : Alike s.1 t.1 ∧ s.2 = t.2) :
    Agree (fun s t => Alike s.1 t.1 ∧ s.2 = t.2) (countLoop table s) (Local.countLoop table t) := by
  let head : ℕ → World p × ℤ → World p × ℤ → Prop :=
    fun k s t => s.1.i = k ∧ Alike s.1 t.1 ∧ s.2 = t.2
  have hguard : ∀ k s t, head k s t → (decide (s.1.i < p) = true ↔ k < p.toNat) := by
    rintro k s t ⟨hi, -⟩
    rw [hi, decide_eq_true_eq]
    omega
  have hexit : ∀ s t, head p.toNat s t → Alike s.1 t.1 ∧ s.2 = t.2 := fun s t hpass => hpass.2
  have loop : Agree (SameFlow fun s t => Alike s.1 t.1 ∧ s.2 = t.2)
      (forLoop (fun s => decide (s.1.i < p)) (fun s => (s.1.setI (s.1.i + 1), s.2))
        (countBody table) .stillRunning p.toNat (s.1.setI 0, s.2))
      (localLoop (Local.countBody table) 0 p.toNat t) := by
    refine agree_loop hguard hexit ?_ p.toNat (Nat.zero_add _) ⟨rfl, h.1.setI 0, h.2⟩
    rintro k - ⟨w, n⟩ ⟨_, m⟩ ⟨hi, ⟨i, rfl⟩, rfl⟩
    have hi : w.i = k := hi
    rw [countBody, Local.countBody, hi, htable]
    have again : (w.setI (w.i + 1)).i = (k + 1 : ℕ) := by
      change w.i + 1 = (k + 1 : ℕ)
      omega
    apply Agree.bind_same (entry (table w) k)
    intro found
    cases found with
    | none => exact .ok (.next ⟨again, ⟨i, rfl⟩, rfl⟩)
    | some a => exact .ok (.next ⟨again, ⟨i, rfl⟩, rfl⟩)
  apply loop.bind
  intro a b hab
  cases hab with
  | next hcount => exact .ok hcount
  | stop hcount => exact .ok hcount

theorem queued_agree {w v : World p} (h : Alike w v) :
    Agree (fun s t => Alike s.1 t.1 ∧ s.2 = t.2) (synapiQueued w) (Local.synapiQueued v) := by
  obtain ⟨i, rfl⟩ := h
  have requests {s t : World p × ℤ} (h : Alike s.1 t.1 ∧ s.2 = t.2) :=
    countLoop_agree (·.handle.requests) (fun _ _ => rfl) h
  unfold synapiQueued Local.synapiQueued
  by_cases hset : w.handle.apiKeySet = true
  · have hset' : (w.setI i).handle.apiKeySet = true := hset
    simp only [if_pos hset, if_pos hset']
    have pool := countLoop_agree (·.handle.pool) (fun _ _ => rfl) (s := (w, 0)) (t := (w.setI i, 0))
      ⟨⟨i, rfl⟩, rfl⟩
    exact pool.bind (fun s t hst => requests hst)
  · have hset' : ¬ (w.setI i).handle.apiKeySet = true := hset
    simp only [if_neg hset, if_neg hset']
    exact requests (s := (w, 0)) (t := (w.setI i, 0)) ⟨⟨i, rfl⟩, rfl⟩

end Synapi

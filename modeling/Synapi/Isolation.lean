import Synapi.SharedCounter
import Synapi.Library.Lockstep
import Synapi.KeyGate

/-!
One handle among several: the others can do nothing to it but bring forward or
put off its turn, and it does what it would do alone.
-/

namespace Synapi

open Runs CountedLoop Lockstep Text

variable {p : ℤ} {w v : World p}

-- The calls but those of `curl_multi_perform`.
def undriven (trace : List Event) : List Event := trace.filter (fun e => !e.drives)

/-- The same but for the two globals and how often libcurl was driven. -/
def Twin (w v : World p) : Prop :=
  ∃ i n trace, v = { w with i := i, multiPerformCounter := n, trace := trace } ∧
    undriven trace = undriven w.trace

def TwinResult {α : Type} (a b : α × World p) : Prop := a.1 = b.1 ∧ Twin a.2 b.2

/-- The call when the library is used alone: `select` reports an event when the
turn was due, and runs into its timeout when it was not. -/
def PerformEnv.turned (env : PerformEnv) (due : Bool) : PerformEnv :=
  { env with select := if due then 1 else 0, progress := if due then env.progress else [] }

def Call.turned (due : Bool) : Call → Call
  | .perform env => .perform (env.turned due)
  | c => c

/-! What two such handles share -/

theorem undriven_append (first second : List Event) :
    undriven (first ++ second) = undriven first ++ undriven second :=
  List.filter_append _ _

namespace Twin

theorem refl (w : World p) : Twin w w := ⟨w.i, w.multiPerformCounter, w.trace, rfl, rfl⟩

theorem handle (h : Twin w v) : v.handle = w.handle := by
  obtain ⟨i, n, trace, rfl, -⟩ := h
  rfl

theorem multi (h : Twin w v) : v.multi = w.multi := by
  obtain ⟨i, n, trace, rfl, -⟩ := h
  rfl

theorem fresh (h : Twin w v) : v.fresh = w.fresh := by
  obtain ⟨i, n, trace, rfl, -⟩ := h
  rfl

theorem inv (h : Twin w v) (hw : Inv w) : Inv v := by
  obtain ⟨i, n, trace, rfl, -⟩ := h
  exact ⟨hw.key, hw.waiting, hw.flight⟩

-- Either may go on with other counters.
theorem setI (h : Twin w v) (i j : ℤ) : Twin (w.setI i) (v.setI j) := by
  obtain ⟨k, n, trace, rfl, htrace⟩ := h
  exact ⟨j, n, trace, rfl, htrace⟩

theorem setCounter (h : Twin w v) (n m : ℤ) :
    Twin { w with multiPerformCounter := n } { v with multiPerformCounter := m } := by
  obtain ⟨i, k, trace, rfl, htrace⟩ := h
  exact ⟨i, m, trace, rfl, htrace⟩

theorem driven (h : Twin w v) : Twin w (v.emit .multiPerform) := by
  obtain ⟨i, n, trace, rfl, htrace⟩ := h
  refine ⟨i, n, trace ++ [.multiPerform], rfl, ?_⟩
  rw [undriven_append, htrace]
  exact List.append_nil _

theorem emits (h : Twin w v) (events : List Event) :
    Twin { w with trace := w.trace ++ events } { v with trace := v.trace ++ events } := by
  obtain ⟨i, n, trace, rfl, htrace⟩ := h
  refine ⟨i, n, trace ++ events, rfl, ?_⟩
  simp only [undriven_append, htrace]

theorem emit (h : Twin w v) (e : Event) : Twin (w.emit e) (v.emit e) := h.emits [e]

/-- What an operation does to the rest depends on neither. -/
theorem acts (h : Twin w v) (fresh : ℕ) (handle : SynapiT p) (multi : Multi) :
    Twin { w with fresh := fresh, handle := handle, multi := multi }
      { v with fresh := fresh, handle := handle, multi := multi } := by
  obtain ⟨i, n, trace, rfl, htrace⟩ := h
  exact ⟨i, n, trace, rfl, htrace⟩

theorem malloc (h : Twin w v) : Twin w.malloc v.malloc := by
  have same := (h.emit (.malloc w.fresh)).acts (w.fresh + 1) w.handle w.multi
  obtain ⟨i, n, trace, rfl, -⟩ := h
  exact same

theorem curlEasyInit (h : Twin w v) (succeeds : Bool) :
    Twin (w.curlEasyInit succeeds) (v.curlEasyInit succeeds) := by
  have same := (h.emit (.easyInit (if succeeds then some w.fresh else none))).acts (w.fresh + 1)
    w.handle w.multi
  obtain ⟨i, n, trace, rfl, -⟩ := h
  exact same

theorem setPool (h : Twin w v) (pool : SlotTable SynapiCurlHandle p.toNat) :
    Twin (w.setPool pool) (v.setPool pool) := by
  have same := h.acts w.fresh { w.handle with pool := pool } w.multi
  obtain ⟨i, n, trace, rfl, -⟩ := h
  exact same

theorem setRequests (h : Twin w v) (requests : SlotTable SynapiRequest p.toNat) :
    Twin (w.setRequests requests) (v.setRequests requests) := by
  have same := h.acts w.fresh { w.handle with requests := requests } w.multi
  obtain ⟨i, n, trace, rfl, -⟩ := h
  exact same

theorem freeCurlHandle (h : Twin w v) (curl : SynapiCurlHandle) :
    Twin (w.freeCurlHandle curl) (v.freeCurlHandle curl) :=
  ((h.emit _).emits _).emit _

theorem freeRequest (h : Twin w v) (request : SynapiRequest) :
    Twin (w.freeRequest request) (v.freeRequest request) :=
  (h.emit _).emit _

theorem curlMultiAddHandle (h : Twin w v) (request : SynapiRequest) (url : Bytes)
    (easy : Option Easy) (succeeds : Bool) :
    Twin (w.curlMultiAddHandle request url easy succeeds)
      (v.curlMultiAddHandle request url easy succeeds) := by
  have same := (h.emit (.multiAddHandle ⟨request, url, easy, succeeds && easy.isSome, w.view⟩)).acts
    w.fresh w.handle (w.multi.add easy succeeds)
  obtain ⟨i, n, trace, rfl, -⟩ := h
  exact same

theorem curlMultiInfoRead (h : Twin w v) : Twin w.curlMultiInfoRead v.curlMultiInfoRead := by
  have same := (h.emit (.multiInfoRead w.multi.messages.head?)).acts w.fresh w.handle
    { w.multi with messages := w.multi.messages.tail }
  obtain ⟨i, n, trace, rfl, -⟩ := h
  exact same

theorem curlMultiRemoveHandle (h : Twin w v) (handle : ℕ) :
    Twin (w.curlMultiRemoveHandle handle) (v.curlMultiRemoveHandle handle) := by
  have same := (h.emit (.multiRemoveHandle handle)).acts w.fresh w.handle (w.multi.remove handle)
  obtain ⟨i, n, trace, rfl, -⟩ := h
  exact same

theorem reap (h : Twin w v) (msg : CurlMsg) (curl : SynapiCurlHandle) :
    Twin (w.reap msg curl) (v.reap msg curl) := by
  unfold World.reap
  rw [h.handle]
  exact ((h.curlMultiInfoRead.curlMultiRemoveHandle _).setPool _).freeCurlHandle curl

theorem withApiKey (h : Twin w v) (a : CharArray 256) : Twin (w.withApiKey a) (v.withApiKey a) := by
  have same := (h.emits (w.handle.encodedApiKey.map (fun b => Event.free b.addr)).toList).malloc.acts
    (w.fresh + 1) (w.withApiKey a).handle w.multi
  obtain ⟨i, n, trace, rfl, -⟩ := h
  exact same

end Twin

/-! The functions -/

theorem getCurlHandle_twin (easyInit : Bool) (h : Twin w v) :
    Agree TwinResult (synapiGetCurlHandle easyInit w) (synapiGetCurlHandle easyInit v) := by
  cases hk : w.handle.pool.lowestFree with
  | none =>
    have hk' : v.handle.pool.lowestFree = none := by rw [h.handle, hk]
    rw [synapiGetCurlHandle_full easyInit hk, synapiGetCurlHandle_full easyInit hk']
    exact .error _
  | some k =>
    have hk' : v.handle.pool.lowestFree = some k := by rw [h.handle, hk]
    rw [synapiGetCurlHandle_free easyInit hk, synapiGetCurlHandle_free easyInit hk', h.fresh, h.handle]
    exact .ok ⟨rfl, ((h.setI k k).malloc.curlEasyInit easyInit).setPool _⟩

theorem freeRequest_twin (request : SynapiRequest) (h : Twin w v) :
    Agree Twin (synapiFreeRequest w request) (synapiFreeRequest v request) := by
  cases hnew : request.apiKeyRequest with
  | true =>
    rw [synapiFreeRequest_new w hnew, synapiFreeRequest_new v hnew]
    exact .ok (h.freeRequest request)
  | false =>
    rw [synapiFreeRequest_keyed w hnew, synapiFreeRequest_keyed v hnew, h.handle]
    exact .ok (((h.setI _ _).setRequests _).freeRequest request)

theorem closeGate_twin (h : Twin w v) : Agree Twin (closeGate w) (closeGate v) := by
  unfold closeGate
  rw [h.handle]
  apply Agree.bind_same
  intro a
  have same := h.acts w.fresh { w.handle with apiKeySet := false, apiKey := a } w.multi
  obtain ⟨i, n, trace, rfl, -⟩ := h
  exact .ok same

theorem buildUrl_twin (request : SynapiRequest) (h : Twin w v) :
    synapiBuildUrl v request = synapiBuildUrl w request := by
  obtain ⟨i, n, trace, rfl, -⟩ := h
  rfl

theorem send_twin (env : SendEnv) (request : SynapiRequest) (h : Twin w v) :
    Agree Twin (synapiSend env w request) (synapiSend env v request) := by
  rw [synapiSend, synapiSend, buildUrl_twin request h]
  apply Agree.bind_same
  intro url
  apply (getCurlHandle_twin env.easyInit h).bind
  rintro ⟨curl, w⟩ ⟨_, v⟩ ⟨rfl, hcurl⟩
  have h : Twin w v := hcurl
  have set := (h.setPool (w.handle.pool.modify (isCurlHandle curl)
    (fun c => { c with headers := request.headers }))).emit
      (.setopt curl.handle (sendOptions request url))
  simp only [h.handle]
  cases hnew : request.apiKeyRequest with
  | true =>
    simp only [if_true]
    apply (closeGate_twin set).bind
    intro a b hab
    exact freeRequest_twin request (hab.curlMultiAddHandle ..)
  | false =>
    simp only [Bool.false_eq_true, if_false]
    exact freeRequest_twin request (set.curlMultiAddHandle ..)

theorem built_twin (h : Twin w v) : Twin w.built v.built := by
  rw [← built_malloc, ← built_malloc]
  exact h.malloc.malloc.malloc

theorem newRequest_twin (action : SynapiAction) (method : SynapiMethod) (apiKeyRequest : Bool)
    (userData : Int32) (query : Bytes) (h : Twin w v) :
    newRequest v action method apiKeyRequest userData query =
      newRequest w action method apiKeyRequest userData query := by
  obtain ⟨i, n, trace, rfl, -⟩ := h
  rfl

theorem addressed_twin (ha : Addressed w) (h : Twin w v) : Addressed v := by
  obtain ⟨i, n, trace, rfl, -⟩ := h
  exact ⟨ha.baseUrl, ha.hostHeader⟩

theorem newServer_twin (env : SendEnv) (ha : Addressed w) (h : Twin w v) :
    Agree TwinResult (synapiNewServer env w) (synapiNewServer env v) := by
  rw [synapiNewServer, synapiNewServer, synapiQueue_new ha.hostHeader newRequest_query,
    synapiQueue_new (addressed_twin ha h).hostHeader newRequest_query, newRequest_twin _ _ _ _ _ h]
  apply (send_twin env _ (built_twin h)).bind
  intro a b hab
  exact .ok ⟨rfl, hab⟩

theorem keyed_twin (action : SynapiAction) (method : SynapiMethod) (userData : Int32)
    (options : Option (List SynapiOption)) (ha : Addressed w) (h : Twin w v) :
    Agree TwinResult (keyed w action method userData options)
      (keyed v action method userData options) := by
  have hh := ha.hostHeader
  have hh' := (addressed_twin ha h).hostHeader
  unfold keyed
  cases hq : synapiBuildQueryString method options with
  | error e =>
    rw [synapiQueue_textError hh hq, synapiQueue_textError hh' hq]
    exact .error e
  | ok query =>
    cases hk : w.handle.requests.lowestFree with
    | none =>
      have hk' : v.handle.requests.lowestFree = none := by rw [h.handle, hk]
      rw [synapiQueue_reject hh hq hk, synapiQueue_reject hh' hq hk', newRequest_twin _ _ _ _ _ h]
      exact .ok ⟨rfl, ((built_twin h).setI _ _).emit _⟩
    | some k =>
      have hk' : v.handle.requests.lowestFree = some k := by rw [h.handle, hk]
      rw [synapiQueue_accept hh hq hk, synapiQueue_accept hh' hq hk', newRequest_twin _ _ _ _ _ h,
        h.handle]
      exact .ok ⟨rfl, (((built_twin h).setI _ _).setRequests _).emit _⟩

theorem apiKey_twin (newApiKey : Bytes) (size : ℤ) (h : Twin w v) :
    Agree Twin (synapiApiKey w newApiKey size) (synapiApiKey v newApiKey size) := by
  unfold synapiApiKey
  rw [h.handle]
  apply Agree.bind_same
  intro a
  apply Agree.bind_same
  intro a
  apply Agree.bind_same
  intro a
  apply Agree.bind_same
  intro a
  exact .ok (h.withApiKey a)

theorem view_twin (h : Twin w v) : v.view = w.view := congrArg SynapiT.view h.handle

theorem url_twin (url hostHeader : CString) (h : Twin w v) :
    Agree Twin (synapiUrl w url hostHeader) (synapiUrl v url hostHeader) := by
  unfold synapiUrl
  rw [h.handle]
  apply Agree.bind_same
  intro base
  apply Agree.bind_same
  intro base
  apply Agree.bind_same
  intro host
  apply Agree.bind_same
  intro host
  have same := h.acts w.fresh { w.handle with baseUrl := base, hostHeader := host } w.multi
  have emitted := same.emit
    (.url (World.view { w with handle := { w.handle with baseUrl := base, hostHeader := host } }))
  obtain ⟨i, n, trace, rfl, -⟩ := h
  exact .ok emitted

/-! `synapi_perform` -/

theorem sendOne_twin (env : SendEnv) (h : Twin w v) : Agree Twin (sendOne env w) (sendOne env v) := by
  unfold sendOne
  rw [h.handle]
  cases w.handle.apiKeySet with
  | false => exact .ok h
  | true =>
    cases hj : w.handle.requests.lowestUsed with
    | none =>
      have hj' : v.handle.requests.lowestUsed = none := by rw [h.handle, hj]
      rw [sendLoop_empty env hj, sendLoop_empty env hj']
      exact .ok (h.setI _ _)
    | some j =>
      obtain ⟨-, ⟨request, hr⟩, -⟩ := SlotTable.lowestUsed_some hj
      have hj' : v.handle.requests.lowestUsed = some j := by rw [h.handle, hj]
      have hr' : v.handle.requests.slot j = some (some request) := by rw [h.handle, hr]
      rw [sendLoop_used env hj hr, sendLoop_used env hj' hr']
      apply ((send_twin env request (h.setI j j)).map (S := SameFlow Twin)
        (fun _ _ hab => .stop hab ())).bind
      intro a b hab
      cases hab with
      | next htwin => exact .ok htwin
      | stop htwin => exact .ok htwin

theorem progressStep_twin (x : Progress) (h : Twin w v) :
    Agree Twin (progressStep w x) (progressStep v x) := by
  cases x with
  | chunk handle data =>
    rw [progressStep, progressStep, h.multi]
    split_ifs
    · apply (apiKey_twin data _ h).bind
      intro a b hab
      simp only [view_twin hab]
      exact .ok (hab.emit _)
    · exact .ok h
  | done handle result =>
    rw [progressStep, progressStep, h.multi]
    split_ifs
    · have same := h.acts w.fresh w.handle (w.multi.complete handle result)
      obtain ⟨i, n, trace, rfl, -⟩ := h
      exact .ok same
    · exact .ok h

theorem wait_twin (timeo select select' : ℤ) (h : Twin w v) :
    Twin (wait timeo select w) (wait timeo select' v) :=
  (((h.emit _).emit _).emit _).setCounter _ _

-- Driven in vain where the other handle is not driven.
theorem drive_twin {progress progress' : List Progress} (h : Twin w v)
    (hdue : w.multiPerformCounter = 5 → v.multiPerformCounter = 5 ∧ progress' = progress)
    (hidle : w.multiPerformCounter ≠ 5 → progress' = []) :
    Agree Twin (drive progress w) (drive progress' v) := by
  unfold drive
  by_cases h5 : w.multiPerformCounter = 5
  · obtain ⟨h5', rfl⟩ := hdue h5
    rw [if_pos h5, if_pos h5']
    have driven : Agree Twin (curlMultiPerform w progress') (curlMultiPerform v progress') :=
      agree_run (Q := fun _ => True) (fun _ _ _ _ _ => trivial)
        (fun _ _ x _ h => progressStep_twin x h) progress' trivial (h.emit _)
    apply driven.bind
    intro a b hab
    exact .ok (hab.setCounter 0 0)
  · rw [if_neg h5, hidle h5]
    by_cases h5' : v.multiPerformCounter = 5
    · rw [if_pos h5']
      exact .ok (h.driven.setCounter w.multiPerformCounter 0)
    · rw [if_neg h5']
      exact .ok h

theorem reapOne_twin (hw : Inv w) (h : Twin w v) : Agree Twin (reapOne w) (reapOne v) := by
  rcases reapOne_cases hw with ⟨hm, hr⟩ | ⟨msg, rest, curl, k, i, hm, hk, hh, hr⟩ <;>
    rcases reapOne_cases (h.inv hw) with ⟨hm', hr'⟩ | ⟨msg', rest', curl', k', i', hm', hk', hh', hr'⟩ <;>
    rw [h.multi, hm] at hm'
  · rw [hr, hr']
    exact .ok h.curlMultiInfoRead
  · cases hm'
  · cases hm'
  · obtain ⟨rfl, rfl⟩ := List.cons.inj hm'
    rw [h.handle] at hk'
    obtain rfl := hw.flight.transfer_unique hk hk' hh hh'
    rw [hk] at hk'
    obtain rfl := Option.some.inj (Option.some.inj hk')
    rw [hr, hr']
    exact .ok ((h.reap msg curl).setI i i')

theorem drive_turned (env : PerformEnv) (h : Twin w v) :
    let alone := env.turned (decide (counted env.select w.multiPerformCounter = 5))
    Agree Twin (drive env.progress (wait env.timeo env.select w))
      (drive alone.progress (wait env.timeo alone.select v)) := by
  intro alone
  apply drive_twin (wait_twin env.timeo env.select alone.select h)
  · intro h5
    rw [wait_counter] at h5
    rw [wait_counter]
    simp only [alone, h5, decide_true]
    exact ⟨rfl, rfl⟩
  · intro h5
    rw [wait_counter] at h5
    simp only [alone, h5, decide_false]
    rfl

theorem perform_twin (env : PerformEnv) (hw : Inv w) (ha : Addressed w) (h : Twin w v) :
    Agree Twin (synapiPerform env w) (synapiPerform
      (env.turned (decide (counted env.select w.multiPerformCounter = 5))) v) := by
  have sent := (sendOne_twin env.send h).left
    (P := fun w₁ => sendOne env.send w = .ok w₁) (fun _ h₁ => h₁)
  apply sent.bind
  rintro w₁ v₁ ⟨h₁, hsent⟩
  have driven := drive_turned env h₁
  rw [(sendOne_spec hw ha hsent).counter] at driven
  apply (driven.left (fun _ h₃ => driven_inv hw ha hsent h₃)).bind
  rintro w₃ v₃ ⟨h₃, hw₃⟩
  exact reapOne_twin hw₃ h₃

theorem queued_twin (h : Twin w v) : Agree Twin (step w .queued) (step v .queued) := by
  obtain ⟨i, hi⟩ := synapiQueued_ok w
  obtain ⟨j, hj⟩ := synapiQueued_ok v
  rw [step, step, hi, hj]
  exact .ok (h.setI i j)

/-- When the handle's counter stands at `n` and is shared. -/
def due (n : ℤ) : Call → Bool
  | .perform env => decide (counted env.select n = 5)
  | _ => false

theorem step_twin (c : Call) (hw : Inv w) (ha : Addressed w) (h : Twin w v) :
    Agree Twin (step w c) (step v (c.turned (due w.multiPerformCounter c))) := by
  cases c with
  | newServer env => exact (newServer_twin env ha h).map (fun _ _ hab => hab.2)
  | updateServer | newPlayer | updatePlayer | deletePlayer | heartbeat =>
    exact (keyed_twin _ _ _ _ ha h).map (fun _ _ hab => hab.2)
  | perform env => exact perform_twin env hw ha h
  | apiKey newApiKey size =>
    apply (apiKey_twin newApiKey size h).bind
    intro a b hab
    simp only [view_twin hab]
    exact .ok (hab.emit _)
  | url url hostHeader => exact url_twin url hostHeader h
  | queued => exact queued_twin h

/-! The handles of a process -/

section Process

variable {ι : Type} [DecidableEq ι] {poolSize : ι → ℤ} {s s' : Process ι poolSize} {k : ι}

/-- The call, if it is one on `k`, as it would be made with `k` alone. -/
def Process.seen (k : ι) (s : Process ι poolSize) (c : ι × Call) : Option Call :=
  if c.1 = k then some (c.2.turned (due s.multiPerformCounter c.2)) else none

def Process.alone (k : ι) (s : Process ι poolSize) (calls : List (ι × Call)) : List Call :=
  project Process.call (Process.seen k) s calls

omit [DecidableEq ι] in
theorem load_twin {v : World (poolSize k)} (h : Twin (s.handles k) v) : Twin (s.load k) v := by
  obtain ⟨i, n, trace, rfl, htrace⟩ := h
  exact ⟨i, n, trace, rfl, htrace⟩

theorem call_twin {c : Call} {v : World (poolSize k)} (hs : s.Ok) (h : Twin (s.handles k) v) :
    Agree (fun t v' => Twin (t.handles k) v') (s.call (k, c))
      (step v (c.turned (due s.multiPerformCounter c))) := by
  obtain ⟨hw, ha⟩ := hs.load k
  have stepped : Agree (fun t v' => Twin (t.handles k) v') (s.call (k, c))
      ((step v (c.turned (due s.multiPerformCounter c))).map id) := by
    apply (step_twin c hw ha (load_twin h)).map
    intro w' v' htwin
    simp only [Process.store, Function.update_self]
    exact htwin
  rw [Except.map_id] at stepped
  exact stepped

theorem call_other {j : ι} {c : Call} (hj : k ≠ j) (h : s.call (j, c) = .ok s') :
    s'.handles k = s.handles k := by
  obtain ⟨w', -, rfl⟩ := call_eq h
  simp [Process.store, hj]

theorem handle_follows (k : ι) : Follows Process.call step (Process.seen k)
    (fun (s : Process ι poolSize) v => Twin (s.handles k) v) Process.Ok := by
  constructor
  · intro s c s' hs h
    exact hs.call h
  · rintro s v ⟨j, c⟩ d hs h hseen
    unfold Process.seen at hseen
    split_ifs at hseen with hj
    obtain rfl : j = k := hj
    rw [← Option.some.inj hseen]
    exact call_twin hs h
  · rintro s v ⟨j, c⟩ s' hs h hseen hcall
    unfold Process.seen at hseen
    split_ifs at hseen with hj
    rw [call_other (Ne.symm hj) hcall]
    exact h

theorem handle_reachable (h : s.Reachable) (k : ι) :
    ∃ w, Reachable w ∧ Twin (s.handles k) w := by
  have all : s.Ok ∧ ∃ w, Reachable w ∧ Twin (s.handles k) w := by
    apply h.invariant (P := fun s => s.Ok ∧ ∃ w, Reachable w ∧ Twin (s.handles k) w)
    · rintro s hstart
      obtain ⟨start, apiKey, hinit⟩ := hstart.2 k
      exact ⟨Process.Reachable.ok (.start hstart), s.handles k, .start ⟨start, apiKey, hinit⟩, .refl _⟩
    · rintro s c s' ⟨hs, w, hw, htwin⟩ - hcall
      have hrun : run Process.call s [c] = .ok s' := run_cons_ok.mpr ⟨s', hcall, rfl⟩
      obtain ⟨hs', w', hw', htwin'⟩ := project_ok (handle_follows k) hs htwin hrun
      exact ⟨hs', w', hw.run (fun _ _ _ _ _ _ => trivial) hw', htwin'⟩
  exact all.2

/-- Each handle of a process is one that a program with no other handle
reaches, and goes on as it would there; a call that fails fails there too. -/
theorem handles_alone (h : s.Reachable) :
    (∀ k, ∃ w, Reachable w ∧ Twin (s.handles k) w) ∧ ∀ calls,
      (∀ s', run Process.call s calls = .ok s' → ∀ k, ∃ w,
        run step (s.handles k) (s.alone k calls) = .ok w ∧ Twin (s'.handles k) w) ∧
      (∀ e, run Process.call s calls = .error e → ∃ k,
        run step (s.handles k) (s.alone k calls) = .error e) := by
  refine ⟨handle_reachable h, fun calls => ⟨?_, ?_⟩⟩
  · intro s' hrun k
    exact (project_ok (handle_follows k) h.ok (.refl _) hrun).2
  · intro e hrun
    obtain ⟨pre, ⟨k, c⟩, post, u, rfl, hpre, hfail⟩ := run_eq_error.mp hrun
    have hseen : Process.seen k u (k, c) = some (c.turned (due u.multiPerformCounter c)) := if_pos rfl
    exact ⟨k, project_error (handle_follows k) post h.ok (.refl _) hpre hseen hfail⟩

/-- The other handle's calls bring the turn of this one forward. -/
def turnCalls : List (Bool × Call) :=
  [(true, .perform .timeout), (true, .perform .timeout), (true, .perform .timeout),
    (true, .perform .timeout), (false, .perform .timeout)]

theorem handles_alone_turn : ∃ s s' : Process Bool (fun _ => 1),
    run Process.call s turnCalls = .ok s' ∧ s'.drives false = s.drives false + 1 ∧
      (s.alone false turnCalls).length = 1 ∧ ∃ w,
        run step (s.handles false) (s.alone false turnCalls) = .ok w ∧ Twin (s'.handles false) w := by
  have run : ∃ w ∈ (synapiInit .zero none 1).toOption,
      ∃ s' ∈ (run Process.call (Process.pair w) turnCalls).toOption,
      s'.drives false = (Process.pair w).drives false + 1 ∧
        ((Process.pair w).alone false turnCalls).length = 1 := by
    decide +kernel
  obtain ⟨w, hw, s', hs', hdrives, hlength⟩ := run
  have hrun := eq_ok_of_toOption hs'
  exact ⟨Process.pair w, s', hrun, hdrives, hlength,
    ((handles_alone (pair_reachable (eq_ok_of_toOption hw))).2 _).1 s' hrun false⟩

/-! What carries over from one handle to several -/

theorem marks_undriven (trace : List Event) : marks (undriven trace) = marks trace := by
  unfold marks undriven
  rw [List.filter_filter]
  apply List.filter_congr
  intro e _
  cases e <;> simp [Event.silent, Event.drives]

theorem Twin.marks (h : Twin w v) : marks w.trace = marks v.trace := by
  obtain ⟨i, n, trace, rfl, htrace⟩ := h
  rw [← marks_undriven, ← htrace, marks_undriven]

/-- The books of every handle are in order, and it sends with the key it held. -/
theorem handle_accounts (h : s.Reachable) (k : ι) : Accounts (s.handles k) ∧
    ∀ sent ∈ sents (s.handles k).trace, sent.request.apiKeyRequest = false → sent.Keyed := by
  obtain ⟨w, hw, htwin⟩ := handle_reachable h k
  have same : marks (s.handles k).trace = marks w.trace ++ [] := by
    rw [htwin.marks, List.append_nil]
  constructor
  · apply (reachable_accounts hw).frame same rfl rfl rfl
    · exact Nat.le_of_eq htwin.fresh
    · rw [htwin.handle]
    · rw [htwin.handle]
  · intro sent hs
    rw [sents_marks same] at hs
    exact sent_keyed hw (by simpa [sents] using hs)

end Process

end Synapi

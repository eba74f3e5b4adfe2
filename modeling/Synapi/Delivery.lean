import Synapi.HttpRequest
import Synapi.Accounts

/-!
What leaves for a call: every request handed to libcurl was made for one call
of the run, and the API reads in it what that call means.
-/

namespace Synapi

open Runs Relation Text FormEncoding

variable {p : ℤ} {C : World p → Call → Prop} {c : Call} {w₀ w w' u : World p}
  {r : SynapiRequest} {sent : Sent} {easy : Easy}

/-- The arguments with which the call calls `synapi_queue`. -/
def Call.requested :
    Call → Option (SynapiAction × SynapiMethod × Int32 × Option (List SynapiOption))
  | .newServer _ => some (.serversNew, .post, 0, none)
  | c => c.keyed

/-- On the handle `u`, the call `c` makes the request `r`. -/
structure Makes (u : World p) (c : Call) (r : SynapiRequest) (options : Option (List SynapiOption)) :
    Prop where
  requested : c.requested = some (r.action, r.method, r.userData, options)
  query : synapiBuildQueryString r.method options = .ok r.query.val
  headers : r.headers.map Block.val = some [u.handle.hostHeader.str]

structure Sent.Wired (sent : Sent) : Prop where
  options : ∀ easy, sent.easy = some easy → easy.options = sendOptions sent.request sent.url
  taken : sent.accepted = true → sent.easy.isSome = true
  new : sent.request.apiKeyRequest = true → sent.request.action = .serversNew ∧
    sent.url = snprintf 255 (sent.view.baseUrl ++ ascii "/servers")

/-! The requests -/

theorem requested_of_keyed {action method userData options}
    (hc : c.keyed = some (action, method, userData, options)) : c.requested = c.keyed := by
  cases c <;> first | rfl | cases hc

theorem requested_method {action method userData options}
    (hc : c.requested = some (action, method, userData, options)) : method ≠ .get := by
  rintro rfl
  cases c <;> simp [Call.requested, Call.keyed] at hc

theorem makes_newRequest {action method userData options query b}
    (hc : c.requested = some (action, method, userData, options))
    (hq : synapiBuildQueryString method options = .ok query) :
    Makes u c (newRequest u action method b userData query) options :=
  ⟨hc, hq, rfl⟩

theorem Effect.requests (h : Effect c w₀ w w') (hw : Inv w)
    (ha : ∀ r ∈ accepted w.trace, r ∈ accepted w₀.trace ∨ ∃ options, Makes w₀ c r options) :
    ∀ r ∈ accepted w'.trace, r ∈ accepted w₀.trace ∨ ∃ options, Makes w₀ c r options := by
  have same {mark : List Event} (hm : marks w'.trace = marks w.trace ++ mark)
      (hn : accepted mark = []) :
      ∀ r ∈ accepted w'.trace, r ∈ accepted w₀.trace ∨ ∃ options, Makes w₀ c r options := by
    intro r hr
    rw [accepted_marks hm, hn, List.append_nil] at hr
    exact ha r hr
  cases h with
  | counters => exact same (List.append_nil _).symm rfl
  | silent _ _ hs => exact same (marks_silent hs) rfl
  | queue hc hq hk =>
    intro r hr
    rw [accepted_marks (marks_queue w₀ _ _ _)] at hr
    rcases List.mem_append.mp hr with hr | hr
    · exact .inl hr
    · rw [List.mem_singleton.mp hr]
      exact .inr ⟨_, makes_newRequest ((requested_of_keyed hc).trans hc) hq⟩
  | send => exact same (marks_send w₀ _ _ _ _) rfl
  | register => exact same (marks_register w₀ _ _ _ _ _) rfl
  | setKey => exact same (marks_keyed rfl w₀ _) rfl
  | setUrl => exact same (marks_append _ _) rfl
  | write => exact same (marks_keyed rfl w _) rfl
  | complete => exact same (List.append_nil _).symm rfl
  | reap _ _ hm => exact same (marks_reap hm _) rfl

theorem effects_requests (h : ReflTransGen (Effect c w) w w') (hw : Inv w) :
    ∀ r ∈ accepted w'.trace, r ∈ accepted w.trace ∨ ∃ options, Makes w c r options := by
  induction h with
  | refl => exact fun r hr => .inl hr
  | tail path he ih => exact he.requests (inv_of_effects path hw) ih

/-! The registrations -/

theorem Effect.registrations (h : Effect c w₀ w w') (hw : Inv w) (hc : ∀ env, c ≠ .newServer env)
    (hs : sent ∈ sents w'.trace) (hr : sent.request.apiKeyRequest = true) :
    sent ∈ sents w.trace := by
  have same {mark : List Event} (hm : marks w'.trace = marks w.trace ++ mark)
      (hn : sents mark = []) : sent ∈ sents w.trace := by
    rw [sents_marks hm, hn, List.append_nil] at hs
    exact hs
  cases h with
  | counters => exact same (List.append_nil _).symm rfl
  | silent _ _ hsilent => exact same (marks_silent hsilent) rfl
  | queue => exact same (marks_queue w₀ _ _ _) rfl
  | @send env request key j k _ _ _ _ hslot =>
    rw [sents_marks (marks_send w₀ _ _ _ _)] at hs
    rcases List.mem_append.mp hs with hs | hs
    · exact hs
    · rw [List.mem_singleton.mp hs] at hr
      have keyed := (hw.waiting.keyed request (SlotTable.mem_occupants.mpr ⟨j, hslot⟩)).1
      exact absurd (hr.symm.trans keyed) (by decide)
  | register hnew => exact absurd hnew (hc _)
  | setKey => exact same (marks_keyed rfl w₀ _) rfl
  | setUrl => exact same (marks_append _ _) rfl
  | write => exact same (marks_keyed rfl w _) rfl
  | complete => exact same (List.append_nil _).symm rfl
  | reap _ _ hm => exact same (marks_reap hm _) rfl

theorem newServer_registrations {env : SendEnv} (hw : Inv w) (ha : Addressed w)
    (h : step w (.newServer env) = .ok w') (hs : sent ∈ sents w'.trace) :
    sent ∈ sents w.trace ∨ Makes w (.newServer env) sent.request none := by
  cases hk : w.handle.pool.lowestFree with
  | none =>
    rw [step_full (c := .newServer env) hw ha trivial hk] at h
    cases h
  | some k =>
    obtain ⟨a, -, hr⟩ := newServer_built env hw ha hk
    rw [step, hr] at h
    rw [← Except.ok.inj h, sents_marks (marks_register w _ _ _ _ _)] at hs
    rcases List.mem_append.mp hs with hs | hs
    · exact .inl hs
    · rw [List.mem_singleton.mp hs]
      exact .inr (makes_newRequest rfl newRequest_query)

theorem step_registrations (hw : Inv w) (ha : Addressed w) (h : step w c = .ok w')
    (hs : sent ∈ sents w'.trace) (hr : sent.request.apiKeyRequest = true) :
    sent ∈ sents w.trace ∨ ∃ options, Makes w c sent.request options := by
  by_cases hc : ∃ env, c = .newServer env
  · obtain ⟨env, rfl⟩ := hc
    exact (newServer_registrations hw ha h hs).imp_right (fun hm => ⟨none, hm⟩)
  · apply Or.inl
    have effects := step_effects hw ha h
    clear h
    induction effects with
    | refl => exact hs
    | tail path he ih =>
      exact ih (he.registrations (inv_of_effects path hw) (fun env h => hc ⟨env, h⟩) hs hr)

/-! Runs -/

/-- The call was made in a run to `w` whose calls meet `C`, on the handle `u`. -/
def MadeIn (C : World p → Call → Prop) (r : SynapiRequest) : Prop :=
  ∃ u c options, ReachableBy C u ∧ C u c ∧ Makes u c r options

theorem synapiInit_trace {start : Start} {apiKey : Option CString}
    (h : synapiInit start apiKey p = .ok w) : accepted w.trace = [] ∧ sents w.trace = [] := by
  apply And.right
  refine synapiInit_invariant (C := fun _ c => Call.Sets c)
    (P := fun w => accepted w.trace = [] ∧ sents w.trace = []) (fun _ _ hc => hc) ?_ ?_ h
  · intro start a i _
    have hm : marks ((blank start a p).setI i).trace = marks [] ++ [] := marks_blank start a i
    exact ⟨accepted_marks hm, sents_blank start a i⟩
  · rintro c w₀ w w' hc - - ⟨ha, hs⟩ he
    have same {mark : List Event} (hm : marks w'.trace = marks w.trace ++ mark)
        (hna : accepted mark = []) (hns : sents mark = []) :
        accepted w'.trace = [] ∧ sents w'.trace = [] := by
      rw [accepted_marks hm, sents_marks hm, ha, hs, hna, hns]
      exact ⟨rfl, rfl⟩
    cases he with
    | counters => exact same (List.append_nil _).symm rfl rfl
    | silent _ _ hsilent => exact same (marks_silent hsilent) rfl rfl
    | setKey => exact same (marks_keyed rfl w₀ _) rfl rfl
    | setUrl => exact same (marks_append _ _) rfl rfl
    | queue hkeyed => cases c <;> first | exact hc.elim | cases hkeyed
    | send hcall | register hcall | write _ hcall | complete _ hcall | reap _ hcall =>
      rw [hcall] at hc
      exact hc.elim

theorem accepted_madeIn (h : ReachableBy C w) (hr : r ∈ accepted w.trace) : MadeIn C r := by
  induction h generalizing r with
  | start hinit =>
    obtain ⟨start, apiKey, hinit⟩ := hinit
    rw [(synapiInit_trace hinit).1] at hr
    cases hr
  | @next u w c hu hc hstep ih =>
    obtain ⟨hinv, ha⟩ := reachable_inv hu
    rcases effects_requests (step_effects hinv ha hstep) hinv r hr with hr | ⟨options, hm⟩
    · exact ih hr
    · exact ⟨u, c, options, hu, hc, hm⟩

theorem registration_madeIn (h : ReachableBy C w) (hs : sent ∈ sents w.trace)
    (hr : sent.request.apiKeyRequest = true) : MadeIn C sent.request := by
  induction h with
  | start hinit =>
    obtain ⟨start, apiKey, hinit⟩ := hinit
    rw [(synapiInit_trace hinit).2] at hs
    cases hs
  | @next u w c hu hc hstep ih =>
    obtain ⟨hinv, ha⟩ := reachable_inv hu
    rcases step_registrations hinv ha hstep hs hr with hs | ⟨options, hm⟩
    · exact ih hs
    · exact ⟨u, c, options, hu, hc, hm⟩

theorem accepted_of_sent (h : ReachableBy C w) (hs : sent ∈ sents w.trace)
    (hr : sent.request.apiKeyRequest = false) : sent.request ∈ accepted w.trace := by
  apply (reachable_accounts h).requests.mem_iff.mpr
  apply List.mem_append_left
  apply List.mem_filterMap.mpr
  exact ⟨sent, hs, by rw [Sent.waited, hr]; rfl⟩

theorem sent_madeIn (h : ReachableBy C w) (hs : sent ∈ sents w.trace) : MadeIn C sent.request := by
  cases hr : sent.request.apiKeyRequest with
  | true => exact registration_madeIn h hs hr
  | false => exact accepted_madeIn h (accepted_of_sent h hs hr)

theorem newSent_taken {env : SendEnv} {request : SynapiRequest} {url : Bytes} {view : HandleView}
    (h : (newSent env w request url view).accepted = true) :
    (newSent env w request url view).easy.isSome = true :=
  (Bool.and_eq_true_iff.mp h).2

theorem newSent_options {env : SendEnv} {request : SynapiRequest} {url : Bytes}
    {view : HandleView} (h : (newSent env w request url view).easy = some easy) :
    easy.options = sendOptions request url := by
  obtain ⟨id, -, rfl⟩ := Option.map_eq_some_iff.mp h
  rfl

theorem sent_wired (h : ReachableBy C w) : ∀ sent ∈ sents w.trace, sent.Wired := by
  refine reachable_induction (P := fun w => ∀ sent ∈ sents w.trace, sent.Wired) ?_ ?_ h
  · intro start a i _ sent hs
    rw [sents_blank] at hs
    cases hs
  · intro c w₀ w w' hw ih he sent hs
    have same {mark : List Event} (hm : marks w'.trace = marks w.trace ++ mark)
        (hn : sents mark = []) : sent.Wired := by
      rw [sents_marks hm, hn, List.append_nil] at hs
      exact ih sent hs
    cases he with
    | counters => exact same (List.append_nil _).symm rfl
    | silent _ _ hsilent => exact same (marks_silent hsilent) rfl
    | queue => exact same (marks_queue w₀ _ _ _) rfl
    | @send env request key j k _ _ _ _ hslot =>
      rw [sents_marks (marks_send w₀ _ _ _ _)] at hs
      rcases List.mem_append.mp hs with hs | hs
      · exact ih sent hs
      · rw [List.mem_singleton.mp hs]
        have keyed := (hw.waiting.keyed request (SlotTable.mem_occupants.mpr ⟨j, hslot⟩)).1
        exact ⟨fun easy => newSent_options, newSent_taken,
          fun hr => absurd (hr.symm.trans keyed) (by decide)⟩
    | register =>
      rw [sents_marks (marks_register w₀ _ _ _ _ _)] at hs
      rcases List.mem_append.mp hs with hs | hs
      · exact ih sent hs
      · rw [List.mem_singleton.mp hs]
        exact ⟨fun easy => newSent_options, newSent_taken, fun _ => ⟨rfl, rfl⟩⟩
    | setKey => exact same (marks_keyed rfl w₀ _) rfl
    | setUrl => exact same (marks_append _ _) rfl
    | write => exact same (marks_keyed rfl w _) rfl
    | complete => exact same (List.append_nil _).symm rfl
    | reap _ _ hm => exact same (marks_reap hm _) rfl

theorem sent_url (h : ReachableBy C w) (hs : sent ∈ sents w.trace) :
    sent.url = snprintf 255 (urlOf sent.request.action sent.view.baseUrl
      (curlEscape sent.view.apiKey) sent.request.userData) := by
  cases hr : sent.request.apiKeyRequest with
  | true =>
    obtain ⟨haction, hurl⟩ := (sent_wired h sent hs).new hr
    rw [hurl, haction]
    rfl
  | false => exact (sent_keyed h hs hr).url

/-! What the API reads -/

def Call.meaning (c : Call) (key hostHeader : Bytes) : Option RestRequest :=
  c.requested.map (fun (action, method, userData, options) =>
    ⟨method, action.resource key userData, [hostHeader].filterMap customHeader,
      optionMeaning (options.getD [])⟩)

/-- Its query fits the buffer of `synapi_build_query_string`. -/
def Call.Short (c : Call) : Prop :=
  ∀ a ∈ c.requested, (queryText (a.2.2.2.getD []) a.2.1).length ≤ 2047

instance (c : Call) : Decidable c.Short :=
  inferInstanceAs (Decidable (∀ a ∈ c.requested, _))

theorem query_short {method : SynapiMethod} {options : Option (List SynapiOption)} {query : Bytes}
    (hq : synapiBuildQueryString method options = .ok query)
    (h : (queryText (options.getD []) method).length ≤ 2047) :
    query = queryText (options.getD []) method := by
  cases options with
  | none =>
    rw [synapiBuildQueryString_none] at hq
    exact (Except.ok.inj hq).symm
  | some options =>
    have whole : synapiBuildQueryString method (some options) = .ok (queryText options method) :=
      synapiBuildQueryString_short h
    exact Except.ok.inj (hq.symm.trans whole)

theorem read_made {options : Option (List SynapiOption)} (hm : Makes u c r options) (hc : c.Short)
    (base key : Bytes) :
    HttpRequest.read base ⟨methodKeyword r.method,
        urlOf r.action base (curlEscape key) r.userData, hostHeaders r, r.query.val⟩ =
      c.meaning key u.handle.hostHeader.str := by
  have short := hc _ hm.requested
  have headers : hostHeaders r = [u.handle.hostHeader.str].filterMap customHeader := by
    obtain ⟨headers, hh, hv⟩ := Option.map_eq_some_iff.mp hm.headers
    rw [hostHeaders, hh, ← hv]
  rw [read_request base key (requested_method hm.requested) (query_short hm.query short), headers,
    Call.meaning, hm.requested]
  rfl

theorem made_read (h : ReachableBy C w) (hs : sent ∈ sents w.trace) (he : sent.easy = some easy)
    {options : Option (List SynapiOption)} (hm : Makes u c sent.request options) (hc : c.Short)
    (hurl : (urlOf sent.request.action sent.view.baseUrl (curlEscape sent.view.apiKey)
      sent.request.userData).length ≤ 254) :
    (curlHttp easy.userDefined).bind (HttpRequest.read sent.view.baseUrl) =
      c.meaning sent.view.apiKey u.handle.hostHeader.str := by
  have wired := sent_wired h sent hs
  have whole := (sent_url h hs).trans (snprintf_whole (by omega))
  have http := curlHttp_sendOptions easy.id sent.request sent.url
  rw [← wired.options easy he] at http
  rw [http, Option.bind_some, whole]
  exact read_made hm hc _ _

theorem sent_read (h : ReachableBy C w) (hshort : ∀ u c, C u c → c.Short)
    (hs : sent ∈ sents w.trace) (he : sent.easy = some easy)
    (hurl : (urlOf sent.request.action sent.view.baseUrl (curlEscape sent.view.apiKey)
      sent.request.userData).length ≤ 254) :
    ∃ u c options, C u c ∧ Makes u c sent.request options ∧
      (curlHttp easy.userDefined).bind (HttpRequest.read sent.view.baseUrl) =
        c.meaning sent.view.apiKey u.handle.hostHeader.str := by
  obtain ⟨u, c, options, -, hc, hm⟩ := sent_madeIn h hs
  exact ⟨u, c, options, hc, hm, made_read h hs he hm (hshort u c hc) hurl⟩

end Synapi

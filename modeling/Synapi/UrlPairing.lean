import Synapi.Accounts
import Synapi.KeyGate

/-!
The URL and the `Host` header of a request: the header is read from the handle
when the request is made, the base URL when it is sent.
-/

namespace Synapi

open Runs Relation Text Replay

variable {p : ℤ} {C : World p → Call → Prop} {c : Call} {w₀ w w' : World p}

def Event.urlCall : Event → Option HandleView
  | .url view => some view
  | _ => none

/-- What a request takes from the handle, besides what the key gate says. -/
def Event.Headed (v : HandleView) : Event → Prop
  | .queued request _ => request.headers.map Block.val = some [v.hostHeader]
  | .multiAddHandle sent => sent.request.apiKeyRequest = true →
      sent.request.headers.map Block.val = some [v.hostHeader] ∧
        sent.url = snprintf 255 (urlOf sent.request.action v.baseUrl (curlEscape sent.view.apiKey)
          sent.request.userData)
  | _ => True

/-- The call of `synapi_url` made after the events `first` is the last one of `events`. -/
def LastUrl (events first : List Event) (view : HandleView) : Prop :=
  ∃ second, events = first ++ .url view :: second ∧ ∀ e ∈ second, e.urlCall = none

/-- A registration is made and sent in one call, any other request is queued first. -/
def MadeAfter (request : SynapiRequest) (pre made : List Event) : Prop :=
  if request.apiKeyRequest then made = pre
  else ∃ k rest, pre = made ++ .queued request k :: rest

/-- The URL and the header are those of one call of `synapi_url`, which was the
last one both when the request was made and when it was sent. -/
def OneUrl (pre : List Event) (sent : Sent) : Prop :=
  ∃ first view made, MadeAfter sent.request pre made ∧ LastUrl pre first view ∧
    LastUrl made first view ∧
    sent.url = snprintf 255 (urlOf sent.request.action view.baseUrl (curlEscape sent.view.apiKey)
      sent.request.userData) ∧
    sent.request.headers.map Block.val = some [view.hostHeader]

/-! What the events before a request say -/

theorem headed_plain {e : Event} (h : (!e.silent) = false) (v : HandleView) :
    e.Headed v ∧ e.after v = v := by
  cases e <;> first | exact ⟨trivial, rfl⟩ | cases h

theorem Effect.headed (h : Effect c w₀ w w') (hw : Inv w₀) :
    ∃ mark, marks w'.trace = marks w.trace ++ mark ∧
      Replay.Legal Event.after Event.Headed w.view mark := by
  cases h with
  | counters => exact ⟨[], (List.append_nil _).symm, trivial⟩
  | silent _ events hs => exact ⟨[], marks_silent hs, trivial⟩
  | queue => exact ⟨_, marks_queue w₀ _ _ _, rfl, trivial⟩
  | @send env request key j k hc hset hkey hj hr hk =>
    have keyed := (hw.waiting.keyed request (SlotTable.mem_occupants.mpr ⟨j, hr⟩)).1
    refine ⟨_, marks_send w₀ _ _ _ _, fun hnew => ?_, trivial⟩
    rw [newSent, keyed] at hnew
    cases hnew
  | register => exact ⟨_, marks_register w₀ _ _ _ _ _, fun _ => ⟨rfl, rfl⟩, trivial⟩
  | setKey => exact ⟨_, marks_keyed rfl w₀ _, trivial, trivial⟩
  | setUrl => exact ⟨_, marks_append _ _, trivial, trivial⟩
  | write => exact ⟨_, marks_keyed rfl w _, trivial, trivial⟩
  | complete => exact ⟨[], (List.append_nil _).symm, trivial⟩
  | reap _ _ hm => exact ⟨_, marks_reap hm _, trivial, trivial⟩

theorem reachable_headed (h : ReachableBy C w) : ∃ v, Tells v w.trace w.view ∧
    Replay.Legal Event.after Event.Headed v w.trace := by
  refine reachableBy_invariant (C := fun _ _ => True) (P := fun w => ∃ v, Tells v w.trace w.view ∧
    Replay.Legal Event.after Event.Headed v w.trace) (fun _ _ _ => trivial) ?_ ?_
      (reachableBy_reachable h)
  · intro start a i ha
    refine ⟨_, tells_of_marks (marks_blank start a i) recorded_nil, ?_⟩
    apply (legal_filter (fun e he v => headed_plain he v) _ _).mp
    rw [← marks, marks_blank]
    trivial
  · rintro c w₀ w w' - hinv path ⟨v, ht, hh⟩ he
    obtain ⟨events, hevents, hr⟩ := he.extends (inv_of_effects path hinv)
    obtain ⟨mark, hmark, hm⟩ := he.headed hinv
    have plain : ∀ e : Event, (!e.silent) = false → ∀ u, e.Headed u ∧ e.after u = u :=
      fun e => headed_plain
    rw [hevents, marks_append, List.append_cancel_left_eq] at hmark
    refine ⟨v, by rw [hevents]; exact ht.append hr, ?_⟩
    rw [hevents, legal_append, ht.2]
    refine ⟨hh, (legal_filter plain _ _).mp ?_⟩
    rw [← marks, hmark]
    exact hm

theorem last_url {v : HandleView} {events first : List Event} {view : HandleView}
    (hl : Replay.Legal Event.after Event.Legal v events) (h : LastUrl events first view) :
    (replay Event.after v events).baseUrl = view.baseUrl ∧
      (replay Event.after v events).hostHeader = view.hostHeader := by
  obtain ⟨second, rfl, hsecond⟩ := h
  rw [replay_append]
  refine replay_invariant (P := fun u => u.baseUrl = view.baseUrl ∧ u.hostHeader = view.hostHeader)
    (fun e he u hu hlegal => ?_) (legal_append.mp hl).2.2 ⟨rfl, rfl⟩
  cases e with
  | url _ => cases hsecond _ he
  | apiKey _ => obtain ⟨key, rfl⟩ := hlegal; exact hu
  | apiKeyWrite handle data _ => obtain ⟨-, rfl⟩ := hlegal; exact hu
  | multiAddHandle sent =>
    rw [Event.Legal] at hlegal
    split_ifs at hlegal
    · rw [Event.after, Event.view, Option.getD_some, hlegal]
      exact hu
    · rw [Event.after, Event.view, Option.getD_some, hlegal.1]
      exact hu
  | _ => exact hu

theorem lastUrl_exists {events : List Event} {view : HandleView} (h : .url view ∈ events) :
    ∃ first last, LastUrl events first last := by
  rcases split_last (fun e => e.urlCall ≠ none) events with hnone | ⟨first, e, second, rfl, he, hs⟩
  · exact absurd (Option.some_ne_none view) (hnone _ h)
  · cases e with
    | url last => exact ⟨first, last, second, rfl, fun x hx => not_not.mp (hs x hx)⟩
    | _ => exact absurd rfl he

theorem LastUrl.append {events first rest : List Event} {view : HandleView}
    (h : LastUrl events first view) (hr : ∀ e ∈ rest, e.urlCall = none) :
    LastUrl (events ++ rest) first view := by
  obtain ⟨second, rfl, hs⟩ := h
  refine ⟨second ++ rest, by rw [List.append_assoc, List.cons_append], fun e he => ?_⟩
  rcases List.mem_append.mp he with he | he
  · exact hs e he
  · exact hr e he

/-! The first call of `synapi_url` -/

theorem synapiInit_event {start : Start} {apiKey : Option CString}
    (h : synapiInit start apiKey p = .ok w) : ∃ view, .url view ∈ w.trace := by
  obtain ⟨u, hurl⟩ := synapiInit_url h
  obtain ⟨base, host, -, -, -, -, hr⟩ := synapiUrl_ok u defaultUrl defaultHostHeader
  rw [hr] at hurl
  rw [← Except.ok.inj hurl]
  exact ⟨_, List.mem_append_right _ List.mem_cons_self⟩

theorem synapiInit_unsent {start : Start} {apiKey : Option CString}
    (h : synapiInit start apiKey p = .ok w) : sents w.trace = [] := by
  refine (synapiInit_invariant (C := fun _ c => c.Sets) (P := fun w => sents w.trace = [])
    (fun _ _ hc => hc) (fun start a i _ => sents_blank start a i) ?_ h).2
  rintro c w₀ w w' hc - - hw he
  have frame {mark : List Event} (hm : marks w'.trace = marks w.trace ++ mark)
      (hs : sents mark = []) : sents w'.trace = [] := by
    rw [sents_marks hm, hs, hw, List.append_nil]
  cases he with
  | counters => exact hw
  | silent _ events hs => exact frame (marks_silent hs) rfl
  | queue => exact frame (marks_queue w₀ _ _ _) rfl
  | send hcall => rw [hcall] at hc; exact hc.elim
  | register hcall => rw [hcall] at hc; exact hc.elim
  | setKey => exact frame (marks_keyed rfl w₀ _) rfl
  | setUrl => exact frame (marks_append _ _) rfl
  | write => exact frame (marks_keyed rfl w _) rfl
  | complete => exact hw
  | reap _ _ hm => exact frame (marks_reap hm _) rfl

theorem addressed_first (h : ReachableBy C w) : ∃ first view rest,
    w.trace = first ++ rest ∧ .url view ∈ first ∧ sents first = [] := by
  refine (reachableBy_reachable h).invariant
    (P := fun w => Reachable w ∧ ∃ first view rest, w.trace = first ++ rest ∧ .url view ∈ first ∧
      sents first = []) ?_ ?_ |>.2
  · rintro w ⟨start, apiKey, hinit⟩
    obtain ⟨view, hview⟩ := synapiInit_event hinit
    exact ⟨.start ⟨start, apiKey, hinit⟩, w.trace, view, [], (List.append_nil _).symm, hview,
      synapiInit_unsent hinit⟩
  · rintro w c w' ⟨hreach, first, view, rest, ht, hview, hs⟩ - hstep
    obtain ⟨hinv, ha⟩ := reachable_inv hreach
    obtain ⟨events, ht', -⟩ := extends_of_effects (step_effects hinv ha hstep) hinv
    exact ⟨hreach.next trivial hstep, first, view, rest ++ events,
      by rw [ht', ht, List.append_assoc], hview, hs⟩

theorem addressed_before (h : ReachableBy C w) {pre post : List Event} {sent : Sent}
    (ht : w.trace = pre ++ .multiAddHandle sent :: post) : ∃ view, .url view ∈ pre := by
  obtain ⟨first, view, rest, hf, hview, hs⟩ := addressed_first h
  refine ⟨view, ?_⟩
  rw [hf] at ht
  rcases List.append_eq_append_iff.mp ht with ⟨between, rfl, -⟩ | ⟨between, rfl, hrest⟩
  · exact List.mem_append_left _ hview
  · cases between with
    | nil => rwa [List.append_nil] at hview
    | cons e between =>
      obtain ⟨rfl, -⟩ := List.cons.inj hrest
      have sent_first : sent ∈ sents (pre ++ .multiAddHandle sent :: between) :=
        mem_sents.mpr (by simp)
      rw [hs] at sent_first
      cases sent_first

theorem waited_of_oneUrl {pre : List Event} {sent : Sent} (h : OneUrl pre sent)
    (hr : sent.request.apiKeyRequest ≠ true) : ∃ made k rest,
      pre = made ++ .queued sent.request k :: rest ∧ ∀ e ∈ rest, e.urlCall = none := by
  obtain ⟨first, view, made, hmade, ⟨second, hpre, hsecond⟩, ⟨second', rfl, -⟩, -, -⟩ := h
  rw [MadeAfter, if_neg hr] at hmade
  obtain ⟨k, rest, rfl⟩ := hmade
  refine ⟨_, k, rest, rfl, fun e he => hsecond e ?_⟩
  rw [List.append_assoc, List.append_cancel_left_eq, List.cons_append, List.cons.injEq] at hpre
  rw [← hpre.2]
  exact List.mem_append_right _ (List.mem_cons_of_mem _ he)

section Sent

variable {v view₀ : HandleView} {pre : List Event} {sent : Sent}

theorem oneUrl_registered (hl : Replay.Legal Event.after Event.Legal v pre)
    (hh : (Event.multiAddHandle sent).Headed (replay Event.after v pre))
    (hurl : .url view₀ ∈ pre) (hr : sent.request.apiKeyRequest = true) : OneUrl pre sent := by
  obtain ⟨first, view, hlast⟩ := lastUrl_exists hurl
  obtain ⟨hbase, hhost⟩ := last_url hl hlast
  obtain ⟨hheader, hsent⟩ := hh hr
  rw [hbase] at hsent
  rw [hhost] at hheader
  exact ⟨first, view, pre, by rw [MadeAfter, if_pos hr], hlast, hlast, hsent, hheader⟩

theorem oneUrl_queued {made rest : List Event} {k : ℕ}
    (hpre : pre = made ++ .queued sent.request k :: rest) (hrest : ∀ e ∈ rest, e.urlCall = none)
    (hl : Replay.Legal Event.after Event.Legal v pre)
    (hlegal : (Event.multiAddHandle sent).Legal (replay Event.after v pre))
    (hh : Replay.Legal Event.after Event.Headed v pre) (hurl : .url view₀ ∈ pre)
    (hr : sent.request.apiKeyRequest ≠ true) : OneUrl pre sent := by
  subst hpre
  have since : ∀ e ∈ Event.queued sent.request k :: rest, e.urlCall = none :=
    List.forall_mem_cons.mpr ⟨rfl, hrest⟩
  have hmade : .url view₀ ∈ made := by
    refine (List.mem_append.mp hurl).resolve_right (fun hm => ?_)
    cases since _ hm
  obtain ⟨first, view, hlast⟩ := lastUrl_exists hmade
  have hsent := hlast.append since
  obtain ⟨-, hhost⟩ := last_url (legal_append.mp hl).1 hlast
  obtain ⟨hbase, -⟩ := last_url hl hsent
  have hheader := ((legal_append.mp hh).2.1 : Event.Headed _ (.queued _ _))
  rw [Event.Headed, hhost] at hheader
  rw [Event.Legal, if_neg hr] at hlegal
  obtain ⟨hv, -, -, hadd⟩ := hlegal
  rw [hbase, ← hv] at hadd
  exact ⟨first, view, made, by rw [MadeAfter, if_neg hr]; exact ⟨k, rest, rfl⟩, hsent, hlast,
    hadd, hheader⟩

end Sent

/-- The URL and the `Host` header of a request belong together exactly when
`synapi_url` was not called while the request waited. -/
theorem one_url_iff (h : Reachable w) {pre post : List Event} {sent : Sent}
    (ht : w.trace = pre ++ .multiAddHandle sent :: post) : OneUrl pre sent ↔
      sent.request.apiKeyRequest = true ∨ ∃ made k rest,
        pre = made ++ .queued sent.request k :: rest ∧ ∀ e ∈ rest, e.urlCall = none := by
  obtain ⟨v, ⟨hl, -⟩, hh⟩ := reachable_headed h
  obtain ⟨view₀, hurl⟩ := addressed_before h ht
  rw [ht] at hl hh
  obtain ⟨before, hlegal, -⟩ := legal_append.mp hl
  obtain ⟨headed, hadd, -⟩ := legal_append.mp hh
  by_cases hr : sent.request.apiKeyRequest = true
  · exact iff_of_true (oneUrl_registered before hadd hurl hr) (.inl hr)
  · constructor
    · exact fun hone => .inr (waited_of_oneUrl hone hr)
    · intro hcond
      obtain ⟨made, k, rest, hpre, hrest⟩ := hcond.resolve_left hr
      exact oneUrl_queued hpre hrest before hlegal headed hurl hr

theorem one_url_moved : ∃ (w : World 1) (pre post : List Event) (sent : Sent),
    sent.request.action = .heartbeat ∧ w.trace = pre ++ .multiAddHandle sent :: post ∧
      (OneUrl pre sent ↔ sent.request.apiKeyRequest = true ∨ ∃ made k rest,
        pre = made ++ .queued sent.request k :: rest ∧ ∀ e ∈ rest, e.urlCall = none) := by
  have run : ∃ w ∈ trial (p := 1) (fun _ _ => True) (some (literal "SYN:S:1:ab"))
      [.url (literal "http://127.0.0.1") (literal "Host: api.serversyn.local"), .heartbeat,
        .perform (.smooth [])],
      ∃ sent ∈ sents w.trace, sent.request.action = .heartbeat := by
    decide +kernel
  obtain ⟨w, hw, sent, hs, haction⟩ := trial_exists run
  obtain ⟨pre, post, ht⟩ := List.append_of_mem (mem_sents.mp hs)
  exact ⟨w, pre, post, sent, haction, ht, one_url_iff hw ht⟩

theorem header_of_another_url : ∃ w : World 1, Reachable w ∧ ∃ pre sent post,
    w.trace = pre ++ .multiAddHandle sent :: post ∧ ¬ OneUrl pre sent := by
  have run : ∃ w ∈ trial (p := 1) (fun _ _ => True) (some (literal "SYN:S:1:ab"))
      [.heartbeat, .url (literal "http://127.0.0.1") (literal "Host: api.serversyn.local"),
        .perform (.smooth [])],
      ∃ sent ∈ sents w.trace, ∀ view ∈ w.trace.filterMap Event.urlCall,
        ¬ (sent.url = snprintf 255 (urlOf sent.request.action view.baseUrl
            (curlEscape sent.view.apiKey) sent.request.userData) ∧
          sent.request.headers.map Block.val = some [view.hostHeader]) := by
    decide +kernel
  obtain ⟨w, hw, sent, hs, hnone⟩ := trial_exists run
  obtain ⟨pre, post, ht⟩ := List.append_of_mem (mem_sents.mp hs)
  refine ⟨w, hw, pre, sent, post, ht, ?_⟩
  rintro ⟨first, view, made, -, ⟨second, hpre, -⟩, -, hurl, hheader⟩
  refine hnone view (List.mem_filterMap.mpr ⟨.url view, ?_, rfl⟩) ⟨hurl, hheader⟩
  rw [ht, hpre]
  simp

end Synapi

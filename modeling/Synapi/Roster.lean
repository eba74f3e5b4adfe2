import Synapi.Directory
import Synapi.SessionRequests
import Synapi.QueueOrder

/-!
What the API knows of the players: in a session that keeps its requests in
order, the requests handed over show the board after a part of the events.
-/

namespace Synapi

open Runs Relation Text Replay FormEncoding

variable {p : ℤ} {c : Call} {w w' : World p} {r : SynapiRequest} {base host : Bytes}

/-- A request of the call gets a slot, above all that wait. -/
def Orderly (w : World p) (c : Call) : Prop :=
  NoneAbove w c ∧ (c.keyed.isSome = true → w.handle.requests.lowestFree ≠ none)

instance (w : World p) (c : Call) : Decidable (Orderly w c) :=
  inferInstanceAs (Decidable (_ ∧ _))

/-! The accepted requests are those of the calls -/

theorem step_of_keyed {action method userData options} (w : World p)
    (hc : c.keyed = some (action, method, userData, options)) :
    step w c = (keyed w action method userData options).map Prod.snd := by
  cases c <;> cases hc <;> rfl

theorem step_unkeyed (hw : Inv w) (ha : Addressed w) (hc : c.keyed = none)
    (h : step w c = .ok w') : accepted w'.trace = accepted w.trace := by
  have effects := step_effects hw ha h
  clear h
  induction effects with
  | refl => rfl
  | @tail u v path he ih =>
    have same {mark : List Event} (hm : marks v.trace = marks u.trace ++ mark)
        (hn : accepted mark = []) : accepted v.trace = accepted w.trace := by
      rw [accepted_marks hm, hn, List.append_nil, ih]
    cases he with
    | counters => exact ih
    | silent _ _ hs => exact same (marks_silent hs) rfl
    | queue hkeyed =>
      rw [hc] at hkeyed
      cases hkeyed
    | send => exact same (marks_send w _ _ _ _) rfl
    | register => exact same (marks_register w _ _ _ _ _) rfl
    | setKey => exact same (marks_keyed rfl w _) rfl
    | setUrl => exact same (marks_append _ _) rfl
    | write => exact same (marks_keyed rfl u _) rfl
    | complete => exact ih
    | reap _ _ hm => exact same (marks_reap hm _) rfl

theorem step_accepts (ha : Addressed w) (hc : c.keyed.isSome = true)
    (hfree : w.handle.requests.lowestFree ≠ none) (h : step w c = .ok w') :
    ∃ r options, Makes w c r options ∧ accepted w'.trace = accepted w.trace ++ [r] := by
  obtain ⟨⟨action, method, userData, options⟩, hkeyed⟩ := Option.isSome_iff_exists.mp hc
  obtain ⟨k, hk⟩ := Option.ne_none_iff_exists'.mp hfree
  rw [step_of_keyed w hkeyed, keyed] at h
  cases hq : synapiBuildQueryString method options with
  | error e =>
    rw [synapiQueue_textError ha.hostHeader hq] at h
    cases h
  | ok query =>
    rw [synapiQueue_accept ha.hostHeader hq hk] at h
    rw [← Except.ok.inj h]
    exact ⟨newRequest w action method false userData query, options,
      makes_newRequest ((requested_of_keyed hkeyed).trans hkeyed) hq,
      accepted_marks (marks_queue w _ _ _)⟩

/-- The request asks the API for what the call means. -/
def AsksFor (base key host : Bytes) (c : Call) (r : SynapiRequest) : Prop :=
  HttpRequest.read base ⟨methodKeyword r.method,
    urlOf r.action base (curlEscape key) r.userData, hostHeaders r, r.query.val⟩ = c.meaning key host

theorem run_accepts {calls : List Call} (key : Bytes) (hr : Reachable w)
    (hsets : ∀ c ∈ calls, ¬ c.Sets) (hshort : ∀ c ∈ calls, c.Short) (hat : w.At base host)
    (horder : EachStep (fun w c _ => Orderly w c) step w calls) (h : run step w calls = .ok w') :
    ∃ news, accepted w'.trace = accepted w.trace ++ news ∧
      List.Forall₂ (AsksFor base key host) (calls.filter (·.keyed.isSome)) news := by
  induction calls generalizing w with
  | nil =>
    rw [← Except.ok.inj h]
    exact ⟨[], (List.append_nil _).symm, .nil⟩
  | cons c calls ih =>
    obtain ⟨u, hu, h⟩ := run_cons_ok.mp h
    obtain ⟨v, hv, hc, horder⟩ := horder
    obtain rfl : u = v := Except.ok.inj (hu.symm.trans hv)
    obtain ⟨hinv, ha⟩ := reachable_inv hr
    have hset := hsets c List.mem_cons_self
    obtain ⟨news, hnews, hall⟩ := ih (hr.next trivial hu)
      (fun d hd => hsets d (List.mem_cons_of_mem c hd))
      (fun d hd => hshort d (List.mem_cons_of_mem c hd)) (step_at hr hset hu hat) horder h
    cases hk : c.keyed.isSome with
    | false =>
      have same := step_unkeyed hinv ha (Option.not_isSome_iff_eq_none.mp (by simp [hk])) hu
      refine ⟨news, by rw [hnews, same], ?_⟩
      rw [List.filter_cons_of_neg (p := fun c : Call => c.keyed.isSome) (by simp [hk])]
      exact hall
    | true =>
      obtain ⟨r, options, hm, haccepted⟩ := step_accepts ha hk (hc.2 hk) hu
      refine ⟨r :: news, ?_, ?_⟩
      · rw [hnews, haccepted, List.append_assoc]
        rfl
      · rw [List.filter_cons_of_pos (p := fun c : Call => c.keyed.isSome) hk]
        refine .cons ?_ hall
        have hread := read_made hm (hshort c List.mem_cons_self) base key
        exact hread.trans (congrArg (c.meaning key) hat.hostHeader)

/-! The requests handed over -/

/-- What the API reads in the requests handed to libcurl, in their order. -/
def World.handed (base : Bytes) (w : World p) : List RestRequest :=
  (sents w.trace).filterMap (fun sent => sent.easy.bind
    (fun easy => (curlHttp easy.userDefined).bind (HttpRequest.read base)))

theorem handed_left {key : Bytes} (hr : Reachable w) (hat : w.At base host) (hholds : w.Holds key)
    (hadd : ∀ sent ∈ sents w.trace, sent.accepted = true)
    (hlength : base.length + (curlEscape key).length ≤ 218) :
    w.handed base = (left w.trace).filterMap (fun r => HttpRequest.read base
      ⟨methodKeyword r.method, urlOf r.action base (curlEscape key) r.userData, hostHeaders r,
        r.query.val⟩) := by
  rw [World.handed, left, List.filterMap_filterMap]
  apply List.filterMap_congr
  intro sent hs
  obtain ⟨hkey, hkeyed⟩ := hholds.sents sent hs
  obtain ⟨easy, he⟩ := Option.isSome_iff_exists.mp ((sent_wired hr sent hs).taken (hadd sent hs))
  have length := urlOf_length_le sent.request.action base (curlEscape key) sent.request.userData
  have hurl := sent_url hr hs
  rw [hat.sents sent hs, hkey, snprintf_whole (by omega)] at hurl
  have http := curlHttp_sendOptions easy.id sent.request sent.url
  rw [← (sent_wired hr sent hs).options easy he] at http
  rw [he, Option.bind_some, http, Option.bind_some, hurl, Sent.waited, hkeyed]
  rfl

theorem asked_for {key : Bytes} {calls : List Call} {requests : List SynapiRequest}
    (h : List.Forall₂ (AsksFor base key host) calls requests) :
    requests.filterMap (fun r => HttpRequest.read base ⟨methodKeyword r.method,
      urlOf r.action base (curlEscape key) r.userData, hostHeaders r, r.query.val⟩) =
      calls.filterMap (·.meaning key host) := by
  induction h with
  | nil => rfl
  | cons h _ ih =>
    rw [List.filterMap_cons, List.filterMap_cons, ih, h]

/-! Whole sessions -/

section Sessions

variable {clip : Clip} {s s₀ : Session} {es : List ServerEvent} {start : Start} {env : SendEnv}
  {file : Option ConfigFile} {key : CString} {kv : ConfigFile}

/-- The call of the event, if it makes a request. -/
def ServerEvent.request (clip : Clip) (e : ServerEvent) : Option Call :=
  (e.call clip).filter (·.keyed.isSome)

theorem callsOf_keyed (clip : Clip) (es : List ServerEvent) :
    (callsOf clip es).filter (·.keyed.isSome) = es.filterMap (ServerEvent.request clip) :=
  List.filter_filterMap

theorem request_meaning (clip : Clip) (key host : Bytes) (e : ServerEvent) :
    (e.request clip).bind (·.meaning key host) = e.meaning clip key host := by
  rw [ServerEvent.request, ServerEvent.meaning]
  cases hc : e.call clip with
  | none => rfl
  | some c =>
    have hnew := (hook_opens hc).2
    cases c with
    | newServer env => exact absurd rfl (hnew env)
    | _ => rfl

theorem requests_meaning (clip : Clip) (key host : Bytes) (es : List ServerEvent) :
    (es.filterMap (ServerEvent.request clip)).filterMap (·.meaning key host) =
      es.filterMap (ServerEvent.meaning clip key host) := by
  rw [List.filterMap_filterMap]
  apply List.filterMap_congr
  intro e _
  exact request_meaning clip key host e

theorem session_orderly (hs : s.g.handle.isSome = true)
    (h : EachStep (fun s e _ => ∀ c ∈ ServerEvent.call clip e, Orderly s.w c) (Session.after clip) s es) :
    EachStep (fun w c _ => Orderly w c) step s.w (callsOf clip es) := by
  induction es generalizing s with
  | nil => trivial
  | cons e es ih =>
    obtain ⟨t, ht, hc, h⟩ := h
    obtain ⟨hw, hg⟩ := after_ok hs ht
    have rest := ih hg h
    cases hcall : e.call clip with
    | none =>
      rw [hcall] at hw
      rw [callsOf, List.filterMap_cons_none hcall, Except.ok.inj hw]
      exact rest
    | some c =>
      rw [hcall] at hw
      obtain ⟨u, hu, hw⟩ := run_cons_ok.mp hw
      rw [callsOf, List.filterMap_cons_some hcall]
      rw [← Except.ok.inj hw] at rest
      exact ⟨u, hu, hc c hcall, rest⟩

theorem orderly_reach {calls : List Call} (h : ReachableBy NoneAbove w)
    (horder : EachStep (fun w c _ => Orderly w c) step w calls) (hrun : run step w calls = .ok w') :
    ReachableBy NoneAbove w' := by
  induction calls generalizing w with
  | nil => exact Except.ok.inj hrun ▸ h
  | cons c calls ih =>
    obtain ⟨u, hu, hc, horder⟩ := horder
    obtain ⟨v, hv, hrun⟩ := run_cons_ok.mp hrun
    obtain rfl : u = v := Except.ok.inj (hu.symm.trans hv)
    exact ih (h.next hc.1 hu) horder hrun

theorem starts_orderly (h : s₀.Starts start env file)
    (hfile : findApiKey file 255 = (some key, kv)) :
    ReachableBy NoneAbove s₀.w ∧ accepted s₀.w.trace = [] := by
  have found := starts_found h hfile
  constructor
  · refine found.mono (fun w c hset hkeyed => ?_)
    cases c <;> first | exact hset.elim | cases hkeyed
  · apply List.eq_nil_iff_forall_not_mem.mpr
    intro r hr
    obtain ⟨w, c, options, -, hset, hm⟩ := accepted_madeIn found hr
    have requested := hm.requested
    cases c with
    | apiKey | url => cases requested
    | _ => exact hset.elim

/-- The session has a key in its file, every request gets a slot above all that
wait, and libcurl takes each; the engine delivers the client events, and whoever
scores or is renamed has its index as userid. -/
structure Session.InOrder (clip : Clip) (s₀ : Session) (es : List ServerEvent) (s : Session)
    (key : Bytes) : Prop where
  room : (curlEscape key).length ≤ 202
  orderly : EachStep (fun s e _ => ∀ c ∈ ServerEvent.call clip e, Orderly s.w c)
    (Session.after clip) s₀ es
  ended : run (Session.after clip) s₀ es = .ok s
  taken : ∀ sent ∈ sents s.w.trace, sent.accepted = true
  delivers : Legal Engine.after Engine.Delivers .empty (clientEvents es)
  indexed : Legal Engine.after Engine.Indexed .empty (clientEvents es)

/-- The requests handed over are those of the first events, and those of the others wait. -/
theorem handed_prefix (h : s₀.Starts start env file)
    (hfile : findApiKey file 255 = (some key, kv))
    (ho : s₀.InOrder clip es s (cutAfter 10 (cutAfter 13 key.val))) :
    ∃ before after, es = before ++ after ∧
      s.w.handed extensionUrl.val = before.filterMap (ServerEvent.meaning clip
        (cutAfter 10 (cutAfter 13 key.val)) extensionHostHeader.val) ∧
      (after.filterMap (ServerEvent.request clip)).length = s.w.handle.requests.occupants.length := by
  obtain ⟨hat, -⟩ := starts_at h
  obtain ⟨reach, none⟩ := starts_orderly h hfile
  have calls := session_run h.handle ho.ended
  have orderly := session_orderly h.handle ho.orderly
  have reachable := reachableBy_reachable reach
  have quiet : ∀ c ∈ callsOf clip es, ¬ c.Sets ∧ ∀ env, c ≠ .newServer env :=
    fun c hc => callsOf_opens hc
  have short : ∀ c ∈ callsOf clip es, c.Short := by
    intro c hc
    obtain ⟨e, -, hcall⟩ := List.mem_filterMap.mp hc
    exact hook_short hcall
  obtain ⟨news, hnews, hall⟩ := run_accepts (cutAfter 10 (cutAfter 13 key.val)) reachable
    (fun c hc => (quiet c hc).1) short hat orderly calls
  rw [none, List.nil_append] at hnews
  have books := reachable_inOrder (orderly_reach reach orderly calls)
  rw [InOrder, hnews] at books
  rw [books, callsOf_keyed] at hall
  -- The requests that have left are those of the first calls.
  have sent := List.forall₂_take_append _ _ _ hall
  have waiting := (List.forall₂_drop_append _ _ _ hall).length_eq
  have split := (List.take_append_drop (left s.w.trace).length
    (es.filterMap (ServerEvent.request clip))).symm
  obtain ⟨before, after, hes, hbefore, hafter⟩ := List.filterMap_eq_append_iff.mp split
  refine ⟨before, after, hes, ?_, ?_⟩
  · have base : extensionUrl.val.length = 16 := rfl
    have room := ho.room
    rw [handed_left (reachable.run (fun _ _ _ _ _ _ => trivial) calls)
      (run_at reachable (fun c hc => (quiet c hc).1) calls hat)
      (run_holds reachable quiet calls (starts_holds h hfile)) ho.taken (by omega),
      asked_for sent, ← hbefore, requests_meaning]
  · rw [hafter]
    exact waiting

theorem handed_all (h : s₀.Starts start env file) (hfile : findApiKey file 255 = (some key, kv))
    (ho : s₀.InOrder clip es s (cutAfter 10 (cutAfter 13 key.val)))
    (hempty : s.w.handle.requests.occupants = []) :
    s.w.handed extensionUrl.val = es.filterMap (ServerEvent.meaning clip
      (cutAfter 10 (cutAfter 13 key.val)) extensionHostHeader.val) := by
  obtain ⟨before, after, hes, hhanded, hlength⟩ := handed_prefix h hfile ho
  rw [hempty, List.length_nil, List.length_eq_zero_iff] at hlength
  have quiet : after.filterMap (ServerEvent.meaning clip (cutAfter 10 (cutAfter 13 key.val))
      extensionHostHeader.val) = [] := by
    rw [← requests_meaning, hlength, List.filterMap_nil]
  rw [hhanded, hes, List.filterMap_append, quiet, List.append_nil]

/-- With the key set, each frame takes one request from the table. -/
theorem frames_drain {frames : List PerformEnv} (hr : Reachable w)
    (hset : w.handle.apiKeySet = true) (h : run step w (frames.map .perform) = .ok w') :
    w'.handle.requests.occupants = w.handle.requests.occupants.drop frames.length := by
  induction frames generalizing w with
  | nil =>
    rw [← Except.ok.inj h]
    rfl
  | cons env frames ih =>
    obtain ⟨u, hu, h⟩ := run_cons_ok.mp h
    obtain ⟨hinv, ha⟩ := reachable_inv hr
    have performed := perform_spec hinv ha hu
    rw [ih (hr.next trivial hu) (performed.keySet hset) h, performed.requests, if_pos hset,
      List.drop_drop, Nat.add_comm]
    rfl

theorem callsOf_frames (clip : Clip) (frames : List PerformEnv) :
    callsOf clip (frames.map .gameFrame) = frames.map .perform := by
  rw [callsOf, List.filterMap_map, ← List.filterMap_eq_map]
  rfl

theorem boardOf_frames (clip : Clip) (es : List ServerEvent) (frames : List PerformEnv) :
    boardOf clip (es ++ frames.map .gameFrame) = boardOf clip es := by
  have none : clientEvents (frames.map .gameFrame) = [] := by
    rw [clientEvents, List.filterMap_map]
    exact List.filterMap_eq_nil_iff.mpr (fun _ _ => rfl)
  rw [boardOf, clientEvents, List.filterMap_append]
  change replay _ _ (clientEvents es ++ clientEvents (frames.map .gameFrame)) = _
  rw [none, List.append_nil]
  rfl

end Sessions

end Synapi

import Synapi.Session

/-!
The requests of a session: where they go, the key they carry, and what the API
reads in them.
-/

namespace Synapi

open Runs Relation Text FormEncoding

variable {p : ℤ} {c : Call} {w₀ w w' : World p} {sent : Sent}

/-! The address -/

structure World.At (w : World p) (base host : Bytes) : Prop where
  baseUrl : w.view.baseUrl = base
  hostHeader : w.view.hostHeader = host
  sents : ∀ sent ∈ Synapi.sents w.trace, sent.view.baseUrl = base

theorem Effect.at {base host : Bytes} (h : Effect c w₀ w w') (hc : ¬ c.Sets)
    (hw : w.At base host) : w'.At base host := by
  have same {mark : List Event} (hm : marks w'.trace = marks w.trace ++ mark)
      (hn : sents mark = []) : ∀ sent ∈ sents w'.trace, sent.view.baseUrl = base := by
    rw [sents_marks hm, hn, List.append_nil]
    exact hw.sents
  have more {mark : List Event} {sent : Sent} (hm : marks w'.trace = marks w.trace ++ mark)
      (hn : sents mark = [sent]) (hb : sent.view.baseUrl = base) :
      ∀ sent ∈ sents w'.trace, sent.view.baseUrl = base := by
    rw [sents_marks hm, hn, List.forall_mem_append]
    exact ⟨hw.sents, List.forall_mem_singleton.mpr hb⟩
  cases h with
  | counters => exact ⟨hw.baseUrl, hw.hostHeader, hw.sents⟩
  | silent _ _ hs => exact ⟨hw.baseUrl, hw.hostHeader, same (marks_silent hs) rfl⟩
  | queue => exact ⟨hw.baseUrl, hw.hostHeader, same (marks_queue w₀ _ _ _) rfl⟩
  | send => exact ⟨hw.baseUrl, hw.hostHeader, more (marks_send w₀ _ _ _ _) rfl hw.baseUrl⟩
  | register =>
    exact ⟨hw.baseUrl, hw.hostHeader, more (marks_register w₀ _ _ _ _ _) rfl hw.baseUrl⟩
  | setKey hcall | setUrl hcall =>
    rw [hcall] at hc
    exact absurd trivial hc
  | write => exact ⟨hw.baseUrl, hw.hostHeader, same (marks_keyed rfl w _) rfl⟩
  | complete => exact ⟨hw.baseUrl, hw.hostHeader, hw.sents⟩
  | reap _ _ hm => exact ⟨hw.baseUrl, hw.hostHeader, same (marks_reap hm _) rfl⟩

theorem step_at {base host : Bytes} (hr : Reachable w) (hc : ¬ c.Sets) (h : step w c = .ok w')
    (hw : w.At base host) : w'.At base host := by
  obtain ⟨hinv, ha⟩ := reachable_inv hr
  have effects := step_effects hinv ha h
  clear h
  induction effects with
  | refl => exact hw
  | tail path he ih => exact he.at hc ih

theorem url_at {u : World p} {url hostHeader : CString} (hs : sents u.trace = [])
    (h : synapiUrl u url hostHeader = .ok w) :
    w.At (url.val.take 255) (hostHeader.val.take 255) := by
  have unsent := synapiUrl_unsent h hs
  obtain ⟨base, host, hb, hh, -, -, hr⟩ := synapiUrl_ok u url hostHeader
  rw [hr] at h
  rw [← Except.ok.inj h] at unsent ⊢
  refine ⟨hb, hh, ?_⟩
  rw [unsent]
  rintro sent ⟨⟩

/-! A key that nothing can change -/

structure World.Holds (w : World p) (key : Bytes) : Prop where
  set : w.view.apiKeySet = true
  unwritten : ∀ handle, ¬ w.multi.WritesKey handle
  sents : ∀ sent ∈ Synapi.sents w.trace, sent.view.apiKey = key ∧ sent.request.apiKeyRequest = false
  apiKey : w.view.apiKey = key

theorem Effect.holds {key : Bytes} (h : Effect c w₀ w w') (hinv : Inv w) (hc : ¬ c.Sets)
    (hnew : ∀ env, c ≠ .newServer env) (hw : w.Holds key) : w'.Holds key := by
  have same {mark : List Event} (hm : marks w'.trace = marks w.trace ++ mark)
      (hn : sents mark = []) :
      ∀ sent ∈ sents w'.trace, sent.view.apiKey = key ∧ sent.request.apiKeyRequest = false := by
    rw [sents_marks hm, hn, List.append_nil]
    exact hw.sents
  cases h with
  | counters => exact ⟨hw.set, hw.unwritten, hw.sents, hw.apiKey⟩
  | silent _ _ hs => exact ⟨hw.set, hw.unwritten, same (marks_silent hs) rfl, hw.apiKey⟩
  | queue => exact ⟨hw.set, hw.unwritten, same (marks_queue w₀ _ _ _) rfl, hw.apiKey⟩
  | @send env request encoded j k _ _ _ _ hslot =>
    have keyed := (hinv.waiting.keyed request (SlotTable.mem_occupants.mpr ⟨j, hslot⟩)).1
    refine ⟨hw.set, fun handle hx => hw.unwritten handle (writesKey_send keyed hx), ?_, hw.apiKey⟩
    rw [sents_marks (marks_send w₀ _ _ _ _), List.forall_mem_append]
    exact ⟨hw.sents, List.forall_mem_singleton.mpr ⟨hw.apiKey, keyed⟩⟩
  | register hcall => exact absurd hcall (hnew _)
  | setKey hcall | setUrl hcall =>
    rw [hcall] at hc
    exact absurd trivial hc
  | write _ _ _ _ hkey => exact absurd hkey (hw.unwritten _)
  | complete => exact ⟨hw.set, hw.unwritten, hw.sents, hw.apiKey⟩
  | reap _ _ hm =>
    refine ⟨hw.set, ?_, same (marks_reap hm _) rfl, hw.apiKey⟩
    rintro handle ⟨e, hadd, hid, hwrite⟩
    exact hw.unwritten handle ⟨e, (List.mem_filter.mp hadd).1, hid, hwrite⟩

theorem step_holds {key : Bytes} (hr : Reachable w) (hc : ¬ c.Sets)
    (hnew : ∀ env, c ≠ .newServer env) (h : step w c = .ok w') (hw : w.Holds key) :
    w'.Holds key := by
  obtain ⟨hinv, ha⟩ := reachable_inv hr
  have effects := step_effects hinv ha h
  clear h
  induction effects with
  | refl => exact hw
  | tail path he ih => exact he.holds (inv_of_effects path hinv) hc hnew ih

/-! The start -/

section Starts

variable {clip : Clip} {s s₀ : Session} {es : List ServerEvent} {start : Start} {env : SendEnv}
  {file : Option ConfigFile} {easy : Easy}

/-- What is called of the library on the handle of a session. -/
def Opens (env : SendEnv) (w : World 15) (c : Call) : Prop :=
  c.Sets ∨ c = .newServer env ∧ w.view.hostHeader = extensionHostHeader.val

theorem initNative_at {apiKey : Option CString} {w : World 15}
    (h : initNative start apiKey = .ok w) :
    w.At extensionUrl.val extensionHostHeader.val ∧ ReachableBy (fun _ c => Call.Sets c) w := by
  obtain ⟨u, hinit, hurl⟩ := bind_eq_ok.mp h
  exact ⟨url_at (synapiInit_unsent hinit) hurl,
    .next (c := .url extensionUrl extensionHostHeader) (.start ⟨_, _, hinit⟩) trivial hurl⟩

theorem starts_at (h : s₀.Starts start env file) :
    s₀.w.At extensionUrl.val extensionHostHeader.val ∧ ReachableBy (Opens env) s₀.w := by
  obtain ⟨kv, hstart⟩ := h.started
  unfold onPluginStart at hstart
  split at hstart
  · obtain ⟨w, hinit, hw⟩ := bind_eq_ok.mp hstart
    have same : w = s₀.w := congrArg Prod.fst (Except.ok.inj hw)
    rw [← same]
    obtain ⟨hat, reach⟩ := initNative_at hinit
    exact ⟨hat, reach.mono (fun _ _ => .inl)⟩
  · obtain ⟨w, hinit, hw⟩ := bind_eq_ok.mp hstart
    obtain ⟨r, hnew, hr⟩ := bind_eq_ok.mp hw
    obtain ⟨hat, reach⟩ := initNative_at hinit
    have hstep : step w (.newServer env) = .ok r.2 := by
      rw [step, hnew]
      rfl
    have same : r.2 = s₀.w := congrArg Prod.fst (Except.ok.inj hr)
    rw [← same]
    exact ⟨step_at (reachableBy_reachable reach) id hstep hat,
      (reach.mono (fun _ _ => .inl)).next (.inr ⟨rfl, hat.hostHeader⟩) hstep⟩

theorem starts_found {key : CString} {kv : ConfigFile} (h : s₀.Starts start env file)
    (hfile : findApiKey file 255 = (some key, kv)) : ReachableBy (fun _ c => Call.Sets c) s₀.w := by
  obtain ⟨kv', hstart⟩ := h.started
  simp only [onPluginStart, hfile] at hstart
  obtain ⟨w, hinit, hw⟩ := bind_eq_ok.mp hstart
  have same : w = s₀.w := congrArg Prod.fst (Except.ok.inj hw)
  rw [← same]
  exact (initNative_at hinit).2

theorem unwritten_of_unsent {w : World p} (h : Reachable w) (hs : sents w.trace = []) :
    ∀ handle, ¬ w.multi.WritesKey handle := by
  have books := (reachable_accounts h).transfers.length_eq
  rw [hs, List.length_append, List.length_map, List.length_map, List.length_map,
    List.length_nil] at books
  have empty : w.handle.pool.occupants = [] := List.length_eq_zero_iff.mp (by omega)
  rintro handle ⟨e, he, -⟩
  have added := (reachable_inv h).1.flight.added e he
  rw [transfers, empty] at added
  cases added

/-- A session with a key in its file keeps to that key. -/
theorem starts_holds {key : CString} {kv : ConfigFile} (h : s₀.Starts start env file)
    (hfile : findApiKey file 255 = (some key, kv)) :
    s₀.w.Holds (cutAfter 10 (cutAfter 13 key.val)) := by
  obtain ⟨kv', hstart⟩ := h.started
  obtain ⟨w, hw, hreach, hset, hs, hkey⟩ :=
    onPluginStart_found start env hfile (findApiKey_length hfile)
  have same : w = s₀.w := congrArg Prod.fst (Except.ok.inj (hw.symm.trans hstart))
  rw [← same]
  refine ⟨hset, unwritten_of_unsent hreach hs, ?_, hkey⟩
  rw [hs]
  rintro sent ⟨⟩

/-! The calls of a session -/

theorem hook_opens {e : ServerEvent} (h : e.call clip = some c) :
    ¬ c.Sets ∧ ∀ env, c ≠ .newServer env := by
  cases e with
  | client e =>
    cases e with
    | connect => cases h
    | _ =>
      rw [← Option.some.inj h]
      exact ⟨id, fun _ => Call.noConfusion⟩
  | _ =>
    rw [← Option.some.inj h]
    exact ⟨id, fun _ => Call.noConfusion⟩

theorem callsOf_opens (h : c ∈ callsOf clip es) : ¬ c.Sets ∧ ∀ env, c ≠ .newServer env := by
  obtain ⟨e, -, hc⟩ := List.mem_filterMap.mp h
  exact hook_opens hc

theorem run_at {calls : List Call} {base host : Bytes} (hr : Reachable w)
    (hc : ∀ c ∈ calls, ¬ c.Sets) (h : run step w calls = .ok w') (hw : w.At base host) :
    w'.At base host := by
  induction calls generalizing w with
  | nil => exact Except.ok.inj h ▸ hw
  | cons c calls ih =>
    obtain ⟨u, hu, h⟩ := run_cons_ok.mp h
    have hset := hc c List.mem_cons_self
    apply ih (hr.next trivial hu) (fun d hd => hc d (List.mem_cons_of_mem c hd)) h
    exact step_at hr hset hu hw

theorem run_holds {calls : List Call} {key : Bytes} (hr : Reachable w)
    (hc : ∀ c ∈ calls, ¬ c.Sets ∧ ∀ env, c ≠ .newServer env) (h : run step w calls = .ok w')
    (hw : w.Holds key) : w'.Holds key := by
  induction calls generalizing w with
  | nil => exact Except.ok.inj h ▸ hw
  | cons c calls ih =>
    obtain ⟨u, hu, h⟩ := run_cons_ok.mp h
    obtain ⟨hset, hnew⟩ := hc c List.mem_cons_self
    apply ih (hr.next trivial hu) (fun d hd => hc d (List.mem_cons_of_mem c hd)) h
    exact step_holds hr hset hnew hu hw

/-- A call of the session with the events `es`. -/
def Asks (clip : Clip) (env : SendEnv) (es : List ServerEvent) (w : World 15) (c : Call) : Prop :=
  c.Sets ∨ w.view.hostHeader = extensionHostHeader.val ∧ (c = .newServer env ∨ c ∈ callsOf clip es)

theorem session_asks (h : s₀.Starts start env file)
    (hrun : run (Session.after clip) s₀ es = .ok s) :
    ReachableBy (Asks clip env es) s.w ∧ s.w.At extensionUrl.val extensionHostHeader.val := by
  obtain ⟨hat, opens⟩ := starts_at h
  have reach := reachableBy_reachable opens
  have calls := session_run h.handle hrun
  have quiet : ∀ c ∈ callsOf clip es, ¬ c.Sets := fun c hc => (callsOf_opens hc).1
  refine ⟨Reach.run (opens.mono ?_) ?_ calls, run_at reach quiet calls hat⟩
  · rintro w c (hset | ⟨hnew, hhost⟩)
    · exact .inl hset
    · exact .inr ⟨hhost, .inl hnew⟩
  · intro before c after u hsplit hu
    rw [hsplit] at quiet
    have before_at := run_at reach (fun d hd => quiet d (List.mem_append_left _ hd)) hu hat
    refine .inr ⟨before_at.hostHeader, .inr ?_⟩
    rw [hsplit]
    exact List.mem_append_right _ List.mem_cons_self

theorem asks_short {w : World 15} (h : Asks clip env es w c) : c.Short := by
  rcases h with hset | ⟨-, rfl | hc⟩
  · cases c with
    | apiKey | url => rintro a ⟨⟩
    | _ => exact hset.elim
  · rintro a ⟨⟩
    exact queryText_nil_length _
  · obtain ⟨e, -, hcall⟩ := List.mem_filterMap.mp hc
    exact hook_short hcall

end Starts

end Synapi

import Synapi.Chunks

/-!
Registrations that overlap, and registrations that fail: which response the key
of a request comes from.
-/

namespace Synapi

open Runs Relation Text Replay

variable {p : ℤ} {C : World p → Call → Prop} {c : Call} {w₀ w w' : World p}

def Event.registration : Event → Option Sent
  | .multiAddHandle sent => if sent.request.apiKeyRequest then some sent else none
  | _ => none

def Event.byHand : Event → Bool
  | .apiKey _ => true
  | _ => false

def Event.latest (transfer : Option ℕ) (e : Event) : Option ℕ :=
  match e.registration with
  | some sent => sent.easy.map Easy.id
  | none => transfer

def latestTransfer (trace : List Event) : Option ℕ := replay Event.latest none trace

def Event.FromLatest (transfer : Option ℕ) : Event → Prop
  | .apiKeyWrite handle _ _ => transfer = some handle
  | _ => True

def Progress.chunkOf : Progress → Option ℕ
  | .chunk handle _ => some handle
  | .done _ _ => none

/-- libcurl delivers no part of the response to a registration that is not the latest. -/
def ChunksOfLatest (w : World p) : Call → Prop
  | .perform env => ∀ handle ∈ env.progress.filterMap Progress.chunkOf,
      w.multi.WritesKey handle → latestTransfer w.trace = some handle
  | _ => True

instance (w : World p) : (c : Call) → Decidable (ChunksOfLatest w c)
  | .perform env => inferInstanceAs (Decidable (∀ handle ∈ env.progress.filterMap Progress.chunkOf,
      w.multi.WritesKey handle → latestTransfer w.trace = some handle))
  | .newServer _ | .updateServer _ | .newPlayer _ | .updatePlayer _ _ | .deletePlayer _
  | .heartbeat | .apiKey _ _ | .url _ _ | .queued => instDecidableTrue

/-- Every keyed request sent after a registration, with no other registration
and no key set by hand between the two, carries the key of its response. -/
def Uncrossed (trace : List Event) : Prop :=
  ∀ first reg mid sent second,
    trace = first ++ .multiAddHandle reg :: (mid ++ .multiAddHandle sent :: second) →
      reg.request.apiKeyRequest = true → sent.request.apiKeyRequest = false →
        (∀ e ∈ mid, e.registration = none ∧ e.byHand = false) →
          ∃ transfer data, reg.easy.map Easy.id = some transfer ∧
            (chunks transfer mid).getLast? = some data ∧ sent.view.apiKey = chunkKey data

/-! The latest registration -/

theorem latest_plain {e : Event} (h : (!e.silent) = false) (transfer : Option ℕ) :
    e.FromLatest transfer ∧ e.latest transfer = transfer := by
  cases e <;> first | exact ⟨trivial, rfl⟩ | cases h

theorem latestTransfer_marks {trace trace' mark : List Event}
    (h : marks trace' = marks trace ++ mark) :
    latestTransfer trace' = replay Event.latest (latestTransfer trace) mark := by
  have plain : ∀ e : Event, (!e.silent) = false → ∀ t, e.latest t = t :=
    fun e he t => (latest_plain he t).2
  rw [latestTransfer, ← replay_filter plain none trace', ← marks, h, replay_append, marks,
    replay_filter plain none trace]
  rfl

theorem legal_latest_marks {trace trace' mark : List Event}
    (h : marks trace' = marks trace ++ mark)
    (ht : Replay.Legal Event.latest Event.FromLatest none trace)
    (hm : Replay.Legal Event.latest Event.FromLatest (latestTransfer trace) mark) :
    Replay.Legal Event.latest Event.FromLatest none trace' := by
  have plain : ∀ e : Event, (!e.silent) = false → ∀ t, e.FromLatest t ∧ e.latest t = t :=
    fun e he => latest_plain he
  rw [← legal_filter plain none trace', ← marks, h, legal_append, marks, legal_filter plain]
  refine ⟨ht, ?_⟩
  rw [replay_filter (fun e he t => (plain e he t).2)]
  exact hm

theorem replay_latest {events : List Event} (h : ∀ e ∈ events, e.registration = none)
    (transfer : Option ℕ) : replay Event.latest transfer events = transfer := by
  refine replay_frame id (fun e he s => ?_) transfer
  simp only [id, Event.latest, h e he]

theorem latest_frame {trace trace' mark : List Event} (h : marks trace' = marks trace ++ mark)
    (hm : ∀ e ∈ mark, e.registration = none) : latestTransfer trace' = latestTransfer trace := by
  rw [latestTransfer_marks h, replay_latest hm]

theorem writesKey_send {m : Multi} {env : SendEnv} {request : SynapiRequest} {url : Bytes}
    {handle : ℕ} (hr : request.apiKeyRequest = false)
    (h : (m.add (newEasy env w request url) env.multiAdd).WritesKey handle) : m.WritesKey handle := by
  obtain ⟨e, he, hid, hwrite⟩ := h
  rw [Multi.add] at he
  split_ifs at he
  · rcases List.mem_append.mp he with he | he
    · exact ⟨e, he, hid, hwrite⟩
    · obtain ⟨x, -, rfl⟩ := Option.map_eq_some_iff.mp (Option.mem_toList.mp he)
      simp only [sendOptions, hr, Bool.false_eq_true, if_false, List.append_nil] at hwrite
      cases hh : request.headers <;> cases hm : request.method <;> simp [hh, hm] at hwrite
  · exact ⟨e, he, hid, hwrite⟩

theorem perform_keeps {env : PerformEnv} (hw : Inv w₀)
    (path : ReflTransGen (Effect (.perform env) w₀) w₀ w) :
    latestTransfer w.trace = latestTransfer w₀.trace ∧
      ∀ handle, w.multi.WritesKey handle → w₀.multi.WritesKey handle := by
  induction path with
  | refl => exact ⟨rfl, fun _ => id⟩
  | @tail w w' path he ih =>
    cases he with
    | counters => exact ih
    | silent _ events hs =>
      exact ⟨(latest_frame (marks_silent hs) (by simp)).trans ih.1, ih.2⟩
    | queue hc => cases hc
    | @send env request key j k hc hset hkey hj hr hk =>
      have keyed := (hw.waiting.keyed request (SlotTable.mem_occupants.mpr ⟨j, hr⟩)).1
      refine ⟨latest_frame (marks_send w₀ _ _ _ _) ?_, fun handle => writesKey_send keyed⟩
      rw [List.forall_mem_singleton]
      simp [Event.registration, newSent, keyed]
    | register hc => cases hc
    | setKey hc => cases hc
    | setUrl hc => cases hc
    | write _ hc hm hrun hkey hd ha =>
      exact ⟨(latest_frame (marks_keyed rfl w _) (List.forall_mem_singleton.mpr rfl)).trans ih.1,
        ih.2⟩
    | complete => exact ih
    | @reap env msg rest curl k _ hc hm hk hh =>
      refine ⟨(latest_frame (marks_reap hm curl) (List.forall_mem_singleton.mpr rfl)).trans ih.1, ?_⟩
      rintro handle ⟨e, hadd, hid, hwrite⟩
      exact ih.2 handle ⟨e, (List.mem_filter.mp hadd).1, hid, hwrite⟩

theorem chunks_from_latest (h : ReachableBy ChunksOfLatest w) :
    Replay.Legal Event.latest Event.FromLatest none w.trace := by
  refine reachableBy_invariant (C := ChunksOfLatest)
    (P := fun w => Replay.Legal Event.latest Event.FromLatest none w.trace) ?_ ?_ ?_ h
  · intro w c hc
    cases c <;> trivial
  · intro start a i ha
    have hm : marks ((blank start a p).setI i).trace = marks [] ++ [] := marks_blank start a i
    exact legal_latest_marks hm trivial trivial
  · intro c w₀ w w' hcond hinv path hl he
    cases he with
    | counters => exact hl
    | silent _ events hs =>
      exact legal_latest_marks (marks_silent hs) hl trivial
    | queue hc hq hk =>
      exact legal_latest_marks (marks_queue w₀ _ _ _) hl ⟨trivial, trivial⟩
    | send => exact legal_latest_marks (marks_send w₀ _ _ _ _) hl ⟨trivial, trivial⟩
    | register => exact legal_latest_marks (marks_register w₀ _ _ _ _ _) hl ⟨trivial, trivial⟩
    | setKey => exact legal_latest_marks (marks_keyed rfl w₀ _) hl ⟨trivial, trivial⟩
    | setUrl => exact legal_latest_marks (marks_append _ _) hl ⟨trivial, trivial⟩
    | @write env handle data a _ hc hm hrun hkey hd ha =>
      subst hc
      obtain ⟨hlatest, hwrites⟩ := perform_keeps hinv path
      refine legal_latest_marks (marks_keyed rfl w a) hl ⟨?_, trivial⟩
      rw [Event.FromLatest, hlatest]
      exact hcond handle (List.mem_filterMap.mpr ⟨_, hm, rfl⟩) (hwrites handle hkey)
    | complete => exact hl
    | reap _ hc hm hk hh =>
      exact legal_latest_marks (marks_reap hm _) hl ⟨trivial, trivial⟩

theorem setsKey_registration {e : Event} (h : e.setsKey = true) (hr : e.registration = none)
    (hk : e.byHand = false) : ∃ handle data view, e = .apiKeyWrite handle data view := by
  cases e with
  | apiKey view => cases hk
  | apiKeyWrite handle data view => exact ⟨handle, data, view, rfl⟩
  | multiAddHandle sent =>
    have hs : sent.request.apiKeyRequest = true := h
    rw [Event.registration, if_pos hs] at hr
    cases hr
  | _ => cases h

theorem registration_closes (h : ReachableBy C w) {first second : List Event} {reg : Sent}
    (ht : w.trace = first ++ .multiAddHandle reg :: second)
    (hr : reg.request.apiKeyRequest = true) : reg.view.apiKeySet = false := by
  obtain ⟨v, -, hl, -⟩ := legal_event h ht
  rw [Event.Legal, if_pos hr] at hl
  rw [hl]
  rfl

theorem newServer_view {env : SendEnv} {w₁ : World p} (hw : Reachable w)
    (h : step w (.newServer env) = .ok w₁) : w₁.view = w.view.cleared := by
  obtain ⟨hinv, ha⟩ := reachable_inv hw
  cases hk : w.handle.pool.lowestFree with
  | none =>
    rw [step_full (c := .newServer env) hinv ha trivial hk] at h
    cases h
  | some k =>
    obtain ⟨a, query, hs, hr⟩ := newServer_ok env hinv ha hk
    rw [step, hr] at h
    rw [← Except.ok.inj h]
    simp [World.view, SynapiT.view, World.sendNew, World.built, HandleView.cleared, hs]

theorem sents_closed {v v' : HandleView} {events : List Event} (h : Tells v events v')
    (hset : v.apiKeySet = false) (hnone : ∀ e ∈ events, e.setsKey = false) : sents events = [] := by
  apply List.eq_nil_iff_forall_not_mem.mpr
  intro sent hs
  obtain ⟨first, second, rfl⟩ := List.append_of_mem (mem_sents.mp hs)
  have keyed : sent.request.apiKeyRequest = false :=
    hnone (.multiAddHandle sent) (List.mem_append_right first List.mem_cons_self)
  obtain ⟨hl, -⟩ := h
  obtain ⟨hfirst, hadd, -⟩ := legal_append.mp hl
  rw [Event.Legal, if_neg (by simp [keyed])] at hadd
  have hkey := Tells.key ⟨hfirst, rfl⟩ (fun e he => hnone e (List.mem_append_left _ he))
  have hclosed : (replay Event.after v first).apiKeySet = v.apiKeySet := congrArg Prod.fst hkey
  rw [hadd.2.1, hset] at hclosed
  cases hclosed

/-- From a registration on, as long as nothing sets the key, the handle has no
key and sends nothing; the encoded form of the key it had stays. -/
theorem failed_registration {env : SendEnv} {calls : List Call} {w₁ w' : World p}
    {events : List Event} (hw : Reachable w) (hreg : step w (.newServer env) = .ok w₁)
    (hrun : run step w₁ calls = .ok w') (ht : w'.trace = w₁.trace ++ events)
    (hnone : ∀ e ∈ events, e.setsKey = false) :
    w'.view.key = (false, [], w.view.encodedApiKey) ∧ sents events = [] ∧
      (w'.view.key = w.view.key ↔ w.view.apiKeySet = false) := by
  have hview := newServer_view hw hreg
  obtain ⟨events', ht', tells⟩ := run_extends (hw.next trivial hreg) hrun
  rw [ht] at ht'
  rw [← List.append_cancel_left ht'] at tells
  have hkey : w'.view.key = (false, [], w.view.encodedApiKey) := by
    rw [Tells.key tells hnone, hview]
    rfl
  refine ⟨hkey, sents_closed tells (by rw [hview]; rfl) hnone, ?_⟩
  rw [hkey]
  constructor
  · intro h
    exact (congrArg Prod.fst h).symm
  · intro hset
    have ok := (reachable_inv hw).1.key
    rw [HandleView.KeyOk, if_neg (by simp [hset])] at ok
    rw [HandleView.key, hset, ok]

theorem refused_registration : ∃ w w₁ w' : World 1, Reachable w ∧
    step w (.newServer ⟨true, true⟩) = .ok w₁ ∧
    run step w₁ [.perform (.smooth [.done 8 (.transportError 7)])] = .ok w' ∧
    w'.trace = w₁.trace ++ w'.trace.drop w₁.trace.length ∧
    (∀ e ∈ w'.trace.drop w₁.trace.length, e.setsKey = false) ∧
    .multiInfoRead (some ⟨8, .transportError 7⟩) ∈ w'.trace ∧
    w.view.apiKeySet = true ∧ w'.view.key ≠ w.view.key := by
  have calls : ∃ w ∈ trial (p := 1) (fun _ _ => True) (some (literal "SYN:S:1:ab")) [],
      ∃ w₁ ∈ (step w (.newServer ⟨true, true⟩)).toOption,
      ∃ w' ∈ (run step w₁ [.perform (.smooth [.done 8 (.transportError 7)])]).toOption,
      w'.trace = w₁.trace ++ w'.trace.drop w₁.trace.length ∧
      (∀ e ∈ w'.trace.drop w₁.trace.length, e.setsKey = false) ∧
      .multiInfoRead (some ⟨8, .transportError 7⟩) ∈ w'.trace ∧
      w.view.apiKeySet = true ∧ w'.view.key ≠ w.view.key := by
    decide +kernel
  obtain ⟨w, hw, w₁, h₁, w', h', rest⟩ := trial_exists calls
  exact ⟨w, w₁, w', hw, eq_ok_of_toOption h₁, eq_ok_of_toOption h', rest⟩

theorem failed_registration_refused : ∃ w w' : World 1, w.view.apiKeySet = true ∧
    .multiInfoRead (some ⟨8, .transportError 7⟩) ∈ w'.trace ∧
    w'.view.key = (false, [], w.view.encodedApiKey) ∧
    (w'.view.key = w.view.key ↔ w.view.apiKeySet = false) := by
  obtain ⟨w, w₁, w', hw, hreg, hrun, ht, hnone, hread, hset, -⟩ := refused_registration
  obtain ⟨hcleared, -, hiff⟩ := failed_registration hw hreg hrun ht hnone
  exact ⟨w, w', hset, hread, hcleared, hiff⟩

theorem failed_registration_forgets : ∃ (w w' : World 1) (calls : List Call), Reachable w ∧
    run step w (.newServer ⟨true, true⟩ :: calls) = .ok w' ∧
    .multiInfoRead (some ⟨8, .transportError 7⟩) ∈ w'.trace ∧ w'.view.key ≠ w.view.key := by
  obtain ⟨w, w₁, w', hw, hreg, hrun, -, -, hread, -, hne⟩ := refused_registration
  exact ⟨w, w', _, hw, run_cons_ok.mpr ⟨w₁, hreg, hrun⟩, hread, hne⟩

end Synapi

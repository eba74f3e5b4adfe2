import Synapi.History
import Synapi.Accounts

/-!
The life of an accepted request: it waits in one slot of the queue, its transfer
is in flight in one slot of the pool, and the transfer is reaped.
-/

namespace Synapi

open Runs Relation Text

variable {p : ℤ} {C : World p → Call → Prop} {c : Call} {w₀ w w' : World p} {r : SynapiRequest}

inductive Stage where
  | waiting (slot : ℕ)
  | inFlight (slot : ℕ)
  | reaped

def Stage.Next : Stage → Stage → Prop
  | .waiting _, .inFlight _ | .waiting _, .reaped | .inFlight _, .reaped => True
  | _, _ => False

/-- The times a request was handed to libcurl. -/
def sentsOf (r : SynapiRequest) (trace : List Event) : List Sent :=
  (sents trace).filter (fun sent => sent.request = r)

def readTransfers (trace : List Event) : List ℕ := (reads trace).map CurlMsg.easyHandle

def AtStage (w : World p) (r : SynapiRequest) : Stage → Prop
  | .waiting k => w.handle.requests.slot k = some (some r) ∧ sentsOf r w.trace = []
  | .inFlight k => r ∉ w.handle.requests.occupants ∧ ∃ sent easy curl,
      sentsOf r w.trace = [sent] ∧ sent.easy = some easy ∧ easy.id ∉ readTransfers w.trace ∧
        w.handle.pool.slot k = some (some curl) ∧ curl.handle = some easy.id
  | .reaped => r ∉ w.handle.requests.occupants ∧ ∃ sent easy,
      sentsOf r w.trace = [sent] ∧ sent.easy = some easy ∧
        (readTransfers w.trace).count easy.id = 1 ∧ easy.id ∉ transfers w.handle.pool

def Call.Performs (c : Call) : Prop := ∃ env, c = .perform env

/-- The calls of libcurl that a send makes succeed. -/
def Succeeds (_ : World p) : Call → Prop
  | .newServer env => env.easyInit = true ∧ env.multiAdd = true
  | .perform env => env.send.easyInit = true ∧ env.send.multiAdd = true
  | _ => True

instance (w : World p) : (c : Call) → Decidable (Succeeds w c)
  | .newServer env => inferInstanceAs (Decidable (env.easyInit = true ∧ env.multiAdd = true))
  | .perform env =>
    inferInstanceAs (Decidable (env.send.easyInit = true ∧ env.send.multiAdd = true))
  | .updateServer _ | .newPlayer _ | .updatePlayer _ _ | .deletePlayer _ | .heartbeat
  | .apiKey _ _ | .url _ _ | .queued => instDecidableTrue

/-! The books, request by request and transfer by transfer -/

theorem count_waited (hr : r.apiKeyRequest = false) (l : List Sent) :
    (l.filterMap Sent.waited).count r = (l.filter (fun sent => sent.request = r)).length := by
  induction l with
  | nil => rfl
  | cons sent l ih =>
    by_cases hs : sent.request = r
    · have hw : sent.waited = some r := by simp [Sent.waited, hs, hr]
      rw [List.filterMap_cons_some hw, List.count_cons_self, ih,
        List.filter_cons_of_pos (by simpa using hs), List.length_cons]
    · rw [List.filter_cons_of_neg (by simpa using hs), ← ih]
      cases hw : sent.waited with
      | none => rw [List.filterMap_cons_none hw]
      | some q =>
        have hq : q ≠ r := by
          rintro rfl
          rw [Sent.waited] at hw
          split_ifs at hw
          exact hs (Option.some.inj hw)
        rw [List.filterMap_cons_some hw, List.count_cons_of_ne hq]

theorem accepted_split (h : ReachableBy C w) (hr : r ∈ accepted w.trace) :
    (r ∈ w.handle.requests.occupants ∧ sentsOf r w.trace = []) ∨
      (r ∉ w.handle.requests.occupants ∧ ∃ sent, sentsOf r w.trace = [sent]) := by
  have books := reachable_accounts h
  have hn := (books.requests.nodup_iff.mp books.distinct.of_map)
  have count := count_waited (books.keyed r hr).2 (sents w.trace)
  rcases List.mem_append.mp (books.requests.mem_iff.mp hr) with hleft | hwait
  · refine .inr ⟨fun hwait => (List.nodup_append.mp hn).2.2 r hleft r hwait rfl, ?_⟩
    apply List.length_eq_one_iff.mp
    rw [sentsOf, ← count]
    exact List.count_eq_one_of_mem (List.nodup_append.mp hn).1 hleft
  · refine .inl ⟨hwait, List.eq_nil_of_length_eq_zero ?_⟩
    rw [sentsOf, ← count]
    exact List.count_eq_zero_of_not_mem
      (fun hleft => (List.nodup_append.mp hn).2.2 r hleft r hwait rfl)

theorem transfer_books (h : ReachableBy C w) :
    ((sents w.trace).filterMap Sent.transfer).Perm
      (readTransfers w.trace ++ transfers w.handle.pool) := by
  have books := (reachable_accounts h).transfers.filterMap id
  rw [List.filterMap_append, List.filterMap_map, List.filterMap_map, List.filterMap_map] at books
  have hreads : (reads w.trace).filterMap (id ∘ fun msg => some msg.easyHandle) =
      readTransfers w.trace := by
    rw [readTransfers, ← List.filterMap_eq_map]
    rfl
  rw [hreads] at books
  exact books

theorem transfer_split (h : ReachableBy C w) {x : ℕ}
    (hx : x ∈ (sents w.trace).filterMap Sent.transfer) :
    (x ∉ readTransfers w.trace ∧ x ∈ transfers w.handle.pool) ∨
      ((readTransfers w.trace).count x = 1 ∧ x ∉ transfers w.handle.pool) := by
  have books := transfer_books h
  have hn := books.nodup_iff.mp (reachable_accounts h).transfers_distinct
  obtain ⟨hreads, -, apart⟩ := List.nodup_append.mp hn
  rcases List.mem_append.mp (books.mem_iff.mp hx) with hread | hpool
  · exact .inr ⟨List.count_eq_one_of_mem hreads hread, fun hpool => apart x hread x hpool rfl⟩
  · exact .inl ⟨fun hread => apart x hread x hpool rfl, hpool⟩

def AllAdded (w : World p) : Prop :=
  ∀ sent ∈ sents w.trace, (∃ easy, sent.easy = some easy) ∧ sent.accepted = true

theorem AllAdded.frame (h : AllAdded w) {mark : List Event}
    (hm : marks w'.trace = marks w.trace ++ mark) (hs : sents mark = []) : AllAdded w' := by
  rw [AllAdded, sents_marks hm, hs, List.append_nil]
  exact h

theorem AllAdded.send (h : AllAdded w) {env : SendEnv} {request : SynapiRequest} {url : Bytes}
    {view : HandleView} {u : World p} (he : env.easyInit = true ∧ env.multiAdd = true)
    (hm : marks w'.trace = marks w.trace ++ [.multiAddHandle (newSent env u request url view)]) :
    AllAdded w' := by
  intro sent hs
  rw [sents_marks hm] at hs
  rcases List.mem_append.mp hs with hs | hs
  · exact h sent hs
  · rw [List.mem_singleton.mp hs]
    simp [newSent, newEasy, newCurl, he]

theorem Effect.allAdded (h : Effect c w₀ w w') (hc : Succeeds w₀ c) (ha : AllAdded w) :
    AllAdded w' := by
  cases h with
  | counters => exact ha
  | silent _ events hs => exact ha.frame (marks_silent hs) rfl
  | queue => exact ha.frame (marks_queue w₀ _ _ _) rfl
  | send hcall =>
    subst hcall
    exact ha.send hc (marks_send w₀ _ _ _ _)
  | register hcall =>
    subst hcall
    exact ha.send hc (marks_register w₀ _ _ _ _ _)
  | setKey => exact ha.frame (marks_keyed rfl w₀ _) rfl
  | setUrl => exact ha.frame (marks_append _ _) rfl
  | write => exact ha.frame (marks_keyed rfl w _) rfl
  | complete => exact ha
  | reap _ _ hm => exact ha.frame (marks_reap hm _) rfl

theorem reachable_allAdded (h : ReachableBy Succeeds w) : AllAdded w := by
  refine reachableBy_invariant (C := Succeeds) (P := AllAdded) ?_ ?_ ?_ h
  · intro w c hc
    cases c <;> trivial
  · rintro start a i _ sent hs
    rw [sents_blank] at hs
    cases hs
  · intro c w₀ w w' hc _ _ ha he
    exact he.allAdded hc ha

/-! The stage of an accepted request -/

theorem request_slot_unique (hw : Inv w) {j k : ℕ} {a b : SynapiRequest}
    (hj : w.handle.requests.slot j = some (some a)) (hk : w.handle.requests.slot k = some (some b))
    (hab : a.addr = b.addr) : j = k := by
  have hn : (w.handle.requests.occupants.filterMap (fun r => some r.addr)).Nodup := by
    rw [List.filterMap_eq_map']
    exact hw.waiting.nodup
  exact SlotTable.slot_unique hn hj hk rfl (congrArg some hab.symm)

theorem curl_slot_unique (hw : Inv w) {j k : ℕ} {a b : SynapiCurlHandle}
    (hj : w.handle.pool.slot j = some (some a)) (hk : w.handle.pool.slot k = some (some b))
    (hab : a.addr = b.addr) : j = k := by
  have hn : (w.handle.pool.occupants.filterMap (fun c => some c.addr)).Nodup := by
    rw [List.filterMap_eq_map']
    exact hw.flight.nodup
  exact SlotTable.slot_unique hn hj hk rfl (congrArg some hab.symm)

theorem stage_exists (h : ReachableBy Succeeds w) (hr : r ∈ accepted w.trace) :
    ∃ s, AtStage w r s := by
  rcases accepted_split h hr with ⟨hwait, hnone⟩ | ⟨hgone, sent, hsent⟩
  · obtain ⟨k, hk⟩ := SlotTable.mem_occupants.mp hwait
    exact ⟨.waiting k, hk, hnone⟩
  · have hmem : sent ∈ sents w.trace :=
      (List.mem_filter.mp (show sent ∈ sentsOf r w.trace by rw [hsent]; exact List.mem_cons_self)).1
    obtain ⟨⟨easy, heasy⟩, -⟩ := reachable_allAdded h sent hmem
    have htransfer : easy.id ∈ (sents w.trace).filterMap Sent.transfer :=
      List.mem_filterMap.mpr ⟨sent, hmem, by rw [Sent.transfer, heasy]; rfl⟩
    rcases transfer_split h htransfer with ⟨hunread, hpool⟩ | ⟨hread, hpool⟩
    · obtain ⟨curl, hcurl, hid⟩ := List.mem_filterMap.mp hpool
      obtain ⟨k, hk⟩ := SlotTable.mem_occupants.mp hcurl
      exact ⟨.inFlight k, hgone, sent, easy, curl, hsent, heasy, hunread, hk, hid⟩
    · exact ⟨.reaped, hgone, sent, easy, hsent, heasy, hread, hpool⟩

theorem count_one_mem {x : ℕ} {l : List ℕ} (h : l.count x = 1) : x ∈ l :=
  List.count_pos_iff.mp (by omega)

theorem same_transfer {trace : List Event} {sent sent' : Sent} {easy easy' : Easy}
    (hs : sentsOf r trace = [sent]) (hs' : sentsOf r trace = [sent'])
    (he : sent.easy = some easy) (he' : sent'.easy = some easy') : easy = easy' := by
  rw [hs] at hs'
  rw [List.singleton_inj.mp hs', he'] at he
  exact (Option.some.inj he).symm

theorem stage_unique (hw : Inv w) {s t : Stage} (hs : AtStage w r s) (ht : AtStage w r t) :
    s = t := by
  cases s with
  | waiting j =>
    obtain ⟨hj, hnone⟩ := hs
    cases t with
    | waiting k => rw [request_slot_unique hw hj ht.1 rfl]
    | inFlight k => exact absurd (SlotTable.mem_occupants.mpr ⟨j, hj⟩) ht.1
    | reaped => exact absurd (SlotTable.mem_occupants.mpr ⟨j, hj⟩) ht.1
  | inFlight j =>
    obtain ⟨hgone, sent, easy, curl, hsent, heasy, hunread, hj, hid⟩ := hs
    cases t with
    | waiting k => exact absurd (SlotTable.mem_occupants.mpr ⟨k, ht.1⟩) hgone
    | inFlight k =>
      obtain ⟨-, sent', easy', curl', hsent', heasy', -, hk, hid'⟩ := ht
      obtain rfl := same_transfer hsent hsent' heasy heasy'
      rw [hw.flight.transfer_unique hj hk hid hid']
    | reaped =>
      obtain ⟨-, sent', easy', hsent', heasy', hread, -⟩ := ht
      obtain rfl := same_transfer hsent hsent' heasy heasy'
      exact absurd (count_one_mem hread) hunread
  | reaped =>
    obtain ⟨hgone, sent, easy, hsent, heasy, hread, -⟩ := hs
    cases t with
    | waiting k => exact absurd (SlotTable.mem_occupants.mpr ⟨k, ht.1⟩) hgone
    | inFlight k =>
      obtain ⟨-, sent', easy', curl', hsent', heasy', hunread, -⟩ := ht
      obtain rfl := same_transfer hsent hsent' heasy heasy'
      exact absurd (count_one_mem hread) hunread
    | reaped => rfl

/-! What one call does to a slot -/

theorem sentsOf_marks {trace trace' mark : List Event} (h : marks trace' = marks trace ++ mark) :
    sentsOf r trace' = sentsOf r trace ++ sentsOf r mark := by
  rw [sentsOf, sents_marks h, List.filter_append]
  rfl

theorem sentsOf_grows {trace trace' mark : List Event} (h : marks trace' = marks trace ++ mark)
    (hs : sentsOf r trace ≠ []) : sentsOf r trace' ≠ [] := by
  rw [sentsOf_marks h]
  exact fun hnil => hs (List.append_eq_nil_iff.mp hnil).1

theorem readTransfers_grows {trace trace' mark : List Event} {x : ℕ}
    (h : marks trace' = marks trace ++ mark) (hx : x ∈ readTransfers trace) :
    x ∈ readTransfers trace' := by
  rw [readTransfers, reads_marks h, List.map_append]
  exact List.mem_append_left _ hx

theorem request_kept {k : ℕ} (hw : Inv w₀) (path : ReflTransGen (Effect c w₀) w₀ w)
    (hk : w₀.handle.requests.slot k = some (some r)) :
    w.handle.requests.slot k = some (some r) ∨ c.Performs ∧ sentsOf r w.trace ≠ [] := by
  refine effects_invariant (P := fun w => w.handle.requests.slot k = some (some r) ∨
    c.Performs ∧ sentsOf r w.trace ≠ []) (fun w w' _ hP he => ?_) path (.inl hk)
  have frame {mark : List Event} (hm : marks w'.trace = marks w.trace ++ mark)
      (hrequests : w'.handle.requests = w.handle.requests) :
      w'.handle.requests.slot k = some (some r) ∨ c.Performs ∧ sentsOf r w'.trace ≠ [] := by
    rw [hrequests]
    exact hP.imp id (fun h => ⟨h.1, sentsOf_grows hm h.2⟩)
  cases he with
  | counters => exact hP
  | silent _ events hs => exact frame (marks_silent hs) rfl
  | @queue action method userData options query j hkeyed hq hj =>
    refine .inl ?_
    change (w₀.handle.requests.put j _).slot k = _
    rw [SlotTable.slot_put_ne _ _, hk]
    rintro rfl
    rw [(SlotTable.lowestFree_some hj).2.1] at hk
    cases hk
  | @send env request key j m hc hset hkey hj hr hm =>
    by_cases hsame : request.addr = r.addr
    · obtain rfl := request_slot_unique hw hr hk hsame
      obtain rfl : request = r := by
        rw [hr] at hk
        exact Option.some.inj (Option.some.inj hk)
      refine .inr ⟨⟨env, hc⟩, ?_⟩
      rw [sentsOf_marks (marks_send w₀ _ _ _ _)]
      simp [sentsOf, sents, Event.sent, newSent]
    · refine .inl ?_
      change (w₀.handle.requests.clear (isRequest request)).slot k = _
      have hother : isRequest request r = false := by
        simp only [isRequest, decide_eq_false_iff_not]
        exact fun h => hsame h.symm
      rw [SlotTable.slot_clear, hk]
      simp [Option.filter, hother]
  | register => exact frame (marks_register w₀ _ _ _ _ _) rfl
  | setKey => exact frame (marks_keyed rfl w₀ _) rfl
  | setUrl => exact frame (marks_append _ _) rfl
  | write => exact frame (marks_keyed rfl w _) rfl
  | complete => exact hP
  | reap _ _ hm => exact frame (marks_reap hm _) rfl

theorem curl_kept {k x : ℕ} {curl : SynapiCurlHandle} (hw : Inv w₀)
    (path : ReflTransGen (Effect c w₀) w₀ w) (hk : w₀.handle.pool.slot k = some (some curl))
    (hx : curl.handle = some x) : w.handle.pool.slot k = some (some curl) ∨
      c.Performs ∧ w.handle.pool.slot k = some none ∧ x ∈ readTransfers w.trace := by
  refine effects_invariant (P := fun w => w.handle.pool.slot k = some (some curl) ∨ c.Performs ∧
    w.handle.pool.slot k = some none ∧ x ∈ readTransfers w.trace) (fun w w' hpath hP he => ?_)
    path (.inl hk)
  have frame {mark : List Event} (hm : marks w'.trace = marks w.trace ++ mark)
      (hpool : w'.handle.pool = w.handle.pool) : w'.handle.pool.slot k = some (some curl) ∨
        c.Performs ∧ w'.handle.pool.slot k = some none ∧ x ∈ readTransfers w'.trace := by
    rw [hpool]
    exact hP.imp id (fun h => ⟨h.1, h.2.1, readTransfers_grows hm h.2.2⟩)
  have put {j : ℕ} (hj : w₀.handle.pool.lowestFree = some j) (v : Option SynapiCurlHandle) :
      (w₀.handle.pool.put j v).slot k = some (some curl) := by
    rw [SlotTable.slot_put_ne _ _, hk]
    rintro rfl
    rw [(SlotTable.lowestFree_some hj).2.1] at hk
    cases hk
  cases he with
  | counters => exact hP
  | silent _ events hs => exact frame (marks_silent hs) rfl
  | queue => exact frame (marks_queue w₀ _ _ _) rfl
  | send hc hset hkey hj hr hm => exact .inl (put hm _)
  | register hc ha hm => exact .inl (put hm _)
  | setKey => exact frame (marks_keyed rfl w₀ _) rfl
  | setUrl => exact frame (marks_append _ _) rfl
  | write => exact frame (marks_keyed rfl w _) rfl
  | complete => exact hP
  | @reap env msg rest done j _ hc hm hj hh =>
    have hinv := inv_of_effects hpath hw
    have hread : x ∈ readTransfers w.trace ∨ x = msg.easyHandle →
        x ∈ readTransfers (w.reap msg done).trace := by
      rw [readTransfers, readTransfers, reads_marks (marks_reap hm done), List.map_append]
      exact fun h => List.mem_append.mpr (h.imp id List.mem_singleton.mpr)
    have slot : (w.reap msg done).handle.pool.slot k =
        (w.handle.pool.slot k).map (Option.filter (fun d => !isCurlHandle done d)) :=
      SlotTable.slot_clear _ _ _
    rcases hP with hP | ⟨hperf, hP, hxr⟩
    · by_cases hsame : curl.addr = done.addr
      · obtain rfl := curl_slot_unique hinv hP hj hsame
        obtain rfl : curl = done := by
          rw [hP] at hj
          exact Option.some.inj (Option.some.inj hj)
        refine .inr ⟨⟨env, hc⟩, ?_, hread (.inr (Option.some.inj (hx.symm.trans hh)))⟩
        rw [slot, hP]
        simp [Option.filter, isCurlHandle]
      · refine .inl ?_
        rw [slot, hP]
        simp [Option.filter, isCurlHandle, hsame]
    · refine .inr ⟨hperf, ?_, hread (.inl hxr)⟩
      rw [slot, hP]
      rfl

theorem queue_or_send (path : ReflTransGen (Effect c w₀) w₀ w) :
    sents w.trace = sents w₀.trace ∨ accepted w.trace = accepted w₀.trace := by
  by_cases hc : c.keyed = none
  · refine .inr (effects_invariant (P := fun w => accepted w.trace = accepted w₀.trace)
      (fun w w' _ hP he => ?_) path rfl)
    have frame {mark : List Event} (hm : marks w'.trace = marks w.trace ++ mark)
        (ha : accepted mark = []) : accepted w'.trace = accepted w₀.trace := by
      rw [accepted_marks hm, ha, List.append_nil, hP]
    cases he with
    | counters => exact hP
    | silent _ events hs => exact frame (marks_silent hs) rfl
    | queue hkeyed => rw [hc] at hkeyed; cases hkeyed
    | send => exact frame (marks_send w₀ _ _ _ _) rfl
    | register => exact frame (marks_register w₀ _ _ _ _ _) rfl
    | setKey => exact frame (marks_keyed rfl w₀ _) rfl
    | setUrl => exact frame (marks_append _ _) rfl
    | write => exact frame (marks_keyed rfl w _) rfl
    | complete => exact hP
    | reap _ _ hm => exact frame (marks_reap hm _) rfl
  · refine .inl (effects_invariant (P := fun w => sents w.trace = sents w₀.trace)
      (fun w w' _ hP he => ?_) path rfl)
    have frame {mark : List Event} (hm : marks w'.trace = marks w.trace ++ mark)
        (hs : sents mark = []) : sents w'.trace = sents w₀.trace := by
      rw [sents_marks hm, hs, List.append_nil, hP]
    cases he with
    | counters => exact hP
    | silent _ events hs => exact frame (marks_silent hs) rfl
    | queue => exact frame (marks_queue w₀ _ _ _) rfl
    | send hcall => rw [hcall] at hc; exact absurd rfl hc
    | register hcall => rw [hcall] at hc; exact absurd rfl hc
    | setKey => exact frame (marks_keyed rfl w₀ _) rfl
    | setUrl => exact frame (marks_append _ _) rfl
    | write => exact frame (marks_keyed rfl w _) rfl
    | complete => exact hP
    | reap _ _ hm => exact frame (marks_reap hm _) rfl

/-! The stages over a run -/

theorem unread_of_pool (h : ReachableBy C w) {k x : ℕ} {curl : SynapiCurlHandle}
    (hk : w.handle.pool.slot k = some (some curl)) (hx : curl.handle = some x) :
    x ∉ readTransfers w.trace := by
  intro hread
  have hn := (transfer_books h).nodup_iff.mp (reachable_accounts h).transfers_distinct
  exact (List.nodup_append.mp hn).2.2 x hread x
    (List.mem_filterMap.mpr ⟨curl, SlotTable.mem_occupants.mpr ⟨k, hk⟩, hx⟩) rfl

theorem sentsOf_stays (h' : ReachableBy C w') (hr : r ∈ accepted w'.trace) {events : List Event}
    (ht : w'.trace = w.trace ++ events) {sent : Sent} (hs : sentsOf r w.trace = [sent]) :
    sentsOf r w'.trace = [sent] ∧ r ∉ w'.handle.requests.occupants := by
  have grown : sentsOf r w'.trace = sent :: sentsOf r events := by
    rw [ht, sentsOf, sents, List.filterMap_append, List.filter_append]
    change sentsOf r w.trace ++ _ = _
    rw [hs]
    rfl
  rcases accepted_split h' hr with ⟨-, hnone⟩ | ⟨hgone, sent', hsent'⟩
  · rw [hnone] at grown
    cases grown
  · refine ⟨?_, hgone⟩
    rw [hsent'] at grown ⊢
    rw [(List.cons.inj grown).1]

theorem stage_step (h : ReachableBy Succeeds w) (hc : Succeeds w c) (hstep : step w c = .ok w')
    (hr : r ∈ accepted w.trace) {s : Stage} (hs : AtStage w r s) :
    ∃ s', AtStage w' r s' ∧ (s' = s ∨ c.Performs ∧ s.Next s') := by
  have h' : ReachableBy Succeeds w' := h.next hc hstep
  obtain ⟨hinv, ha⟩ := reachable_inv h
  have hinv' := (reachable_inv h').1
  have path := step_effects hinv ha hstep
  obtain ⟨events, ht, -⟩ := extends_of_effects path hinv
  have hr' : r ∈ accepted w'.trace := by
    rw [ht, accepted, List.filterMap_append]
    exact List.mem_append_left _ hr
  obtain ⟨s', hs'⟩ := stage_exists h' hr'
  refine ⟨s', hs', ?_⟩
  cases s with
  | waiting k =>
    rcases request_kept hinv path hs.1 with hk | ⟨hperf, hsent⟩
    · have hwait : AtStage w' r (.waiting k) := by
        rcases accepted_split h' hr' with ⟨-, hnone⟩ | ⟨hgone, -⟩
        · exact ⟨hk, hnone⟩
        · exact absurd (SlotTable.mem_occupants.mpr ⟨k, hk⟩) hgone
      exact .inl (stage_unique hinv' hs' hwait)
    · refine .inr ⟨hperf, ?_⟩
      cases s' with
      | waiting j => exact absurd hs'.2 hsent
      | inFlight j => trivial
      | reaped => trivial
  | inFlight k =>
    obtain ⟨-, sent, easy, curl, hsent, heasy, -, hk, hid⟩ := hs
    obtain ⟨hsent', hgone⟩ := sentsOf_stays h' hr' ht hsent
    rcases curl_kept hinv path hk hid with hk' | ⟨hperf, -, hread⟩
    · have hflight : AtStage w' r (.inFlight k) :=
        ⟨hgone, sent, easy, curl, hsent', heasy, unread_of_pool h' hk' hid, hk', hid⟩
      exact .inl (stage_unique hinv' hs' hflight)
    · refine .inr ⟨hperf, ?_⟩
      cases s' with
      | waiting j => rw [hs'.2] at hsent'; cases hsent'
      | inFlight j =>
        obtain ⟨-, sent₁, easy₁, curl₁, hsent₁, heasy₁, hunread, -⟩ := hs'
        obtain rfl := same_transfer hsent' hsent₁ heasy heasy₁
        exact absurd hread hunread
      | reaped => trivial
  | reaped =>
    obtain ⟨-, sent, easy, hsent, heasy, hread, -⟩ := hs
    obtain ⟨hsent', -⟩ := sentsOf_stays h' hr' ht hsent
    refine .inl ?_
    cases s' with
    | waiting j => rw [hs'.2] at hsent'; cases hsent'
    | inFlight j =>
      obtain ⟨-, sent₁, easy₁, curl₁, hsent₁, heasy₁, hunread, -⟩ := hs'
      obtain rfl := same_transfer hsent' hsent₁ heasy heasy₁
      refine absurd ?_ hunread
      rw [ht, readTransfers, reads, List.filterMap_append, List.map_append]
      exact List.mem_append_left _ (count_one_mem hread)
    | reaped => rfl

theorem new_request_waits (h : ReachableBy Succeeds w) (hc : Succeeds w c)
    (hstep : step w c = .ok w') (hr : r ∈ accepted w'.trace) (hnew : r ∉ accepted w.trace) :
    ∃ k, AtStage w' r (.waiting k) := by
  have h' : ReachableBy Succeeds w' := h.next hc hstep
  obtain ⟨hinv, ha⟩ := reachable_inv h
  rcases accepted_split h' hr with ⟨hwait, hnone⟩ | ⟨hgone, sent, hsent⟩
  · obtain ⟨k, hk⟩ := SlotTable.mem_occupants.mp hwait
    exact ⟨k, hk, hnone⟩
  · rcases queue_or_send (step_effects hinv ha hstep) with hsents | haccepted
    · have hleft : r ∈ left w.trace := by
        have hmem : sent ∈ sentsOf r w'.trace := by rw [hsent]; exact List.mem_cons_self
        obtain ⟨hmem, hsame⟩ := List.mem_filter.mp hmem
        rw [decide_eq_true_eq] at hsame
        refine List.mem_filterMap.mpr ⟨sent, hsents ▸ hmem, ?_⟩
        have keyed := ((reachable_accounts h').keyed r hr).2
        rw [Sent.waited, hsame, if_neg (by simp [keyed])]
      have before := (reachable_accounts h).requests.mem_iff.mpr (List.mem_append_left _ hleft)
      exact absurd before hnew
    · exact absurd (haccepted ▸ hr) hnew

theorem record_step (h : ReachableBy C w) (hc : C w c) (hstep : step w c = .ok w') {k x : ℕ}
    {curl : SynapiCurlHandle} (hk : w.handle.pool.slot k = some (some curl))
    (hx : curl.handle = some x) :
    (x ∉ readTransfers w'.trace ∧ w'.handle.pool.slot k = some (some curl)) ∨
      (c.Performs ∧ x ∉ readTransfers w.trace ∧ x ∈ readTransfers w'.trace ∧
        w'.handle.pool.slot k = some none) := by
  obtain ⟨hinv, ha⟩ := reachable_inv h
  rcases curl_kept hinv (step_effects hinv ha hstep) hk hx with hk' | ⟨hperf, hnone, hread⟩
  · exact .inl ⟨unread_of_pool (h.next hc hstep) hk' hx, hk'⟩
  · exact .inr ⟨hperf, unread_of_pool h hk hx, hread, hnone⟩

/-- An accepted request is at one stage at a time and only a `synapi_perform`
takes it on; a record leaves the pool when its own done message is read. -/
theorem accepted_lifecycle (h : ReachableBy Succeeds w) :
    (∀ j k a b, w.handle.requests.slot j = some (some a) →
      w.handle.requests.slot k = some (some b) → a.addr = b.addr → j = k) ∧
    (∀ j k a b, w.handle.pool.slot j = some (some a) → w.handle.pool.slot k = some (some b) →
      a.addr = b.addr → j = k) ∧
    (∀ r ∈ accepted w.trace, ∃! s, AtStage w r s) ∧
    ∀ c w', Succeeds w c → step w c = .ok w' →
      (∀ r ∈ accepted w'.trace, r ∉ accepted w.trace → ∃ k, AtStage w' r (.waiting k)) ∧
      (∀ r ∈ accepted w.trace, ∀ s, AtStage w r s →
        ∃ s', AtStage w' r s' ∧ (s' = s ∨ c.Performs ∧ s.Next s')) ∧
      (∀ k curl x, w.handle.pool.slot k = some (some curl) → curl.handle = some x →
        (x ∉ readTransfers w'.trace ∧ w'.handle.pool.slot k = some (some curl)) ∨
          (c.Performs ∧ x ∉ readTransfers w.trace ∧ x ∈ readTransfers w'.trace ∧
            w'.handle.pool.slot k = some none)) := by
  have hinv := (reachable_inv h).1
  refine ⟨fun j k a b => request_slot_unique hinv, fun j k a b => curl_slot_unique hinv, ?_, ?_⟩
  · intro r hr
    obtain ⟨s, hs⟩ := stage_exists h hr
    exact ⟨s, hs, fun t ht => stage_unique hinv ht hs⟩
  · intro c w' hc hstep
    exact ⟨fun r hr hnew => new_request_waits h hc hstep hr hnew,
      fun r hr s hs => stage_step h hc hstep hr hs,
      fun k curl x hk hx => record_step h hc hstep hk hx⟩

theorem accepted_lifecycle_two : ∃ w : World 2, (accepted w.trace).length = 2 ∧
    readTransfers w.trace = [11] ∧ ∀ r ∈ accepted w.trace, ∃! s, AtStage w r s := by
  have run : ∃ w ∈ trial (p := 2) Succeeds (some (literal "SYN:S:1:ab"))
      [.heartbeat, .deletePlayer 3, .perform (.smooth [.done 11 (.response 200)]),
        .perform (.smooth [])],
      (accepted w.trace).length = 2 ∧ readTransfers w.trace = [11] := by
    decide +kernel
  obtain ⟨w, hw, hlength, hread⟩ := trial_exists run
  exact ⟨w, hlength, hread, (accepted_lifecycle hw).2.2.1⟩

end Synapi

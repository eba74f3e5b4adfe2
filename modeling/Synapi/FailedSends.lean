import Synapi.Lifecycle

/-!
Sends whose `curl_easy_init` or `curl_multi_add_handle` fails: the pool entry
stays and the request is gone.
-/

namespace Synapi

open Runs Relation Text

variable {p : ℤ} {C : World p → Call → Prop} {c : Call} {w₀ w w' : World p}

def takenIn (trace : List Event) : List ℕ :=
  ((sents trace).filter Sent.accepted).filterMap Sent.transfer

/-- Every entry of the pool is a transfer that libcurl has, and a request that
libcurl did not accept still waits. -/
structure World.NoLeak (w : World p) : Prop where
  pool : ∀ curl ∈ w.handle.pool.occupants,
    ∃ x, curl.handle = some x ∧ x ∈ w.multi.added.map Easy.id
  requests : ∀ sent ∈ sents w.trace, sent.request.apiKeyRequest = false →
    sent.accepted = false → sent.request ∈ w.handle.requests.occupants

/-- What libcurl accepted is read as done or still added. -/
structure Adopted (w : World p) : Prop where
  transfers : (takenIn w.trace).Perm
    ((reads w.trace).map CurlMsg.easyHandle ++ w.multi.added.map Easy.id)
  named : ∀ sent ∈ sents w.trace, sent.accepted = true → sent.transfer ≠ none

theorem takenIn_marks {trace trace' mark : List Event} (h : marks trace' = marks trace ++ mark) :
    takenIn trace' = takenIn trace ++ takenIn mark := by
  rw [takenIn, sents_marks h, List.filter_append, List.filterMap_append]
  rfl

theorem Adopted.frame (h : Adopted w) {mark : List Event}
    (hm : marks w'.trace = marks w.trace ++ mark) (hs : sents mark = []) (hr : reads mark = [])
    (hadded : w'.multi.added = w.multi.added) : Adopted w' := by
  have hnone : takenIn mark = [] := by rw [takenIn, hs]; rfl
  constructor
  · rw [takenIn_marks hm, reads_marks hm, hnone, hr, hadded, List.append_nil, List.append_nil]
    exact h.transfers
  · rw [sents_marks hm, hs, List.append_nil]
    exact h.named

theorem Adopted.send (h : Adopted w) {env : SendEnv} {u : World p} {request : SynapiRequest}
    {url : Bytes} {view : HandleView}
    (hm : marks w'.trace = marks w.trace ++ [.multiAddHandle (newSent env u request url view)])
    (hadded : w'.multi = w.multi.add (newEasy env u request url) env.multiAdd) : Adopted w' := by
  have taken : takenIn [.multiAddHandle (newSent env u request url view)] =
      (if env.multiAdd then (newEasy env u request url).toList else []).map Easy.id := by
    change ([newSent env u request url view].filter Sent.accepted).filterMap Sent.transfer = _
    cases hadd : env.multiAdd <;> cases heasy : newEasy env u request url <;>
      simp [newSent, Sent.transfer, hadd, heasy]
  have added : w'.multi.added = w.multi.added ++
      (if env.multiAdd then (newEasy env u request url).toList else []) := by
    rw [hadded, Multi.add]
    split_ifs
    · rfl
    · exact (List.append_nil _).symm
  have unread : reads [.multiAddHandle (newSent env u request url view)] = [] := rfl
  constructor
  · rw [takenIn_marks hm, taken, reads_marks hm, unread, List.append_nil, added, List.map_append,
      ← List.append_assoc]
    exact h.transfers.append_right _
  · intro sent hs haccepted
    rw [sents_marks hm] at hs
    rcases List.mem_append.mp hs with hs | hs
    · exact h.named sent hs haccepted
    · rw [List.mem_singleton.mp hs] at haccepted ⊢
      simp only [newSent, Bool.and_eq_true, Option.isSome_iff_ne_none] at haccepted
      simpa [newSent, Sent.transfer] using haccepted.2

theorem takenIn_nodup (ha : Accounts w) : (takenIn w.trace).Nodup :=
  ha.transfers_distinct.sublist (List.filter_sublist.filterMap _)

theorem Adopted.reap (h : Adopted w) (hw : Inv w) (ha : Accounts w) {msg : CurlMsg}
    {rest : List CurlMsg} {curl : SynapiCurlHandle} (hm : w.multi.messages = msg :: rest) :
    Adopted (w.reap msg curl) := by
  have taken : takenIn (w.reap msg curl).trace = takenIn w.trace :=
    (takenIn_marks (marks_reap hm curl)).trans (List.append_nil _)
  have distinct := (List.nodup_append.mp (h.transfers.nodup_iff.mp (takenIn_nodup ha))).2.1
  have mem : msg.easyHandle ∈ w.multi.added.map Easy.id :=
    hw.flight.completed _ (hw.flight.messages msg (hm ▸ List.mem_cons_self))
  have kept : (w.reap msg curl).multi.added.map Easy.id =
      (w.multi.added.map Easy.id).erase msg.easyHandle := by
    rw [distinct.erase_eq_filter, List.filter_map]
    exact congrArg (List.map Easy.id) (List.filter_congr (fun e _ => by simp [bne, beq_eq_decide]))
  constructor
  · rw [taken, reads_marks (marks_reap hm curl), kept, List.map_append, List.append_assoc]
    exact h.transfers.trans ((List.perm_cons_erase mem).append_left _)
  · rw [sents_marks (marks_reap hm curl)]
    intro sent hs
    exact h.named sent ((List.mem_append.mp hs).resolve_right List.not_mem_nil)

theorem Effect.adopted (h : Effect c w₀ w w') (hw : Inv w) (ha : Accounts w) (hb : Adopted w) :
    Adopted w' := by
  cases h with
  | counters => exact ⟨hb.transfers, hb.named⟩
  | silent _ events hs => exact hb.frame (marks_silent hs) rfl rfl rfl
  | queue => exact hb.frame (marks_queue w₀ _ _ _) rfl rfl rfl
  | send => exact hb.send (marks_send w₀ _ _ _ _) rfl
  | register => exact hb.send (marks_register w₀ _ _ _ _ _) rfl
  | setKey => exact hb.frame (marks_keyed rfl w₀ _) rfl rfl rfl
  | setUrl => exact hb.frame (marks_append _ _) rfl rfl rfl
  | write => exact hb.frame (marks_keyed rfl w _) rfl rfl rfl
  | complete => exact ⟨hb.transfers, hb.named⟩
  | reap _ _ hm => exact hb.reap hw ha hm

theorem blank_adopted (start : Start) (a : CharArray 256) (i : ℤ) :
    Adopted ((blank start a p).setI i) := by
  constructor
  · rw [takenIn, sents_blank, reads_blank]
    exact .refl []
  · rw [sents_blank]
    rintro sent ⟨⟩

theorem reachable_adopted (h : ReachableBy C w) : Adopted w := by
  have all : Accounts w ∧ Adopted w := by
    refine reachable_induction (P := fun w => Accounts w ∧ Adopted w)
      (fun start a i _ => ⟨blank_accounts start a i, blank_adopted start a i⟩) ?_ h
    rintro c w₀ w w' hw ⟨ha, hb⟩ he
    exact ⟨he.accounts hw ha, he.adopted hw ha hb⟩
  exact all.2

theorem refused_apart (ha : Accounts w) {sent : Sent} (hs : sent ∈ sents w.trace)
    (hrefused : sent.accepted = false) {x : ℕ} (hx : sent.transfer = some x) :
    x ∉ takenIn w.trace := by
  have split := (List.filter_append_perm Sent.accepted (sents w.trace)).filterMap Sent.transfer
  have distinct := split.nodup_iff.mpr ha.transfers_distinct
  rw [List.filterMap_append] at distinct
  intro htaken
  refine (List.nodup_append.mp distinct).2.2 x htaken x ?_ rfl
  exact List.mem_filterMap.mpr ⟨sent, List.mem_filter.mpr ⟨hs, by rw [hrefused]; rfl⟩, hx⟩

theorem refused_kept (ha : Accounts w) (hb : Adopted w) {sent : Sent} (hs : sent ∈ sents w.trace)
    (hrefused : sent.accepted = false) :
    ∃ curl ∈ w.handle.pool.occupants, curl.handle = sent.transfer := by
  have books := ha.transfers.mem_iff.mp (List.mem_map_of_mem (f := Sent.transfer) hs)
  rcases List.mem_append.mp books with hread | hpool
  · obtain ⟨msg, hmsg, hx⟩ := List.mem_map.mp hread
    refine absurd ?_ (refused_apart ha hs hrefused hx.symm)
    exact hb.transfers.mem_iff.mpr (List.mem_append_left _ (List.mem_map_of_mem hmsg))
  · exact List.mem_map.mp hpool

theorem no_leak_iff (h : Reachable w) :
    w.NoLeak ↔ ∀ sent ∈ sents w.trace, sent.accepted = true := by
  have ha := reachable_accounts h
  have hb := reachable_adopted h
  constructor
  · intro hn sent hs
    by_contra hrefused
    rw [Bool.not_eq_true] at hrefused
    obtain ⟨curl, hcurl, hc⟩ := refused_kept ha hb hs hrefused
    obtain ⟨x, hx, hadded⟩ := hn.pool curl hcurl
    rw [hc] at hx
    exact refused_apart ha hs hrefused hx
      (hb.transfers.mem_iff.mpr (List.mem_append_right _ hadded))
  · intro hall
    have taken : takenIn w.trace = (sents w.trace).filterMap Sent.transfer := by
      rw [takenIn, List.filter_eq_self.mpr hall]
    refine ⟨fun curl hcurl => ?_, fun sent hs _ hrefused => ?_⟩
    · have books := ha.transfers.mem_iff.mpr
        (List.mem_append_right _ (List.mem_map_of_mem (f := SynapiCurlHandle.handle) hcurl))
      obtain ⟨sent, hs, hc⟩ := List.mem_map.mp books
      obtain ⟨x, hx⟩ := Option.ne_none_iff_exists'.mp (hb.named sent hs (hall sent hs))
      obtain ⟨k, hk⟩ := SlotTable.mem_occupants.mp hcurl
      have hcx : curl.handle = some x := hc.symm.trans hx
      have hmem : x ∈ takenIn w.trace := by
        rw [taken]
        exact List.mem_filterMap.mpr ⟨sent, hs, hx⟩
      refine ⟨x, hcx, (List.mem_append.mp (hb.transfers.mem_iff.mp hmem)).resolve_left ?_⟩
      exact unread_of_pool h hk hcx
    · rw [hall sent hs] at hrefused
      cases hrefused

theorem no_leak_accepted : ∃ w : World 1, (sents w.trace).length = 1 ∧
    (w.NoLeak ↔ ∀ sent ∈ sents w.trace, sent.accepted = true) := by
  have run : ∃ w ∈ trial (p := 1) (fun _ _ => True) none [.newServer ⟨true, true⟩],
      (sents w.trace).length = 1 := by
    decide +kernel
  obtain ⟨w, hw, hone⟩ := trial_exists run
  exact ⟨w, hone, no_leak_iff hw⟩

theorem refused_heartbeat : ∃ w : World 1, Reachable w ∧ ¬ w.NoLeak ∧
    w.handle.requests.occupants = [] ∧ w.handle.pool.lowestFree = none := by
  have run : ∃ w ∈ trial (p := 1) (fun _ _ => True) (some (literal "SYN:S:1:ab"))
      [.heartbeat, .perform ⟨⟨true, false⟩, 0, 1, []⟩],
      (∃ sent ∈ sents w.trace, sent.request.apiKeyRequest = false ∧ sent.accepted = false) ∧
        w.handle.requests.occupants = [] ∧ w.handle.pool.lowestFree = none := by
    decide +kernel
  obtain ⟨w, hw, ⟨sent, hs, hr, hrefused⟩, hgone, hfull⟩ := trial_exists run
  refine ⟨w, hw, fun hn => ?_, hgone, hfull⟩
  have waits := hn.requests sent hs hr hrefused
  rw [hgone] at waits
  cases waits

end Synapi

import Synapi.Reachable

/-!
The books of the two tables: what was accepted has been sent or waits, and what
was sent has been read as done or is in the pool.
-/

namespace Synapi

open Runs Relation Text

variable {p : ℤ} {C : World p → Call → Prop} {c : Call} {w₀ w w' : World p}

def Event.accepted : Event → Option SynapiRequest
  | .queued request _ => some request
  | _ => none

/-- The requests `synapi_queue` has returned an index for, in order. -/
def accepted (trace : List Event) : List SynapiRequest := trace.filterMap Event.accepted

def Event.read : Event → Option CurlMsg
  | .multiInfoRead msg => msg
  | _ => none

def reads (trace : List Event) : List CurlMsg := trace.filterMap Event.read

def Sent.waited (sent : Sent) : Option SynapiRequest :=
  if sent.request.apiKeyRequest then none else some sent.request

/-- The requests that have left the queue for libcurl, in order. -/
def left (trace : List Event) : List SynapiRequest := (sents trace).filterMap Sent.waited

def Sent.transfer (sent : Sent) : Option ℕ := sent.easy.map Easy.id

structure Accounts (w : World p) : Prop where
  requests : (accepted w.trace).Perm (left w.trace ++ w.handle.requests.occupants)
  transfers : ((sents w.trace).map Sent.transfer).Perm
    ((reads w.trace).map (fun msg => some msg.easyHandle) ++
      w.handle.pool.occupants.map SynapiCurlHandle.handle)
  keyed : ∀ r ∈ accepted w.trace, r.addr < w.fresh ∧ r.apiKeyRequest = false
  distinct : ((accepted w.trace).map SynapiRequest.addr).Nodup
  transfer_lt : ∀ x ∈ (sents w.trace).filterMap Sent.transfer, x < w.fresh
  transfers_distinct : ((sents w.trace).filterMap Sent.transfer).Nodup

/-! What one mark adds to the books -/

section Marks

variable {trace trace' mark : List Event}

theorem filterMap_of_marks {α : Type} {f : Event → Option α} (hf : ∀ e, e.silent = true → f e = none)
    (h : marks trace' = marks trace ++ mark) :
    trace'.filterMap f = trace.filterMap f ++ mark.filterMap f := by
  rw [← filterMap_marks hf, h, List.filterMap_append, filterMap_marks hf]

theorem accepted_marks (h : marks trace' = marks trace ++ mark) :
    accepted trace' = accepted trace ++ accepted mark :=
  filterMap_of_marks (fun e he => by cases e <;> first | rfl | cases he) h

theorem reads_marks (h : marks trace' = marks trace ++ mark) :
    reads trace' = reads trace ++ reads mark := by
  refine filterMap_of_marks (fun e he => ?_) h
  cases e with
  | multiInfoRead msg =>
    cases msg with
    | none => rfl
    | some msg => cases he
  | _ => rfl

theorem sents_marks (h : marks trace' = marks trace ++ mark) :
    sents trace' = sents trace ++ sents mark :=
  filterMap_of_marks (fun e he => by cases e <;> first | rfl | cases he) h

theorem left_marks (h : marks trace' = marks trace ++ mark) :
    left trace' = left trace ++ left mark := by
  rw [left, sents_marks h, List.filterMap_append]
  rfl

theorem Accounts.frame (h : Accounts w) {w' : World p}
    (hm : marks w'.trace = marks w.trace ++ mark)
    (ha : accepted mark = []) (hs : sents mark = []) (hr : reads mark = [])
    (hfresh : w.fresh ≤ w'.fresh) (hrequests : w'.handle.requests = w.handle.requests)
    (hpool : w'.handle.pool = w.handle.pool) : Accounts w' := by
  have accepted_eq : accepted w'.trace = accepted w.trace := by
    rw [accepted_marks hm, ha, List.append_nil]
  have sents_eq : sents w'.trace = sents w.trace := by rw [sents_marks hm, hs, List.append_nil]
  have reads_eq : reads w'.trace = reads w.trace := by rw [reads_marks hm, hr, List.append_nil]
  refine ⟨?_, ?_, ?_, ?_, ?_, ?_⟩
  · rw [accepted_eq, left, sents_eq, hrequests]
    exact h.requests
  · rw [sents_eq, reads_eq, hpool]
    exact h.transfers
  · rw [accepted_eq]
    exact fun r hr => ⟨Nat.lt_of_lt_of_le (h.keyed r hr).1 hfresh, (h.keyed r hr).2⟩
  · rw [accepted_eq]
    exact h.distinct
  · rw [sents_eq]
    exact fun x hx => Nat.lt_of_lt_of_le (h.transfer_lt x hx) hfresh
  · rw [sents_eq]
    exact h.transfers_distinct

end Marks

theorem isRequest_iff (request r : SynapiRequest) :
    isRequest request r = true ↔ r.addr = request.addr := by
  simp [isRequest]

theorem isCurlHandle_iff (curl d : SynapiCurlHandle) :
    isCurlHandle curl d = true ↔ d.addr = curl.addr := by
  simp [isCurlHandle]

theorem newSent_transfer (env : SendEnv) (w : World p) (request : SynapiRequest) (url : Bytes)
    (view : HandleView) :
    (newSent env w request url view).transfer = (newCurl env w request).handle :=
  newEasy_id env w request url

theorem Accounts.send (h : Accounts w) {w' : World p} {sent : Sent} {curl : SynapiCurlHandle}
    {k : ℕ} (hm : marks w'.trace = marks w.trace ++ [.multiAddHandle sent])
    (hk : w.handle.pool.slot k = some none) (hpool : w'.handle.pool = w.handle.pool.put k (some curl))
    (htransfer : sent.transfer = curl.handle)
    (hx : ∀ x, curl.handle = some x → w.fresh ≤ x ∧ x < w'.fresh) (hfresh : w.fresh ≤ w'.fresh)
    (hrequests : (left w.trace ++ sent.waited.toList) ++ w'.handle.requests.occupants =
      left w.trace ++ w.handle.requests.occupants) : Accounts w' := by
  have accepted_eq : accepted w'.trace = accepted w.trace :=
    (accepted_marks hm).trans (List.append_nil _)
  have reads_eq : reads w'.trace = reads w.trace := (reads_marks hm).trans (List.append_nil _)
  have sents_eq : sents w'.trace = sents w.trace ++ [sent] := sents_marks hm
  have left_eq : left w'.trace = left w.trace ++ sent.waited.toList := by
    rw [left_marks hm]
    change left w.trace ++ [sent].filterMap Sent.waited = _
    rw [List.filterMap_cons, List.filterMap_nil]
    cases sent.waited <;> rfl
  have transfers_eq : (sents w'.trace).filterMap Sent.transfer =
      (sents w.trace).filterMap Sent.transfer ++ curl.handle.toList := by
    rw [sents_eq, List.filterMap_append, List.filterMap_cons, List.filterMap_nil, htransfer]
    cases curl.handle <;> rfl
  refine ⟨?_, ?_, ?_, ?_, ?_, ?_⟩
  · rw [accepted_eq, left_eq, hrequests]
    exact h.requests
  · have put := (SlotTable.occupants_put_perm hk curl).map SynapiCurlHandle.handle
    rw [sents_eq, reads_eq, hpool, List.map_append, List.map_singleton, htransfer]
    refine ((h.transfers.append_right _).trans ?_).trans (put.symm.append_left _)
    rw [List.append_assoc, List.map_cons]
    exact (List.perm_append_singleton _ _).append_left _
  · rw [accepted_eq]
    exact fun r hr => ⟨Nat.lt_of_lt_of_le (h.keyed r hr).1 hfresh, (h.keyed r hr).2⟩
  · rw [accepted_eq]
    exact h.distinct
  · rw [transfers_eq]
    intro x hx'
    rcases List.mem_append.mp hx' with hx' | hx'
    · exact Nat.lt_of_lt_of_le (h.transfer_lt x hx') hfresh
    · exact (hx x (Option.mem_toList.mp hx')).2
  · rw [transfers_eq, List.nodup_append]
    refine ⟨h.transfers_distinct, ?_, fun x hx' y hy => ?_⟩
    · cases curl.handle <;> simp
    · have := h.transfer_lt x hx'
      have := (hx y (Option.mem_toList.mp hy)).1
      omega

theorem Accounts.queue (h : Accounts w) {w' : World p} {request : SynapiRequest} {k : ℕ}
    (hm : marks w'.trace = marks w.trace ++ [.queued request k])
    (hk : w.handle.requests.lowestFree = some k)
    (hrequests : w'.handle.requests = w.handle.requests.put k (some request))
    (hpool : w'.handle.pool = w.handle.pool) (haddr : request.addr = w.fresh)
    (hkeyed : request.apiKeyRequest = false) (hfresh : w.fresh < w'.fresh) : Accounts w' := by
  have accepted_eq : accepted w'.trace = accepted w.trace ++ [request] := accepted_marks hm
  have sents_eq : sents w'.trace = sents w.trace := (sents_marks hm).trans (List.append_nil _)
  have reads_eq : reads w'.trace = reads w.trace := (reads_marks hm).trans (List.append_nil _)
  refine ⟨?_, ?_, ?_, ?_, ?_, ?_⟩
  · have put := SlotTable.occupants_put_perm (SlotTable.lowestFree_some hk).2.1 request
    rw [accepted_eq, left, sents_eq, hrequests]
    refine ((h.requests.append_right _).trans ?_).trans (put.symm.append_left _)
    rw [List.append_assoc]
    exact (List.perm_append_singleton _ _).append_left _
  · rw [sents_eq, reads_eq, hpool]
    exact h.transfers
  · rw [accepted_eq]
    intro r hr
    rcases List.mem_append.mp hr with hr | hr
    · exact ⟨Nat.lt_trans (h.keyed r hr).1 hfresh, (h.keyed r hr).2⟩
    · rw [List.mem_singleton.mp hr]
      exact ⟨haddr ▸ hfresh, hkeyed⟩
  · rw [accepted_eq, List.map_append, List.nodup_append]
    refine ⟨h.distinct, List.nodup_singleton _, fun x hx y hy => ?_⟩
    obtain ⟨r, hr, rfl⟩ := List.mem_map.mp hx
    have := (h.keyed r hr).1
    rw [List.mem_singleton.mp hy, haddr]
    omega
  · rw [sents_eq]
    exact fun x hx => Nat.lt_trans (h.transfer_lt x hx) hfresh
  · rw [sents_eq]
    exact h.transfers_distinct

theorem Accounts.reap (h : Accounts w) {w' : World p} {msg : CurlMsg} {curl : SynapiCurlHandle}
    (hw : Inv w) (hm : marks w'.trace = marks w.trace ++ [.multiInfoRead (some msg)])
    (hc : curl ∈ w.handle.pool.occupants) (hh : curl.handle = some msg.easyHandle)
    (hrequests : w'.handle.requests = w.handle.requests)
    (hpool : w'.handle.pool = w.handle.pool.clear (isCurlHandle curl))
    (hfresh : w'.fresh = w.fresh) : Accounts w' := by
  have accepted_eq : accepted w'.trace = accepted w.trace :=
    (accepted_marks hm).trans (List.append_nil _)
  have sents_eq : sents w'.trace = sents w.trace := (sents_marks hm).trans (List.append_nil _)
  have reads_eq : reads w'.trace = reads w.trace ++ [msg] := reads_marks hm
  refine ⟨?_, ?_, ?_, ?_, ?_, ?_⟩
  · rw [accepted_eq, left, sents_eq, hrequests]
    exact h.requests
  · obtain ⟨lower, upper, hs⟩ := List.append_of_mem hc
    have cleared := SlotTable.occupants_clear_one hw.flight.nodup (isCurlHandle_iff curl) lower
      upper hs
    have before := h.transfers
    rw [hs, List.map_append, List.map_cons, hh] at before
    rw [sents_eq, reads_eq, hpool, cleared, List.map_append, List.map_append, List.map_singleton,
      List.append_assoc]
    exact before.trans (List.perm_middle.append_left _)
  · rw [accepted_eq, hfresh]
    exact h.keyed
  · rw [accepted_eq]
    exact h.distinct
  · rw [sents_eq, hfresh]
    exact h.transfer_lt
  · rw [sents_eq]
    exact h.transfers_distinct

theorem Effect.accounts (h : Effect c w₀ w w') (hw : Inv w) (ha : Accounts w) : Accounts w' := by
  cases h with
  | counters => exact ha.frame (List.append_nil _).symm rfl rfl rfl (Nat.le_refl _) rfl rfl
  | silent _ events hs hi n =>
    exact ha.frame (marks_silent hs) rfl rfl rfl (Nat.le_add_right _ n) rfl rfl
  | @queue action method userData options query k hc hq hk =>
    exact ha.queue (marks_queue w₀ _ _ _) hk rfl rfl rfl rfl (Nat.lt_add_of_pos_right (by omega))
  | @send env request key j k hc hset hkey hj hr hk =>
    obtain ⟨rest, hrest⟩ := SlotTable.occupants_of_lowestUsed hj hr
    have keyed := (hw.waiting.keyed request (SlotTable.mem_occupants.mpr ⟨j, hr⟩)).1
    refine ha.send (marks_send w₀ _ _ _ _) (SlotTable.lowestFree_some hk).2.1 rfl
      (newSent_transfer _ _ _ _ _) (fun x hx => ?_) (Nat.le_add_right _ 2) ?_
    · have := newCurl_handle env.send w₀ request hx
      change w₀.fresh ≤ x ∧ x < w₀.fresh + 2
      omega
    · have cleared := SlotTable.occupants_clear_one hw.waiting.nodup (isRequest_iff request) []
        rest hrest
      simp only [newSent, Sent.waited, keyed, Bool.false_eq_true, if_false, Option.toList_some,
        World.sendWaiting, cleared, hrest, List.append_assoc, List.cons_append, List.nil_append]
  | @register env query a k hc hs hk =>
    refine ha.send (marks_register w₀ _ _ _ _ _) (SlotTable.lowestFree_some hk).2.1 rfl
      (newSent_transfer _ _ _ _ _) (fun x hx => ?_) (Nat.le_add_right _ 5) ?_
    · have := newCurl_handle env w₀.built _ hx
      change w₀.fresh ≤ x ∧ x < w₀.fresh + 3 + 2
      change x = w₀.fresh + 3 + 1 at this
      omega
    · exact congrArg (· ++ _) (List.append_nil _)
  | setKey => exact ha.frame (marks_keyed rfl w₀ _) rfl rfl rfl (Nat.le_succ _) rfl rfl
  | setUrl => exact ha.frame (marks_append _ _) rfl rfl rfl (Nat.le_refl _) rfl rfl
  | write => exact ha.frame (marks_keyed rfl w _) rfl rfl rfl (Nat.le_succ _) rfl rfl
  | complete => exact ha.frame (List.append_nil _).symm rfl rfl rfl (Nat.le_refl _) rfl rfl
  | @reap env msg rest curl k _ hc hm hk hh =>
    exact ha.reap hw (marks_reap hm curl) (SlotTable.mem_occupants.mpr ⟨k, hk⟩) hh rfl rfl rfl

theorem sents_blank (start : Start) (a : CharArray 256) (i : ℤ) :
    sents ((blank start a p).setI i).trace = [] := by
  have hm : marks ((blank start a p).setI i).trace = marks [] ++ [] := marks_blank start a i
  exact sents_marks hm

theorem reads_blank (start : Start) (a : CharArray 256) (i : ℤ) :
    reads ((blank start a p).setI i).trace = [] := by
  have hm : marks ((blank start a p).setI i).trace = marks [] ++ [] := marks_blank start a i
  exact reads_marks hm

theorem blank_accounts (start : Start) (a : CharArray 256) (i : ℤ) :
    Accounts ((blank start a p).setI i) := by
  have requests : ((blank start a p).setI i).handle.requests.occupants = [] :=
    SlotTable.occupants_empty
  have pool : ((blank start a p).setI i).handle.pool.occupants = [] := SlotTable.occupants_empty
  have hm : marks ((blank start a p).setI i).trace = marks [] ++ [] := marks_blank start a i
  have accepted_eq : accepted ((blank start a p).setI i).trace = [] := accepted_marks hm
  have sents_eq := sents_blank start a (p := p) i
  have reads_eq := reads_blank start a (p := p) i
  constructor
  · rw [accepted_eq, left, sents_eq, requests]
    exact .refl []
  · rw [sents_eq, reads_eq, pool]
    exact .refl []
  · rw [accepted_eq]
    rintro r ⟨⟩
  · rw [accepted_eq]
    exact List.nodup_nil
  · rw [sents_eq]
    rintro x ⟨⟩
  · rw [sents_eq]
    exact List.nodup_nil

theorem reachable_accounts (h : ReachableBy C w) : Accounts w := by
  refine reachable_induction (fun start a i _ => blank_accounts start a i) ?_ h
  intro c w₀ w w' hw ha he
  exact he.accounts hw ha

end Synapi

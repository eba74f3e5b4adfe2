import Synapi.Drain
import Synapi.Lifecycle
import Synapi.LongQueries

/-!
How long an accepted request waits: the requests below its slot are sent before
it, and so is every request that gets a lower slot while it waits.
-/

namespace Synapi

open Runs Relation Text

variable {p : ℤ} {c : Call} {r : SynapiRequest} {k : ℕ} {w w' : World p}

/-- The call is a frame that may send. -/
def sending (w : World p) : Call → Bool
  | .perform _ => w.handle.apiKeySet
  | _ => false

/-- The call gives a request a slot below `k`. -/
def overtaking (k : ℕ) (w : World p) (c : Call) : Bool :=
  c.keyed.isSome && w.handle.requests.lowestFree.any (fun j => decide (j < k))

/-! The slots below one -/

theorem usedBelow_put {α : Type} {n j : ℕ} {t : SlotTable α n} (hj : t.slot j = some none) (a : α)
    (k : ℕ) : usedBelow (t.put j (some a)) k = usedBelow t k + (decide (j < k)).toNat := by
  obtain ⟨lower, upper, hs, rfl⟩ := SlotTable.slots_split hj
  simp only [usedBelow, SlotTable.put, hs, List.set_append_right _ _ (Nat.le_refl _), Nat.sub_self,
    List.set_cons_zero, List.take_append, List.reduceOption_append, List.length_append]
  cases hk : k - lower.length with
  | zero => simp [show ¬ lower.length < k by omega]
  | succ m =>
    simp only [List.take_succ_cons, List.reduceOption_cons_of_some,
      List.reduceOption_cons_of_none, List.length_cons]
    simp [show lower.length < k by omega]
    omega

theorem usedBelow_le {α : Type} {n : ℕ} (t : SlotTable α n) (k : ℕ) : usedBelow t k ≤ k :=
  Nat.le_trans (List.reduceOption_length_le _) (List.length_take_le k t.slots)

theorem occupants_split {α : Type} {n : ℕ} {t : SlotTable α n} {a : α}
    (hk : t.slot k = some (some a)) :
    ∃ lower upper, t.occupants = lower ++ a :: upper ∧ lower.length = usedBelow t k := by
  obtain ⟨lower, upper, hs, rfl⟩ := SlotTable.slots_split hk
  refine ⟨lower.reduceOption, upper.reduceOption, ?_, ?_⟩
  · rw [SlotTable.occupants, hs, List.reduceOption_append, List.reduceOption_cons_of_some]
  · rw [usedBelow, hs, List.take_left]

/-! What one call does to a request that waits -/

theorem keyed_waits (ha : Addressed w) (hc : c.keyed.isSome = true)
    (hk : w.handle.requests.slot k = some (some r)) (h : step w c = .ok w') :
    w'.handle.requests.slot k = some (some r) ∧ usedBelow w'.handle.requests k =
      usedBelow w.handle.requests k + (overtaking k w c).toNat := by
  obtain ⟨⟨action, method, userData, options⟩, hkeyed⟩ := Option.isSome_iff_exists.mp hc
  have hstep : step w c = (keyed w action method userData options).map Prod.snd := by
    cases c <;> cases hkeyed <;> rfl
  rw [hstep, keyed] at h
  rw [overtaking, hc, Bool.true_and]
  cases hq : synapiBuildQueryString method options with
  | error e =>
    rw [synapiQueue_textError ha.hostHeader hq] at h
    cases h
  | ok query =>
    cases hj : w.handle.requests.lowestFree with
    | none =>
      rw [synapiQueue_reject ha.hostHeader hq hj] at h
      rw [← Except.ok.inj h]
      exact ⟨hk, rfl⟩
    | some j =>
      rw [synapiQueue_accept ha.hostHeader hq hj] at h
      rw [← Except.ok.inj h]
      have free := (SlotTable.lowestFree_some hj).2.1
      constructor
      · refine (SlotTable.slot_put_ne ?_ _).trans hk
        rintro rfl
        rw [free] at hk
        cases hk
      · exact usedBelow_put free _ k

theorem requests_still (hw : Inv w) (ha : Addressed w) (hc : c.keyed = none)
    (hp : ¬ c.Performs) (h : step w c = .ok w') : w'.handle.requests = w.handle.requests := by
  have effects := step_effects hw ha h
  clear h
  induction effects with
  | refl => rfl
  | tail _ he ih =>
    cases he with
    | queue hkeyed =>
      rw [hc] at hkeyed
      cases hkeyed
    | send hperform => exact absurd ⟨_, hperform⟩ hp
    | register => rfl
    | _ => exact ih

theorem left_disjoint (h : Reachable w) (hr : r ∈ w.handle.requests.occupants) :
    r ∉ left w.trace := by
  have books := reachable_accounts h
  have hn := (books.requests.nodup_iff).mp books.distinct.of_map
  exact fun hleft => (List.nodup_append.mp hn).2.2 r hleft r hr rfl

theorem mem_left_of_sent {trace : List Event} {sent : Sent} (hs : sent ∈ sents trace)
    (hr : sent.request.apiKeyRequest = false) : sent.request ∈ left trace := by
  refine List.mem_filterMap.mpr ⟨sent, hs, ?_⟩
  simp [Sent.waited, hr]

theorem step_left (hw : Inv w) (ha : Addressed w) (h : step w c = .ok w')
    (hr : r ∈ left w.trace) : r ∈ left w'.trace := by
  obtain ⟨events, ht, -⟩ := extends_of_effects (step_effects hw ha h) hw
  rw [ht, left, sents_append, List.filterMap_append]
  exact List.mem_append_left _ hr

theorem perform_left {env : PerformEnv} (h : Reachable w)
    (hstep : step w (.perform env) = .ok w') : left w'.trace = left w.trace ++
      if w.handle.apiKeySet then w.handle.requests.occupants.take 1 else [] := by
  obtain ⟨hinv, ha⟩ := reachable_inv h
  obtain ⟨news, hsents, hnews⟩ := (perform_spec hinv ha hstep).sents
  have keyed : ∀ sent ∈ news, sent.waited = some sent.request := by
    intro sent hsent
    have hmem : sent.request ∈ w.handle.requests.occupants := by
      have := List.mem_map_of_mem (f := Sent.request) hsent
      rw [hnews] at this
      split_ifs at this
      · exact List.mem_of_mem_take this
      · cases this
    rw [Sent.waited, (hinv.waiting.keyed _ hmem).1]
    rfl
  rw [left, hsents, List.filterMap_append, ← hnews, List.filterMap_congr keyed,
    ← List.filterMap_eq_map]
  rfl

/-- A frame sends the request in the lowest used slot, so one below `k` or the one in it. -/
theorem perform_waits {env : PerformEnv} (h : Reachable w)
    (hk : w.handle.requests.slot k = some (some r)) (hstep : step w (.perform env) = .ok w') :
    (r ∈ left w'.trace ∧ usedBelow w.handle.requests k < w.handle.apiKeySet.toNat) ∨
      (w'.handle.requests.slot k = some (some r) ∧
        usedBelow w'.handle.requests k + w.handle.apiKeySet.toNat =
          usedBelow w.handle.requests k) := by
  obtain ⟨hinv, ha⟩ := reachable_inv h
  have h' : Reachable w' := h.next trivial hstep
  have performed := perform_spec hinv ha hstep
  have hleft := perform_left h hstep
  obtain ⟨lower, upper, hs, hlower⟩ := occupants_split hk
  have keyed := (hinv.waiting.keyed r (SlotTable.mem_occupants.mpr ⟨k, hk⟩)).1
  have hn := hinv.waiting.nodup.of_map
  rw [hs] at hn
  have notin : r ∉ lower ∧ r ∉ upper := by
    rw [List.nodup_middle, List.nodup_cons, List.mem_append, not_or] at hn
    exact hn.1
  have stays {lower' : List SynapiRequest}
      (hrest : w'.handle.requests.occupants = lower' ++ r :: upper)
      (hsub : lower' ⊆ lower) (hlen : lower'.length + w.handle.apiKeySet.toNat = lower.length) :
      w'.handle.requests.slot k = some (some r) ∧
        usedBelow w'.handle.requests k + w.handle.apiKeySet.toNat =
          usedBelow w.handle.requests k := by
    have still : r ∈ w'.handle.requests.occupants := by rw [hrest]; simp
    have unsent := left_disjoint h' still
    rcases request_kept hinv (step_effects hinv ha hstep) hk with hslot | ⟨-, hsent⟩
    · obtain ⟨lower'', upper'', hs'', hlower''⟩ := occupants_split hslot
      rw [hrest] at hs''
      obtain ⟨rfl, -, -⟩ := (List.append_cons_inj_of_notMem (fun hm => notin.1 (hsub hm))
        notin.2).mp hs''
      exact ⟨hslot, by omega⟩
    · obtain ⟨sent, hmem⟩ := List.exists_mem_of_ne_nil _ hsent
      obtain ⟨hsends, heq⟩ := List.mem_filter.mp hmem
      obtain rfl := of_decide_eq_true heq
      exact absurd (mem_left_of_sent hsends keyed) unsent
  have requests := performed.requests
  cases hset : w.handle.apiKeySet with
  | false =>
    rw [hset] at requests stays
    exact .inr (stays (requests.trans hs) (List.Subset.refl _) rfl)
  | true =>
    rw [hset] at requests stays hleft
    rw [if_pos rfl, hs] at requests hleft
    cases lower with
    | nil =>
      refine .inl ⟨?_, by rw [← hlower]; exact Nat.one_pos⟩
      rw [hleft]
      exact List.mem_append_right _ List.mem_cons_self
    | cons a lower => exact .inr (stays requests (List.subset_cons_self a lower) rfl)

theorem step_waits (h : Reachable w) (hk : w.handle.requests.slot k = some (some r))
    (hstep : step w c = .ok w') :
    (r ∈ left w'.trace ∧ usedBelow w.handle.requests k + (overtaking k w c).toNat <
      (sending w c).toNat) ∨
    (w'.handle.requests.slot k = some (some r) ∧
      usedBelow w'.handle.requests k + (sending w c).toNat =
        usedBelow w.handle.requests k + (overtaking k w c).toNat) := by
  obtain ⟨hinv, ha⟩ := reachable_inv h
  cases hc : c.keyed.isSome with
  | true =>
    have idle : sending w c = false := by cases c <;> first | rfl | cases hc
    obtain ⟨hslot, hbelow⟩ := keyed_waits ha hc hk hstep
    rw [idle]
    exact .inr ⟨hslot, hbelow⟩
  | false =>
    have none_enters : overtaking k w c = false := by rw [overtaking, hc, Bool.false_and]
    rw [none_enters]
    by_cases hp : c.Performs
    · obtain ⟨env, rfl⟩ := hp
      exact perform_waits h hk hstep
    · have idle : sending w c = false := by
        cases c with
        | perform env => exact absurd ⟨env, rfl⟩ hp
        | _ => rfl
      rw [idle, requests_still hinv ha (Option.not_isSome_iff_eq_none.mp (by simp [hc])) hp hstep]
      exact .inr ⟨hk, rfl⟩

/-- Over any run, a request that waits is sent by the first frame for which there
is none left before it: the requests that waited below it and those that have come
in below it since are fewer than the frames. -/
theorem waiting_sent_iff {calls : List Call} (h : Reachable w)
    (hk : w.handle.requests.slot k = some (some r)) (hrun : run step w calls = .ok w') :
    r ∈ left w'.trace ↔ ∃ pre post, calls = pre ++ post ∧
      usedBelow w.handle.requests k + count step (overtaking k) w pre < count step sending w pre :=
  countdown (I := Reachable) (W := fun w => w.handle.requests.slot k = some (some r))
    (G := fun w => r ∈ left w.trace) (m := fun w => usedBelow w.handle.requests k)
    (fun _ _ _ h hstep => h.next trivial hstep) (fun _ _ _ h hk hstep => step_waits h hk hstep)
    (fun _ _ _ h hleft hstep => step_left (reachable_inv h).1 (reachable_inv h).2 hstep hleft)
    (fun _ h hk => left_disjoint h (SlotTable.mem_occupants.mpr ⟨k, hk⟩)) h hk hrun

theorem waiting_sent_third_frame : ∃ w w' : World 2, ∃ r, ∃ calls : List Call,
    w.handle.requests.slot 1 = some (some r) ∧ run step w calls = .ok w' ∧ r ∈ left w'.trace ∧
      ∃ pre post, calls = pre ++ post ∧
        usedBelow w.handle.requests 1 + count step (overtaking 1) w pre <
          count step sending w pre := by
  have start : ∃ w ∈ trial (p := 2) (fun _ _ => True) (some (literal "SYN:S:1:ab"))
      [.heartbeat, .updatePlayer 7 [.playerScore 3]],
      ∃ r ∈ (w.handle.requests.slot 1).join, ∃ w' ∈ (run step w [.perform (.smooth []),
        .deletePlayer 7, .perform (.smooth [.done 11 (.response 200), .done 16 (.response 200)]),
        .perform (.smooth [])]).toOption, r ∈ left w'.trace := by
    decide +kernel
  obtain ⟨w, hw, r, hr, w', hrun, hleft⟩ := trial_exists start
  have hk : w.handle.requests.slot 1 = some (some r) := Option.join_eq_some_iff.mp hr
  have hrun := eq_ok_of_toOption hrun
  exact ⟨w, w', r, _, hk, hrun, hleft, (waiting_sent_iff hw hk hrun).mp hleft⟩

/-! Waiting without end -/

/-- The request waits above another one, and the next frame has room for that one. -/
structure PassedOver (w : World p) (k : ℕ) (r : SynapiRequest) : Prop where
  reachable : Reachable w
  keySet : w.handle.apiKeySet = true
  waits : w.handle.requests.slot k = some (some r)
  below : 0 < usedBelow w.handle.requests k
  room : flying w < p.toNat

theorem lowestFree_le {α : Type} {n : ℕ} {t : SlotTable α n} (h : t.slot k = some none) :
    ∃ j ≤ k, t.lowestFree = some j := by
  cases hj : t.lowestFree with
  | none =>
    obtain ⟨a, ha⟩ := SlotTable.lowestFree_none hj (SlotTable.slot_lt h)
    rw [h] at ha
    cases ha
  | some j =>
    refine ⟨j, ?_, rfl⟩
    by_contra hlt
    obtain ⟨a, ha⟩ := (SlotTable.lowestFree_some hj).2.2 k (Nat.lt_of_not_le hlt)
    rw [h] at ha
    cases ha

theorem lowestUsed_below {α : Type} {n : ℕ} {t : SlotTable α n} (h : 0 < usedBelow t k) :
    ∃ j < k, ∃ a, t.lowestUsed = some j ∧ t.slot j = some (some a) := by
  obtain ⟨a, ha⟩ := List.exists_mem_of_length_pos h
  rw [List.reduceOption_mem_iff, List.mem_iff_getElem?] at ha
  obtain ⟨i, hi⟩ := ha
  have hik : i < k := by
    have := (List.getElem?_eq_some_iff.mp hi).1
    rw [List.length_take] at this
    omega
  rw [List.getElem?_take_of_lt hik] at hi
  cases hj : t.lowestUsed with
  | none =>
    have hnone := SlotTable.lowestUsed_none hj (SlotTable.slot_lt hi)
    rw [show t.slot i = some (some a) from hi] at hnone
    cases hnone
  | some j =>
    obtain ⟨-, ⟨b, hb⟩, hbelow⟩ := SlotTable.lowestUsed_some hj
    refine ⟨j, ?_, b, rfl, hb⟩
    by_contra hlt
    have hnone := hbelow i (by omega)
    rw [show t.slot i = some (some a) from hi] at hnone
    cases hnone

theorem lowestFree_below {α : Type} {n : ℕ} {t : SlotTable α n} (hk : k ≤ n)
    (h : usedBelow t k < k) : ∃ j < k, t.lowestFree = some j := by
  have all : (t.slots.take k).length = k := by
    rw [List.length_take, t.size_eq]
    omega
  have hnone := (List.reduceOption_length_lt_iff (l := t.slots.take k)).mp (by rwa [all])
  obtain ⟨i, hi⟩ := List.mem_iff_getElem?.mp hnone
  have hik : i < k := by
    have := (List.getElem?_eq_some_iff.mp hi).1
    omega
  rw [List.getElem?_take_of_lt hik] at hi
  obtain ⟨j, hji, hj⟩ := lowestFree_le hi
  exact ⟨j, by omega, hj⟩

/-- In this frame libcurl finishes the transfer the frame starts. -/
def World.prompt (w : World p) : PerformEnv := .smooth [.done (w.fresh + 1) (.response 200)]

theorem drive_done {x : ℕ} {result : TransferResult} (h5 : w.multiPerformCounter = 5)
    (hx : w.multi.Running x) (h : drive [.done x result] w = .ok w') : w'.multi.messages ≠ [] := by
  have completes : progressStep (w.emit .multiPerform) (.done x result) =
      .ok { w.emit .multiPerform with multi := w.multi.complete x result } := if_pos hx
  unfold drive curlMultiPerform at h
  rw [if_pos h5, run, completes] at h
  rw [← Except.ok.inj h]
  simp [Multi.complete]

theorem prompt_reads (h : PassedOver w k r) (hstep : synapiPerform w.prompt w = .ok w') :
    (reads w'.trace).length = (reads w.trace).length + 1 := by
  obtain ⟨hinv, ha⟩ := reachable_inv h.reachable
  obtain ⟨j, -, first, hj, hfirst⟩ := lowestUsed_below h.below
  obtain ⟨w₁, h₁, hrest⟩ := bind_eq_ok.mp hstep
  obtain ⟨w₃, h₃, h₄⟩ := bind_eq_ok.mp hrest
  have sent := sendOne_spec hinv ha h₁
  have cases := sendOne_cases w.prompt.send hinv ha
  rw [h₁] at cases
  cases cases with
  | closed hclosed =>
    rw [h.keySet] at hclosed
    cases hclosed
  | empty _ hempty =>
    rw [hj] at hempty
    cases hempty
  | @sent request key j' m _ _ _ _ hm =>
    -- The new transfer is one of libcurl's, and no response to it has come.
    have running : (w.multi.add (newEasy w.prompt.send w request (snprintf 255 (urlOf request.action
        w.handle.baseUrl.str key.val request.userData))) true).Running (w.fresh + 1) := by
      constructor
      · simp [Multi.add, newEasy, newCurl, World.prompt, PerformEnv.smooth]
      · intro hdone
        obtain ⟨e, he, hid⟩ := List.mem_map.mp (hinv.flight.completed _ hdone)
        have := hinv.flight.transfer_lt _ (hinv.flight.added e he)
        omega
    have inv₃ := driven_inv hinv ha h₁ h₃
    have drove := (drive_spec h₃).2.1
    have messages : w₃.multi.messages ≠ [] := drive_done rfl running h₃
    rcases reapOne_cases inv₃ with ⟨hnone, -⟩ | ⟨msg, rest, curl, i, i', hmsg, -, -, hr⟩
    · exact absurd hnone messages
    · rw [hr] at h₄
      rw [← Except.ok.inj h₄]
      have read := reads_marks (marks_reap hmsg curl)
      change (reads (w₃.reap msg curl).trace).length = _
      rw [read, drove, (wait_keeps _ _ _).reads, sent.reads]
      exact List.length_append

theorem room_of_flying (h : flying w < p.toNat) : w.handle.pool.lowestFree ≠ none := by
  intro hfull
  have := (SlotTable.lowestFree_eq_none_iff _).mp hfull
  rw [flying] at h
  omega

theorem prompt_frame (h : PassedOver w k r) : ∃ w', synapiPerform w.prompt w = .ok w' ∧
    Reachable w' ∧ w'.handle.apiKeySet = true ∧ w'.handle.requests.slot k = some (some r) ∧
      usedBelow w'.handle.requests k + 1 = usedBelow w.handle.requests k ∧
        flying w' = flying w ∧ (left w'.trace).length = (left w.trace).length + 1 := by
  obtain ⟨hinv, ha⟩ := reachable_inv h.reachable
  obtain ⟨w', hstep⟩ := (perform_ok_iff w.prompt hinv ha).mpr
    ⟨fun hfull => room_of_flying h.room hfull.2, fun hover => hover.2⟩
  have performed := perform_spec hinv ha hstep
  have counts := perform_counts h.reachable h.keySet hstep
  have read := prompt_reads h hstep
  have some_waits : 0 < waiting w :=
    List.length_pos_of_mem (SlotTable.mem_occupants.mpr ⟨k, h.waits⟩)
  have hleft : (left w'.trace).length = (left w.trace).length + 1 := by
    rw [perform_left h.reachable (hstep : step w (.perform w.prompt) = .ok w'), if_pos h.keySet, List.length_append,
      List.length_take]
    exact congrArg _ (Nat.min_eq_left some_waits)
  refine ⟨w', hstep, h.reachable.next (c := .perform w.prompt) trivial hstep,
    performed.keySet h.keySet, ?_⟩
  have waits := perform_waits h.reachable h.waits hstep
  rw [h.keySet] at waits
  rcases waits with ⟨-, hlt⟩ | ⟨hslot, hbelow⟩
  · exact absurd h.below (by change _ < 1 at hlt; omega)
  · exact ⟨hslot, hbelow, by omega, hleft⟩

theorem heartbeat_ok (ha : Addressed w) : ∃ w', step w .heartbeat = .ok w' ∧
    w'.handle.apiKeySet = w.handle.apiKeySet ∧ w'.handle.pool = w.handle.pool ∧
      left w'.trace = left w.trace := by
  have hq := synapiBuildQueryString_none .put
  cases hk : w.handle.requests.lowestFree with
  | none =>
    refine ⟨_, congrArg (Except.map Prod.snd) (synapiQueue_reject ha.hostHeader hq hk), rfl, rfl, ?_⟩
    have hm (request : SynapiRequest) :
        marks ((w.built.setI p.toNat).emit (.rejected request)).trace = marks w.trace ++ [] := by
      rw [marks_emit]
      exact congrArg (· ++ []) (marks_built w)
    exact (left_marks (hm _)).trans (List.append_nil _)
  | some j =>
    refine ⟨_, congrArg (Except.map Prod.snd) (synapiQueue_accept ha.hostHeader hq hk), rfl, rfl, ?_⟩
    exact (left_marks (marks_queue w _ _ _)).trans (List.append_nil _)

/-- One more frame passes the request over when the next call fills the slot it freed. -/
theorem passed_again (h : PassedOver w k r) : ∃ calls w', run step w calls = .ok w' ∧
    PassedOver w' k r ∧ (left w'.trace).length = (left w.trace).length + 1 := by
  obtain ⟨u, hu, hr, hset, hslot, hbelow, hflying, hone⟩ := prompt_frame h
  have ha := (reachable_inv hr).2
  obtain ⟨w', hw', hset', hpool', hleft'⟩ := heartbeat_ok ha
  refine ⟨[.perform w.prompt, .heartbeat], w', ?_, ⟨?_, ?_, ?_, ?_, ?_⟩, ?_⟩
  · exact run_cons_ok.mpr ⟨u, hu, run_cons_ok.mpr ⟨w', hw', rfl⟩⟩
  · exact hr.next trivial hw'
  · rw [hset', hset]
  · exact (keyed_waits (c := .heartbeat) ha rfl hslot hw').1
  · have hle := usedBelow_le w.handle.requests k
    obtain ⟨j, hjk, hj⟩ := lowestFree_below (Nat.le_of_lt (SlotTable.slot_lt hslot))
      (show usedBelow u.handle.requests k < k by omega)
    rw [(keyed_waits (c := .heartbeat) ha rfl hslot hw').2, overtaking, hj]
    simp [Call.keyed, hjk]
  · rw [flying, hpool']
    exact hflying.trans_lt h.room
  · rw [hleft', hone]

end Synapi

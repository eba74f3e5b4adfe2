import Synapi.Accounts

/-!
The order in which waiting requests are sent.
-/

namespace Synapi

open Runs Relation Text

variable {p : ℤ} {c : Call} {w₀ w w' : World p}

/-- When the call accepts a request, none waits in a slot above the one it gets. -/
def NoneAbove (w : World p) (c : Call) : Prop :=
  c.keyed.isSome = true → ∀ k ∈ w.handle.requests.lowestFree, ∀ j < p.toNat, k < j →
    w.handle.requests.slot j = some none

instance (w : World p) (c : Call) : Decidable (NoneAbove w c) := by
  unfold NoneAbove
  infer_instance

/-- The queue is the list of the accepted requests that have not been sent, oldest first. -/
def InOrder (w : World p) : Prop :=
  accepted w.trace = left w.trace ++ w.handle.requests.occupants

theorem InOrder.frame (h : InOrder w) {mark : List Event}
    (hm : marks w'.trace = marks w.trace ++ mark) (ha : accepted mark = []) (hl : left mark = [])
    (hrequests : w'.handle.requests = w.handle.requests) : InOrder w' := by
  rw [InOrder, accepted_marks hm, left_marks hm, ha, hl, hrequests, List.append_nil, List.append_nil]
  exact h

theorem Effect.inOrder (h : Effect c w₀ w w') (hc : NoneAbove w₀ c) (hw : Inv w)
    (ho : InOrder w) : InOrder w' := by
  cases h with
  | counters => exact ho.frame (List.append_nil _).symm rfl rfl rfl
  | silent _ events hs => exact ho.frame (marks_silent hs) rfl rfl rfl
  | @queue action method userData options query k hkeyed hq hk =>
    have hm := marks_queue w₀ (w₀.handle.requests.put k
      (some (newRequest w₀ action method false userData query)))
      (newRequest w₀ action method false userData query) k
    have last := SlotTable.occupants_put_last (SlotTable.lowestFree_some hk).2.1
      (fun j hkj hj => hc (by rw [hkeyed]; rfl) k hk j hj hkj)
      (newRequest w₀ action method false userData query)
    rw [InOrder, accepted_marks hm, left_marks hm, ho]
    change _ = left w₀.trace ++ [] ++ (w₀.handle.requests.put k _).occupants
    rw [last, List.append_nil, List.append_assoc]
    rfl
  | @send env request key j k hcall hset hkey hj hr hk =>
    have keyed := (hw.waiting.keyed request (SlotTable.mem_occupants.mpr ⟨j, hr⟩)).1
    obtain ⟨rest, hrest⟩ := SlotTable.occupants_of_lowestUsed hj hr
    have cleared := SlotTable.occupants_clear_one hw.waiting.nodup (isRequest_iff request) []
      rest hrest
    have hm := marks_send w₀ env.send request (snprintf 255
      (urlOf request.action w₀.handle.baseUrl.str key.val request.userData)) k
    have hleft : left [Event.multiAddHandle (newSent env.send w₀ request (snprintf 255
        (urlOf request.action w₀.handle.baseUrl.str key.val request.userData)) w₀.view)] =
          [request] := by
      simp [left, sents, Event.sent, Sent.waited, newSent, keyed]
    rw [InOrder, accepted_marks hm, left_marks hm, ho, hleft, hrest]
    change left w₀.trace ++ request :: rest ++ [] = left w₀.trace ++ [request] ++
      (w₀.handle.requests.clear (isRequest request)).occupants
    rw [cleared, List.append_nil, List.append_assoc]
    rfl
  | register => exact ho.frame (marks_register w₀ _ _ _ _ _) rfl rfl rfl
  | setKey => exact ho.frame (marks_keyed rfl w₀ _) rfl rfl rfl
  | setUrl => exact ho.frame (marks_append _ _) rfl rfl rfl
  | write => exact ho.frame (marks_keyed rfl w _) rfl rfl rfl
  | complete => exact ho.frame (List.append_nil _).symm rfl rfl rfl
  | reap _ _ hm => exact ho.frame (marks_reap hm _) rfl rfl rfl

theorem reachable_inOrder (h : ReachableBy NoneAbove w) : InOrder w := by
  refine reachableBy_invariant (C := NoneAbove) (P := InOrder) ?_ ?_ ?_ h
  · intro w c hset hkeyed
    cases c <;> first | exact hset.elim | cases hkeyed
  · intro start a i _
    have hm : marks ((blank start a p).setI i).trace = marks [] ++ [] := marks_blank start a i
    have empty : ((blank start a p).setI i).handle.requests.occupants = [] :=
      SlotTable.occupants_empty
    rw [InOrder, accepted_marks hm, left, sents_blank, empty]
    rfl
  · intro c w₀ w w' hc hinv path ho he
    exact he.inOrder hc (inv_of_effects path hinv) ho

/-- The one before the other, in a list in which both stand once. -/
def Before {α : Type} (a b : α) (l : List α) : Prop := [a, b].Sublist l

instance {α : Type} [DecidableEq α] (a b : α) (l : List α) : Decidable (Before a b l) :=
  inferInstanceAs (Decidable (List.Sublist _ _))

theorem before_of_append {α : Type} {a b : α} {first second : List α}
    (hn : (first ++ second).Nodup) (h : Before a b (first ++ second)) (hb : b ∈ first) :
    Before a b first := by
  obtain ⟨l, r, hlr, hl, hr⟩ := List.sublist_append_iff.mp h
  have apart : b ∉ second := fun hs => (List.nodup_append.mp hn).2.2 b hb b hs rfl
  rcases List.eq_nil_or_concat r with rfl | ⟨init, last, rfl⟩
  · rw [List.append_nil] at hlr
    rw [Before, hlr]
    exact hl
  · have hlast : b = last := by
      have := congrArg List.getLast? hlr
      simpa [← List.append_assoc] using this
    exact absurd (hr.subset (by simp [hlast])) apart

theorem requests_in_order (h : ReachableBy NoneAbove w) :
    ∀ first second, Before first second (accepted w.trace) → second ∈ left w.trace →
      Before first second (left w.trace) := by
  intro first second hbefore hsent
  have ho := reachable_inOrder h
  have hn := (reachable_accounts h).distinct.of_map
  rw [ho] at hbefore hn
  exact before_of_append hn hbefore hsent

theorem requests_in_order_drained : ∃ w : World 2,
    (left w.trace).map SynapiRequest.action = [.playersNew, .playersUpdate] ∧
      ∀ first second, Before first second (accepted w.trace) → second ∈ left w.trace →
        Before first second (left w.trace) := by
  have run : ∃ w ∈ trial (p := 2) NoneAbove (some (literal "SYN:S:1:ab"))
      [.newPlayer [.playerName (literal "a")], .updatePlayer 7 [.playerScore 3],
        .perform (.smooth []), .perform (.smooth [])],
      (left w.trace).map SynapiRequest.action = [.playersNew, .playersUpdate] := by
    decide +kernel
  obtain ⟨w, hw, hleft⟩ := trial_exists run
  exact ⟨w, hleft, requests_in_order hw⟩

theorem delete_overtakes_update : ∃ w : World 2, Reachable w ∧ ∃ first second,
    first.action = .playersUpdate ∧ second.action = .playersDelete ∧
      Before first second (accepted w.trace) ∧ second ∈ left w.trace ∧
        ¬ Before first second (left w.trace) := by
  have run : ∃ w ∈ trial (p := 2) (fun _ _ => True) (some (literal "SYN:S:1:ab"))
      [.heartbeat, .updatePlayer 7 [.playerScore 3], .perform (.smooth []), .deletePlayer 7,
        .perform (.smooth [])],
      ∃ first ∈ accepted w.trace, ∃ second ∈ left w.trace, first.action = .playersUpdate ∧
        second.action = .playersDelete ∧ Before first second (accepted w.trace) ∧
          ¬ Before first second (left w.trace) := by
    decide +kernel
  obtain ⟨w, hw, first, -, second, hs, hfirst, hsecond, hbefore, hnot⟩ := trial_exists run
  exact ⟨w, hw, first, second, hfirst, hsecond, hbefore, hs, hnot⟩

end Synapi

import Synapi.Reachable
import Synapi.QueryBuffer

/-!
What `synapi_queue` does with an action when every slot is taken.
-/

namespace Synapi

open Runs Text

variable {p : ℤ} {w w' : World p} {env : SendEnv} {action : SynapiAction} {method : SynapiMethod}
  {userData : Int32} {options : Option (List SynapiOption)}

def World.RequestsFull (w : World p) : Prop :=
  ∀ k < p.toNat, ∃ r, w.handle.requests.slot k = some (some r)

def World.Unchanged (w w' : World p) : Prop :=
  w'.handle = w.handle ∧ ∃ events, w'.trace = w.trace ++ events ∧
    ∀ x ∈ createdBy events, x ∈ releasedBy events

/-- `synapi_queue` returns -1 exactly when the table is full, a call that
returns it has no effect, and no call replaces a request that waits. -/
def RejectsFreely (env : SendEnv) (w : World p) (action : SynapiAction) (method : SynapiMethod)
    (userData : Int32) (options : Option (List SynapiOption)) : Prop :=
  ∃ r w', synapiQueue env w action method false userData options = .ok (r, w') ∧
    (r = -1 ↔ w.RequestsFull) ∧ (r = -1 → w.Unchanged w') ∧
    ∀ k waiting, w.handle.requests.slot k = some (some waiting) →
      w'.handle.requests.slot k = some (some waiting)

theorem lowestFree_none_iff_full :
    w.handle.requests.lowestFree = none ↔ w.RequestsFull := by
  constructor
  · exact fun h k hk => SlotTable.lowestFree_none h hk
  · intro h
    cases hk : w.handle.requests.lowestFree with
    | none => rfl
    | some k =>
      obtain ⟨hlt, hfree, -⟩ := SlotTable.lowestFree_some hk
      obtain ⟨r, hr⟩ := h k hlt
      rw [hfree] at hr
      cases hr

theorem build_ok_iff :
    (∃ query, synapiBuildQueryString method options = .ok query) ↔
      ∀ list ∈ options, Fits list := by
  cases options with
  | none =>
    refine iff_of_true ?_ (by rintro list ⟨⟩)
    cases method with
    | get => exact ⟨_, rfl⟩
    | _ => exact ⟨_, synapiBuildQueryString_null _ (by decide)⟩
  | some list =>
    constructor
    · rintro ⟨query, hq⟩ l hl
      rw [← Option.some.inj hl]
      exact fits_of_build hq
    · exact fun h => ⟨_, synapiBuildQueryString_fits method (h list rfl)⟩

theorem queue_accepts (ha : Addressed w) {query : Bytes} {k : ℕ}
    (hq : synapiBuildQueryString method options = .ok query)
    (hk : w.handle.requests.lowestFree = some k) :
    RejectsFreely env w action method userData options := by
  refine ⟨_, _, synapiQueue_accept ha.hostHeader hq hk, ?_, fun hr => ?_, fun j waiting hj => ?_⟩
  · rw [← lowestFree_none_iff_full, hk]
    simp
  · omega
  · refine (SlotTable.slot_put_ne ?_ _).trans hj
    rintro rfl
    rw [(SlotTable.lowestFree_some hk).2.1] at hj
    cases hj

theorem queue_rejects (env : SendEnv) (action : SynapiAction) (userData : Int32)
    (ha : Addressed w) {query : Bytes}
    (hq : synapiBuildQueryString method options = .ok query) (hfull : w.RequestsFull) :
    ∃ w' events, synapiQueue env w action method false userData options = .ok (-1, w') ∧
      w'.handle = w.handle ∧ w'.trace = w.trace ++ events ∧
        createdBy events = [w.fresh, w.fresh + 1, w.fresh + 2] ∧ releasedBy events = [] := by
  have hk := lowestFree_none_iff_full.mpr hfull
  exact ⟨_, _, synapiQueue_reject ha.hostHeader hq hk, rfl, List.append_assoc _ _ _, rfl, rfl⟩

theorem not_freely (ha : Addressed w) {query : Bytes}
    (hq : synapiBuildQueryString method options = .ok query) (hfull : w.RequestsFull) :
    ¬ RejectsFreely env w action method userData options := by
  rintro ⟨r, w', hqueue, hr, hunchanged, -⟩
  obtain ⟨u, events, hu, -, ht, hcreated, hreleased⟩ :=
    queue_rejects env action userData ha hq hfull
  rw [hu] at hqueue
  obtain ⟨-, rfl⟩ := Prod.mk.inj (Except.ok.inj hqueue)
  obtain ⟨-, events', ht', hall⟩ := hunchanged (hr.mpr hfull)
  rw [ht, List.append_cancel_left_eq] at ht'
  subst ht'
  rw [hcreated, hreleased] at hall
  exact List.not_mem_nil (hall w.fresh List.mem_cons_self)

/-- This holds exactly when a slot is free and the query fits: what is turned away leaks. -/
theorem rejects_freely_iff (h : Reachable w) :
    (RejectsFreely env w action method userData options ↔
      ¬ w.RequestsFull ∧ ∀ list ∈ options, Fits list) ∧
    (w.RequestsFull → (∀ list ∈ options, Fits list) → ∃ w' events,
      synapiQueue env w action method false userData options = .ok (-1, w') ∧
        w'.handle = w.handle ∧ w'.trace = w.trace ++ events ∧
          createdBy events = [w.fresh, w.fresh + 1, w.fresh + 2] ∧ releasedBy events = []) := by
  obtain ⟨-, ha⟩ := reachable_inv h
  refine ⟨⟨fun hfreely => ?_, ?_⟩, fun hfull hfits => ?_⟩
  · have built : ∃ query, synapiBuildQueryString method options = .ok query := by
      cases hq : synapiBuildQueryString method options with
      | ok query => exact ⟨query, rfl⟩
      | error e =>
        obtain ⟨r, w', hqueue, -⟩ := hfreely
        rw [synapiQueue_textError ha.hostHeader hq] at hqueue
        cases hqueue
    obtain ⟨query, hq⟩ := built
    exact ⟨fun hfull => not_freely ha hq hfull hfreely, build_ok_iff.mp ⟨query, hq⟩⟩
  · rintro ⟨hfree, hfits⟩
    obtain ⟨query, hq⟩ := build_ok_iff.mpr hfits
    cases hk : w.handle.requests.lowestFree with
    | none => exact absurd (lowestFree_none_iff_full.mp hk) hfree
    | some k => exact queue_accepts ha hq hk
  · obtain ⟨query, hq⟩ := build_ok_iff.mpr hfits
    exact queue_rejects env action userData ha hq hfull

theorem rejects_freely_one : ∃ w : World 2, w.handle.requests.occupants.length = 1 ∧
    (RejectsFreely ⟨true, true⟩ w .heartbeat .put 0 none ↔
      ¬ w.RequestsFull ∧ ∀ list ∈ (none : Option (List SynapiOption)), Fits list) := by
  have run : ∃ w ∈ trial (p := 2) (fun _ _ => True) none [.heartbeat],
      w.handle.requests.occupants.length = 1 := by
    decide +kernel
  obtain ⟨w, hw, hone⟩ := trial_exists run
  exact ⟨w, hone, (rejects_freely_iff hw).1⟩

theorem second_heartbeat_leaks : ∃ w : World 1, Reachable w ∧
    ¬ RejectsFreely ⟨true, true⟩ w .heartbeat .put 0 none := by
  have run : ∃ w ∈ trial (p := 1) (fun _ _ => True) none [.heartbeat],
      w.handle.requests.lowestFree = none := by
    decide +kernel
  obtain ⟨w, hw, hfull⟩ := trial_exists run
  exact ⟨w, hw, not_freely (reachable_inv hw).2 (synapiBuildQueryString_null .put (by decide))
    (lowestFree_none_iff_full.mp hfull)⟩

end Synapi

import Synapi.Registrations
import Synapi.Accounts

/-!
What `synapi_queued` counts, and what is pending.
-/

namespace Synapi

open Runs Relation Text

variable {p : ℤ} {C : World p → Call → Prop} {c : Call} {w₀ w w' : World p}

def registrations (trace : List Event) : List Sent := trace.filterMap Event.registration

/-- Requests accepted, registrations included, less the transfers reaped. -/
def pending (trace : List Event) : ℤ :=
  (accepted trace).length + (registrations trace).length - (reads trace).length

theorem registrations_marks {trace trace' mark : List Event}
    (h : marks trace' = marks trace ++ mark) :
    registrations trace' = registrations trace ++ registrations mark :=
  filterMap_of_marks (fun e he => by cases e <;> first | rfl | cases he) h

theorem sents_length (trace : List Event) :
    (sents trace).length = (left trace).length + (registrations trace).length := by
  induction trace with
  | nil => rfl
  | cons e trace ih =>
    simp only [left, sents, registrations] at ih ⊢
    cases e with
    | multiAddHandle sent =>
      cases hr : sent.request.apiKeyRequest <;>
        simp [Event.sent, Event.registration, Sent.waited, hr, ih] <;> omega
    | _ => simpa only [List.filterMap_cons, Event.sent, Event.registration] using ih

theorem pending_eq (h : ReachableBy C w) : pending w.trace =
    w.handle.requests.occupants.length + w.handle.pool.occupants.length := by
  have books := reachable_accounts h
  have requests := books.requests.length_eq
  have transfers := books.transfers.length_eq
  have sent := sents_length w.trace
  simp only [List.length_append, List.length_map] at requests transfers
  rw [pending]
  omega

theorem perform_accepts {env : PerformEnv} (hw : Inv w₀)
    (path : ReflTransGen (Effect (.perform env) w₀) w₀ w) :
    accepted w.trace = accepted w₀.trace ∧ registrations w.trace = registrations w₀.trace := by
  refine effects_invariant (P := fun w => accepted w.trace = accepted w₀.trace ∧
    registrations w.trace = registrations w₀.trace) (fun w w' _ hP he => ?_) path ⟨rfl, rfl⟩
  have frame {mark : List Event} (hm : marks w'.trace = marks w.trace ++ mark)
      (ha : accepted mark = []) (hr : registrations mark = []) :
      accepted w'.trace = accepted w₀.trace ∧ registrations w'.trace = registrations w₀.trace := by
    rw [accepted_marks hm, registrations_marks hm, ha, hr, List.append_nil, List.append_nil]
    exact hP
  cases he with
  | counters => exact hP
  | silent _ events hs => exact frame (marks_silent hs) rfl rfl
  | queue hc => cases hc
  | @send env request key j k hc hset hkey hj hr hk =>
    have keyed := (hw.waiting.keyed request (SlotTable.mem_occupants.mpr ⟨j, hr⟩)).1
    refine frame (marks_send w₀ _ _ _ _) rfl ?_
    simp [registrations, Event.registration, newSent, keyed]
  | register hc => cases hc
  | setKey hc => cases hc
  | setUrl hc => cases hc
  | write => exact frame (marks_keyed rfl w _) rfl rfl
  | complete => exact hP
  | reap _ _ hm => exact frame (marks_reap hm _) rfl rfl

/-- `synapi_queued` returns what is pending exactly when the key is set or
nothing is in flight. -/
theorem queued_pending_iff (h : Reachable w) :
    (∃ i n, synapiQueued w = .ok (w.setI i, n) ∧
      (n = pending w.trace ↔ w.handle.apiKeySet = true ∨ w.handle.pool.occupants = [])) ∧
    (pending w.trace = 0 ↔ w.handle.requests.occupants = [] ∧ w.handle.pool.occupants = []) ∧
    ∀ env w', step w (.perform env) = .ok w' → pending w'.trace =
      pending w.trace - ((reads w'.trace).length - (reads w.trace).length) := by
  obtain ⟨hinv, ha⟩ := reachable_inv h
  refine ⟨?_, ?_, fun env w' hstep => ?_⟩
  · obtain ⟨i, hi⟩ := synapiQueued_ok w
    refine ⟨i, _, hi, ?_⟩
    rw [pending_eq h]
    by_cases hset : w.handle.apiKeySet = true
    · simp only [hset, if_true, true_or, iff_true]
      omega
    · simp only [hset, Bool.false_eq_true, if_false, false_or, ← List.length_eq_zero_iff]
      omega
  · rw [pending_eq h, ← List.length_eq_zero_iff, ← List.length_eq_zero_iff]
    omega
  · obtain ⟨haccepted, hregistered⟩ := perform_accepts hinv (step_effects hinv ha hstep)
    rw [pending, pending, haccepted, hregistered]
    omega

theorem queued_pending_reaped : ∃ w : World 2, pending w.trace = 1 ∧
    (∃ i n, synapiQueued w = .ok (w.setI i, n) ∧
      (n = pending w.trace ↔ w.handle.apiKeySet = true ∨ w.handle.pool.occupants = [])) ∧
    (pending w.trace = 0 ↔ w.handle.requests.occupants = [] ∧ w.handle.pool.occupants = []) ∧
    ∀ env w', step w (.perform env) = .ok w' → pending w'.trace =
      pending w.trace - ((reads w'.trace).length - (reads w.trace).length) := by
  have run : ∃ w ∈ trial (p := 2) (fun _ _ => True) (some (literal "SYN:S:1:ab"))
      [.heartbeat, .heartbeat, .perform (.smooth [.done 11 (.response 200)])],
      pending w.trace = 1 := by
    decide +kernel
  obtain ⟨w, hw, hpending⟩ := trial_exists run
  exact ⟨w, hpending, queued_pending_iff hw⟩

theorem registration_uncounted : ∃ w : World 1, Reachable w ∧ pending w.trace = 1 ∧
    (synapiQueued w).map Prod.snd = .ok 0 := by
  have run : ∃ w ∈ trial (p := 1) (fun _ _ => True) none [.newServer ⟨true, true⟩],
      pending w.trace = 1 ∧ (synapiQueued w).map Prod.snd = .ok 0 := by
    decide +kernel
  obtain ⟨w, hw, hpending, hqueued⟩ := trial_exists run
  exact ⟨w, hw, hpending, hqueued⟩

end Synapi

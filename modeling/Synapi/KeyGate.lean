import Synapi.History

/-!
The gate on the key: what the requests handed to libcurl carry.
-/

namespace Synapi

open Runs Text Replay

variable {p : ℤ} {C : World p → Call → Prop} {w : World p}

/-- The request and its address are those of the key the handle held. -/
structure Sent.Keyed (sent : Sent) : Prop where
  set : sent.view.apiKeySet = true
  encoded : sent.view.encodedApiKey = some (curlEscape sent.view.apiKey)
  url : sent.url = snprintf 255 (urlOf sent.request.action sent.view.baseUrl
    (curlEscape sent.view.apiKey) sent.request.userData)

theorem Event.Legal.keyOk {v : HandleView} {e : Event} (hv : v.KeyOk) (h : e.Legal v) :
    (e.after v).KeyOk := by
  cases e with
  | apiKey view => obtain ⟨key, rfl⟩ := h; exact KeyOk.withKey v key
  | apiKeyWrite handle data view => obtain ⟨-, rfl⟩ := h; exact KeyOk.withKey v _
  | url view => obtain ⟨url, host, rfl⟩ := h; exact KeyOk.withUrl hv url host
  | multiAddHandle sent =>
    rw [Event.Legal] at h
    split_ifs at h with hr
    · change sent.view.KeyOk
      rw [h]
      exact KeyOk.cleared v
    · change sent.view.KeyOk
      rw [h.1]
      exact hv
  | _ => exact hv

theorem legal_event (h : ReachableBy C w) {first second : List Event} {e : Event}
    (ht : w.trace = first ++ e :: second) : ∃ v, v.KeyOk ∧ e.Legal v ∧
      Tells v (e :: second) w.view := by
  obtain ⟨base, host, hl, hr⟩ := reachable_recorded h
  have ok : HandleView.KeyOk ⟨false, [], none, base, host⟩ := rfl
  rw [ht] at hl hr
  obtain ⟨before, rest⟩ := legal_append.mp hl
  refine ⟨_, replay_invariant (fun x _ v hv hx => Event.Legal.keyOk hv hx) before ok, rest.1, rest, ?_⟩
  rw [← replay_append, hr]

theorem event_keyOk (h : ReachableBy C w) {e : Event} (he : e ∈ w.trace) {v : HandleView}
    (hv : e.view = some v) : v.KeyOk := by
  obtain ⟨first, second, ht⟩ := List.append_of_mem he
  obtain ⟨u, hu, hl, -⟩ := legal_event h ht
  have after := Event.Legal.keyOk hu hl
  rwa [Event.after, hv] at after

theorem sent_keyed (h : ReachableBy C w) {sent : Sent} (hs : sent ∈ sents w.trace)
    (hr : sent.request.apiKeyRequest = false) : sent.Keyed := by
  obtain ⟨first, second, ht⟩ := List.append_of_mem (mem_sents.mp hs)
  obtain ⟨v, -, hl, -⟩ := legal_event h ht
  rw [Event.Legal, if_neg (by simp [hr])] at hl
  obtain ⟨hv, hset, hencoded, hurl⟩ := hl
  rw [← hv] at hset hencoded hurl
  exact ⟨hset, hencoded, hurl⟩

theorem key_gate (h : Reachable w) :
    (∀ v, v = w.view ∨ (∃ e ∈ w.trace, e.view = some v) → v.apiKeySet = true →
      v.encodedApiKey = some (curlEscape v.apiKey)) ∧
    (∀ sent ∈ sents w.trace, sent.request.apiKeyRequest = false → sent.Keyed) ∧
    (∀ c, step w c ≠ .error .nullPointer) := by
  obtain ⟨hinv, ha⟩ := reachable_inv h
  refine ⟨?_, fun sent hs hr => sent_keyed h hs hr, ?_⟩
  · intro v hv hset
    have hk : v.KeyOk := by
      rcases hv with rfl | ⟨e, he, hv⟩
      · exact hinv.key
      · exact event_keyOk h he hv
    rwa [HandleView.KeyOk, if_pos hset] at hk
  · intro c hc
    rcases step_error hinv ha hc with he | he <;> cases he

theorem key_gate_heartbeat : ∃ w : World 1,
    (w.handle.apiKeySet = true ∧ ∃ sent ∈ sents w.trace, sent.request.apiKeyRequest = false) ∧
    (∀ v, v = w.view ∨ (∃ e ∈ w.trace, e.view = some v) → v.apiKeySet = true →
      v.encodedApiKey = some (curlEscape v.apiKey)) ∧
    (∀ sent ∈ sents w.trace, sent.request.apiKeyRequest = false → sent.Keyed) ∧
    (∀ c, step w c ≠ .error .nullPointer) := by
  have run : ∃ w ∈ trial (p := 1) (fun _ _ => True) (some (literal "SYN:S:1:ab"))
      [.heartbeat, .perform (.smooth [])],
      w.handle.apiKeySet = true ∧ ∃ sent ∈ sents w.trace, sent.request.apiKeyRequest = false := by
    decide +kernel
  obtain ⟨w, hw, hrun⟩ := trial_exists run
  exact ⟨w, hrun, key_gate hw⟩

end Synapi

import Synapi.Accounts

/-!
When `synapi_send` runs out of pool entries.
-/

namespace Synapi

open Runs Text

variable {p : ℤ} {C : World p → Call → Prop} {w : World p}

/-- The transfers handed to libcurl whose done message has not been read. -/
def inFlight (trace : List Event) : ℤ := (sents trace).length - (reads trace).length

theorem inFlight_eq (h : ReachableBy C w) : inFlight w.trace = w.handle.pool.occupants.length := by
  have books := (reachable_accounts h).transfers.length_eq
  rw [List.length_append, List.length_map, List.length_map, List.length_map] at books
  rw [inFlight, books]
  omega

theorem lowestFree_none_iff (h : ReachableBy C w) :
    w.handle.pool.lowestFree = none ↔ ¬ inFlight w.trace < p := by
  have bound := w.handle.pool.occupants_length_le
  rw [SlotTable.lowestFree_eq_none_iff, inFlight_eq h]
  omega

theorem run_reachable {start : Start} {apiKey : Option CString} {w₀ : World p} {calls : List Call}
    (h : synapiInit start apiKey p = .ok w₀) (hrun : run step w₀ calls = .ok w) : Reachable w :=
  Reach.run (.start ⟨start, apiKey, h⟩) (fun _ _ _ _ _ _ => trivial) hrun

/-- A run meets an empty pool nowhere exactly when every send finds fewer
transfers in flight than the pool has entries. -/
theorem pool_suffices_iff {start : Start} {apiKey : Option CString} {w₀ : World p}
    (h : synapiInit start apiKey p = .ok w₀) (calls : List Call) :
    run step w₀ calls ≠ .error .poolExhausted ↔
      ∀ pre c post w, calls = pre ++ c :: post → run step w₀ pre = .ok w → Sends w c →
        inFlight w.trace < p := by
  rw [ne_eq, run_eq_error]
  constructor
  · intro hnone pre c post w heq hw hsends
    by_contra hfull
    have hreach := run_reachable h hw
    obtain ⟨hinv, ha⟩ := reachable_inv hreach
    exact hnone ⟨pre, c, post, w, heq, hw,
      step_full hinv ha hsends ((lowestFree_none_iff hreach).mpr hfull)⟩
  · rintro hall ⟨pre, c, post, w, heq, hw, he⟩
    have hreach := run_reachable h hw
    obtain ⟨hinv, ha⟩ := reachable_inv hreach
    obtain ⟨hsends, hfull⟩ := (step_poolExhausted_iff hinv ha).mp he
    exact (lowestFree_none_iff hreach).mp hfull (hall pre c post w heq hw hsends)

theorem pool_suffices_two : ∃ w₀ : World 2, synapiInit .zero none 2 = .ok w₀ ∧
    (run step w₀ [.newServer ⟨true, true⟩, .newServer ⟨true, true⟩] ≠ .error .poolExhausted ↔
      ∀ pre c post w, [.newServer ⟨true, true⟩, .newServer ⟨true, true⟩] = pre ++ c :: post →
        run step w₀ pre = .ok w → Sends w c → inFlight w.trace < 2) := by
  have init : ∃ w₀ ∈ (synapiInit .zero none 2).toOption, w₀.handle.apiKeySet = false := by
    decide +kernel
  obtain ⟨w₀, h₀, -⟩ := init
  exact ⟨w₀, eq_ok_of_toOption h₀, pool_suffices_iff (eq_ok_of_toOption h₀) _⟩

theorem pool_exhausted : ∃ w₀ : World 1, synapiInit .zero none 1 = .ok w₀ ∧
    run step w₀ [.newServer ⟨true, true⟩, .newServer ⟨true, true⟩] = .error .poolExhausted := by
  have calls : ∃ w₀ ∈ (synapiInit .zero none 1).toOption,
      (run step w₀ [.newServer ⟨true, true⟩, .newServer ⟨true, true⟩]).map (fun _ => ()) =
        .error .poolExhausted := by
    decide +kernel
  obtain ⟨w₀, h₀, hrun⟩ := calls
  exact ⟨w₀, eq_ok_of_toOption h₀, map_eq_error hrun⟩

end Synapi

import Synapi.Calls

/-!
How long a game frame waits: the time `synapi_perform` hands to `select`.
-/

namespace Synapi

open Runs

variable {p : ℤ}

def Timeval.micros (t : Timeval) : ℤ := 1000000 * t.sec + t.usec

/-- Well formed, at most 50 ms, and no longer than libcurl has asked for. -/
structure Timeval.Brief (timeo : ℤ) (t : Timeval) : Prop where
  usec_nonneg : 0 ≤ t.usec
  usec_le : t.usec ≤ 999999
  capped : t.micros ≤ 50 * 1000
  delivered : 0 ≤ timeo → t.micros ≤ timeo * 1000

theorem selectTimeout_unset {timeo : ℤ} (h : timeo < 0) : selectTimeout timeo = ⟨0, 0⟩ := by
  rw [selectTimeout, if_neg (Int.not_le.mpr h)]

theorem selectTimeout_below_second {timeo : ℤ} (h : 0 ≤ timeo) (hs : timeo < 1000) :
    selectTimeout timeo = ⟨0, timeo * 1000⟩ := by
  have seconds : timeo / 1000 = 0 := by omega
  have rest : timeo % 1000 = timeo := Int.emod_eq_of_lt h hs
  rw [selectTimeout, if_pos h, seconds, rest, if_neg (Int.lt_irrefl 0)]

theorem selectTimeout_seconds {timeo : ℤ} (h : 1000 ≤ timeo) : selectTimeout timeo = ⟨0, 0⟩ := by
  rw [selectTimeout, if_pos (by omega), if_pos (by omega)]

theorem zero_brief (timeo : ℤ) : Timeval.Brief timeo ⟨0, 0⟩ := by
  constructor
  · exact Int.le_refl 0
  · exact Int.zero_le_ofNat 999999
  · exact Int.zero_le_ofNat 50000
  · intro h
    change 0 ≤ timeo * 1000
    omega

theorem milliseconds_brief_iff {timeo : ℤ} (h : 0 ≤ timeo) (hs : timeo < 1000) :
    Timeval.Brief timeo ⟨0, timeo * 1000⟩ ↔ timeo ≤ 50 := by
  have micros : Timeval.micros ⟨0, timeo * 1000⟩ = timeo * 1000 := Int.zero_add _
  constructor
  · intro hbrief
    have := hbrief.capped
    omega
  · intro hcap
    constructor
    · exact Int.mul_nonneg h (Int.zero_le_ofNat 1000)
    · change timeo * 1000 ≤ 999999
      omega
    · omega
    · intro _
      exact Int.le_of_eq micros

theorem selectTimeout_brief_iff (timeo : ℤ) :
    (selectTimeout timeo).Brief timeo ↔ timeo ≤ 50 ∨ 1000 ≤ timeo := by
  by_cases hneg : timeo < 0
  · rw [selectTimeout_unset hneg]
    exact iff_of_true (zero_brief timeo) (.inl (by omega))
  by_cases hsec : timeo < 1000
  · rw [selectTimeout_below_second (by omega) hsec, milliseconds_brief_iff (by omega) hsec]
    omega
  · rw [selectTimeout_seconds (by omega)]
    exact iff_of_true (zero_brief timeo) (.inr (by omega))

/-- Once the waiting request is sent, the frame waits, and only then lets
libcurl work and reaps a transfer. -/
theorem perform_wait_iff (env : PerformEnv) {w w₁ : World p}
    (hsend : sendOne env.send w = .ok w₁) :
    ∃ timeout,
      (wait env.timeo env.select w₁).trace =
        w₁.trace ++ [.multiTimeout env.timeo, .multiFdset, .select timeout] ∧
      synapiPerform env w =
        (drive env.progress (wait env.timeo env.select w₁) >>= fun w₂ => reapOne w₂) ∧
      (timeout.Brief env.timeo ↔ env.timeo ≤ 50 ∨ 1000 ≤ env.timeo) := by
  refine ⟨selectTimeout env.timeo, ?_, ?_, selectTimeout_brief_iff env.timeo⟩
  · simp only [wait, World.emit, List.append_assoc, List.cons_append, List.nil_append]
  · rw [synapiPerform, hsend, ok_bind]

theorem perform_wait_frame : ∃ w : World 1, Reachable w ∧ ∃ w₁, sendOne ⟨true, true⟩ w = .ok w₁ ∧
    ∃ timeout, (wait 20 0 w₁).trace = w₁.trace ++ [.multiTimeout 20, .multiFdset, .select timeout] ∧
      timeout.Brief 20 := by
  have run : ∃ w ∈ trial (p := 1) (fun _ _ => True) (some (literal "SYN:S:1:ab")) [.heartbeat],
      ∃ w₁ ∈ (sendOne ⟨true, true⟩ w).toOption, w₁.handle.apiKeySet = true := by
    decide +kernel
  obtain ⟨w, hw, w₁, hsend, -⟩ := trial_exists run
  have hsend := eq_ok_of_toOption hsend
  obtain ⟨timeout, htrace, -, hbrief⟩ := perform_wait_iff ⟨⟨true, true⟩, 20, 0, []⟩ hsend
  exact ⟨w, hw, w₁, hsend, timeout, htrace, hbrief.mpr (.inl (by decide))⟩

theorem half_second_wait : ∃ w : World 1, Reachable w ∧
    ∃ w', synapiPerform ⟨⟨true, true⟩, 500, 0, []⟩ w = .ok w' ∧
      ∃ timeout, .select timeout ∈ w'.trace ∧ ¬ timeout.Brief 500 := by
  have run : ∃ w ∈ trial (p := 1) (fun _ _ => True) none [],
      ∃ w' ∈ (synapiPerform ⟨⟨true, true⟩, 500, 0, []⟩ w).toOption,
        .select ⟨0, 500000⟩ ∈ w'.trace := by
    decide +kernel
  obtain ⟨w, hw, w', hperform, hselect⟩ := trial_exists run
  refine ⟨w, hw, w', eq_ok_of_toOption hperform, ⟨0, 500000⟩, hselect, fun h => ?_⟩
  exact absurd h.capped (by decide)

end Synapi

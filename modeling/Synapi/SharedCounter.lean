import Synapi.PerformSpec
import Synapi.History
import Mathlib.Logic.Function.Basic

/-!
Several handles in one process: they share the globals `i` and
`multi_perform_counter`, and nothing else.
-/

namespace Synapi

open Runs Relation Text

variable {p : ℤ} {w w' : World p} {c : Call}

structure Process (ι : Type) (poolSize : ι → ℤ) where
  i : ℤ
  multiPerformCounter : ℤ
  handles : (k : ι) → World (poolSize k)

variable {ι : Type} [DecidableEq ι] {poolSize : ι → ℤ}

namespace Process

-- The handle with the globals as they are now.
def load (s : Process ι poolSize) (k : ι) : World (poolSize k) :=
  { s.handles k with i := s.i, multiPerformCounter := s.multiPerformCounter }

def store (s : Process ι poolSize) (k : ι) (w : World (poolSize k)) : Process ι poolSize where
  i := w.i
  multiPerformCounter := w.multiPerformCounter
  handles := Function.update s.handles k w

def call (s : Process ι poolSize) (c : ι × Call) : Except Fault (Process ι poolSize) :=
  (step (s.load c.1) c.2).map (s.store c.1)

def Starts (s : Process ι poolSize) : Prop :=
  s.multiPerformCounter = 0 ∧
    ∀ k, ∃ start apiKey, synapiInit start apiKey (poolSize k) = .ok (s.handles k)

def Reachable : Process ι poolSize → Prop := Reach Starts call (fun _ _ => True)

def drives (s : Process ι poolSize) (k : ι) : ℕ := Synapi.drives (s.handles k).trace

/-- The call is a `synapi_perform` that drives its handle and so resets the counter. -/
def TakesTurn (s : Process ι poolSize) : Call → Prop
  | .perform env => counted env.select s.multiPerformCounter = 5
  | _ => False

end Process

def Call.isPerform : Call → Bool
  | .perform _ => true
  | _ => false

/-! One call -/

theorem keyed_counter {action method userData options} (ha : Addressed w)
    (h : (keyed w action method userData options).map Prod.snd = .ok w') :
    w'.multiPerformCounter = w.multiPerformCounter := by
  obtain ⟨result, hr, rfl⟩ := map_eq_ok.mp h
  unfold keyed at hr
  cases hq : synapiBuildQueryString method options with
  | error e =>
    rw [synapiQueue_textError ha.hostHeader hq] at hr
    cases hr
  | ok query =>
    cases hk : w.handle.requests.lowestFree with
    | some k =>
      rw [synapiQueue_accept ha.hostHeader hq hk] at hr
      rw [← Except.ok.inj hr]
      rfl
    | none =>
      rw [synapiQueue_reject ha.hostHeader hq hk] at hr
      rw [← Except.ok.inj hr]
      rfl

theorem step_counter (hw : Inv w) (ha : Addressed w) (hc : c.isPerform = false)
    (h : step w c = .ok w') : w'.multiPerformCounter = w.multiPerformCounter := by
  cases c with
  | newServer env =>
    cases hk : w.handle.pool.lowestFree with
    | none =>
      rw [step, newServer_full env ha hk] at h
      cases h
    | some k =>
      obtain ⟨a, query, -, hr⟩ := newServer_ok env hw ha hk
      rw [step, hr] at h
      rw [← Except.ok.inj h]
      rfl
  | updateServer | newPlayer | updatePlayer | deletePlayer | heartbeat => exact keyed_counter ha h
  | perform env => cases hc
  | apiKey newApiKey size =>
    obtain ⟨u, hu, h⟩ := bind_eq_ok.mp h
    obtain ⟨-, a, rfl, -, -⟩ := synapiApiKey_ok hu
    rw [← Except.ok.inj h]
    rfl
  | url url hostHeader =>
    obtain ⟨base, host, -, -, -, -, hr⟩ := synapiUrl_ok w url hostHeader
    rw [step, hr] at h
    rw [← Except.ok.inj h]
    rfl
  | queued =>
    obtain ⟨i, hi⟩ := synapiQueued_ok w
    rw [step, hi] at h
    rw [← Except.ok.inj h]
    rfl

theorem step_drives (hw : Inv w) (ha : Addressed w) (h : step w c = .ok w') :
    drives w.trace ≤ drives w'.trace := by
  obtain ⟨events, ht, -⟩ := extends_of_effects (step_effects hw ha h) hw
  rw [ht, drives_append]
  exact Nat.le_add_right _ _

/-! The counter of the process -/

structure Process.Ok (s : Process ι poolSize) : Prop where
  counter : 0 ≤ s.multiPerformCounter ∧ s.multiPerformCounter ≤ 4
  inv : ∀ k, Inv (s.handles k) ∧ Addressed (s.handles k)

section Call

variable {s s' : Process ι poolSize} {k : ι} {env : PerformEnv}

omit [DecidableEq ι] in
theorem Process.Ok.load (h : s.Ok) (k : ι) : Inv (s.load k) ∧ Addressed (s.load k) := by
  obtain ⟨hw, ha⟩ := h.inv k
  exact ⟨⟨hw.key, hw.waiting, hw.flight⟩, ⟨ha.baseUrl, ha.hostHeader⟩⟩

theorem call_eq (h : s.call (k, c) = .ok s') :
    ∃ w', step (s.load k) c = .ok w' ∧ s' = s.store k w' := by
  obtain ⟨w', hw', rfl⟩ := map_eq_ok.mp h
  exact ⟨w', hw', rfl⟩

theorem store_drives (s : Process ι poolSize) (k : ι) (w : World (poolSize k)) :
    (s.store k w).drives k = drives w.trace := by
  simp [Process.store, Process.drives]

theorem store_drives_other (s : Process ι poolSize) {j : ι} (h : j ≠ k) (w : World (poolSize k)) :
    (s.store k w).drives j = s.drives j := by
  simp [Process.store, Process.drives, h]

theorem perform_turn (hs : s.Ok) (h : s.call (k, .perform env) = .ok s') :
    (s.TakesTurn (.perform env) ∧ s'.multiPerformCounter = 0 ∧ s'.drives k = s.drives k + 1) ∨
    (¬ s.TakesTurn (.perform env) ∧ s'.multiPerformCounter = s.multiPerformCounter + 1 ∧
      s.multiPerformCounter + 1 ≤ 4) := by
  obtain ⟨w', hw', rfl⟩ := call_eq h
  obtain ⟨hw, ha⟩ := hs.load k
  have performed := perform_spec hw ha hw'
  have counter : counted env.select (s.load k).multiPerformCounter =
      counted env.select s.multiPerformCounter := rfl
  rw [store_drives]
  by_cases h5 : counted env.select s.multiPerformCounter = 5
  · refine .inl ⟨h5, ?_, ?_⟩
    · exact performed.counter.trans (if_pos h5)
    · rw [performed.drives, counter, if_pos h5]
      rfl
  · refine .inr ⟨h5, ?_⟩
    have moved := performed.counter.trans (if_neg h5)
    have range := hs.counter
    have small : counted env.select s.multiPerformCounter = s.multiPerformCounter + 1 := by
      unfold counted at h5 ⊢
      split_ifs at h5 ⊢
      · rfl
      · rfl
      · exact absurd rfl h5
    rw [counter, small] at moved
    rw [small] at h5
    exact ⟨moved, by omega⟩

theorem call_counter (hs : s.Ok) (hc : c.isPerform = false) (h : s.call (k, c) = .ok s') :
    s'.multiPerformCounter = s.multiPerformCounter := by
  obtain ⟨w', hw', rfl⟩ := call_eq h
  obtain ⟨hw, ha⟩ := hs.load k
  exact step_counter hw ha hc hw'

theorem call_drives (hs : s.Ok) (h : s.call (k, c) = .ok s') (j : ι) :
    s.drives j ≤ s'.drives j := by
  obtain ⟨w', hw', rfl⟩ := call_eq h
  obtain ⟨hw, ha⟩ := hs.load k
  by_cases hj : j = k
  · subst hj
    have grown : drives (s.load j).trace ≤ drives w'.trace := step_drives hw ha hw'
    rw [store_drives]
    exact grown
  · exact Nat.le_of_eq (store_drives_other s hj w').symm

theorem Process.Ok.call (hs : s.Ok) (h : s.call (k, c) = .ok s') : s'.Ok := by
  refine ⟨?_, fun j => ?_⟩
  · have range := hs.counter
    cases hc : c.isPerform with
    | false =>
      rw [call_counter hs hc h]
      exact range
    | true =>
      cases c with
      | perform env =>
        rcases perform_turn hs h with ⟨-, hcounter, -⟩ | ⟨-, hcounter, hle⟩ <;>
          rw [hcounter] <;> omega
      | _ => cases hc
  · obtain ⟨w', hw', rfl⟩ := call_eq h
    obtain ⟨hw, ha⟩ := hs.load k
    by_cases hj : j = k
    · subst hj
      have effects := step_effects hw ha hw'
      simp only [Process.store, Function.update_self]
      exact ⟨inv_of_effects effects hw, addressed_of_effects effects ha⟩
    · simp only [Process.store, Function.update_of_ne hj]
      exact hs.inv j

theorem Process.Reachable.ok (h : s.Reachable) : s.Ok := by
  apply h.invariant
  · rintro s ⟨hcounter, hinit⟩
    refine ⟨by rw [hcounter]; omega, fun k => ?_⟩
    obtain ⟨start, apiKey, h⟩ := hinit k
    exact reachable_inv (C := fun _ _ => True) (.start ⟨start, apiKey, h⟩)
  · rintro s ⟨k, c⟩ s' hs - h
    exact hs.call h

end Call

/-! Five calls on one handle -/

def performsOn (k : ι) (calls : List (ι × Call)) : ℕ :=
  calls.countP (fun c => c.1 = k ∧ c.2.isPerform)

section Window

variable {s s' : Process ι poolSize} {k : ι} {calls : List (ι × Call)}

theorem performsOn_cons (c : ι × Call) : performsOn k (c :: calls) =
    performsOn k calls + if c.1 = k ∧ c.2.isPerform = true then 1 else 0 := by
  rw [performsOn, List.countP_cons]
  simp [performsOn]

theorem run_drives (hs : s.Ok) (h : run Process.call s calls = .ok s') (k : ι) :
    s.drives k ≤ s'.drives k := by
  refine run_relates (P := Process.Ok) (R := fun s t => s.drives k ≤ t.drives k)
    (fun _ => Nat.le_refl _) (fun _ _ _ => Nat.le_trans) ?_ ?_ hs h
  · rintro s ⟨j, c⟩ t hs hcall
    exact hs.call hcall
  · rintro s ⟨j, c⟩ t hs hcall
    exact call_drives hs hcall k

/-- The counter and the calls left on `k` add up to five until `k` has its turn. -/
theorem driven_within (hs : s.Ok) (hrun : run Process.call s calls = .ok s')
    (hmany : 5 ≤ s.multiPerformCounter + performsOn k calls)
    (hturn : ∀ pre c post u, calls = pre ++ c :: post → run Process.call s pre = .ok u →
      c.1 ≠ k → ¬ u.TakesTurn c.2) : s.drives k < s'.drives k := by
  induction calls generalizing s with
  | nil =>
    have range := hs.counter
    simp only [performsOn, List.countP_nil] at hmany
    omega
  | cons c calls ih =>
    obtain ⟨j, c⟩ := c
    obtain ⟨t, ht, hrest⟩ := run_cons_ok.mp hrun
    have hk := call_drives hs ht k
    have later (hmany : 5 ≤ t.multiPerformCounter + performsOn k calls) :
        s.drives k < s'.drives k := by
      refine Nat.lt_of_le_of_lt hk (ih (hs.call ht) hrest hmany ?_)
      rintro pre d post u rfl hu
      exact hturn ((j, c) :: pre) d post u rfl (run_cons_ok.mpr ⟨t, ht, hu⟩)
    rw [performsOn_cons] at hmany
    cases hc : c.isPerform with
    | false =>
      apply later
      rw [call_counter hs hc ht]
      simpa [hc] using hmany
    | true =>
      cases c with
      | perform env =>
        rcases perform_turn hs ht with ⟨htakes, -, hdriven⟩ | ⟨-, hcounter, -⟩
        · by_cases hj : j = k
          · subst hj
            have := run_drives (hs.call ht) hrest j
            omega
          · exact absurd htakes (hturn [] _ calls s rfl rfl hj)
        · apply later
          rw [hcounter]
          split_ifs at hmany <;> omega
      | _ => cases hc

/-- Between calls the counter is 0 to 4, and of five calls of `synapi_perform`
on a handle one drives it, unless another handle took the turn meanwhile. -/
theorem every_fifth_drives (h : s.Reachable) :
    (0 ≤ s.multiPerformCounter ∧ s.multiPerformCounter ≤ 4) ∧
    ∀ k calls s', run Process.call s calls = .ok s' → performsOn k calls = 5 →
      (∀ pre c post u, calls = pre ++ c :: post → run Process.call s pre = .ok u →
        c.1 ≠ k → ¬ u.TakesTurn c.2) →
      s.drives k < s'.drives k := by
  have hs := h.ok
  refine ⟨hs.counter, fun k calls s' hrun hfive hturn => driven_within hs hrun ?_ hturn⟩
  have range := hs.counter
  omega

end Window

/-! Two handles -/

def PerformEnv.timeout : PerformEnv := ⟨⟨true, true⟩, 0, 0, []⟩

def Process.pair (w : World 1) : Process Bool (fun _ => 1) := ⟨0, 0, fun _ => w⟩

theorem pair_reachable {w : World 1} (h : synapiInit .zero none 1 = .ok w) :
    (Process.pair w).Reachable :=
  .start ⟨rfl, fun _ => ⟨.zero, none, h⟩⟩

theorem every_fifth_drives_pair : ∃ s : Process Bool (fun _ => 1),
    (0 ≤ s.multiPerformCounter ∧ s.multiPerformCounter ≤ 4) ∧
    ∀ k calls s', run Process.call s calls = .ok s' → performsOn k calls = 5 →
      (∀ pre c post u, calls = pre ++ c :: post → run Process.call s pre = .ok u →
        c.1 ≠ k → ¬ u.TakesTurn c.2) →
      s.drives k < s'.drives k := by
  have init : ∃ w ∈ (synapiInit .zero none 1).toOption, w.handle.apiKeySet = false := by
    decide +kernel
  obtain ⟨w, hw, -⟩ := init
  exact ⟨Process.pair w, every_fifth_drives (pair_reachable (eq_ok_of_toOption hw))⟩

theorem turn_taken : ∃ s s' : Process Bool (fun _ => 1), s.Reachable ∧ ∃ calls,
    run Process.call s calls = .ok s' ∧ performsOn true calls = 5 ∧
      s'.drives true = s.drives true := by
  have run : ∃ w ∈ (synapiInit .zero none 1).toOption,
      ∃ s' ∈ (run Process.call (Process.pair w) [(true, .perform .timeout),
        (true, .perform .timeout), (true, .perform .timeout), (true, .perform .timeout),
        (false, .perform .timeout), (true, .perform .timeout)]).toOption,
      s'.drives true = (Process.pair w).drives true := by
    decide +kernel
  obtain ⟨w, hw, s', hs', hdrives⟩ := run
  exact ⟨Process.pair w, s', pair_reachable (eq_ok_of_toOption hw), _, eq_ok_of_toOption hs',
    by decide, hdrives⟩

end Synapi

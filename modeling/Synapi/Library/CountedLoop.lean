import Mathlib.Data.Nat.Basic

/-!
A C `for` loop whose counter is part of the state, so that the body may change
the counter as well as leave the loop.
-/

namespace CountedLoop

inductive Flow (σ ρ : Type) where
  | next (s : σ)
  | stop (s : σ) (r : ρ)

variable {σ ρ ε : Type}

/-- `for (; guard; incr) body`. The error `running` is the outcome of a loop
that has not ended when the fuel is spent. -/
def forLoop (guard : σ → Bool) (incr : σ → σ) (body : σ → Except ε (Flow σ ρ)) (running : ε) :
    ℕ → σ → Except ε (Flow σ ρ)
  | 0, s => if guard s then .error running else .ok (.next s)
  | fuel + 1, s =>
    if guard s then
      match body s with
      | .error e => .error e
      | .ok (.stop t r) => .ok (.stop t r)
      | .ok (.next t) => forLoop guard incr body running fuel (incr t)
    else .ok (.next s)

variable {guard : σ → Bool} {incr : σ → σ} {body : σ → Except ε (Flow σ ρ)} {running : ε}

/-- The states in which the loop enters its body. -/
def visits (guard : σ → Bool) (incr : σ → σ) (body : σ → Except ε (Flow σ ρ)) : ℕ → σ → List σ
  | 0, _ => []
  | fuel + 1, s =>
    if guard s then
      match body s with
      | .ok (.next t) => s :: visits guard incr body fuel (incr t)
      | _ => [s]
    else []

theorem forLoop_exit {s : σ} (hg : guard s = false) (fuel : ℕ) :
    forLoop guard incr body running fuel s = .ok (.next s) := by
  cases fuel <;> simp [forLoop, hg]

theorem forLoop_next {s t : σ} (hg : guard s = true) (hb : body s = .ok (.next t)) (fuel : ℕ) :
    forLoop guard incr body running (fuel + 1) s =
      forLoop guard incr body running fuel (incr t) := by
  simp [forLoop, hg, hb]

theorem forLoop_stop {s t : σ} {r : ρ} (hg : guard s = true) (hb : body s = .ok (.stop t r))
    (fuel : ℕ) : forLoop guard incr body running (fuel + 1) s = .ok (.stop t r) := by
  simp [forLoop, hg, hb]

theorem forLoop_error {s : σ} {e : ε} (hg : guard s = true) (hb : body s = .error e) (fuel : ℕ) :
    forLoop guard incr body running (fuel + 1) s = .error e := by
  simp [forLoop, hg, hb]

theorem forLoop_passes (head : ℕ → σ) (m fuel : ℕ)
    (h : ∀ k < m, guard (head k) = true ∧
      ∃ t, body (head k) = .ok (.next t) ∧ incr t = head (k + 1)) :
    forLoop guard incr body running (fuel + m) (head 0) =
      forLoop guard incr body running fuel (head m) := by
  induction m generalizing head with
  | zero => rfl
  | succ m ih =>
    obtain ⟨hg, t, hb, ht⟩ := h 0 (by omega)
    have tail := ih (fun k => head (k + 1)) (fun k hk => h (k + 1) (by omega))
    rw [← Nat.add_assoc, forLoop_next hg hb, ht, tail]

/-- A loop of `m` passes, by what holds after `k` of them; a pass may leave the loop. -/
theorem forLoop_rule {I : ℕ → σ → Prop} {Q : σ → ρ → Prop} {m : ℕ}
    (pass : ∀ k < m, ∀ s, I k s → guard s = true ∧
      ((∃ t, body s = .ok (.next t) ∧ I (k + 1) (incr t)) ∨
        ∃ t r, body s = .ok (.stop t r) ∧ Q t r))
    (finish : ∀ s, I m s → guard s = false) {s : σ} (hs : I 0 s) :
    (∃ t, forLoop guard incr body running m s = .ok (.next t) ∧ I m t) ∨
      ∃ t r, forLoop guard incr body running m s = .ok (.stop t r) ∧ Q t r := by
  induction m generalizing I s with
  | zero => exact .inl ⟨s, forLoop_exit (finish s hs) 0, hs⟩
  | succ m ih =>
    obtain ⟨hg, ⟨t, hb, ht⟩ | ⟨t, r, hb, hQ⟩⟩ := pass 0 (Nat.succ_pos m) s hs
    · rw [forLoop_next hg hb]
      exact ih (I := fun k => I (k + 1)) (fun k hk => pass (k + 1) (Nat.succ_lt_succ hk))
        finish ht
    · exact .inr ⟨t, r, forLoop_stop hg hb m, hQ⟩

theorem visits_invariant {P : σ → Prop}
    (h : ∀ s t, P s → body s = .ok (.next t) → P (incr t)) (fuel : ℕ) {s : σ} (hs : P s) :
    ∀ v ∈ visits guard incr body fuel s, P v ∧ guard v = true := by
  induction fuel generalizing s with
  | zero => exact fun v hv => absurd hv List.not_mem_nil
  | succ fuel ih =>
    intro v hv
    by_cases hg : guard s = true
    · rw [visits, if_pos hg] at hv
      split at hv
      · next t hb =>
        rcases List.mem_cons.mp hv with rfl | hv
        · exact ⟨hs, hg⟩
        · exact ih (h s t hs hb) v hv
      · rw [List.mem_singleton.mp hv]
        exact ⟨hs, hg⟩
    · rw [visits, if_neg hg] at hv
      cases hv

end CountedLoop

import Synapi.Library.CountedLoop
import Synapi.Library.Runs

/-!
Two computations in lockstep: both fail with the same error, or both succeed
with related results. A system and one of its parts, which follows the calls it
sees. The last rule compares a loop whose counter is part of the state with one
that has a counter of its own.
-/

namespace Lockstep

open Runs CountedLoop

variable {ε α β γ δ σ τ ρ ι : Type}

inductive Agree (R : α → β → Prop) : Except ε α → Except ε β → Prop
  | ok {a : α} {b : β} (h : R a b) : Agree R (.ok a) (.ok b)
  | error (e : ε) : Agree R (.error e) (.error e)

theorem Agree.mono {R S : α → β → Prop} {x : Except ε α} {y : Except ε β} (h : Agree R x y)
    (hRS : ∀ a b, R a b → S a b) : Agree S x y := by
  cases h with
  | ok hab => exact .ok (hRS _ _ hab)
  | error e => exact .error e

theorem Agree.left {R : α → β → Prop} {P : α → Prop} {x : Except ε α} {y : Except ε β}
    (h : Agree R x y) (hP : ∀ a, x = .ok a → P a) : Agree (fun a b => R a b ∧ P a) x y := by
  cases h with
  | ok hab => exact .ok ⟨hab, hP _ rfl⟩
  | error e => exact .error e

theorem Agree.bind {R : α → β → Prop} {S : γ → δ → Prop} {x : Except ε α} {y : Except ε β}
    {f : α → Except ε γ} {g : β → Except ε δ} (h : Agree R x y)
    (hf : ∀ a b, R a b → Agree S (f a) (g b)) : Agree S (x >>= f) (y >>= g) := by
  cases h with
  | ok hab => exact hf _ _ hab
  | error e => exact .error e

theorem Agree.bind_same {S : γ → δ → Prop} {f : α → Except ε γ} {g : α → Except ε δ}
    (x : Except ε α) (hf : ∀ a, Agree S (f a) (g a)) : Agree S (x >>= f) (x >>= g) := by
  cases x with
  | ok a => exact hf a
  | error e => exact .error e

theorem Agree.map {R : α → β → Prop} {S : γ → δ → Prop} {x : Except ε α} {y : Except ε β}
    {f : α → γ} {g : β → δ} (h : Agree R x y) (hf : ∀ a b, R a b → S (f a) (g b)) :
    Agree S (x.map f) (y.map g) := by
  cases h with
  | ok hab => exact .ok (hf _ _ hab)
  | error e => exact .error e

theorem agree_run {R : σ → τ → Prop} {step : σ → ι → Except ε σ} {step' : τ → ι → Except ε τ}
    {Q : σ → Prop} (hQ : ∀ s c s', Q s → step s c = .ok s' → Q s')
    (hstep : ∀ s t c, Q s → R s t → Agree R (step s c) (step' t c)) (cs : List ι) {s : σ} {t : τ}
    (hs : Q s) (h : R s t) : Agree R (run step s cs) (run step' t cs) := by
  induction cs generalizing s t with
  | nil => exact .ok h
  | cons c cs ih =>
    have first := hstep s t c hs h
    unfold run
    cases hc : step s c with
    | error e =>
      rw [hc] at first
      generalize step' t c = y at first ⊢
      cases first
      exact .error e
    | ok s' =>
      rw [hc] at first
      generalize step' t c = y at first ⊢
      cases first with
      | ok hR => exact ih (hQ s c s' hs hc) hR

/-! A part of a system -/

section Part

variable {κ : Type} {step : σ → ι → Except ε σ} {step' : τ → κ → Except ε τ}
  {seen : σ → ι → Option κ} {R : σ → τ → Prop} {P : σ → Prop}

/-- The calls the part sees of those made to the system. -/
def project (step : σ → ι → Except ε σ) (seen : σ → ι → Option κ) : σ → List ι → List κ
  | _, [] => []
  | s, c :: cs =>
    (seen s c).toList ++
      match step s c with
      | .ok s' => project step seen s' cs
      | .error _ => []

/-- How the part follows one call: it makes the one it sees, or none. -/
structure Follows (step : σ → ι → Except ε σ) (step' : τ → κ → Except ε τ)
    (seen : σ → ι → Option κ) (R : σ → τ → Prop) (P : σ → Prop) : Prop where
  keeps : ∀ s c s', P s → step s c = .ok s' → P s'
  own : ∀ s t c d, P s → R s t → seen s c = some d → Agree R (step s c) (step' t d)
  other : ∀ s t c s', P s → R s t → seen s c = none → step s c = .ok s' → R s' t

theorem project_append {s u : σ} {first : List ι} (second : List ι)
    (h : run step s first = .ok u) :
    project step seen s (first ++ second) = project step seen s first ++ project step seen u second := by
  induction first generalizing s with
  | nil =>
    rw [← Except.ok.inj h]
    rfl
  | cons c first ih =>
    obtain ⟨t, ht, h⟩ := run_cons_ok.mp h
    simp only [List.cons_append, project, ht, ih h, List.append_assoc]

theorem project_ok (follows : Follows step step' seen R P) {s s' : σ} {t : τ} {cs : List ι}
    (hs : P s) (h : R s t) (hrun : run step s cs = .ok s') :
    P s' ∧ ∃ t', run step' t (project step seen s cs) = .ok t' ∧ R s' t' := by
  induction cs generalizing s t with
  | nil =>
    rw [← Except.ok.inj hrun]
    exact ⟨hs, t, rfl, h⟩
  | cons c cs ih =>
    obtain ⟨u, hu, hrun⟩ := run_cons_ok.mp hrun
    have hP := follows.keeps s c u hs hu
    simp only [project, hu]
    cases hseen : seen s c with
    | none => exact ih hP (follows.other s t c u hs h hseen hu) hrun
    | some d =>
      have agree := follows.own s t c d hs h hseen
      rw [hu] at agree
      generalize hstep : step' t d = result at agree
      cases agree with
      | ok hR =>
        obtain ⟨hP', t', ht', hR'⟩ := ih hP hR hrun
        exact ⟨hP', t', run_cons_ok.mpr ⟨_, hstep, ht'⟩, hR'⟩

/-- What fails in the system fails in the part that sees it. -/
theorem project_error (follows : Follows step step' seen R P) {s u : σ} {t : τ} {c : ι} {d : κ}
    {e : ε} {pre : List ι} (post : List ι) (hs : P s) (h : R s t) (hpre : run step s pre = .ok u)
    (hseen : seen u c = some d) (hfail : step u c = .error e) :
    run step' t (project step seen s (pre ++ c :: post)) = .error e := by
  obtain ⟨hP, t', ht', hR⟩ := project_ok follows hs h hpre
  have agree := follows.own u t' c d hP hR hseen
  rw [hfail] at agree
  rw [project_append _ hpre, run_append, ht', ok_bind]
  simp only [project, hseen, hfail, Option.toList_some, List.append_nil, run]
  generalize step' t' d = result at agree
  cases agree with
  | error => rfl

end Part

/-! Loops -/

inductive SameFlow (R : σ → τ → Prop) : Flow σ ρ → Flow τ ρ → Prop
  | next {s : σ} {t : τ} (h : R s t) : SameFlow R (.next s) (.next t)
  | stop {s : σ} {t : τ} (h : R s t) (r : ρ) : SameFlow R (.stop s r) (.stop t r)

/-- `for (int k = …; …; k++) body`, for `n` passes from `k` on. -/
def localLoop (body : ℕ → τ → Except ε (Flow τ ρ)) : ℕ → ℕ → τ → Except ε (Flow τ ρ)
  | _, 0, t => .ok (.next t)
  | k, n + 1, t =>
    match body k t with
    | .error e => .error e
    | .ok (.stop u r) => .ok (.stop u r)
    | .ok (.next u) => localLoop body (k + 1) n u

theorem localLoop_idle {body : ℕ → τ → Except ε (Flow τ ρ)} {t : τ} (k n : ℕ)
    (h : ∀ j, k ≤ j → j < k + n → body j t = .ok (.next t)) :
    localLoop body k n t = .ok (.next t) := by
  induction n generalizing k with
  | zero => rfl
  | succ n ih =>
    rw [localLoop, h k (Nat.le_refl k) (by omega)]
    exact ih (k + 1) (fun j hj hn => h j (by omega) (by omega))

variable {guard : σ → Bool} {incr : σ → σ} {body : σ → Except ε (Flow σ ρ)} {running : ε}
  {localBody : ℕ → τ → Except ε (Flow τ ρ)} {head : ℕ → σ → τ → Prop} {Q : σ → τ → Prop} {n : ℕ}

/-- One pass of both loops. The loop with the shared counter may leave early
when the other one has nothing left to do. -/
inductive Pass (guard : σ → Bool) (incr : σ → σ) (localBody : ℕ → τ → Except ε (Flow τ ρ))
    (head : ℕ → σ → τ → Prop) (Q : σ → τ → Prop) (n k : ℕ) : Flow σ ρ → Flow τ ρ → Prop
  | next {s : σ} {t : τ} (h : head (k + 1) (incr s) t) :
      Pass guard incr localBody head Q n k (.next s) (.next t)
  | leave {s : σ} {t : τ} (hg : guard (incr s) = false) (h : Q (incr s) t)
      (rest : ∀ j, k < j → j < n → localBody j t = .ok (.next t)) :
      Pass guard incr localBody head Q n k (.next s) (.next t)
  | stop {s : σ} {t : τ} (h : Q s t) (r : ρ) :
      Pass guard incr localBody head Q n k (.stop s r) (.stop t r)

/-- `head k` relates the states in which both loops are about to make pass `k`. -/
theorem agree_loop (hguard : ∀ k s t, head k s t → (guard s = true ↔ k < n))
    (hexit : ∀ s t, head n s t → Q s t)
    (hbody : ∀ k < n, ∀ s t, head k s t →
      Agree (Pass guard incr localBody head Q n k) (body s) (localBody k t))
    (m : ℕ) {k : ℕ} {s : σ} {t : τ} (hk : k + m = n) (h : head k s t) :
    Agree (SameFlow Q) (forLoop guard incr body running m s) (localLoop localBody k m t) := by
  induction m generalizing k s t with
  | zero =>
    obtain rfl : k = n := hk
    have ended : guard s = false := by
      rw [Bool.eq_false_iff, ne_eq, hguard k s t h]
      exact Nat.lt_irrefl k
    rw [forLoop_exit ended]
    exact .ok (.next (hexit s t h))
  | succ m ih =>
    have entered : guard s = true := (hguard k s t h).mpr (by omega)
    have pass := hbody k (by omega) s t h
    unfold localLoop
    generalize hb : body s = x at pass
    generalize localBody k t = y at pass ⊢
    cases pass with
    | error e =>
      rw [forLoop_error entered hb]
      exact .error e
    | ok pass =>
      cases pass with
      | next hnext =>
        rw [forLoop_next entered hb]
        exact ih (by omega) hnext
      | leave hg hleave rest =>
        have idle := localLoop_idle (k + 1) m (fun j hj hn => rest j (by omega) (by omega))
        rw [forLoop_next entered hb, forLoop_exit hg]
        simp only [idle]
        exact .ok (.next hleave)
      | stop hstop r =>
        rw [forLoop_stop entered hb]
        exact .ok (.stop hstop r)

end Lockstep

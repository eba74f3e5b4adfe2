import Mathlib.Data.List.Basic

/-!
Computations that can fail, and runs of a step that can fail: a run stops at
the first failing step.
-/

namespace Runs

variable {σ ι ε : Type}

theorem ok_bind {α β : Type} (a : α) (f : α → Except ε β) : (Except.ok a >>= f) = f a := rfl

theorem error_bind {α β : Type} (e : ε) (f : α → Except ε β) : (Except.error e >>= f) = .error e :=
  rfl

theorem bind_eq_ok {α β : Type} {x : Except ε α} {f : α → Except ε β} {b : β} :
    (x >>= f) = .ok b ↔ ∃ a, x = .ok a ∧ f a = .ok b := by
  cases x with
  | error e => simp [error_bind]
  | ok a => simp [ok_bind]

theorem bind_eq_error {α β : Type} {x : Except ε α} {f : α → Except ε β} {e : ε} :
    (x >>= f) = .error e ↔ x = .error e ∨ ∃ a, x = .ok a ∧ f a = .error e := by
  cases x with
  | error d => simp [error_bind]
  | ok a => simp [ok_bind]

theorem eq_ok_of_toOption {α : Type} {x : Except ε α} {a : α} (h : a ∈ x.toOption) : x = .ok a := by
  cases x with
  | error e => cases h
  | ok b => exact congrArg Except.ok (Option.some.inj h)

theorem map_eq_ok {α β : Type} {x : Except ε α} {f : α → β} {b : β} :
    x.map f = .ok b ↔ ∃ a, x = .ok a ∧ f a = b := by
  cases x <;> simp [Except.map]

theorem map_eq_error {α β : Type} {x : Except ε α} {f : α → β} {e : ε}
    (h : x.map f = .error e) : x = .error e := by
  cases x with
  | error d => exact congrArg Except.error (Except.error.inj h)
  | ok a => cases h

def run (step : σ → ι → Except ε σ) : σ → List ι → Except ε σ
  | s, [] => .ok s
  | s, c :: cs =>
    match step s c with
    | .error e => .error e
    | .ok t => run step t cs

variable {step : σ → ι → Except ε σ}

theorem run_cons_ok {s u : σ} {c : ι} {cs : List ι} :
    run step s (c :: cs) = .ok u ↔ ∃ t, step s c = .ok t ∧ run step t cs = .ok u := by
  cases hc : step s c <;> simp [run, hc]

theorem run_cons_error {s : σ} {c : ι} {cs : List ι} :
    (∃ e, run step s (c :: cs) = .error e) ↔
      (∃ e, step s c = .error e) ∨ ∃ t, step s c = .ok t ∧ ∃ e, run step t cs = .error e := by
  cases hc : step s c <;> simp [run, hc]

theorem run_eq_error {s : σ} {cs : List ι} {e : ε} :
    run step s cs = .error e ↔
      ∃ pre c post u, cs = pre ++ c :: post ∧ run step s pre = .ok u ∧ step u c = .error e := by
  constructor
  · intro h
    induction cs generalizing s with
    | nil => cases h
    | cons c cs ih =>
      rw [run] at h
      cases hc : step s c with
      | error d =>
        rw [hc] at h
        exact ⟨[], c, cs, s, rfl, rfl, hc.trans h⟩
      | ok t =>
        rw [hc] at h
        obtain ⟨pre, d, post, u, rfl, hu, hd⟩ := ih h
        exact ⟨c :: pre, d, post, u, rfl, run_cons_ok.mpr ⟨t, hc, hu⟩, hd⟩
  · rintro ⟨pre, c, post, u, rfl, hu, hc⟩
    induction pre generalizing s with
    | nil =>
      rw [← Except.ok.inj hu] at hc
      simp only [List.nil_append, run, hc]
    | cons d pre ih =>
      obtain ⟨t, ht, hu⟩ := run_cons_ok.mp hu
      simp only [List.cons_append, run, ht]
      exact ih hu

/-- Every step of the run succeeds, and `P` holds of each with the states around it. -/
def EachStep (P : σ → ι → σ → Prop) (step : σ → ι → Except ε σ) : σ → List ι → Prop
  | _, [] => True
  | s, c :: cs => ∃ t, step s c = .ok t ∧ P s c t ∧ EachStep P step t cs

theorem run_append (s : σ) (first second : List ι) :
    run step s (first ++ second) = run step s first >>= fun t => run step t second := by
  induction first generalizing s with
  | nil => rfl
  | cons c first ih =>
    simp only [List.cons_append, run]
    cases step s c with
    | error e => rfl
    | ok t => exact ih t

theorem eachStep_append {P : σ → ι → σ → Prop} {s t : σ} {first second : List ι}
    (h : EachStep P step s first) (ht : run step s first = .ok t)
    (h' : EachStep P step t second) : EachStep P step s (first ++ second) := by
  induction first generalizing s with
  | nil => exact Except.ok.inj ht ▸ h'
  | cons c first ih =>
    obtain ⟨u, hu, hP, hrest⟩ := h
    obtain ⟨v, hv, ht⟩ := run_cons_ok.mp ht
    obtain rfl : u = v := Except.ok.inj (hu.symm.trans hv)
    exact ⟨u, hu, hP, ih hrest ht⟩

theorem run_relates {P : σ → Prop} {R : σ → σ → Prop} (hrefl : ∀ s, R s s)
    (htrans : ∀ s t u, R s t → R t u → R s u) (hP : ∀ s c t, P s → step s c = .ok t → P t)
    (hstep : ∀ s c t, P s → step s c = .ok t → R s t)
    {s t : σ} {cs : List ι} (hs : P s) (h : run step s cs = .ok t) : R s t := by
  induction cs generalizing s with
  | nil => simp only [run, Except.ok.injEq] at h; exact h ▸ hrefl s
  | cons c cs ih =>
    obtain ⟨u, hu, ht⟩ := run_cons_ok.mp h
    exact htrans s u t (hstep s c u hs hu) (ih (hP s c u hs hu) ht)

/-- How many steps of the run meet `P`, up to the first that fails. -/
def count (step : σ → ι → Except ε σ) (P : σ → ι → Bool) : σ → List ι → ℕ
  | _, [] => 0
  | s, c :: cs =>
    (P s c).toNat + match step s c with
      | .error _ => 0
      | .ok t => count step P t cs

theorem count_cons {P : σ → ι → Bool} {s t : σ} {c : ι} (cs : List ι) (h : step s c = .ok t) :
    count step P s (c :: cs) = (P s c).toNat + count step P t cs := by
  simp only [count, h]

/-- A counter that `up` raises and `down` lowers, until a `down` finds it at zero:
it has come to that exactly when in some part of the run, from its start, there
were more of the one than the counter and the other allowed for. -/
theorem countdown {I W G : σ → Prop} {m : σ → ℕ} {up down : σ → ι → Bool}
    (hinv : ∀ s c t, I s → step s c = .ok t → I t)
    (hstep : ∀ s c t, I s → W s → step s c = .ok t →
      (G t ∧ m s + (up s c).toNat < (down s c).toNat) ∨
        (W t ∧ m t + (down s c).toNat = m s + (up s c).toNat))
    (hgone : ∀ s c t, I s → G s → step s c = .ok t → G t)
    (apart : ∀ s, I s → W s → ¬ G s) {s t : σ} {cs : List ι} (hs : I s)
    (hw : W s) (h : run step s cs = .ok t) :
    G t ↔ ∃ pre post, cs = pre ++ post ∧
      m s + count step up s pre < count step down s pre := by
  induction cs generalizing s with
  | nil =>
    rw [← Except.ok.inj h]
    refine iff_of_false (apart s hs hw) ?_
    rintro ⟨pre, post, heq, hlt⟩
    obtain rfl := (List.append_eq_nil_iff.mp heq.symm).1
    exact Nat.not_lt_zero _ hlt
  | cons c cs ih =>
    obtain ⟨u, hu, ht⟩ := run_cons_ok.mp h
    have hi := hinv s c u hs hu
    rcases hstep s c u hs hw hu with ⟨hgo, hlt⟩ | ⟨hstay, heq⟩
    · refine iff_of_true ?_ ⟨[c], cs, rfl, ?_⟩
      · exact (run_relates (P := I) (R := fun s t => G s → G t) (fun _ => id)
          (fun _ _ _ h h' g => h' (h g)) hinv (fun s c t hs h g => hgone s c t hs g h) hi ht) hgo
      · rw [count_cons [] hu, count_cons [] hu]
        exact hlt
    · rw [ih hi hstay ht]
      constructor
      · rintro ⟨pre, post, rfl, hlt⟩
        refine ⟨c :: pre, post, rfl, ?_⟩
        rw [count_cons pre hu, count_cons pre hu]
        omega
      · rintro ⟨pre, post, hsplit, hlt⟩
        cases pre with
        | nil => exact absurd hlt (Nat.not_lt_zero _)
        | cons d pre =>
          obtain ⟨rfl, rfl⟩ := List.cons.inj hsplit
          refine ⟨pre, post, rfl, ?_⟩
          rw [count_cons pre hu, count_cons pre hu] at hlt
          omega

/-- The states of the runs whose steps meet the condition `C`. -/
inductive Reach (init : σ → Prop) (step : σ → ι → Except ε σ) (C : σ → ι → Prop) : σ → Prop
  | start {s : σ} (h : init s) : Reach init step C s
  | next {s t : σ} {c : ι} (hs : Reach init step C s) (hc : C s c) (h : step s c = .ok t) :
      Reach init step C t

variable {init : σ → Prop} {C D : σ → ι → Prop}

theorem Reach.invariant {P : σ → Prop} (hstart : ∀ s, init s → P s)
    (hstep : ∀ s c t, P s → C s c → step s c = .ok t → P t) {s : σ}
    (hs : Reach init step C s) : P s := by
  induction hs with
  | start h => exact hstart _ h
  | next _ hc h ih => exact hstep _ _ _ ih hc h

theorem Reach.mono (hCD : ∀ s c, C s c → D s c) {s : σ} (hs : Reach init step C s) :
    Reach init step D s := by
  induction hs with
  | start h => exact .start h
  | next _ hc h ih => exact .next ih (hCD _ _ hc) h

theorem Reach.run {s t : σ} {cs : List ι} (hs : Reach init step C s)
    (hc : ∀ pre c post u, cs = pre ++ c :: post → run step s pre = .ok u → C u c)
    (h : run step s cs = .ok t) : Reach init step C t := by
  induction cs generalizing s with
  | nil => simp only [Runs.run, Except.ok.injEq] at h; exact h ▸ hs
  | cons c cs ih =>
    obtain ⟨u, hu, ht⟩ := run_cons_ok.mp h
    refine ih (hs.next (hc [] c cs s rfl rfl) hu) (fun pre d post v heq hv => ?_) ht
    exact hc (c :: pre) d post v (by rw [heq, List.cons_append]) (run_cons_ok.mpr ⟨u, hu, hv⟩)

/-- A run that ends when a step fails or does not meet the condition. -/
def runWhile (step : σ → ι → Except ε σ) (C : σ → ι → Prop) [∀ s c, Decidable (C s c)] :
    σ → List ι → Option σ
  | s, [] => some s
  | s, c :: cs =>
    if C s c then
      match step s c with
      | .error _ => none
      | .ok t => runWhile step C t cs
    else none

theorem runWhile_eachStep [∀ s c, Decidable (C s c)] {s t : σ} {cs : List ι}
    (h : runWhile step C s cs = some t) :
    run step s cs = .ok t ∧ EachStep (fun s c _ => C s c) step s cs := by
  induction cs generalizing s with
  | nil => exact ⟨congrArg Except.ok (Option.some.inj h), trivial⟩
  | cons c cs ih =>
    rw [Runs.runWhile] at h
    split_ifs at h with hc
    cases hr : step s c with
    | error e => simp [hr] at h
    | ok u =>
      rw [hr] at h
      obtain ⟨hrun, hsteps⟩ := ih h
      exact ⟨run_cons_ok.mpr ⟨u, hr, hrun⟩, u, hr, hc, hsteps⟩

theorem Reach.runWhile [∀ s c, Decidable (C s c)] {s t : σ} {cs : List ι}
    (hs : Reach init step C s) (h : runWhile step C s cs = some t) : Reach init step C t := by
  induction cs generalizing s with
  | nil => exact Option.some.inj h ▸ hs
  | cons c cs ih =>
    rw [Runs.runWhile] at h
    split_ifs at h with hc
    cases hr : step s c with
    | error e => simp [hr] at h
    | ok u =>
      rw [hr] at h
      exact ih (hs.next hc hr) h

end Runs

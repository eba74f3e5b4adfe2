import Mathlib.Data.List.Basic

/-!
Histories that tell the state: each event says what the state is after it, and
is legal or not in the state before it.
-/

namespace Replay

variable {σ ε α : Type} {after : σ → ε → σ} {legal : σ → ε → Prop}

def replay (after : σ → ε → σ) (s : σ) (events : List ε) : σ := events.foldl after s

def Legal (after : σ → ε → σ) (legal : σ → ε → Prop) : σ → List ε → Prop
  | _, [] => True
  | s, e :: events => legal s e ∧ Legal after legal (after s e) events

theorem replay_append (s : σ) (first second : List ε) :
    replay after s (first ++ second) = replay after (replay after s first) second :=
  List.foldl_append

theorem legal_append {s : σ} {first second : List ε} :
    Legal after legal s (first ++ second) ↔
      Legal after legal s first ∧ Legal after legal (replay after s first) second := by
  induction first generalizing s with
  | nil => simp [Legal, replay]
  | cons e first ih => simp only [List.cons_append, Legal, ih, replay, List.foldl_cons, and_assoc]

theorem Legal.at {s : σ} {first second : List ε} {e : ε}
    (h : Legal after legal s (first ++ e :: second)) : legal (replay after s first) e :=
  (legal_append.mp h).2.1

theorem replay_frame {events : List ε} (f : σ → α)
    (h : ∀ e ∈ events, ∀ s, f (after s e) = f s) (s : σ) : f (replay after s events) = f s := by
  induction events generalizing s with
  | nil => rfl
  | cons e events ih =>
    rw [replay, List.foldl_cons]
    exact (ih (fun x hx => h x (List.mem_cons_of_mem e hx)) _).trans (h e List.mem_cons_self s)

theorem replay_invariant {P : σ → Prop} {events : List ε}
    (h : ∀ e ∈ events, ∀ s, P s → legal s e → P (after s e)) {s : σ}
    (hl : Legal after legal s events) (hs : P s) : P (replay after s events) := by
  induction events generalizing s with
  | nil => exact hs
  | cons e events ih =>
    exact ih (fun x hx => h x (List.mem_cons_of_mem e hx)) hl.2
      (h e List.mem_cons_self s hs hl.1)

def Recorded (after : σ → ε → σ) (legal : σ → ε → Prop) (s : σ) (events : List ε) (s' : σ) : Prop :=
  Legal after legal s events ∧ replay after s events = s'

variable {s s' s'' : σ}

theorem recorded_nil : Recorded after legal s [] s := ⟨trivial, rfl⟩

theorem recorded_single {e : ε} (h : legal s e) : Recorded after legal s [e] (after s e) :=
  ⟨⟨h, trivial⟩, rfl⟩

theorem Recorded.append {first second : List ε} (h : Recorded after legal s first s')
    (h' : Recorded after legal s' second s'') : Recorded after legal s (first ++ second) s'' := by
  obtain ⟨hl, rfl⟩ := h
  exact ⟨legal_append.mpr ⟨hl, h'.1⟩, (replay_append s first second).trans h'.2⟩

theorem replay_filter {q : ε → Bool} (h : ∀ e, q e = false → ∀ s, after s e = s)
    (s : σ) (events : List ε) : replay after s (events.filter q) = replay after s events := by
  induction events generalizing s with
  | nil => rfl
  | cons e events ih =>
    have unfolded : replay after s (e :: events) = replay after (after s e) events := rfl
    cases hq : q e with
    | true =>
      rw [List.filter_cons_of_pos hq, unfolded, ← ih]
      rfl
    | false => rw [List.filter_cons_of_neg (by simp [hq]), unfolded, ih, h e hq]

theorem legal_filter {q : ε → Bool} (h : ∀ e, q e = false → ∀ s, legal s e ∧ after s e = s)
    (s : σ) (events : List ε) :
    Legal after legal s (events.filter q) ↔ Legal after legal s events := by
  induction events generalizing s with
  | nil => exact Iff.rfl
  | cons e events ih =>
    cases hq : q e with
    | true => rw [List.filter_cons_of_pos hq, Legal, Legal, ih]
    | false =>
      obtain ⟨hl, ha⟩ := h e hq s
      rw [List.filter_cons_of_neg (by simp [hq]), ih, Legal, ha]
      exact (and_iff_right hl).symm

theorem split_last (q : ε → Prop) [DecidablePred q] (events : List ε) :
    (∀ e ∈ events, ¬ q e) ∨
      ∃ first e last, events = first ++ e :: last ∧ q e ∧ ∀ x ∈ last, ¬ q x := by
  induction events with
  | nil => exact .inl (by simp)
  | cons a events ih =>
    rcases ih with hnone | ⟨first, e, last, rfl, he, hlast⟩
    · by_cases ha : q a
      · exact .inr ⟨[], a, events, rfl, ha, hnone⟩
      · exact .inl (List.forall_mem_cons.mpr ⟨ha, hnone⟩)
    · exact .inr ⟨a :: first, e, last, rfl, he, hlast⟩

theorem snoc_eq_split {events before after : List ε} {e x : ε}
    (h : events ++ [e] = before ++ x :: after) :
    (events = before ∧ e = x ∧ after = []) ∨
      ∃ between, after = between ++ [e] ∧ events = before ++ x :: between := by
  rcases List.eq_nil_or_concat after with rfl | ⟨between, y, rfl⟩
  · obtain ⟨hevents, he⟩ := List.append_inj' h rfl
    exact .inl ⟨hevents, List.singleton_inj.mp he, rfl⟩
  · rw [List.concat_eq_append, ← List.cons_append, ← List.append_assoc] at h
    obtain ⟨hevents, he⟩ := List.append_inj' h rfl
    right
    exact ⟨between, by rw [List.concat_eq_append, he], hevents⟩

/-- Each event meets the condition together with the events before it. -/
def AtEach (P : List ε → ε → Prop) (events : List ε) : Prop :=
  ∀ before e after, events = before ++ e :: after → P before e

variable {P : List ε → ε → Prop}

theorem atEach_nil : AtEach P [] := by
  intro before e after h
  simp at h

theorem atEach_snoc {events : List ε} {e : ε} :
    AtEach P (events ++ [e]) ↔ AtEach P events ∧ P events e := by
  constructor
  · intro h
    constructor
    · rintro before x after rfl
      apply h before x (after ++ [e])
      simp
    · exact h events e [] rfl
  · rintro ⟨hevents, he⟩ before x after heq
    rcases snoc_eq_split heq with ⟨rfl, rfl, -⟩ | ⟨between, -, hsplit⟩
    · exact he
    · exact hevents before x between hsplit

end Replay

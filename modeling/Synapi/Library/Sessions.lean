import Mathlib.Computability.Language

/-!
Words of sessions: each starts, is used any number of times, and stops. In a
history of keyed letters every key has a word of its own.
-/

namespace Sessions

open scoped Computability

variable {α : Type} {start use stop : α} {l : List α}

def sessions (start use stop : α) : Language α := ({[start]} * {[use]}∗ * {[stop]})∗

/-- Sessions that have stopped, and one that has not. -/
def Pending (start use stop : α) (l : List α) : Prop :=
  ∃ stopped ∈ sessions start use stop, ∃ n, l = stopped ++ start :: List.replicate n use

theorem session_mem (n : ℕ) :
    start :: List.replicate n use ++ [stop] ∈ ({[start]} * {[use]}∗ * {[stop]} : Language α) := by
  have uses : List.replicate n use ∈ ({[use]}∗ : Language α) := by
    rw [← List.flatten_replicate_singleton]
    apply Language.join_mem_kstar
    intro y hy
    exact List.eq_of_mem_replicate hy
  have opened : [start] ++ List.replicate n use ∈ ({[start]} * {[use]}∗ : Language α) :=
    Language.append_mem_mul (Set.mem_singleton _) uses
  exact Language.append_mem_mul opened (Set.mem_singleton _)

theorem append_mem_sessions {m : List α} (hl : l ∈ sessions start use stop)
    (hm : m ∈ ({[start]} * {[use]}∗ * {[stop]} : Language α)) :
    l ++ m ∈ sessions start use stop := by
  obtain ⟨parts, rfl, hparts⟩ := Language.mem_kstar.mp hl
  apply Language.mem_kstar.mpr
  refine ⟨parts ++ [m], by simp, ?_⟩
  intro y hy
  rcases List.mem_append.mp hy with hy | hy
  · exact hparts y hy
  · rwa [List.mem_singleton.mp hy]

theorem nil_mem_sessions : [] ∈ sessions start use stop := Language.nil_mem_kstar _

theorem pending_snoc_start (hl : l ∈ sessions start use stop) :
    Pending start use stop (l ++ [start]) :=
  ⟨l, hl, 0, rfl⟩

theorem Pending.snoc_use (h : Pending start use stop l) : Pending start use stop (l ++ [use]) := by
  obtain ⟨stopped, hs, n, rfl⟩ := h
  refine ⟨stopped, hs, n + 1, ?_⟩
  rw [List.replicate_succ', List.append_assoc, List.cons_append]

theorem Pending.snoc_stop (h : Pending start use stop l) : l ++ [stop] ∈ sessions start use stop := by
  obtain ⟨stopped, hs, n, rfl⟩ := h
  rw [List.append_assoc]
  exact append_mem_sessions hs (session_mem n)

theorem Pending.isPrefix (h : Pending start use stop l) :
    ∃ rest, l ++ rest ∈ sessions start use stop :=
  ⟨[stop], h.snoc_stop⟩

variable {κ : Type} [DecidableEq κ] {k : κ} {history : List (κ × α)} {running : Set κ}

def wordOf (k : κ) (history : List (κ × α)) : List α :=
  history.filterMap (fun x => if x.1 = k then some x.2 else none)

theorem wordOf_snoc_self (k : κ) (history : List (κ × α)) (a : α) :
    wordOf k (history ++ [(k, a)]) = wordOf k history ++ [a] := by
  simp [wordOf]

theorem wordOf_snoc_ne {j : κ} (h : j ≠ k) (history : List (κ × α)) (a : α) :
    wordOf k (history ++ [(j, a)]) = wordOf k history := by
  simp [wordOf, h]

/-- The word of a key is pending while the key is running, and stopped otherwise. -/
def Grouped (start use stop : α) (running : Set κ) (history : List (κ × α)) : Prop :=
  ∀ k, (k ∈ running → Pending start use stop (wordOf k history)) ∧
    (k ∉ running → wordOf k history ∈ sessions start use stop)

namespace Grouped

theorem nil : Grouped start use stop (∅ : Set κ) [] :=
  fun _ => ⟨fun h => absurd h (Set.notMem_empty _), fun _ => nil_mem_sessions⟩

theorem isPrefix (h : Grouped start use stop running history) (k : κ) :
    ∃ rest, wordOf k history ++ rest ∈ sessions start use stop := by
  by_cases hk : k ∈ running
  · exact ((h k).1 hk).isPrefix
  · refine ⟨[], ?_⟩
    rw [List.append_nil]
    exact (h k).2 hk

theorem snoc_start (h : Grouped start use stop running history) (hk : k ∉ running) :
    Grouped start use stop (insert k running) (history ++ [(k, start)]) := by
  intro j
  by_cases hj : k = j
  · subst hj
    rw [wordOf_snoc_self]
    exact ⟨fun _ => pending_snoc_start ((h k).2 hk), fun hn => absurd (Set.mem_insert _ _) hn⟩
  · rw [wordOf_snoc_ne hj, Set.mem_insert_iff, or_iff_right (fun he => hj he.symm)]
    exact h j

theorem snoc_use (h : Grouped start use stop running history) (hk : k ∈ running) :
    Grouped start use stop running (history ++ [(k, use)]) := by
  intro j
  by_cases hj : k = j
  · subst hj
    rw [wordOf_snoc_self]
    exact ⟨fun _ => ((h k).1 hk).snoc_use, fun hn => absurd hk hn⟩
  · rw [wordOf_snoc_ne hj]
    exact h j

theorem snoc_stop (h : Grouped start use stop running history) (hk : k ∈ running) :
    Grouped start use stop (running \ {k}) (history ++ [(k, stop)]) := by
  intro j
  by_cases hj : k = j
  · subst hj
    rw [wordOf_snoc_self]
    exact ⟨fun hm => absurd rfl hm.2, fun _ => ((h k).1 hk).snoc_stop⟩
  · have same : j ∈ running \ {k} ↔ j ∈ running :=
      and_iff_left (fun he => hj (Set.mem_singleton_iff.mp he).symm)
    rw [wordOf_snoc_ne hj, same]
    exact h j

end Grouped

end Sessions

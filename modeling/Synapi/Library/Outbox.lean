import Mathlib.Data.List.Basic

/-!
An outbox with a gate. What is put into it waits in line, and as long as the
gate is open the first in line leaves at each pass; a few things go out past
the line.
-/

namespace Outbox

variable {α : Type} {n : ℕ}

structure Box (α : Type) where
  sent : List α
  waiting : List α
  isOpen : Bool

inductive Act (α : Type) where
  | put (place : ℕ) (a : α)
  | direct (a : α)
  | pass
  | gate (opens : Bool)

/-- There is room for `n` in the line. -/
def Box.act (n : ℕ) (b : Box α) : Act α → Box α
  | .put place a =>
    if b.waiting.length < n then
      { b with waiting := b.waiting.take place ++ a :: b.waiting.drop place }
    else b
  | .direct a => { b with sent := b.sent ++ [a] }
  | .pass =>
    if b.isOpen then { b with sent := b.sent ++ b.waiting.take 1, waiting := b.waiting.drop 1 }
    else b
  | .gate opens => { b with isOpen := opens }

def Box.acts (n : ℕ) (b : Box α) (as : List (Act α)) : Box α := as.foldl (Box.act n) b

def Box.all (b : Box α) : List α := b.sent ++ b.waiting

/-- What the act brings in. -/
def Box.taken (n : ℕ) (b : Box α) : Act α → List α
  | .put _ a => if b.waiting.length < n then [a] else []
  | .direct a => [a]
  | .pass | .gate _ => []

def Box.takes (n : ℕ) : Box α → List (Act α) → List α
  | _, [] => []
  | b, a :: as => b.taken n a ++ (b.act n a).takes n as

/-- The act goes ahead of nothing that waits. -/
def Box.Queues (b : Box α) : Act α → Prop
  | .put place _ => b.waiting.length ≤ place
  | .direct _ => b.waiting = []
  | .pass | .gate _ => True

def Box.AllQueue (n : ℕ) : Box α → List (Act α) → Prop
  | _, [] => True
  | b, a :: as => b.Queues a ∧ (b.act n a).AllQueue n as

theorem acts_append (b : Box α) (first second : List (Act α)) :
    b.acts n (first ++ second) = (b.acts n first).acts n second :=
  List.foldl_append

theorem act_bounded {b : Box α} (h : b.waiting.length ≤ n) (a : Act α) :
    (b.act n a).waiting.length ≤ n := by
  cases a with
  | put place a =>
    rw [Box.act]
    split_ifs with hroom
    · simp
      omega
    · exact h
  | pass =>
    rw [Box.act]
    split_ifs
    · simp
      omega
    · exact h
  | direct a => exact h
  | gate opens => exact h

theorem acts_bounded {b : Box α} (h : b.waiting.length ≤ n) (as : List (Act α)) :
    (b.acts n as).waiting.length ≤ n := by
  induction as generalizing b with
  | nil => exact h
  | cons a as ih => exact ih (act_bounded h a)

/-- Nothing is lost or doubled. -/
theorem act_perm (b : Box α) (a : Act α) :
    (b.act n a).all.Perm (b.all ++ b.taken n a) := by
  unfold Box.all
  cases a with
  | put place a =>
    rw [Box.act, Box.taken]
    split_ifs with hroom
    · rw [List.append_assoc]
      apply List.Perm.append_left
      have split : (b.waiting.take place ++ a :: b.waiting.drop place).Perm
          (a :: (b.waiting.take place ++ b.waiting.drop place)) := List.perm_middle
      rw [List.take_append_drop] at split
      exact split.trans (List.perm_append_singleton a b.waiting).symm
    · rw [List.append_nil]
  | direct a =>
    change (b.sent ++ [a] ++ b.waiting).Perm (b.sent ++ b.waiting ++ [a])
    rw [List.append_assoc, List.append_assoc]
    exact List.Perm.append_left b.sent List.perm_append_comm
  | pass =>
    rw [Box.act, Box.taken]
    split_ifs with hopen
    · rw [List.append_assoc, List.take_append_drop, List.append_nil]
    · rw [List.append_nil]
  | gate opens => exact List.Perm.of_eq (List.append_nil _).symm

theorem acts_perm (b : Box α) (as : List (Act α)) :
    (b.acts n as).all.Perm (b.all ++ b.takes n as) := by
  induction as generalizing b with
  | nil => exact List.Perm.of_eq (List.append_nil _).symm
  | cons a as ih =>
    rw [Box.takes, ← List.append_assoc]
    exact (ih (b.act n a)).trans ((act_perm b a).append_right _)

/-- What queues leaves in the order in which it came. -/
theorem act_queues {b : Box α} {a : Act α} (h : b.Queues a) :
    (b.act n a).all = b.all ++ b.taken n a := by
  unfold Box.all
  cases a with
  | put place a =>
    rw [Box.act, Box.taken]
    split_ifs with hroom
    · rw [List.take_of_length_le h, List.drop_of_length_le h, List.append_assoc]
    · rw [List.append_nil]
  | direct a =>
    have empty : b.waiting = [] := h
    change b.sent ++ [a] ++ b.waiting = b.sent ++ b.waiting ++ [a]
    rw [empty, List.append_nil, List.append_nil]
  | pass =>
    rw [Box.act, Box.taken]
    split_ifs with hopen
    · rw [List.append_assoc, List.take_append_drop, List.append_nil]
    · rw [List.append_nil]
  | gate opens => exact (List.append_nil _).symm

theorem acts_queue {b : Box α} {as : List (Act α)} (h : b.AllQueue n as) :
    (b.acts n as).all = b.all ++ b.takes n as := by
  induction as generalizing b with
  | nil => exact (List.append_nil _).symm
  | cons a as ih =>
    rw [Box.takes, ← List.append_assoc, ← act_queues h.1]
    exact ih h.2

end Outbox

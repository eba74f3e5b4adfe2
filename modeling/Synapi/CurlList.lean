import Synapi.World
import Synapi.Library.Runs
import Synapi.Library.Ring

/-!
libcurl's lists (`llist.c`). An element that has been freed is no cell of the
memory any more, and following a pointer to it is a fault.
-/

namespace Synapi

open Runs Ring

inductive MemoryFault where
  | nullPointer
  | freed
  | running
  deriving DecidableEq

def deref {α : Type} : Option α → Except MemoryFault α
  | some a => .ok a
  | none => .error .freed

def notNull {α : Type} : Option α → Except MemoryFault α
  | some a => .ok a
  | none => .error .nullPointer

variable {α : Type}

-- What may be followed does not depend on the links.
theorem deref_setNext {links links' : Links (Option ℕ)} {cells : ℕ → Option α} {k : Option ℕ}
    (h : Memory.live ⟨links', cells⟩ k = true) (b : Option ℕ) :
    deref (Memory.setNext ⟨links, cells⟩ k b) = .ok ⟨links.setNext k b, cells⟩ :=
  congrArg deref (if_pos h)

theorem deref_setPrev {links links' : Links (Option ℕ)} {cells : ℕ → Option α} {k : Option ℕ}
    (h : Memory.live ⟨links', cells⟩ k = true) (b : Option ℕ) :
    deref (Memory.setPrev ⟨links, cells⟩ k b) = .ok ⟨links.setPrev k b, cells⟩ :=
  congrArg deref (if_pos h)

theorem deref_next {links links' : Links (Option ℕ)} {cells : ℕ → Option α} {k : Option ℕ}
    (h : Memory.live ⟨links', cells⟩ k = true) :
    deref (Memory.next ⟨links, cells⟩ k) = .ok (links.next k) :=
  congrArg deref (if_pos h)

theorem deref_prev {links links' : Links (Option ℕ)} {cells : ℕ → Option α} {k : Option ℕ}
    (h : Memory.live ⟨links', cells⟩ k = true) :
    deref (Memory.prev ⟨links, cells⟩ k) = .ok (links.prev k) :=
  congrArg deref (if_pos h)

/-- `head` and `tail` are the two links of the anchor, and `NULL` is `none`. -/
structure CurlLlist (α : Type) where
  memory : Memory ℕ α
  size : ℕ

namespace CurlLlist

def head (list : CurlLlist α) : Option ℕ := list.memory.links.next none

def tail (list : CurlLlist α) : Option ℕ := list.memory.links.prev none

-- `Curl_llist_alloc`.
def alloc (α : Type) : CurlLlist α := ⟨Memory.empty, 0⟩

-- `Curl_llist_insert_next`; `ne` is what its `malloc` returns.
def insertNext (list : CurlLlist α) (e : Option ℕ) (p : α) (ne : Option ℕ) :
    Except MemoryFault (Bool × CurlLlist α) := do
  match ne with
  | none => .ok (false, list)
  | some ne =>
    let m := list.memory.store ne p
    if list.size = 0 then
      let m ← deref (m.setNext none (some ne))
      let m ← deref (m.setPrev (some ne) none)
      let m ← deref (m.setNext (some ne) none)
      let m ← deref (m.setPrev none (some ne))
      .ok (true, ⟨m, list.size + 1⟩)
    else
      match e with
      | none =>
        let m ← deref (m.setNext (some ne) list.head)
        let m ← deref (m.setPrev (some ne) none)
        let head ← notNull list.head
        let m ← deref (m.setPrev (some head) (some ne))
        let m ← deref (m.setNext none (some ne))
        .ok (true, ⟨m, list.size + 1⟩)
      | some e =>
        let next ← deref (m.next (some e))
        let m ← deref (m.setNext (some ne) next)
        let m ← deref (m.setPrev (some ne) (some e))
        -- With no next element this is `list->tail = ne`.
        let m ← deref (m.setPrev next (some ne))
        let m ← deref (m.setNext (some e) (some ne))
        .ok (true, ⟨m, list.size + 1⟩)

-- `Curl_llist_remove`, with a `dtor` that does nothing.
def remove (list : CurlLlist α) (e : Option ℕ) : Except MemoryFault (CurlLlist α) := do
  match e with
  | none => .ok list
  | some e =>
    if list.size = 0 then .ok list
    else
      let next ← deref (list.memory.next (some e))
      if list.head = some e then
        let m ← deref (list.memory.setNext none next)
        let m ← deref (m.setPrev next none)
        .ok ⟨m.release e, list.size - 1⟩
      else
        let prev ← deref (list.memory.prev (some e))
        let prev ← notNull prev
        let m ← deref (list.memory.setNext (some prev) next)
        let m ← deref (m.setPrev next (some prev))
        .ok ⟨m.release e, list.size - 1⟩

-- `Curl_llist_destroy`; what is left is the list that is freed.
def destroy (list : CurlLlist α) : ℕ → Except MemoryFault (CurlLlist α)
  | 0 => if 0 < list.size then .error .running else .ok list
  | fuel + 1 =>
    if 0 < list.size then do
      let list ← list.remove list.tail
      destroy list fuel
    else .ok list

structure Holds (list : CurlLlist α) (l : List (ℕ × α)) : Prop where
  memory : list.memory.Holds l
  size : list.size = l.length

variable {list : CurlLlist α} {l l₁ l₂ : List (ℕ × α)} {e ne : ℕ} {a p : α}

theorem alloc_holds (α : Type) : (alloc α).Holds [] := ⟨Memory.holds_empty, rfl⟩

theorem Holds.head (h : list.Holds l) : list.head = Memory.first l := by
  have whole : list.memory.Holds ([] ++ l) := h.memory
  exact whole.next_last

theorem Holds.tail (h : list.Holds l) : list.tail = Memory.last l := by
  have whole := h.memory
  rw [← List.append_nil l] at whole
  exact whole.prev_first

theorem remove_holds (h : list.Holds (l₁ ++ (e, a) :: l₂)) :
    ∃ list', list.remove (some e) = .ok list' ∧ list'.Holds (l₁ ++ l₂) := by
  have hsize : list.size = l₁.length + l₂.length + 1 := by
    rw [h.size, List.length_append, List.length_cons, Nat.add_assoc]
  have hlive : list.memory.live (some e) = true := by
    rw [Memory.live, h.memory.cell]
    rfl
  have hfirst : list.memory.live (Memory.first l₂) = true := by
    have later := h.memory
    rw [List.append_cons] at later
    exact later.live_first
  refine ⟨⟨⟨list.memory.links.join (Memory.last l₁) (Memory.first l₂),
    Function.update list.memory.cells e none⟩, list.size - 1⟩, ?_, Memory.holds_remove h.memory, ?_⟩
  · rw [remove, if_neg (by omega), deref_next hlive, ok_bind, h.memory.next_cell]
    cases l₁ with
    | nil =>
      have hhead : list.head = some e := h.head
      rw [if_pos hhead, deref_setNext (list.memory.live_none), ok_bind, deref_setPrev hfirst]
      rfl
    | cons c l₁ =>
      have hhead : list.head ≠ some e := by
        rw [h.head]
        exact fun heq => h.memory.keys_apart (Option.some.inj heq)
      have hlast := h.memory.live_last
      have hprev := h.memory.prev_cell
      obtain ⟨k, hk⟩ := Memory.last_cons c l₁
      rw [hk] at hlast hprev ⊢
      rw [if_neg hhead, deref_prev hlive, ok_bind, hprev, notNull, ok_bind, deref_setNext hlast,
        ok_bind, deref_setPrev hfirst]
      rfl
  · rw [List.length_append]
    change list.size - 1 = _
    omega

theorem destroy_holds (h : list.Holds l) :
    ∃ list', list.destroy list.size = .ok list' ∧ list'.Holds [] := by
  induction l using List.reverseRecOn generalizing list with
  | nil =>
    have size : list.size = 0 := h.size
    refine ⟨list, ?_, h⟩
    rw [size, destroy, if_neg (by omega)]
  | append_singleton l c ih =>
    obtain ⟨e, a⟩ := c
    have whole : list.Holds (l ++ (e, a) :: []) := h
    obtain ⟨list₁, hremove, hlist⟩ := remove_holds whole
    rw [List.append_nil] at hlist
    obtain ⟨list', hdestroy, hempty⟩ := ih hlist
    have tail : list.tail = some e := by
      rw [h.tail, Memory.last_concat]
    have size : list.size = list₁.size + 1 := by
      rw [h.size, hlist.size, List.length_append]
      rfl
    refine ⟨list', ?_, hempty⟩
    rw [size, destroy, if_pos (by omega), tail, hremove, ok_bind]
    exact hdestroy

theorem insertNext_holds (h : list.Holds (l₁ ++ l₂)) (hne : list.memory.cells ne = none) (p : α) :
    ∃ list', list.insertNext (Memory.last l₁) p (some ne) = .ok (true, list') ∧
      list'.Holds (l₁ ++ (ne, p) :: l₂) := by
  have new := list.memory.live_stored ne p
  have anchor := (list.memory.store ne p).live_none
  have hlast := Memory.live_store h.memory.live_last ne p
  have hfirst := Memory.live_store h.memory.live_first ne p
  have apart := h.memory.first_ne_of_free hne
  refine ⟨⟨⟨(list.memory.links.join (some ne) (Memory.first l₂)).join (Memory.last l₁) (some ne),
    Function.update list.memory.cells ne (some p)⟩, list.size + 1⟩, ?_,
    Memory.holds_insert h.memory hne p, ?_⟩
  · by_cases hsize : list.size = 0
    · have empty : l₁ ++ l₂ = [] := by
        rw [← List.length_eq_zero_iff, ← h.size, hsize]
      obtain ⟨rfl, rfl⟩ := List.append_eq_nil_iff.mp empty
      simp only [insertNext, if_pos hsize, Memory.store]
      rw [deref_setNext anchor, ok_bind, deref_setPrev new, ok_bind, deref_setNext new, ok_bind,
        deref_setPrev anchor, ok_bind]
      have order := list.memory.links.join_join_self (Option.some_ne_none ne).symm
      exact congrArg (fun L => Except.ok (true, CurlLlist.mk ⟨L, _⟩ _)) order
    · have order := list.memory.links.join_join (a := Memory.last l₁) apart
      rw [← order]
      rcases List.eq_nil_or_concat l₁ with rfl | ⟨init, ⟨k, b⟩, rfl⟩
      · obtain ⟨⟨j, c⟩, rest, rfl⟩ : ∃ c rest, l₂ = c :: rest := by
          cases l₂ with
          | nil => exact absurd h.size hsize
          | cons c rest => exact ⟨c, rest, rfl⟩
        have hhead : list.head = some j := h.head
        rw [Memory.first_cons] at hfirst ⊢
        change list.insertNext none p (some ne) = _
        simp only [insertNext, if_neg hsize, hhead, notNull, Memory.store]
        rw [deref_setNext new, ok_bind, deref_setPrev new, ok_bind, ok_bind, deref_setPrev hfirst,
          ok_bind, deref_setNext anchor]
        rfl
      · rw [List.concat_eq_append] at h hlast ⊢
        rw [Memory.last_concat] at hlast ⊢
        have hnext := h.memory.next_last
        rw [Memory.last_concat] at hnext
        simp only [insertNext, if_neg hsize, Memory.store]
        rw [deref_next hlast, ok_bind]
        simp only [hnext]
        rw [deref_setNext new, ok_bind, deref_setPrev new, ok_bind, deref_setPrev hfirst, ok_bind,
          deref_setNext hlast]
        rfl
  · rw [List.length_append, List.length_cons]
    change list.size + 1 = _
    rw [h.size, List.length_append]
    rfl

end CurlLlist

end Synapi

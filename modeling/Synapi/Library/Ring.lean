import Mathlib.Data.List.Chain
import Mathlib.Data.List.Nodup

/-!
Doubly linked rings in a memory. A ring goes from an anchor through places that
are taken in and out, and back to the anchor.
-/

namespace Ring

variable {κ α : Type}

@[ext]
structure Links (κ : Type) where
  next : κ → κ
  prev : κ → κ

namespace Links

def Linked (L : Links κ) (a b : κ) : Prop := L.next a = b ∧ L.prev b = a

structure Through (L : Links κ) (s : κ) (l : List κ) : Prop where
  nodup : (s :: l).Nodup
  linked : (s :: (l ++ [s])).IsChain L.Linked

variable {L : Links κ} {s a b x : κ} {l l₁ l₂ m n : List κ}

/-! A place of the ring and its neighbours -/

theorem cons_eq_getLastD (s : κ) (l : List κ) : ∃ m, s :: l = m ++ [l.getLastD s] := by
  rcases List.eq_nil_or_concat l with rfl | ⟨init, z, rfl⟩
  · exact ⟨[], rfl⟩
  · refine ⟨s :: init, ?_⟩
    simp

theorem append_eq_headD (s : κ) (l : List κ) : ∃ n, l ++ [s] = l.headD s :: n := by
  cases l with
  | nil => exact ⟨[], rfl⟩
  | cons z l => exact ⟨l ++ [s], rfl⟩

/-- The two halves of a ring that is cut somewhere. -/
theorem Through.cut (h : L.Through s (l₁ ++ l₂)) : ∃ m n, s :: l₁ = m ++ [l₁.getLastD s] ∧
    l₂ ++ [s] = l₂.headD s :: n ∧ (m ++ [l₁.getLastD s]).IsChain L.Linked ∧
    L.Linked (l₁.getLastD s) (l₂.headD s) ∧ (l₂.headD s :: n).IsChain L.Linked := by
  obtain ⟨m, hm⟩ := cons_eq_getLastD s l₁
  obtain ⟨n, hn⟩ := append_eq_headD s l₂
  have linked := h.linked
  rw [List.append_assoc, ← List.cons_append, hm, hn, List.append_assoc, List.singleton_append,
    List.isChain_append_cons_cons] at linked
  exact ⟨m, n, hm, hn, linked⟩

theorem Through.next (h : L.Through s (l₁ ++ l₂)) : L.next (l₁.getLastD s) = l₂.headD s := by
  obtain ⟨m, n, -, -, -, link, -⟩ := h.cut
  exact link.1

theorem Through.prev (h : L.Through s (l₁ ++ l₂)) : L.prev (l₂.headD s) = l₁.getLastD s := by
  obtain ⟨m, n, -, -, -, link, -⟩ := h.cut
  exact link.2

theorem Through.next_at (h : L.Through s (l₁ ++ x :: l₂)) : L.next x = l₂.headD s := by
  rw [List.append_cons] at h
  have next := h.next
  rwa [List.getLastD_concat] at next

theorem Through.last_apart (h : L.Through s (l₁ ++ l₂)) (hm : s :: l₁ = m ++ [l₁.getLastD s]) :
    l₁.getLastD s ∉ m ∧ l₁.getLastD s ∉ l₂ := by
  have nodup := h.nodup
  rw [← List.cons_append, hm] at nodup
  obtain ⟨first, -, apart⟩ := List.nodup_append.mp nodup
  constructor
  · exact fun hmem => (List.nodup_append.mp first).2.2 _ hmem _ List.mem_cons_self rfl
  · exact fun hmem => apart _ (List.mem_append_right _ List.mem_cons_self) _ hmem rfl

theorem Through.head_apart (h : L.Through s (l₁ ++ l₂)) (hn : l₂ ++ [s] = l₂.headD s :: n) :
    l₂.headD s ∉ l₁ ∧ l₂.headD s ∉ n := by
  obtain ⟨hs, nodup⟩ := List.nodup_cons.mp h.nodup
  obtain ⟨-, second, apart⟩ := List.nodup_append.mp nodup
  rw [List.mem_append, not_or] at hs
  have around : (l₂ ++ [s]).Nodup := by
    refine List.nodup_append.mpr ⟨second, List.nodup_singleton s, ?_⟩
    rintro c hc d hd rfl
    rw [List.mem_singleton.mp hd] at hc
    exact hs.2 hc
  constructor
  · intro hmem
    cases l₂ with
    | nil => exact hs.1 hmem
    | cons c l₂ => exact apart c hmem c List.mem_cons_self rfl
  · rw [hn] at around
    exact (List.nodup_cons.mp around).1

theorem through_nil (hnext : L.next s = s) (hprev : L.prev s = s) : L.Through s [] :=
  ⟨List.nodup_singleton s, List.isChain_pair.mpr ⟨hnext, hprev⟩⟩

/-! Taking places in and out -/

variable [DecidableEq κ]

def setNext (L : Links κ) (a b : κ) : Links κ := { L with next := Function.update L.next a b }

def setPrev (L : Links κ) (a b : κ) : Links κ := { L with prev := Function.update L.prev a b }

@[simp]
theorem setNext_prev (L : Links κ) (a b : κ) : (L.setNext a b).prev = L.prev := rfl

@[simp]
theorem setPrev_self (L : Links κ) (a b : κ) : (L.setPrev a b).prev a = b := Function.update_self ..

@[simp]
theorem setPrev_of_ne (L : Links κ) (hx : x ≠ a) (b : κ) : (L.setPrev a b).prev x = L.prev x :=
  Function.update_of_ne hx ..

/-- `b` follows `a` from now on. -/
def join (L : Links κ) (a b : κ) : Links κ := (L.setNext a b).setPrev b a

/-- The order in which a place gets its four links does not matter. -/
theorem join_join (L : Links κ) (hb : b ≠ x) :
    (((L.setNext x b).setPrev x a).setPrev b x).setNext a x = (L.join x b).join a x :=
  Links.ext rfl (Function.update_comm hb _ _ _).symm

theorem join_join_self (L : Links κ) (hs : s ≠ x) :
    (((L.setNext s x).setPrev x s).setNext x s).setPrev s x = (L.join x s).join s x :=
  Links.ext (Function.update_comm hs _ _ _) (Function.update_comm hs.symm _ _ _)

theorem join_linked (L : Links κ) (a b : κ) : (L.join a b).Linked a b :=
  ⟨Function.update_self .., Function.update_self ..⟩

theorem Linked.join {c d : κ} (h : L.Linked c d) (hc : c ≠ a) (hd : d ≠ b) :
    (L.join a b).Linked c d :=
  ⟨(Function.update_of_ne hc ..).trans h.1, (Function.update_of_ne hd ..).trans h.2⟩

/-- A link leaves a chain alone in which `a` can only be the last place and `b`
only the first. -/
theorem isChain_join (h : l.IsChain L.Linked) (ha : a ∉ l.dropLast) (hb : b ∉ l.tail) :
    l.IsChain (L.join a b).Linked := by
  induction l with
  | nil => exact .nil
  | cons c l ih =>
    cases l with
    | nil => exact .singleton c
    | cons d l =>
      obtain ⟨hlink, hrest⟩ := List.isChain_cons_cons.mp h
      rw [List.dropLast_cons_cons, List.mem_cons, not_or] at ha
      refine List.isChain_cons_cons.mpr ⟨hlink.join (Ne.symm ha.1) ?_, ih hrest ha.2 ?_⟩
      · rintro rfl
        exact hb List.mem_cons_self
      · exact fun hm => hb (List.mem_cons_of_mem d hm)

theorem isChain_joined (hm : (m ++ [a]).IsChain L.Linked) (hn : (b :: n).IsChain L.Linked)
    (ham : a ∉ m) (han : a ∉ (b :: n).dropLast) (hbm : b ∉ (m ++ [a]).tail) (hbn : b ∉ n) :
    (m ++ a :: b :: n).IsChain (L.join a b).Linked := by
  rw [List.isChain_append_cons_cons]
  refine ⟨isChain_join hm ?_ hbm, L.join_linked a b, isChain_join hn han hbn⟩
  rwa [List.dropLast_concat]

theorem through_insert (h : L.Through s (l₁ ++ l₂)) (hx : x ∉ s :: (l₁ ++ l₂)) :
    ((L.join x (l₂.headD s)).join (l₁.getLastD s) x).Through s (l₁ ++ x :: l₂) := by
  obtain ⟨m, n, hm, hn, first, -, second⟩ := h.cut
  obtain ⟨ham, hal⟩ := h.last_apart hm
  obtain ⟨hbl, hbn⟩ := h.head_apart hn
  have places : x ∉ m ++ [l₁.getLastD s] ∧ x ∉ l₂ ∧ x ∉ l₂.headD s :: n := by
    rw [← hm, ← hn]
    simp only [List.mem_cons, List.mem_append, List.not_mem_nil, or_false, not_or] at hx ⊢
    exact ⟨⟨hx.1, hx.2.1⟩, hx.2.2, hx.2.2, hx.1⟩
  obtain ⟨hxm, hxl, hxn⟩ := places
  have inner : (l₂.headD s :: n).dropLast = l₂ := by rw [← hn, List.dropLast_concat]
  have outer : (m ++ [l₁.getLastD s]).tail = l₁ := by rw [← hm, List.tail_cons]
  constructor
  · have perm : (s :: (l₁ ++ x :: l₂)).Perm (x :: s :: (l₁ ++ l₂)) :=
      (List.perm_middle.cons s).trans (.swap x s _)
    rw [perm.nodup_iff, List.nodup_cons]
    exact ⟨hx, h.nodup⟩
  · rw [List.append_assoc, List.cons_append, ← List.cons_append, hm, hn, List.append_assoc,
      List.singleton_append]
    have tail : (x :: l₂.headD s :: n).IsChain (L.join x (l₂.headD s)).Linked :=
      isChain_joined (m := []) (.singleton x) second List.not_mem_nil
        (by rwa [inner]) List.not_mem_nil hbn
    refine isChain_joined (isChain_join first ?_ ?_) tail ham ?_ ?_ hxn
    · exact fun hmem => hxm (List.dropLast_subset _ hmem)
    · rwa [outer]
    · rw [List.dropLast_cons_cons, inner, List.mem_cons, not_or]
      refine ⟨?_, hal⟩
      intro hlast
      apply hxm
      rw [← hlast]
      exact List.mem_append_right _ List.mem_cons_self
    · exact fun hmem => hxm (List.mem_of_mem_tail hmem)

theorem through_unlink (h : L.Through s (l₁ ++ x :: l₂)) :
    (L.join (l₁.getLastD s) (l₂.headD s)).Through s (l₁ ++ l₂) := by
  obtain ⟨m, -, hm, -, first, -, -⟩ := h.cut
  obtain ⟨ham, hal⟩ := h.last_apart hm
  have later := h
  rw [List.append_cons] at later
  obtain ⟨-, n, -, hn, -, -, second⟩ := later.cut
  obtain ⟨hbl, hbn⟩ := later.head_apart hn
  constructor
  · have perm : (s :: (l₁ ++ x :: l₂)).Perm (x :: s :: (l₁ ++ l₂)) :=
      (List.perm_middle.cons s).trans (.swap x s _)
    have nodup := h.nodup
    rw [perm.nodup_iff, List.nodup_cons] at nodup
    exact nodup.2
  · rw [List.append_assoc, ← List.cons_append, hm, hn, List.append_assoc, List.singleton_append]
    refine isChain_joined first second ham ?_ ?_ hbn
    · rw [← hn, List.dropLast_concat]
      exact fun hmem => hal (List.mem_cons_of_mem x hmem)
    · rw [← hm, List.tail_cons]
      exact fun hmem => hbl (List.mem_append_left _ hmem)

end Links

/-! Cells in a memory -/

/-- The anchor of a ring of cells is `none`; it is no cell. -/
structure Memory (κ α : Type) where
  links : Links (Option κ)
  cells : κ → Option α

namespace Memory

def empty : Memory κ α := ⟨⟨fun _ => none, fun _ => none⟩, fun _ => none⟩

/-- Where a pointer into the ring may be followed. -/
def live (m : Memory κ α) : Option κ → Bool
  | none => true
  | some k => (m.cells k).isSome

def next (m : Memory κ α) (a : Option κ) : Option (Option κ) :=
  if m.live a then some (m.links.next a) else none

def prev (m : Memory κ α) (a : Option κ) : Option (Option κ) :=
  if m.live a then some (m.links.prev a) else none

/-- The first cell of the list, and the last. -/
def first (l : List (κ × α)) : Option κ := (l.map (some ∘ Prod.fst)).headD none

def last (l : List (κ × α)) : Option κ := (l.map (some ∘ Prod.fst)).getLastD none

def Stores (cells : κ → Option α) (l : List (κ × α)) : Prop := ∀ k a, cells k = some a ↔ (k, a) ∈ l

/-- The ring goes through these cells, and there are no others. -/
structure Holds (m : Memory κ α) (l : List (κ × α)) : Prop where
  through : m.links.Through none (l.map (some ∘ Prod.fst))
  stored : Stores m.cells l

variable {m : Memory κ α} {l l₁ l₂ : List (κ × α)} {k : κ} {a b : α}

@[simp]
theorem first_cons (k : κ) (a : α) (l : List (κ × α)) : first ((k, a) :: l) = some k := rfl

@[simp]
theorem last_concat (l : List (κ × α)) (k : κ) (a : α) : last (l ++ [(k, a)]) = some k := by
  rw [last, List.map_append]
  exact List.getLastD_concat

theorem last_cons (c : κ × α) (l : List (κ × α)) : ∃ k, last (c :: l) = some k := by
  obtain ⟨init, ⟨k, a⟩, hl⟩ := List.eq_nil_or_concat (c :: l) |>.resolve_left (List.cons_ne_nil c l)
  rw [hl, List.concat_eq_append, last_concat]
  exact ⟨k, rfl⟩

theorem live_none (m : Memory κ α) : m.live none = true := rfl

theorem holds_empty : (empty : Memory κ α).Holds [] :=
  ⟨Links.through_nil rfl rfl, fun _ _ => iff_of_false (fun h => nomatch h) List.not_mem_nil⟩

namespace Holds

theorem split (h : m.Holds (l₁ ++ l₂)) :
    m.links.Through none (l₁.map (some ∘ Prod.fst) ++ l₂.map (some ∘ Prod.fst)) := by
  rw [← List.map_append]
  exact h.through

theorem cell (h : m.Holds (l₁ ++ (k, a) :: l₂)) : m.cells k = some a :=
  (h.stored k a).mpr (List.mem_append_right _ List.mem_cons_self)

theorem keys_nodup (h : m.Holds l) : (l.map Prod.fst).Nodup := by
  have nodup := (List.nodup_cons.mp h.through.nodup).2
  rw [← List.map_map] at nodup
  exact nodup.of_map _

theorem keys_apart {c : κ × α} (h : m.Holds (c :: l₁ ++ (k, a) :: l₂)) : c.1 ≠ k := by
  have nodup := h.keys_nodup
  rw [List.cons_append, List.map_cons, List.nodup_cons] at nodup
  rintro rfl
  exact nodup.1 (List.mem_map.mpr ⟨(c.1, a), List.mem_append_right _ List.mem_cons_self, rfl⟩)

theorem first_ne_of_free (h : m.Holds (l₁ ++ l₂)) (hk : m.cells k = none) : first l₂ ≠ some k := by
  cases l₂ with
  | nil => exact Option.some_ne_none k ∘ Eq.symm
  | cons c l₂ =>
    intro heq
    have cell := h.cell
    rw [Option.some.inj heq, hk] at cell
    cases cell

theorem next_last (h : m.Holds (l₁ ++ l₂)) : m.links.next (last l₁) = first l₂ := h.split.next

theorem prev_first (h : m.Holds (l₁ ++ l₂)) : m.links.prev (first l₂) = last l₁ := h.split.prev

theorem next_cell (h : m.Holds (l₁ ++ (k, a) :: l₂)) : m.links.next (some k) = first l₂ :=
  Links.Through.next_at h.split

theorem prev_cell (h : m.Holds (l₁ ++ (k, a) :: l₂)) : m.links.prev (some k) = last l₁ :=
  h.prev_first

theorem live_last (h : m.Holds (l₁ ++ l₂)) : m.live (last l₁) = true := by
  rcases List.eq_nil_or_concat l₁ with rfl | ⟨init, ⟨k, a⟩, rfl⟩
  · rfl
  · rw [List.concat_eq_append, List.append_assoc] at h
    rw [List.concat_eq_append, last_concat, live, h.cell]
    rfl

theorem live_first (h : m.Holds (l₁ ++ l₂)) : m.live (first l₂) = true := by
  cases l₂ with
  | nil => rfl
  | cons c l₂ =>
    rw [first_cons, live, h.cell]
    rfl

end Holds

variable [DecidableEq κ]

def setNext (m : Memory κ α) (a b : Option κ) : Option (Memory κ α) :=
  if m.live a then some { m with links := m.links.setNext a b } else none

def setPrev (m : Memory κ α) (a b : Option κ) : Option (Memory κ α) :=
  if m.live a then some { m with links := m.links.setPrev a b } else none

def store (m : Memory κ α) (k : κ) (a : α) : Memory κ α :=
  { m with cells := Function.update m.cells k (some a) }

def release (m : Memory κ α) (k : κ) : Memory κ α :=
  { m with cells := Function.update m.cells k none }

@[simp]
theorem store_self (m : Memory κ α) (k : κ) (a : α) : (m.store k a).cells k = some a :=
  Function.update_self ..

theorem store_of_ne {j : κ} (m : Memory κ α) (hj : j ≠ k) (a : α) :
    (m.store k a).cells j = m.cells j :=
  Function.update_of_ne hj ..

theorem live_stored (m : Memory κ α) (k : κ) (a : α) : (m.store k a).live (some k) = true := by
  rw [live, store_self]
  rfl

theorem live_store {j : Option κ} (h : m.live j = true) (k : κ) (a : α) :
    (m.store k a).live j = true := by
  cases j with
  | none => rfl
  | some j =>
    by_cases hj : j = k
    · rw [hj]
      exact m.live_stored k a
    · rw [live, store_of_ne m hj]
      exact h

theorem stores_insert {cells : κ → Option α} (h : Stores cells (l₁ ++ l₂)) (hk : cells k = none)
    (a : α) : Stores (Function.update cells k (some a)) (l₁ ++ (k, a) :: l₂) := by
  intro j b
  rw [List.perm_middle.mem_iff, List.mem_cons]
  by_cases hj : j = k
  · subst hj
    rw [Function.update_self]
    constructor
    · rintro ⟨⟩
      exact .inl rfl
    · rintro (heq | hm)
      · cases heq
        rfl
      · rw [(h j b).mpr hm] at hk
        cases hk
  · rw [Function.update_of_ne hj, h j b]
    constructor
    · exact .inr
    · rintro (heq | hm)
      · cases heq
        exact absurd rfl hj
      · exact hm

theorem stores_remove {cells : κ → Option α} (h : Stores cells (l₁ ++ (k, a) :: l₂))
    (hkeys : ((l₁ ++ (k, a) :: l₂).map Prod.fst).Nodup) :
    Stores (Function.update cells k none) (l₁ ++ l₂) := by
  intro j b
  rw [List.map_append, List.map_cons, List.perm_middle.nodup_iff, List.nodup_cons,
    ← List.map_append] at hkeys
  by_cases hj : j = k
  · subst hj
    rw [Function.update_self]
    constructor
    · intro hnone
      cases hnone
    · exact fun hm => absurd (List.mem_map_of_mem hm) hkeys.1
  · rw [Function.update_of_ne hj, h j b, List.perm_middle.mem_iff, List.mem_cons]
    constructor
    · rintro (heq | hm)
      · cases heq
        exact absurd rfl hj
      · exact hm
    · exact .inr

theorem holds_insert (h : m.Holds (l₁ ++ l₂)) (hk : m.cells k = none) (a : α) :
    Holds ⟨(m.links.join (some k) (first l₂)).join (last l₁) (some k),
      Function.update m.cells k (some a)⟩ (l₁ ++ (k, a) :: l₂) := by
  refine ⟨?_, stores_insert h.stored hk a⟩
  rw [List.map_append, List.map_cons]
  apply Links.through_insert h.split
  rw [← List.map_append, List.mem_cons, not_or]
  refine ⟨Option.some_ne_none k, fun hm => ?_⟩
  obtain ⟨⟨j, b⟩, hb, hj⟩ := List.mem_map.mp hm
  cases hj
  exact Option.some_ne_none b (((h.stored j b).mpr hb).symm.trans hk)

theorem holds_remove (h : m.Holds (l₁ ++ (k, a) :: l₂)) :
    Holds ⟨m.links.join (last l₁) (first l₂), Function.update m.cells k none⟩ (l₁ ++ l₂) := by
  refine ⟨?_, stores_remove h.stored h.keys_nodup⟩
  rw [List.map_append]
  exact Links.through_unlink h.split

theorem holds_store (h : m.Holds (l₁ ++ (k, a) :: l₂)) (b : α) :
    (m.store k b).Holds (l₁ ++ (k, b) :: l₂) := by
  constructor
  · have through := h.through
    rw [List.map_append, List.map_cons] at through ⊢
    exact through
  · have stored := stores_insert (stores_remove h.stored h.keys_nodup) (Function.update_self ..) b
    rwa [Function.update_idem] at stored

end Memory

end Ring

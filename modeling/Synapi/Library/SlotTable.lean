import Mathlib.Data.List.ReduceOption
import Mathlib.Data.List.Nodup

/-!
Tables of a fixed number of slots, each empty or holding one value.
-/

structure SlotTable (α : Type) (n : ℕ) where
  slots : List (Option α)
  size_eq : slots.length = n

namespace SlotTable

variable {α β : Type} {n : ℕ}

def empty (α : Type) (n : ℕ) : SlotTable α n := ⟨List.replicate n none, by simp⟩

def slot (t : SlotTable α n) (k : ℕ) : Option (Option α) := t.slots[k]?

def put (t : SlotTable α n) (k : ℕ) (v : Option α) : SlotTable α n :=
  ⟨t.slots.set k v, by simp [t.size_eq]⟩

/-- Empty every slot whose value satisfies `p`. -/
def clear (t : SlotTable α n) (p : α → Bool) : SlotTable α n :=
  ⟨t.slots.map (Option.filter (fun a => !p a)), by simp [t.size_eq]⟩

def clearBelow (t : SlotTable α n) (p : α → Bool) (k : ℕ) : SlotTable α n :=
  ⟨t.slots.mapIdx (fun j v => if j < k then v.filter (fun a => !p a) else v), by simp [t.size_eq]⟩

def modify (t : SlotTable α n) (p : α → Bool) (f : α → α) : SlotTable α n :=
  ⟨t.slots.map (Option.map (fun a => if p a then f a else a)), by simp [t.size_eq]⟩

/-- The values in the table, in slot order. -/
def occupants (t : SlotTable α n) : List α := t.slots.reduceOption

def lowestFree (t : SlotTable α n) : Option ℕ := t.slots.findIdx? Option.isNone

def lowestUsed (t : SlotTable α n) : Option ℕ := t.slots.findIdx? Option.isSome

theorem ext_slots {t u : SlotTable α n} (h : t.slots = u.slots) : t = u := by
  cases t; cases u; cases h; rfl

/-! Slots -/

theorem ext_slot {t u : SlotTable α n} (h : ∀ k, t.slot k = u.slot k) : t = u :=
  ext_slots (List.ext_getElem? h)

theorem slot_lt {t : SlotTable α n} {k : ℕ} {v : Option α} (h : t.slot k = some v) : k < n := by
  obtain ⟨hk, -⟩ := List.getElem?_eq_some_iff.mp h
  simpa [t.size_eq] using hk

theorem slot_of_lt (t : SlotTable α n) {k : ℕ} (h : k < n) : ∃ v, t.slot k = some v :=
  ⟨t.slots.get ⟨k, by simpa [t.size_eq] using h⟩, List.getElem?_eq_getElem _⟩

theorem slot_empty {k : ℕ} (h : k < n) : (empty α n).slot k = some none := by
  simp [slot, empty, h]

theorem slot_put_self {t : SlotTable α n} {k : ℕ} (h : k < n) (v : Option α) :
    (t.put k v).slot k = some v := by
  simp [slot, put, t.size_eq, h]

theorem slot_put_ne {t : SlotTable α n} {j k : ℕ} (h : j ≠ k) (v : Option α) :
    (t.put k v).slot j = t.slot j := by
  simp [slot, put, List.getElem?_set_ne h.symm]

theorem slot_clear (t : SlotTable α n) (p : α → Bool) (k : ℕ) :
    (t.clear p).slot k = (t.slot k).map (Option.filter (fun a => !p a)) := by
  simp [slot, clear]

theorem slot_modify (t : SlotTable α n) (p : α → Bool) (f : α → α) (k : ℕ) :
    (t.modify p f).slot k = (t.slot k).map (Option.map (fun a => if p a then f a else a)) := by
  simp [slot, modify]

theorem slot_clearBelow (t : SlotTable α n) (p : α → Bool) (k j : ℕ) :
    (t.clearBelow p k).slot j =
      if j < k then (t.slot j).map (Option.filter (fun a => !p a)) else t.slot j := by
  simp only [slot, clearBelow, List.getElem?_mapIdx]
  split_ifs <;> simp

theorem clearBelow_zero (t : SlotTable α n) (p : α → Bool) : t.clearBelow p 0 = t := by
  apply ext_slot
  intro j
  simp [slot_clearBelow]

theorem clearBelow_all (t : SlotTable α n) (p : α → Bool) : t.clearBelow p n = t.clear p := by
  apply ext_slot
  intro j
  rw [slot_clearBelow, slot_clear]
  split_ifs with hj
  · rfl
  · have : t.slot j = none := List.getElem?_eq_none (by simpa [t.size_eq] using hj)
    simp [this]

theorem clearBelow_hit {t : SlotTable α n} {p : α → Bool} {k : ℕ} {a : α}
    (h : t.slot k = some (some a)) (ha : p a = true) :
    (t.clearBelow p k).put k none = t.clearBelow p (k + 1) := by
  apply ext_slot
  intro j
  rw [slot_clearBelow]
  by_cases hj : j = k
  · subst hj
    simp [slot_put_self (slot_lt h), h, ha, Option.filter]
  · rw [slot_put_ne hj, slot_clearBelow]
    split_ifs <;> first | rfl | omega

theorem clearBelow_miss {t : SlotTable α n} {p : α → Bool} {k : ℕ} {v : Option α}
    (h : t.slot k = some v) (hv : ∀ a, v = some a → p a = false) :
    t.clearBelow p k = t.clearBelow p (k + 1) := by
  apply ext_slot
  intro j
  rw [slot_clearBelow, slot_clearBelow]
  by_cases hj : j = k
  · subst hj
    cases v with
    | none => simp [h]
    | some a => simp [h, hv a rfl, Option.filter]
  · split_ifs <;> first | rfl | omega

theorem put_same {t : SlotTable α n} {k : ℕ} {v : Option α} (h : t.slot k = some v) :
    t.put k v = t := by
  obtain ⟨hk, hv⟩ := List.getElem?_eq_some_iff.mp h
  exact ext_slots (by simp [put, ← hv])

theorem slots_split {t : SlotTable α n} {k : ℕ} {v : Option α} (h : t.slot k = some v) :
    ∃ lower upper, t.slots = lower ++ v :: upper ∧ lower.length = k := by
  obtain ⟨hk, hv⟩ := List.getElem?_eq_some_iff.mp h
  refine ⟨t.slots.take k, t.slots.drop (k + 1), ?_, by simp; omega⟩
  rw [← hv, List.getElem_cons_drop, List.take_append_drop]

/-! Occupants -/

theorem mem_occupants {t : SlotTable α n} {a : α} :
    a ∈ t.occupants ↔ ∃ k, t.slot k = some (some a) := by
  rw [occupants, List.reduceOption_mem_iff, List.mem_iff_getElem?]
  rfl

theorem occupants_empty : (empty α n).occupants = [] := by
  simp [occupants, empty, List.reduceOption_replicate_none]

theorem occupants_length_le (t : SlotTable α n) : t.occupants.length ≤ n :=
  Nat.le_trans (List.reduceOption_length_le t.slots) (Nat.le_of_eq t.size_eq)

theorem occupants_put_perm {t : SlotTable α n} {k : ℕ} (h : t.slot k = some none) (a : α) :
    (t.put k (some a)).occupants.Perm (a :: t.occupants) := by
  obtain ⟨lower, upper, hs, rfl⟩ := slots_split h
  simp only [occupants, put, hs, List.set_append_right _ _ (Nat.le_refl _), Nat.sub_self,
    List.set_cons_zero, List.reduceOption_append, List.reduceOption_cons_of_some,
    List.reduceOption_cons_of_none]
  exact List.perm_middle

theorem occupants_put_last {t : SlotTable α n} {k : ℕ} (h : t.slot k = some none)
    (above : ∀ j, k < j → j < n → t.slot j = some none) (a : α) :
    (t.put k (some a)).occupants = t.occupants ++ [a] := by
  obtain ⟨lower, upper, hs, rfl⟩ := slots_split h
  have none_above : upper.reduceOption = [] := by
    rw [List.reduceOption_eq_nil_iff]
    refine ⟨upper.length, List.eq_replicate_iff.mpr ⟨rfl, fun v hv => ?_⟩⟩
    obtain ⟨j, hj, rfl⟩ := List.mem_iff_getElem.mp hv
    have hn : lower.length + (upper.length + 1) = n := by
      simpa [hs] using t.size_eq
    have := above (lower.length + 1 + j) (by omega) (by omega)
    simp only [slot, hs] at this
    rw [List.getElem?_append_right (by omega),
      show lower.length + 1 + j - lower.length = j + 1 by omega] at this
    simpa [hj] using this
  simp only [occupants, put, hs, List.set_append_right _ _ (Nat.le_refl _), Nat.sub_self,
    List.set_cons_zero, List.reduceOption_append, List.reduceOption_cons_of_some,
    List.reduceOption_cons_of_none, none_above, List.append_nil]

theorem occupants_clear (t : SlotTable α n) (p : α → Bool) :
    (t.clear p).occupants = t.occupants.filter (fun a => !p a) := by
  simp only [occupants, clear]
  induction t.slots with
  | nil => rfl
  | cons v vs ih =>
    cases v with
    | none => simpa [List.reduceOption_cons_of_none] using ih
    | some a =>
      cases hp : p a <;>
        simp [hp, Option.filter, List.reduceOption_cons_of_some, List.reduceOption_cons_of_none, ih]

theorem occupants_clear_one {t : SlotTable α n} {p : α → Bool} {key : α → β}
    (hn : (t.occupants.map key).Nodup) {a : α} (hp : ∀ b, p b = true ↔ key b = key a)
    (lower upper : List α) (hs : t.occupants = lower ++ a :: upper) :
    (t.clear p).occupants = lower ++ upper := by
  rw [hs, List.map_append, List.map_cons, List.nodup_middle, List.nodup_cons] at hn
  have apart : ∀ b ∈ lower ++ upper, (!p b) = true := by
    intro b hb
    rw [Bool.not_eq_true', ← Bool.not_eq_true, hp b]
    intro hk
    apply hn.1
    rw [← hk, ← List.map_append]
    exact List.mem_map_of_mem hb
  rw [occupants_clear, hs, List.filter_append, List.filter_cons_of_neg (by simp [(hp a).mpr rfl]),
    List.filter_eq_self.mpr (fun b hb => apart b (List.mem_append_left _ hb)),
    List.filter_eq_self.mpr (fun b hb => apart b (List.mem_append_right _ hb))]

theorem slot_unique {t : SlotTable α n} {key : α → Option β} (hn : (t.occupants.filterMap key).Nodup)
    {j k : ℕ} {a b : α} {x : β} (hj : t.slot j = some (some a)) (hk : t.slot k = some (some b))
    (ha : key a = some x) (hb : key b = some x) : j = k := by
  have apart {i l : ℕ} {c d : α} (hi : t.slot i = some (some c)) (hl : t.slot l = some (some d))
      (hc : key c = some x) (hd : key d = some x) : ¬ i < l := by
    intro hil
    obtain ⟨lower, upper, hs, rfl⟩ := slots_split hl
    have hm : c ∈ lower.reduceOption := by
      rw [List.reduceOption_mem_iff, List.mem_iff_getElem?]
      exact ⟨i, by simpa [slot, hs, List.getElem?_append_left hil] using hi⟩
    rw [occupants, hs, List.reduceOption_append, List.reduceOption_cons_of_some,
      List.filterMap_append, List.filterMap_cons_some hd] at hn
    exact (List.nodup_append.mp hn).2.2 x (List.mem_filterMap.mpr ⟨c, hm, hc⟩) x
      List.mem_cons_self rfl
  have := apart hj hk ha hb
  have := apart hk hj hb ha
  omega

theorem modify_put_self {t : SlotTable α n} {k : ℕ} (hk : k < n) {p : α → Bool} {a : α}
    (f : α → α) (ha : p a = true) (fresh : ∀ b ∈ t.occupants, p b = false) :
    (t.put k (some a)).modify p f = t.put k (some (f a)) := by
  apply ext_slot
  intro j
  rw [slot_modify]
  by_cases hj : j = k
  · subst hj
    simp [slot_put_self hk, ha]
  · rw [slot_put_ne hj, slot_put_ne hj]
    cases hv : t.slot j with
    | none => rfl
    | some v =>
      cases v with
      | none => rfl
      | some b => simp [fresh b (mem_occupants.mpr ⟨j, hv⟩)]

/-! The lowest free and the lowest used slot -/

theorem lowestFree_some {t : SlotTable α n} {k : ℕ} (h : t.lowestFree = some k) :
    k < n ∧ t.slot k = some none ∧ ∀ j < k, ∃ a, t.slot j = some (some a) := by
  obtain ⟨hk, hv, below⟩ := List.findIdx?_eq_some_iff_getElem.mp h
  have hs : t.slot k = some none := by
    rw [slot, List.getElem?_eq_getElem hk, Option.isNone_iff_eq_none.mp hv]
  refine ⟨slot_lt hs, hs, fun j hj => ?_⟩
  have hu := below j hj
  simp only [Option.isNone_iff_eq_none, ← Option.isSome_iff_ne_none,
    Option.isSome_iff_exists] at hu
  obtain ⟨a, ha⟩ := hu
  exact ⟨a, by rw [slot, List.getElem?_eq_getElem (by omega), ha]⟩

theorem lowestFree_none {t : SlotTable α n} (h : t.lowestFree = none) {j : ℕ} (hj : j < n) :
    ∃ a, t.slot j = some (some a) := by
  obtain ⟨v, hv⟩ := t.slot_of_lt hj
  have := List.findIdx?_eq_none_iff.mp h v (List.mem_of_getElem? hv)
  obtain ⟨a, rfl⟩ := Option.isSome_iff_exists.mp (by simpa [Option.isSome_iff_ne_none] using this)
  exact ⟨a, hv⟩

theorem lowestFree_eq_none_iff (t : SlotTable α n) : t.lowestFree = none ↔ t.occupants.length = n := by
  have count := List.length_eq_reduceOption_length_add_filter_none (l := t.slots)
  rw [t.size_eq] at count
  rw [lowestFree, List.findIdx?_eq_none_iff, occupants]
  constructor
  · intro h
    have : t.slots.filter Option.isNone = [] :=
      List.filter_eq_nil_iff.mpr (fun v hv => by simp [h v hv])
    simpa [this] using count.symm
  · intro h v hv
    have : t.slots.filter Option.isNone = [] := List.eq_nil_of_length_eq_zero (by omega)
    simpa [Option.isSome_iff_ne_none] using List.filter_eq_nil_iff.mp this v hv

theorem lowestUsed_some {t : SlotTable α n} {k : ℕ} (h : t.lowestUsed = some k) :
    k < n ∧ (∃ a, t.slot k = some (some a)) ∧ ∀ j < k, t.slot j = some none := by
  obtain ⟨hk, hv, below⟩ := List.findIdx?_eq_some_iff_getElem.mp h
  obtain ⟨a, ha⟩ := Option.isSome_iff_exists.mp hv
  have hs : t.slot k = some (some a) := by rw [slot, List.getElem?_eq_getElem hk, ha]
  refine ⟨slot_lt hs, ⟨a, hs⟩, fun j hj => ?_⟩
  have hu := below j hj
  simp only [Bool.not_eq_true, Option.isSome_eq_false_iff, Option.isNone_iff_eq_none] at hu
  rw [slot, List.getElem?_eq_getElem (by omega), hu]

theorem lowestUsed_none {t : SlotTable α n} (h : t.lowestUsed = none) {j : ℕ} (hj : j < n) :
    t.slot j = some none := by
  obtain ⟨v, hv⟩ := t.slot_of_lt hj
  have := List.findIdx?_eq_none_iff.mp h v (List.mem_of_getElem? hv)
  rw [hv, Option.isSome_eq_false_iff.mp this |> Option.isNone_iff_eq_none.mp]

theorem occupants_of_lowestUsed {t : SlotTable α n} {k : ℕ} {a : α} (h : t.lowestUsed = some k)
    (hk : t.slot k = some (some a)) : ∃ rest, t.occupants = a :: rest := by
  obtain ⟨-, -, below⟩ := lowestUsed_some h
  obtain ⟨lower, upper, hs, rfl⟩ := slots_split hk
  refine ⟨upper.reduceOption, ?_⟩
  have none_below : lower.reduceOption = [] := by
    rw [List.reduceOption_eq_nil_iff]
    refine ⟨lower.length, List.eq_replicate_iff.mpr ⟨rfl, fun v hv => ?_⟩⟩
    obtain ⟨j, hj, rfl⟩ := List.mem_iff_getElem.mp hv
    have := below j hj
    simpa [slot, hs, List.getElem?_append_left hj, hj] using this
  rw [occupants, hs, List.reduceOption_append, none_below, List.reduceOption_cons_of_some,
    List.nil_append]

end SlotTable

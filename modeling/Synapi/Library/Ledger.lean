import Mathlib.Data.List.Perm.Basic
import Mathlib.Data.List.Nodup

/-!
Books of the objects a program creates, releases and holds: each is created
once, and what was created has been released or is held.
-/

structure Ledger {α : Type} (created released held : List α) : Prop where
  balance : created.Perm (released ++ held)
  distinct : created.Nodup

namespace Ledger

variable {α : Type} {created released held : List α}

theorem nodup (h : Ledger created released held) : (released ++ held).Nodup :=
  h.balance.nodup_iff.mp h.distinct

theorem released_once (h : Ledger created released held) : released.Nodup :=
  (List.nodup_append.mp h.nodup).1

theorem held_apart (h : Ledger created released held) {x : α} (hx : x ∈ held) : x ∉ released :=
  fun hr => (List.nodup_append.mp h.nodup).2.2 x hr x hx rfl

theorem held_created (h : Ledger created released held) {x : α} (hx : x ∈ held) : x ∈ created :=
  h.balance.mem_iff.mpr (List.mem_append_right _ hx)

theorem released_all_iff (h : Ledger created released held) :
    (∀ x ∈ created, x ∈ released) ↔ held = [] := by
  constructor
  · intro hall
    refine List.eq_nil_iff_forall_not_mem.mpr (fun x hx => ?_)
    exact h.held_apart hx (hall x (h.held_created hx))
  · rintro rfl x hx
    have := h.balance.mem_iff.mp hx
    rwa [List.append_nil] at this

theorem step (h : Ledger created released held) {made gone held' : List α} (hnew : made.Nodup)
    (hfresh : ∀ x ∈ made, x ∉ created) (hmoves : (gone ++ held').Perm (held ++ made)) :
    Ledger (created ++ made) (released ++ gone) held' := by
  constructor
  · apply (h.balance.append_right made).trans
    rw [List.append_assoc, List.append_assoc]
    exact hmoves.symm.append_left released
  · refine List.nodup_append.mpr ⟨h.distinct, hnew, fun x hx y hy hxy => ?_⟩
    rw [hxy] at hx
    exact hfresh y hy hx

end Ledger

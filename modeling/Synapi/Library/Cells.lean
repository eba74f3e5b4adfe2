import Synapi.Library.Text
import Mathlib.Data.List.ReduceOption

/-!
Memory whose bytes may not have been written yet. An operation that would write
outside it, or read a byte nobody has written, has no result.
-/

/-- `new` in place of what stands from index `i` on. -/
def overlay {α : Type} (l : List α) (i : ℕ) (new : List α) : Option (List α) :=
  if i + new.length ≤ l.length then some (l.take i ++ new ++ l.drop (i + new.length)) else none

abbrev Cells := List (Option UInt8)

theorem overlay_append {α : Type} (l : List α) {new rest : List α}
    (h : new.length ≤ rest.length) : overlay (l ++ rest) l.length new = some (l ++ (new ++ rest.drop new.length)) := by
  have tail : (l ++ rest).drop (l.length + new.length) = rest.drop new.length := by
    rw [← List.drop_drop, List.drop_left]
  rw [overlay, if_pos (by rw [List.length_append]; omega), List.take_left, tail,
    List.append_assoc]

namespace Cells

def unwritten (n : ℕ) : Cells := List.replicate n none

def overwrite (cells : Cells) (bytes : Bytes) : Option Cells :=
  if bytes.length ≤ cells.length then some (bytes.map some ++ cells.drop bytes.length) else none

def store (cells : Cells) (i : ℕ) (bytes : Bytes) : Option Cells :=
  overlay cells i (bytes.map some)

/-- `realloc` to `n` bytes. -/
def resize (cells : Cells) (n : ℕ) : Cells := cells.take n ++ unwritten (n - cells.length)

def read (cells : Cells) : Option CString :=
  let written := (cells.takeWhile Option.isSome).reduceOption
  if 0 ∈ written then some ⟨cstr written, zero_notMem_cstr written⟩ else none

/-- `snprintf(cells, n, "%s", s)`. -/
def snprintf (cells : Cells) (n : ℕ) (s : Bytes) : Option Cells :=
  if n = 0 then some cells else cells.overwrite (Text.snprintf n s ++ [0])

theorem overwrite_some {cells : Cells} {bytes : Bytes} (h : bytes.length ≤ cells.length) :
    cells.overwrite bytes = some (bytes.map some ++ cells.drop bytes.length) := if_pos h

/-- What is stored right after the text becomes part of it. -/
theorem store_append {text bytes : Bytes} {rest : Cells} (h : bytes.length ≤ rest.length) :
    store (text.map some ++ rest) text.length bytes =
      some ((text ++ bytes).map some ++ rest.drop bytes.length) := by
  have room : (bytes.map some).length ≤ rest.length := by simpa using h
  have written := overlay_append (text.map some) room
  rw [List.length_map, List.length_map] at written
  rw [store, written, List.map_append, List.append_assoc]

theorem resize_append {text : Bytes} {rest : Cells} {n : ℕ}
    (h : text.length + rest.length ≤ n) :
    ∃ more, resize (text.map some ++ rest) n = text.map some ++ more ∧
      text.length + more.length = n := by
  refine ⟨rest ++ unwritten (n - (text.map some ++ rest).length), ?_, ?_⟩
  · rw [resize, List.take_of_length_le (by simpa using h), List.append_assoc]
  · simp only [unwritten, List.length_append, List.length_map, List.length_replicate]
    omega

theorem read_terminated {s : Bytes} (h : 0 ∉ s) (rest : Cells) :
    read ((s ++ [0]).map some ++ rest) = some ⟨s, h⟩ := by
  have all : ∀ c ∈ (s ++ [0]).map some, Option.isSome c = true := by
    intro c hc
    obtain ⟨b, -, rfl⟩ := List.mem_map.mp hc
    rfl
  have written : (((s ++ [0]).map some ++ rest).takeWhile Option.isSome).reduceOption =
      s ++ 0 :: (rest.takeWhile Option.isSome).reduceOption := by
    rw [List.takeWhile_append_of_pos all, List.reduceOption_append, List.reduceOption, List.filterMap_map]
    change (s ++ [0]).filterMap some ++ _ = _
    rw [List.filterMap_some, List.append_assoc, List.singleton_append]
  have held : (0 : UInt8) ∈ s ++ 0 :: (rest.takeWhile Option.isSome).reduceOption :=
    List.mem_append_right _ List.mem_cons_self
  unfold read
  simp only [written, if_pos held, cstr_append_zero h]

end Cells

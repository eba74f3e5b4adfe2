import Synapi.KeyCopy
import Synapi.StringFields

/-!
When a plugin gets the whole key that its array has room for.
-/

namespace Synapi

open Runs Text

variable {p : ℤ} {C : World p → Call → Prop} {a : CharArray 256} {array : Cells} {length : Int32}

/-- `array` is the memory the call may write, the first `length` bytes. -/
def HandsOut (a : CharArray 256) (array : Cells) (length : Int32) : Prop :=
  ∃ array', copyApiKey (some a) array length = .ok array' ∧
    (0 < length.toInt → ∃ s, array'.read = some s ∧ s.val = a.str.take (length.toInt - 1).toNat)

theorem toUInt32_toNat (length : Int32) : (length.toUInt32.toNat : ℤ) =
    if 0 ≤ length.toInt then length.toInt else length.toInt + 2 ^ 32 := by
  have hn := length.toBitVec.toInt_eq_toNat_cond
  have hlt := length.toBitVec.isLt
  change (length.toBitVec.toNat : ℤ) =
    if 0 ≤ length.toBitVec.toInt then length.toBitVec.toInt else length.toBitVec.toInt + 2 ^ 32
  split_ifs at hn ⊢ <;> omega

theorem copySize_nonneg (h : 0 ≤ length.toInt) : (copySize length : ℤ) = min length.toInt 256 := by
  have same := toUInt32_toNat length
  rw [if_pos h] at same
  unfold copySize
  simp only
  split_ifs <;> omega

theorem copySize_negative (h : length.toInt < 0) : copySize length = 256 := by
  have wrapped := toUInt32_toNat length
  have hl := length.le_toInt
  rw [if_neg (Int.not_le.mpr h)] at wrapped
  unfold copySize
  simp only
  rw [if_pos (by omega)]

theorem copyApiKey_zero (ha : a.Terminated) (h : copySize length = 0) :
    copyApiKey (some a) array length = .error .outOfBounds := by
  have bound : copyBound length = 2 ^ 32 - 1 := if_pos h
  have full : (Cells.unwritten 0).snprintf (2 ^ 32 - 1) a.str = none := by
    rw [Cells.snprintf, if_neg (by decide), Cells.overwrite, if_neg]
    rw [List.length_append, List.length_singleton]
    exact Nat.not_succ_le_zero _
  rw [copyApiKey]
  simp only [CharArray.read_of_terminated ha, inBounds, ok_bind, bound, h, full]
  rfl

theorem copyApiKey_one (ha : a.Terminated) (h : copySize length = 1) :
    copyApiKey (some a) array length = .ok array := by
  have bound : copyBound length = 0 := by rw [copyBound, h, if_neg (by decide)]
  rw [copyApiKey]
  simp only [CharArray.read_of_terminated ha, inBounds, ok_bind, bound, Cells.snprintf, stringToLocal,
    if_true]

theorem handsOut_one_iff (ha : a.Terminated) (harray : array.length = 1) (h : length.toInt = 1) :
    HandsOut a array length ↔ array = [some 0] := by
  have size : copySize length = 1 := by
    have := copySize_nonneg (show 0 ≤ length.toInt by omega)
    omega
  obtain ⟨cell, rfl⟩ := List.length_eq_one_iff.mp harray
  rw [HandsOut, copyApiKey_one ha size, h]
  constructor
  · rintro ⟨array', hcopy, hread⟩
    rw [← Except.ok.inj hcopy] at hread
    obtain ⟨s, hread, -⟩ := hread (by decide)
    cases cell with
    | none => cases hread
    | some b =>
      by_cases hb : b = 0
      · rw [hb]
      · have unended : Cells.read [some b] = none := by
          simp [Cells.read, List.reduceOption, Ne.symm hb]
        rw [unended] at hread
        cases hread
  · intro hcell
    rw [hcell]
    exact ⟨_, rfl, fun _ => ⟨⟨[], List.not_mem_nil⟩, rfl, rfl⟩⟩

theorem handsOut_room_iff (ha : a.Terminated) (harray : array.length = length.toInt.toNat)
    (h : 2 ≤ length.toInt) :
    HandsOut a array length ↔ (a.str.length + 2 : ℤ) ≤ min length.toInt 256 := by
  have size := copySize_nonneg (show 0 ≤ length.toInt by omega)
  have clean : 0 ∉ a.str.take (copySize length - 2) :=
    fun h => zero_notMem_cstr _ (List.mem_of_mem_take h)
  have room : (a.str.take (copySize length - 2) ++ [0]).length ≤ array.length := by
    rw [List.length_append, List.length_take, List.length_singleton]
    omega
  have hlt := CharArray.str_length_lt ha
  rw [HandsOut, copyApiKey_ok ha array (by omega), Cells.overwrite_some room, inBounds]
  constructor
  · rintro ⟨array', hcopy, hread⟩
    obtain ⟨s, hread, hs⟩ := hread (by omega)
    rw [← Except.ok.inj hcopy, Cells.read_terminated clean] at hread
    obtain rfl := Option.some.inj hread
    have same := congrArg List.length hs
    rw [List.length_take, List.length_take] at same
    omega
  · intro hfit
    refine ⟨_, rfl, fun _ => ⟨_, Cells.read_terminated clean _, ?_⟩⟩
    change a.str.take (copySize length - 2) = _
    rw [List.take_of_length_le (by omega), List.take_of_length_le (by omega)]

/-- Two bytes of the length are lost, a length of one writes nothing, and the
lengths below that leave the buffer or the array. -/
theorem handsOut_iff (ha : a.Terminated) (harray : array.length = length.toInt.toNat) :
    HandsOut a array length ↔ (length.toInt = 1 ∧ array = [some 0]) ∨
      (2 ≤ length.toInt ∧ (a.str.length + 2 : ℤ) ≤ min length.toInt 256) := by
  by_cases hroom : 2 ≤ length.toInt
  · rw [handsOut_room_iff ha harray hroom]
    omega
  by_cases hone : length.toInt = 1
  · rw [handsOut_one_iff ha (by omega) hone]
    constructor
    · exact fun h => .inl ⟨hone, h⟩
    · rintro (⟨-, h⟩ | ⟨h, -⟩)
      · exact h
      · exact absurd h hroom
  refine iff_of_false ?_ (by omega)
  rintro ⟨array', hcopy, -⟩
  by_cases hzero : length.toInt = 0
  · have size := copySize_nonneg (show 0 ≤ length.toInt by omega)
    rw [copyApiKey_zero ha (by omega)] at hcopy
    cases hcopy
  · have size := copySize_negative (show length.toInt < 0 by omega)
    have empty : array = [] := List.eq_nil_of_length_eq_zero (by omega)
    rw [copyApiKey_ok ha array (by omega), Cells.overwrite, if_neg] at hcopy
    · cases hcopy
    · rw [empty, List.length_append, List.length_singleton]
      exact Nat.not_succ_le_zero _

theorem key_handed_out_iff {w : World p} (hw : Reachable w)
    (harray : array.length = length.toInt.toNat) :
    HandsOut w.handle.apiKey array length ↔ (length.toInt = 1 ∧ array = [some 0]) ∨
      (2 ≤ length.toInt ∧ (w.handle.apiKey.str.length + 2 : ℤ) ≤ min length.toInt 256) :=
  handsOut_iff (reachable_stringsEnd hw).apiKey harray

theorem key_handed_out_plugin : ∃ w : World 1, Reachable w ∧
    HandsOut w.handle.apiKey (Cells.unwritten 255) 255 := by
  have run : ∃ w ∈ trial (p := 1) (fun _ _ => True) (some (literal "SYN:S:1:ab")) [],
      w.handle.apiKey.str.length = 10 := by
    decide +kernel
  obtain ⟨w, hw, hlength⟩ := trial_exists run
  refine ⟨w, hw, (key_handed_out_iff hw List.length_replicate).mpr (.inr ⟨by decide, ?_⟩)⟩
  rw [hlength]
  decide

theorem exact_fit_cut : ∃ w : World 1, Reachable w ∧ w.handle.apiKey.str = ascii "SYN:S:1:ab" ∧
    ¬ HandsOut w.handle.apiKey (Cells.unwritten 11) 11 := by
  have run : ∃ w ∈ trial (p := 1) (fun _ _ => True) (some (literal "SYN:S:1:ab")) [],
      w.handle.apiKey.str = ascii "SYN:S:1:ab" := by
    decide +kernel
  obtain ⟨w, hw, hkey⟩ := trial_exists run
  refine ⟨w, hw, hkey, ?_⟩
  have room : (Cells.unwritten 11).length = (Int32.toInt 11).toNat := List.length_replicate
  rw [handsOut_iff (reachable_stringsEnd hw).apiKey room, hkey]
  decide

end Synapi

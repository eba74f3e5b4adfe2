import Synapi.World
import Synapi.Library.Runs
import Synapi.Library.Cells

/-!
How `sm_synapi_get_api_key` copies the key into an array of the plugin.
-/

namespace Synapi

open Runs

-- The cell is converted to `unsigned int`, which nothing clamps from below.
def copySize (length : Int32) : ℕ :=
  let size := length.toUInt32.toNat
  if 256 < size then 256 else size

-- `size - 1` as an `unsigned int`.
def copyBound (length : Int32) : ℕ :=
  if copySize length = 0 then 2 ^ 32 - 1 else copySize length - 1

/-- SourceMod's `StringToLocal`, onto the cells of the plugin's array. -/
def stringToLocal (array : Cells) (bytes : ℕ) (source : Cells) : Except Fault Cells :=
  if bytes = 0 then .ok array
  else do
    let s ← inBounds source.read
    inBounds (array.overwrite (s.val.take (bytes - 1) ++ [0]))

/-- The array after the call; `apiKey` is the key of `g_synapi.handle`. -/
def copyApiKey (apiKey : Option (CharArray 256)) (array : Cells) (length : Int32) :
    Except Fault Cells := do
  let buffer := Cells.unwritten (copySize length)
  match apiKey with
  | some a =>
    let key ← inBounds a.read
    let buffer ← inBounds (buffer.snprintf (copyBound length) key)
    stringToLocal array (copyBound length) buffer
  | none => .ok array

theorem stringToLocal_terminated {s : Bytes} (hs : 0 ∉ s) (array rest : Cells) {bytes : ℕ}
    (h : bytes ≠ 0) : stringToLocal array bytes ((s ++ [0]).map some ++ rest) =
      inBounds (array.overwrite (s.take (bytes - 1) ++ [0])) := by
  rw [stringToLocal, if_neg h, Cells.read_terminated hs]
  rfl

/-- Both copies leave out a byte, so two bytes less than the size are left. -/
theorem copyApiKey_ok {a : CharArray 256} (ha : a.Terminated) (array : Cells) {length : Int32}
    (h : 2 ≤ copySize length) :
    copyApiKey (some a) array length =
      inBounds (array.overwrite (a.str.take (copySize length - 2) ++ [0])) := by
  have bound : copyBound length = copySize length - 1 := if_neg (by omega)
  have less : copySize length - 1 - 1 = copySize length - 2 := by omega
  have clean : 0 ∉ a.str.take (copySize length - 2) :=
    fun h => zero_notMem_cstr _ (List.mem_of_mem_take h)
  have room : (a.str.take (copySize length - 2) ++ [0]).length ≤
      (Cells.unwritten (copySize length)).length := by
    simp only [Cells.unwritten, List.length_append, List.length_take, List.length_singleton,
      List.length_replicate]
    omega
  have buffer : (Cells.unwritten (copySize length)).snprintf (copyBound length) a.str =
      some ((a.str.take (copySize length - 2) ++ [0]).map some ++ (Cells.unwritten
        (copySize length)).drop (a.str.take (copySize length - 2) ++ [0]).length) := by
    rw [Cells.snprintf, bound, if_neg (by omega), Text.snprintf, less, Cells.overwrite_some room]
  rw [copyApiKey]
  simp only [CharArray.read_of_terminated ha, inBounds, ok_bind, buffer]
  rw [bound, stringToLocal_terminated clean _ _ (by omega), less, List.take_take, Nat.min_self]
  rfl

end Synapi

import Synapi.Library.CharArray
import Mathlib.Algebra.Group.Int.Defs
import Mathlib.Algebra.Group.Nat.Defs

/-!
Text as bytes: literals, and integers as `printf` writes them for `%d`.
-/

namespace Text

def byteOf (c : Char) : UInt8 := UInt8.ofNat c.toNat

def ascii (s : String) : Bytes := s.toList.map byteOf

def decimal (z : ℤ) : Bytes :=
  let digits := (Nat.toDigits 10 z.natAbs).map byteOf
  if z < 0 then byteOf '-' :: digits else digits

/-- `snprintf` into `size` bytes: what does not fit before the NUL is cut. -/
def snprintf (size : ℕ) (text : Bytes) : Bytes := text.take (size - 1)

/-- `strncat` onto the text in a buffer of `size` bytes. -/
def strncat (size : ℕ) (text src : Bytes) (k : ℕ) : Option Bytes :=
  if (text ++ src.take k).length < size then some (text ++ src.take k) else none

theorem ofNat_byteOf {c : Char} (h : c.toNat < 256) : Char.ofNat (byteOf c).toNat = c := by
  rw [byteOf, UInt8.toNat_ofNat', Nat.mod_eq_of_lt (by omega)]
  exact Char.ofNat_toNat c

theorem digit_range {n : ℕ} {c : Char} (h : c ∈ Nat.toDigits 10 n) : 48 ≤ c.toNat ∧ c.toNat ≤ 57 :=
  Char.isDigit_iff_toNat.mp (Nat.isDigit_of_mem_toDigits (by omega) (by omega) h)

theorem digits_injective {m n : ℕ}
    (h : (Nat.toDigits 10 m).map byteOf = (Nat.toDigits 10 n).map byteOf) : m = n := by
  have undo (k : ℕ) : ((Nat.toDigits 10 k).map byteOf).map (fun b => Char.ofNat b.toNat) =
      Nat.toDigits 10 k := by
    rw [List.map_map]
    refine (List.map_congr_left (fun c hc => ?_)).trans (List.map_id _)
    exact ofNat_byteOf (by have := digit_range hc; omega)
  have hd : Nat.toDigits 10 m = Nat.toDigits 10 n := by rw [← undo m, h, undo n]
  rw [← Nat.ofDigitChars_ten_toDigits (n := m), hd, Nat.ofDigitChars_ten_toDigits]

theorem mem_decimal {z : ℤ} {b : UInt8} (h : b ∈ decimal z) : b = 45 ∨ (48 ≤ b ∧ b ≤ 57) := by
  have digit : ∀ b ∈ (Nat.toDigits 10 z.natAbs).map byteOf, 48 ≤ b ∧ b ≤ 57 := by
    intro b hb
    obtain ⟨c, hc, rfl⟩ := List.mem_map.mp hb
    have hr := digit_range hc
    have he : (byteOf c).toNat = c.toNat := by
      simp only [byteOf, UInt8.toNat_ofNat', Nat.reducePow]; omega
    constructor <;> rw [UInt8.le_iff_toNat_le, he]
    · exact hr.1
    · exact hr.2
  unfold decimal at h
  split_ifs at h with hz
  · rcases List.mem_cons.mp h with rfl | hb
    · exact .inl (by decide)
    · exact .inr (digit b hb)
  · exact .inr (digit b h)

theorem decimal_injective {y z : ℤ} (h : decimal y = decimal z) : y = z := by
  have head : ∀ n : ℕ, ∀ l, byteOf '-' :: l ≠ (Nat.toDigits 10 n).map byteOf := by
    intro n l he
    have hm : byteOf '-' ∈ (Nat.toDigits 10 n).map byteOf := he ▸ List.mem_cons_self
    obtain ⟨c, hc, hb⟩ := List.mem_map.mp hm
    have hr := digit_range hc
    have hc : c = '-' := by
      rw [← ofNat_byteOf (c := c) (by omega), hb, ofNat_byteOf (by decide)]
    subst hc
    exact absurd hr.1 (by decide)
  simp only [decimal] at h
  split_ifs at h with hy hz hz
  · have := digits_injective (List.cons.inj h).2
    omega
  · exact absurd h (head _ _)
  · exact absurd h.symm (head _ _)
  · have := digits_injective h
    omega

theorem decimal_length {z : ℤ} (hl : -2 ^ 31 ≤ z) (hu : z < 2 ^ 31) : (decimal z).length ≤ 11 := by
  have digits : (Nat.toDigits 10 z.natAbs).length ≤ 10 := by
    rw [Nat.length_toDigits_le_iff (by omega) (by omega)]
    omega
  unfold decimal
  split_ifs
  · simp only [List.length_cons, List.length_map]; omega
  · simp only [List.length_map]; omega

theorem snprintf_whole {size : ℕ} {text : Bytes} (h : text.length < size) :
    snprintf size text = text :=
  List.take_of_length_le (by omega)

/-! Reading an integer back -/

def isDigit (b : UInt8) : Bool := 48 ≤ b && b ≤ 57

def parseDigits (s : Bytes) : Option ℕ :=
  if s.isEmpty then none
  else if s.all isDigit then some (Nat.ofDigitChars 10 (s.map (fun b => Char.ofNat b.toNat)) 0)
  else none

def parseDecimal : Bytes → Option ℤ
  | [] => none
  | b :: rest =>
    if b = byteOf '-' then (parseDigits rest).map (fun n : ℕ => -(n : ℤ))
    else (parseDigits (b :: rest)).map (fun n : ℕ => (n : ℤ))

theorem isDigit_byteOf {c : Char} (h : 48 ≤ c.toNat ∧ c.toNat ≤ 57) : isDigit (byteOf c) = true := by
  have same : (byteOf c).toNat = c.toNat := by
    simp only [byteOf, UInt8.toNat_ofNat', Nat.reducePow]
    omega
  simp only [isDigit, Bool.and_eq_true, decide_eq_true_eq, UInt8.le_iff_toNat_le, same]
  exact h

theorem parseDigits_toDigits (n : ℕ) : parseDigits ((Nat.toDigits 10 n).map byteOf) = some n := by
  have digits : ((Nat.toDigits 10 n).map byteOf).all isDigit = true := by
    apply List.all_eq_true.mpr
    intro b hb
    obtain ⟨c, hc, rfl⟩ := List.mem_map.mp hb
    exact isDigit_byteOf (digit_range hc)
  have chars : ((Nat.toDigits 10 n).map byteOf).map (fun b => Char.ofNat b.toNat) =
      Nat.toDigits 10 n := by
    rw [List.map_map]
    refine (List.map_congr_left (fun c hc => ?_)).trans (List.map_id _)
    exact ofNat_byteOf (by have := digit_range hc; omega)
  rw [parseDigits, if_neg (by simp), if_pos digits, chars, Nat.ofDigitChars_ten_toDigits]

theorem parseDecimal_decimal (z : ℤ) : parseDecimal (decimal z) = some z := by
  unfold decimal
  simp only
  split_ifs with hz
  · rw [parseDecimal, if_pos rfl, parseDigits_toDigits]
    rw [Option.map_some, Option.some.injEq]
    omega
  · cases hd : (Nat.toDigits 10 z.natAbs).map byteOf with
    | nil => simp at hd
    | cons b rest =>
      have hb : b ≠ byteOf '-' := by
        rintro rfl
        obtain ⟨c, hc, hb⟩ := List.mem_map.mp (hd ▸ List.mem_cons_self)
        have hr := isDigit_byteOf (digit_range hc)
        rw [hb] at hr
        exact absurd hr (by decide)
      rw [parseDecimal, if_neg hb, ← hd, parseDigits_toDigits]
      rw [Option.map_some, Option.some.injEq]
      omega

end Text

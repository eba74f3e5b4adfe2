import Synapi.Library.CharArray

/-!
The characters of a text in UTF-8, and as many whole ones as there is room for.
-/

namespace Utf8

def isContinuation (b : UInt8) : Bool := b &&& 0xC0 == 0x80

/-- How many bytes a character has that begins with this one. -/
def leadSize (b : UInt8) : Option ℕ :=
  if b < 0x80 then some 1
  else if b < 0xC0 then none
  else if b < 0xE0 then some 2
  else if b < 0xF0 then some 3
  else if b < 0xF8 then some 4
  else none

def isChar : Bytes → Bool
  | [] => false
  | lead :: conts => leadSize lead == some (conts.length + 1) && conts.all isContinuation

/-- A text falls into its characters: each begins where a byte continues none. -/
def chars : Bytes → List Bytes
  | [] => []
  | b :: rest =>
    match chars rest with
    | (c :: conts) :: cs =>
      if isContinuation c then (b :: c :: conts) :: cs else [b] :: (c :: conts) :: cs
    | cs => [b] :: cs

/-- The first characters, as many as have `n` bytes together. -/
def wholeChars : ℕ → List Bytes → Bytes
  | _, [] => []
  | n, c :: cs => if c.length ≤ n then c ++ wholeChars (n - c.length) cs else []

/-- The text is made of whole characters. -/
def Valid (s : Bytes) : Prop := ∀ c ∈ chars s, isChar c = true

instance (s : Bytes) : Decidable (Valid s) := inferInstanceAs (Decidable (∀ c ∈ chars s, _))

theorem isChar_parts {c : Bytes} (h : isChar c = true) : ∃ lead conts, c = lead :: conts ∧
    leadSize lead = some c.length ∧ ∀ b ∈ conts, isContinuation b = true := by
  cases c with
  | nil => cases h
  | cons lead conts =>
    rw [isChar, Bool.and_eq_true, beq_iff_eq, List.all_eq_true] at h
    exact ⟨lead, conts, rfl, h.1, h.2⟩

theorem chars_flatten (s : Bytes) : (chars s).flatten = s := by
  induction s with
  | nil => rfl
  | cons b s ih =>
    rw [chars]
    split
    · next h =>
      rw [h] at ih
      split_ifs
      · exact congrArg (b :: ·) ih
      · exact congrArg (b :: ·) ih
    · exact congrArg (b :: ·) ih

theorem wholeChars_length_le (n : ℕ) (cs : List Bytes) : (wholeChars n cs).length ≤ n := by
  induction cs generalizing n with
  | nil => exact Nat.zero_le n
  | cons c cs ih =>
    rw [wholeChars]
    split_ifs with h
    · have := ih (n - c.length)
      rw [List.length_append]
      omega
    · exact Nat.zero_le n

theorem wholeChars_length_lt {n : ℕ} (h : 0 < n) (cs : List Bytes) :
    (wholeChars (n - 1) cs).length < n :=
  Nat.lt_of_le_of_lt (wholeChars_length_le _ _) (Nat.sub_lt h Nat.one_pos)

theorem wholeChars_all {n : ℕ} {cs : List Bytes} (h : cs.flatten.length ≤ n) :
    wholeChars n cs = cs.flatten := by
  induction cs generalizing n with
  | nil => rfl
  | cons c cs ih =>
    rw [List.flatten_cons, List.length_append] at h
    rw [wholeChars, if_pos (by omega), ih (by omega), List.flatten_cons]

/-- A text that is cut falls into whole characters and the beginning of one more. -/
theorem take_flatten (n : ℕ) (cs : List Bytes) : ∃ part, cs.flatten.take n = wholeChars n cs ++ part ∧
    (part = [] ∨ ∃ c ∈ cs, part = c.take part.length ∧ part ≠ [] ∧ part.length < c.length) := by
  induction cs generalizing n with
  | nil => exact ⟨[], by simp [wholeChars], .inl rfl⟩
  | cons c cs ih =>
    by_cases h : c.length ≤ n
    · obtain ⟨part, hpart, hcases⟩ := ih (n - c.length)
      refine ⟨part, ?_, hcases.imp id ?_⟩
      · rw [List.flatten_cons, List.take_append, List.take_of_length_le h, hpart, wholeChars,
          if_pos h, List.append_assoc]
      · rintro ⟨d, hd, hrest⟩
        exact ⟨d, List.mem_cons_of_mem c hd, hrest⟩
    · have length : (c.take n).length = n := List.length_take_of_le (by omega)
      refine ⟨c.take n, ?_, ?_⟩
      · rw [List.flatten_cons, List.take_append_of_le_length (by omega), wholeChars, if_neg h,
          List.nil_append]
      · cases n with
        | zero => exact .inl List.take_zero
        | succ n =>
          refine .inr ⟨c, List.mem_cons_self, by rw [length], ?_, by omega⟩
          rintro hnil
          rw [hnil] at length
          cases length

/-- The whole characters that fit end with one of the characters. -/
theorem wholeChars_last {n : ℕ} {cs : List Bytes} (h : wholeChars n cs ≠ []) :
    ∃ before, ∃ c ∈ cs, wholeChars n cs = before ++ c := by
  induction cs generalizing n with
  | nil => exact absurd rfl h
  | cons c cs ih =>
    rw [wholeChars] at h ⊢
    split_ifs at h ⊢ with hle
    · by_cases hrest : wholeChars (n - c.length) cs = []
      · refine ⟨[], c, List.mem_cons_self, ?_⟩
        rw [hrest, List.append_nil, List.nil_append]
      · obtain ⟨before, d, hd, hlast⟩ := ih hrest
        refine ⟨c ++ before, d, List.mem_cons_of_mem c hd, ?_⟩
        rw [hlast, List.append_assoc]
    · exact absurd rfl h

theorem wholeChars_subset (n : ℕ) (s : Bytes) : wholeChars n (chars s) ⊆ s := by
  obtain ⟨part, hpart, -⟩ := take_flatten n (chars s)
  rw [chars_flatten] at hpart
  intro b hb
  apply List.mem_of_mem_take (i := n)
  rw [hpart]
  exact List.mem_append_left part hb

end Utf8

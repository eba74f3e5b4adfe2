import Synapi.ApiKey
import Synapi.Library.Cells
import Synapi.Library.CountedLoop

/-!
libcurl's `curl_escape`: the loop that fills a block of memory, which grows as
bytes have to be written as `%XX`.
-/

namespace Synapi

open Runs CountedLoop FormEncoding Text

def curlIsunreserved (c : UInt8) : Bool :=
  (ascii "0123456789abcdefghijklmnopqrstuvwxyzABCDEFGHIJKLMNOPQRSTUVWXYZ-._~").contains c

/-- `"%%%02X"`. -/
def percentX (c : UInt8) : Bytes := [37, hexDigit (c / 16), hexDigit (c % 16)]

/-- The variables of `curl_easy_escape`; `string` counts from where the text starts. -/
structure Escape where
  alloc : ℕ
  newlen : ℕ
  strindex : ℕ
  length : ℕ
  string : ℕ
  ns : Cells

section

-- Whether the allocator has a block of the size asked for.
variable (allocates : ℕ → Bool)

def Escape.grow (s : Escape) : Option Escape :=
  let s := { s with newlen := sizeT (s.newlen + 2) }
  if s.alloc < s.newlen then
    let s := { s with alloc := sizeT (s.alloc * 2) }
    if allocates s.alloc then some { s with ns := Cells.resize s.ns s.alloc } else none
  else some s

-- `Curl_convert_to_network` converts nothing in this build of libcurl.
def escapeBody (text : Bytes) (s : Escape) : Except Fault (Flow Escape Unit) := do
  let s := { s with length := s.length - 1 }
  let c ← inBounds text[s.string]?
  if curlIsunreserved c then
    let ns ← inBounds (Cells.store s.ns s.strindex [c])
    .ok (.next { s with ns, strindex := s.strindex + 1 })
  else
    match s.grow allocates with
    | none => .ok (.stop s ())
    | some s =>
      let ns ← inBounds (Cells.store s.ns s.strindex (percentX c ++ [0]))
      .ok (.next { s with ns, strindex := s.strindex + 3 })

-- `while(length--)`
def escapeLoop (string : CString) (length : ℕ) (s : Escape) : Except Fault (Flow Escape Unit) :=
  forLoop (fun s => decide (s.length ≠ 0)) (fun s => { s with string := s.string + 1 })
    (escapeBody allocates (string.val ++ [0])) .stillRunning length s

/-- The block with the escaped text, or none for the null pointer. -/
def curlEasyEscape (string : CString) (inlength : ℤ) : Except Fault (Option Cells) := do
  let length := if inlength ≠ 0 then sizeT inlength else string.val.length
  let alloc := sizeT (length + 1)
  if allocates alloc then
    match ← escapeLoop allocates string length
        ⟨alloc, alloc, 0, length, 0, Cells.unwritten alloc⟩ with
    | .stop _ () => .ok none
    | .next s =>
      let ns ← inBounds (Cells.store s.ns s.strindex [0])
      .ok (some ns)
  else .ok none

end

/-! One byte -/

theorem unreserved_chars :
    ascii "0123456789abcdefghijklmnopqrstuvwxyzABCDEFGHIJKLMNOPQRSTUVWXYZ-._~" =
      (List.range' 48 10 ++ List.range' 97 26 ++ List.range' 65 26 ++ [45, 46, 95, 126]).map
        UInt8.ofNat := by
  decide

theorem curlIsunreserved_eq (c : UInt8) : curlIsunreserved c = unreserved c := by
  have hc := c.toNat_lt
  have le (b : UInt8) : decide (b ≤ c) = decide (b.toNat ≤ c.toNat) := rfl
  have ge (b : UInt8) : decide (c ≤ b) = decide (c.toNat ≤ b.toNat) := rfl
  have eq (b : UInt8) : (c == b) = decide (c.toNat = b.toNat) := by
    rw [beq_eq_decide, decide_eq_decide]
    exact UInt8.toNat_inj.symm
  rw [curlIsunreserved, unreserved_chars, Bool.eq_iff_iff, List.contains_iff_mem, List.mem_map]
  simp only [unreserved, le, ge, eq, Bool.or_eq_true, Bool.and_eq_true, decide_eq_true_eq,
    List.mem_append, List.mem_range'_1, List.mem_cons, List.not_mem_nil, or_false,
    UInt8.reduceToNat]
  constructor
  · rintro ⟨n, hn, rfl⟩
    rw [UInt8.toNat_ofNat', Nat.mod_eq_of_lt (by omega)]
    omega
  · intro h
    exact ⟨c.toNat, by omega, UInt8.ofNat_toNat⟩

theorem encodeByte_eq (c : UInt8) :
    encodeByte c = if curlIsunreserved c then [c] else percentX c := by
  rw [curlIsunreserved_eq]
  rfl

theorem percentEncode_take_succ {s : Bytes} {k : ℕ} {c : UInt8} (h : s[k]? = some c) :
    percentEncode (s.take (k + 1)) = percentEncode (s.take k) ++ encodeByte c := by
  rw [List.take_add_one, h, percentEncode, List.flatMap_append]
  exact congrArg _ (List.append_nil _)

theorem percentEncode_length_le (s : Bytes) : s.length ≤ (percentEncode s).length ∧
    (percentEncode s).length ≤ 3 * s.length := by
  induction s with
  | nil => exact ⟨Nat.le_refl 0, Nat.le_refl 0⟩
  | cons c s ih =>
    rw [percentEncode, List.flatMap_cons, List.length_append, encodeByte_eq]
    change _ ∧ _ + (percentEncode s).length ≤ _
    change _ ≤ _ + (percentEncode s).length ∧ _
    split_ifs <;> simp only [percentX, List.length_cons, List.length_nil] <;> omega

theorem zero_notMem_percentEncode (s : Bytes) : 0 ∉ percentEncode s := by
  intro h
  rcases mem_percentEncode h with h | h
  · exact absurd h (by decide)
  · exact absurd h (by decide)

/-! The loop -/

/-- The block begins with the bytes written so far. -/
structure Escape.Holds (written : Bytes) (s : Escape) : Prop where
  strindex : s.strindex = written.length
  ns : ∃ rest, s.ns = written.map some ++ rest ∧ written.length + rest.length = s.alloc

variable {allocates : ℕ → Bool} {text written bytes more : Bytes} {k : ℕ} {s s' : Escape}

theorem Escape.Holds.store (h : s.Holds written)
    (hroom : written.length + (bytes ++ more).length ≤ s.alloc) :
    ∃ ns, Cells.store s.ns s.strindex (bytes ++ more) = some ns ∧ ∀ s' : Escape, s'.ns = ns →
      s'.alloc = s.alloc → s'.strindex = s.strindex + bytes.length →
        s'.Holds (written ++ bytes) := by
  obtain ⟨rest, hns, halloc⟩ := h.ns
  have hle : (bytes ++ more).length ≤ rest.length := by omega
  refine ⟨_, by rw [hns, h.strindex]; exact Cells.store_append hle, ?_⟩
  intro s' hns' halloc' hindex
  refine ⟨by rw [hindex, h.strindex, List.length_append], ?_⟩
  refine ⟨more.map some ++ rest.drop (bytes ++ more).length, ?_, ?_⟩
  · rw [hns', ← List.append_assoc, List.map_append, List.map_append, List.append_assoc]
  · rw [List.length_append] at hle
    simp only [List.length_append, List.length_map, List.length_drop]
    omega

/-- `newlen` grows by two, and the block with it. -/
theorem grow_spec (allocates : ℕ → Bool) (h : s.Holds written) (hfits : s.newlen ≤ s.alloc) (htwo : 2 ≤ s.alloc)
    (hdoubled : s.alloc ≤ 2 * s.newlen) (hsmall : s.newlen < 2 ^ 62) :
    (s.grow allocates = none ∧ ∃ n, allocates n = false) ∨
      ∃ t : Escape, s.grow allocates = some t ∧ t.Holds written ∧ t.string = s.string ∧
        t.length = s.length ∧ t.newlen = s.newlen + 2 ∧ t.newlen ≤ t.alloc ∧
          t.alloc ≤ 2 * t.newlen := by
  have hnewlen : sizeT (s.newlen + 2) = s.newlen + 2 := sizeT_natCast (n := s.newlen + 2) (by omega)
  have halloc : sizeT (s.alloc * 2) = s.alloc * 2 := sizeT_natCast (n := s.alloc * 2) (by omega)
  unfold Escape.grow
  simp only [hnewlen, halloc]
  split_ifs with hlt hget
  · obtain ⟨rest, hns, hlen⟩ := h.ns
    have larger : written.length + rest.length ≤ s.alloc * 2 := by omega
    obtain ⟨more, hmore, hmoreLen⟩ := Cells.resize_append larger
    refine .inr ⟨_, rfl, ⟨h.strindex, more, ?_, hmoreLen⟩, rfl, rfl, rfl, ?_, ?_⟩
    · exact (congrArg (Cells.resize · _) hns).trans hmore
    · change s.newlen + 2 ≤ s.alloc * 2
      omega
    · change s.alloc * 2 ≤ 2 * (s.newlen + 2)
      omega
  · exact .inl ⟨rfl, _, Bool.eq_false_iff.mpr hget⟩
  · refine .inr ⟨_, rfl, ⟨h.strindex, h.ns⟩, rfl, rfl, rfl, ?_, ?_⟩
    · exact Nat.le_of_not_lt hlt
    · change s.alloc ≤ 2 * (s.newlen + 2)
      omega

/-- After `k` bytes: what they are encoded as has been written, and the block has
room for the rest of the text, each byte of it as it stands, and the NUL. -/
structure Escaped (text : Bytes) (k : ℕ) (s : Escape) : Prop where
  string : s.string = k
  length : s.length = text.length - k
  holds : s.Holds (percentEncode (text.take k))
  newlen : s.newlen + k = text.length + 1 + (percentEncode (text.take k)).length
  fits : s.newlen ≤ s.alloc
  doubled : s.alloc ≤ 2 * s.newlen

theorem escapeBody_spec (ht : text.length < 2 ^ 31) (hk : k < text.length) (h : Escaped text k s) :
    (∃ t, escapeBody allocates (text ++ [0]) s = .ok (.next t) ∧
      Escaped text (k + 1) { t with string := t.string + 1 }) ∨
    ∃ t r, escapeBody allocates (text ++ [0]) s = .ok (.stop t r) ∧ ∃ n, allocates n = false := by
  obtain ⟨c, hc⟩ : ∃ c, text[k]? = some c := ⟨_, List.getElem?_eq_getElem hk⟩
  have read : (text ++ [0])[s.string]? = some c := by
    rw [h.string, List.getElem?_append_left hk, hc]
  have encoded := percentEncode_take_succ hc
  have bound := percentEncode_length_le (text.take k)
  rw [List.length_take] at bound
  have hnewlen := h.newlen
  have hfits := h.fits
  have hlength := h.length
  unfold escapeBody
  simp only [read, inBounds, ok_bind]
  cases hc' : curlIsunreserved c with
  | true =>
    rw [encodeByte_eq, hc'] at encoded
    have room : (percentEncode (text.take k)).length + ([c] ++ []).length ≤ s.alloc := by
      simp only [List.append_nil, List.length_singleton]
      omega
    obtain ⟨ns, hns, holds⟩ := h.holds.store room
    rw [List.append_nil] at hns
    simp only [hns, ok_bind]
    refine .inl ⟨_, rfl, ⟨congrArg (· + 1) h.string, ?_, ?_, ?_, hfits, h.doubled⟩⟩
    · change s.length - 1 = _
      omega
    · rw [encoded]
      exact holds _ rfl rfl rfl
    · rw [encoded, List.length_append]
      change s.newlen + (k + 1) = text.length + 1 + (_ + 1)
      omega
  | false =>
    rw [encodeByte_eq, hc'] at encoded
    have before : Escape.Holds (percentEncode (text.take k)) { s with length := s.length - 1 } :=
      ⟨h.holds.strindex, h.holds.ns⟩
    rcases grow_spec allocates before hfits (by change 2 ≤ s.alloc; omega) h.doubled
      (by change s.newlen < _; omega) with ⟨hnone, hfails⟩ | ⟨t, ht', holds, hstring, hlen, hnew, hfit, hdouble⟩
    · simp only [hnone]
      exact .inr ⟨_, (), rfl, hfails⟩
    · change t.newlen = s.newlen + 2 at hnew
      have room : (percentEncode (text.take k)).length + (percentX c ++ [0]).length ≤ t.alloc := by
        change _ + 4 ≤ _
        omega
      obtain ⟨ns, hns, holds⟩ := holds.store room
      simp only [ht', hns, ok_bind]
      refine .inl ⟨_, rfl, ⟨?_, ?_, ?_, ?_, hfit, hdouble⟩⟩
      · exact congrArg (· + 1) (hstring.trans h.string)
      · change t.length = _
        rw [hlen]
        change s.length - 1 = _
        omega
      · rw [encoded]
        exact holds _ rfl rfl rfl
      · rw [encoded, List.length_append]
        change t.newlen + (k + 1) = text.length + 1 + (_ + 3)
        omega

theorem escape_length_ne_zero (h : Escaped text k s) :
    decide (s.length ≠ 0) = decide (k < text.length) := by
  rw [h.length]
  exact decide_eq_decide.mpr (by omega)

theorem escapeLoop_spec (allocates : ℕ → Bool) {string : CString}
    (ht : string.val.length < 2 ^ 31) (start : Escaped string.val 0 s) :
    (∃ t, escapeLoop allocates string string.val.length s = .ok (.next t) ∧
      Escaped string.val string.val.length t) ∨
    ∃ t r, escapeLoop allocates string string.val.length s = .ok (.stop t r) ∧
      ∃ n, allocates n = false := by
  refine forLoop_rule (Q := fun _ _ => ∃ n, allocates n = false) ?_ ?_ start
  · intro k hk t hinv
    exact ⟨(escape_length_ne_zero hinv).trans (decide_eq_true hk), escapeBody_spec ht hk hinv⟩
  · intro t hinv
    exact (escape_length_ne_zero hinv).trans (decide_eq_false (Nat.lt_irrefl _))

/-- The escaped text, or the null pointer when the allocator has refused a block. -/
def EscapesTo (allocates : ℕ → Bool) (text : Bytes) : Option Cells → Prop
  | some ns => (Cells.read ns).map Subtype.val = some (curlEscape text)
  | none => ∃ n, allocates n = false

end Synapi

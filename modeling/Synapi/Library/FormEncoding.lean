import Synapi.Library.Text
import Mathlib.Data.List.Induction

/-!
Percent encoding of bytes, and `name=value` pairs joined by `&`.
-/

namespace FormEncoding

open Text

def unreserved (b : UInt8) : Bool :=
  (48 ≤ b && b ≤ 57) || (65 ≤ b && b ≤ 90) || (97 ≤ b && b ≤ 122) ||
    b == 45 || b == 46 || b == 95 || b == 126

def hexDigit (n : UInt8) : UInt8 := if n < 10 then 48 + n else 55 + n

def encodeByte (b : UInt8) : Bytes :=
  if unreserved b then [b] else [37, hexDigit (b / 16), hexDigit (b % 16)]

/-- Letters, digits and `-._~` stay, every other byte becomes `%XX`. -/
def percentEncode (s : Bytes) : Bytes := s.flatMap encodeByte

def hexValue (c : UInt8) : Option UInt8 :=
  if 48 ≤ c ∧ c ≤ 57 then some (c - 48)
  else if 65 ≤ c ∧ c ≤ 70 then some (c - 55)
  else if 97 ≤ c ∧ c ≤ 102 then some (c - 87)
  else none

def percentDecode : Bytes → Bytes
  | [] => []
  | b :: rest =>
    if b = 37 then
      match rest with
      | c :: d :: tail =>
        match hexValue c, hexValue d with
        | some x, some y => (16 * x + y) :: percentDecode tail
        | _, _ => b :: percentDecode (c :: d :: tail)
      | tail => b :: percentDecode tail
    else b :: percentDecode rest

theorem hexValue_hexDigit : ∀ n < 16, hexValue (hexDigit (UInt8.ofNat n)) = some (UInt8.ofNat n) := by
  decide

theorem encodeByte_ne_amp : ∀ n < 256, (38 : UInt8) ∉ encodeByte (UInt8.ofNat n) := by
  decide +kernel

theorem encodeByte_safe : ∀ n < 256,
    (encodeByte (UInt8.ofNat n)).all (fun c => unreserved c || c == 37) = true := by
  decide +kernel

theorem percentDecode_cons {b : UInt8} (h : b ≠ 37) (rest : Bytes) :
    percentDecode (b :: rest) = b :: percentDecode rest := by
  rw [percentDecode.eq_def]
  simp [h]

theorem percentDecode_encodeByte (b : UInt8) (rest : Bytes) :
    percentDecode (encodeByte b ++ rest) = b :: percentDecode rest := by
  unfold encodeByte
  split_ifs with hb
  · refine percentDecode_cons ?_ rest
    rintro rfl
    exact absurd hb (by decide)
  · have hlt := b.toNat_lt
    have hi : b / 16 = UInt8.ofNat (b.toNat / 16) := by
      apply UInt8.toNat_inj.mp
      simp only [UInt8.toNat_div, UInt8.toNat_ofNat', Nat.reducePow]
      change b.toNat / 16 = _
      omega
    have lo : b % 16 = UInt8.ofNat (b.toNat % 16) := by
      apply UInt8.toNat_inj.mp
      simp only [UInt8.toNat_mod, UInt8.toNat_ofNat', Nat.reducePow]
      change b.toNat % 16 = _
      omega
    have whole : 16 * (b / 16) + b % 16 = b := by
      apply UInt8.toNat_inj.mp
      simp only [UInt8.toNat_add, UInt8.toNat_mul, UInt8.toNat_div, UInt8.toNat_mod,
        UInt8.reduceToNat]
      omega
    have hx : hexValue (hexDigit (b / 16)) = some (b / 16) := by
      rw [hi]; exact hexValue_hexDigit _ (by omega)
    have hy : hexValue (hexDigit (b % 16)) = some (b % 16) := by
      rw [lo]; exact hexValue_hexDigit _ (by omega)
    simp only [List.cons_append, List.nil_append]
    rw [percentDecode.eq_def]
    simp [hx, hy, whole]

theorem percentDecode_encode (s rest : Bytes) :
    percentDecode (percentEncode s ++ rest) = s ++ percentDecode rest := by
  induction s with
  | nil => rfl
  | cons b s ih =>
    rw [percentEncode, List.flatMap_cons, List.append_assoc, percentDecode_encodeByte]
    exact congrArg (List.cons b) ih

theorem percentDecode_percentEncode (s : Bytes) : percentDecode (percentEncode s) = s := by
  simpa [percentDecode] using percentDecode_encode s []

theorem percentDecode_plain {s : Bytes} (h : 37 ∉ s) : percentDecode s = s := by
  induction s with
  | nil => rfl
  | cons b s ih =>
    rw [percentDecode_cons (fun hb => h (hb ▸ List.mem_cons_self)),
      ih (fun hs => h (List.mem_cons_of_mem _ hs))]

theorem amp_notMem_percentEncode (s : Bytes) : (38 : UInt8) ∉ percentEncode s := by
  intro h
  obtain ⟨b, -, hb⟩ := List.mem_flatMap.mp h
  have := encodeByte_ne_amp b.toNat b.toNat_lt
  rw [UInt8.ofNat_toNat] at this
  exact this hb

theorem mem_percentEncode {s : Bytes} {c : UInt8} (h : c ∈ percentEncode s) :
    unreserved c ∨ c = 37 := by
  obtain ⟨b, -, hb⟩ := List.mem_flatMap.mp h
  have safe := encodeByte_safe b.toNat b.toNat_lt
  rw [UInt8.ofNat_toNat] at safe
  simpa using List.all_eq_true.mp safe c hb

def renderPair (pair : Bytes × Bytes) : Bytes := pair.1 ++ 61 :: pair.2

def render (pairs : List (Bytes × Bytes)) : Bytes := [38].intercalate (pairs.map renderPair)

def separated (text : Bytes) : Bytes := if text = [] then [] else text ++ [38]

theorem length_le_separated (text : Bytes) : text.length ≤ (separated text).length := by
  unfold separated
  split_ifs with h <;> simp [h]

theorem renderPair_ne_nil (pair : Bytes × Bytes) : renderPair pair ≠ [] := by
  simp [renderPair]

theorem render_cons (pair : Bytes × Bytes) {pairs : List (Bytes × Bytes)} (h : pairs ≠ []) :
    render (pair :: pairs) = renderPair pair ++ 38 :: render pairs := by
  rw [render, render, List.map_cons, List.intercalate_cons_of_ne_nil (by simpa using h)]
  simp

theorem render_eq_nil_iff (pairs : List (Bytes × Bytes)) : render pairs = [] ↔ pairs = [] := by
  refine ⟨fun h => ?_, fun h => by rw [h]; rfl⟩
  cases pairs with
  | nil => rfl
  | cons pair pairs =>
    by_cases hp : pairs = []
    · subst hp
      rw [render, List.map_singleton, List.intercalate_singleton] at h
      exact absurd h (renderPair_ne_nil pair)
    · rw [render_cons pair hp] at h
      exact absurd (List.append_eq_nil_iff.mp h).1 (renderPair_ne_nil pair)

theorem render_snoc (pairs : List (Bytes × Bytes)) (pair : Bytes × Bytes) :
    render (pairs ++ [pair]) = separated (render pairs) ++ renderPair pair := by
  induction pairs with
  | nil => simp [render, separated]
  | cons first pairs ih =>
    have hne : render (first :: pairs) ≠ [] := by simp [render_eq_nil_iff]
    rw [List.cons_append, render_cons first (by simp), ih, separated, separated, if_neg hne]
    by_cases hp : pairs = []
    · subst hp
      simp [render]
    · rw [if_neg (by rwa [render_eq_nil_iff]), render_cons first hp]
      simp

theorem render_length_le (pairs more : List (Bytes × Bytes)) :
    (render pairs).length ≤ (render (pairs ++ more)).length := by
  induction more using List.reverseRecOn with
  | nil => simp
  | append_singleton more pair ih =>
    rw [← List.append_assoc, render_snoc, List.length_append]
    have := length_le_separated (render (pairs ++ more))
    omega

theorem renderPair_plain {pair : Bytes × Bytes} (h : 38 ∉ pair.1 ∧ 38 ∉ pair.2) :
    38 ∉ renderPair pair := by
  rw [renderPair, List.mem_append, List.mem_cons, not_or, not_or]
  exact ⟨h.1, by decide, h.2⟩

/-- Every pair is followed by one `&`, and there are no others. -/
theorem count_separated {pairs : List (Bytes × Bytes)}
    (h : ∀ pair ∈ pairs, 38 ∉ pair.1 ∧ 38 ∉ pair.2) :
    (separated (render pairs)).count 38 = pairs.length := by
  induction pairs using List.reverseRecOn with
  | nil => rfl
  | append_singleton pairs pair ih =>
    have before := ih (fun p hp => h p (List.mem_append_left _ hp))
    have last := renderPair_plain (h pair (List.mem_append_right _ List.mem_cons_self))
    have ne : render (pairs ++ [pair]) ≠ [] := by simp [render_eq_nil_iff]
    rw [separated, if_neg ne, render_snoc, List.count_append, List.count_append, before,
      List.count_eq_zero_of_not_mem last, List.length_append]
    rfl

/-- One part, cut at its first `=`, with the value decoded. -/
def parsePair (part : Bytes) : Bytes × Bytes :=
  (part.takeWhile (· ≠ 61), percentDecode ((part.dropWhile (· ≠ 61)).drop 1))

def parse (query : Bytes) : List (Bytes × Bytes) := (query.splitOn 38).map parsePair

theorem parsePair_renderPair {pair : Bytes × Bytes} (h : 61 ∉ pair.1) :
    parsePair (renderPair pair) = (pair.1, percentDecode pair.2) := by
  have hne : ∀ b ∈ pair.1, decide (b ≠ 61) = true := by
    intro b hb
    simp only [ne_eq, decide_eq_true_eq]
    rintro rfl
    exact h hb
  rw [parsePair, renderPair, List.takeWhile_append_of_pos hne,
    List.takeWhile_cons_of_neg (by simp), List.append_nil, List.dropWhile_append_of_pos hne,
    List.dropWhile_cons_of_neg (by simp), List.drop_one, List.tail_cons]

theorem parse_render {pairs : List (Bytes × Bytes)} (hne : pairs ≠ [])
    (hname : ∀ pair ∈ pairs, 61 ∉ pair.1 ∧ 38 ∉ pair.1) (hvalue : ∀ pair ∈ pairs, 38 ∉ pair.2) :
    parse (render pairs) = pairs.map (fun pair => (pair.1, percentDecode pair.2)) := by
  have parts : (render pairs).splitOn 38 = pairs.map renderPair := by
    refine List.splitOn_intercalate 38 (fun part hpart => ?_) (by simpa using hne)
    obtain ⟨pair, hp, rfl⟩ := List.mem_map.mp hpart
    simp only [renderPair, List.mem_append, List.mem_cons, not_or]
    exact ⟨(hname pair hp).2, by decide, hvalue pair hp⟩
  rw [parse, parts, List.map_map]
  exact List.map_congr_left (fun pair hp => parsePair_renderPair (hname pair hp).1)

end FormEncoding

import Synapi.QueryRoundTrip
import Mathlib.Data.List.Sublists

/-!
What becomes of an option list that is too long for the buffer.
-/

namespace Synapi

open Runs Text FormEncoding

/-- A GET request has no `_method` parameter. -/
def queryText (options : List SynapiOption) (method : SynapiMethod) : Bytes :=
  separated (render (optionPairs options)) ++ trailer method

def DegradesSafely (method : SynapiMethod) (options : Option (List SynapiOption)) : Prop :=
  ∃ query, synapiBuildQueryString method options = .ok query ∧
    ∃ kept, kept.Sublist (options.getD []) ∧ query = queryText kept method

/-! The separators of a query -/

theorem trailer_plain (method : SynapiMethod) : 38 ∉ trailer method := by
  cases method <;> decide

theorem encoded_plain {option : SynapiOption} {value : Bytes} (h : option.encoded = some value) :
    38 ∉ value := by
  have number {n : Int32} (h : some (snprintf 63 (decimal n.toInt)) = some value) : 38 ∉ value := by
    rw [← Option.some.inj h, int32_decimal]
    exact decimal_plain (.inr rfl)
  have escaped {s : CString} (h : curlEscapeArg s = some value) : 38 ∉ value := by
    unfold curlEscapeArg at h
    simp only at h
    split_ifs at h
    · rw [← Option.some.inj h]
      exact amp_notMem_percentEncode _
    · rw [← Option.some.inj h]
      exact amp_notMem_percentEncode _
  cases option with
  | serverSlots | playerScore | playerScoreModifier | playerInternalId => exact number h
  | _ =>
    simp only [SynapiOption.encoded] at h
    exact escaped h

theorem piece_plain (option : SynapiOption) : 38 ∉ option.piece := by
  cases hv : option.takenText with
  | none =>
    rw [SynapiOption.piece, hv]
    exact List.not_mem_nil
  | some v =>
    obtain ⟨value, hvalue, htaken, hpiece⟩ := takenText_eq hv
    obtain ⟨-, hprefix⟩ := taken_length htaken
    rw [hpiece, hprefix]
    exact fun h => encoded_plain hvalue (List.mem_of_mem_take h)

theorem count_pieces (options : List SynapiOption) :
    (separated (render (pieces options))).count 38 = options.length := by
  rw [count_separated, pieces, List.length_map]
  intro pair hp
  obtain ⟨option, -, rfl⟩ := List.mem_map.mp hp
  exact ⟨(name_plain option).2, piece_plain option⟩

theorem count_queryText (options : List SynapiOption) (method : SynapiMethod) :
    (queryText options method).count 38 = options.length := by
  rw [queryText, List.count_append, List.count_eq_zero_of_not_mem (trailer_plain method),
    count_separated, optionPairs, List.length_map]
  · rfl
  · intro pair hp
    obtain ⟨option, -, rfl⟩ := List.mem_map.mp hp
    exact ⟨(name_plain option).2, text_plain option⟩

/-! The limit -/

/-- Only the end of the trailer is lost where the builder stays inside the buffer. -/
theorem synapiBuildQueryString_cut (method : SynapiMethod) {options : List SynapiOption}
    (h : Fits options) : synapiBuildQueryString method (some options) =
      .ok (separated (render (pieces options)) ++
        (trailer method).take (2047 - (separated (render (pieces options))).length)) := by
  rw [synapiBuildQueryString_fits method h, clip, List.take_append,
    List.take_of_length_le (separated_length h.2)]

theorem render_short {text : Bytes} (h : (separated text).length ≤ 2047) : text.length ≤ 2046 := by
  by_cases ht : text = []
  · rw [ht]
    exact Nat.zero_le _
  · rw [separated, if_neg ht, List.length_append, List.length_singleton] at h
    omega

theorem synapiBuildQueryString_short {method : SynapiMethod} {options : List SynapiOption}
    (h : (queryText options method).length ≤ 2047) :
    synapiBuildQueryString method (some options) = .ok (queryText options method) := by
  have front : (render (optionPairs options)).length ≤ 2046 := by
    apply render_short
    rw [queryText, List.length_append] at h
    omega
  obtain ⟨hfits, hpieces⟩ := pieces_short front
  rw [synapiBuildQueryString_fits method hfits, hpieces]
  exact congrArg Except.ok (clip_short h)

theorem synapiBuildQueryString_none (method : SynapiMethod) :
    synapiBuildQueryString method none = .ok (queryText [] method) := by
  cases method with
  | get => rfl
  | _ => exact synapiBuildQueryString_null _ (by decide)

theorem queryText_nil_length (method : SynapiMethod) : (queryText [] method).length ≤ 2047 := by
  cases method <;> decide

theorem short_of_degradesSafely {method : SynapiMethod} {options : Option (List SynapiOption)}
    (h : DegradesSafely method options) : (queryText (options.getD []) method).length ≤ 2047 := by
  cases options with
  | none => exact queryText_nil_length method
  | some options =>
    obtain ⟨query, hbuild, kept, hsub, rfl⟩ := h
    have hfits := fits_of_build hbuild
    have whole : (queryText kept method).length ≤ 2047 := by
      rw [synapiBuildQueryString_fits method hfits, Except.ok.injEq] at hbuild
      rw [← hbuild]
      exact clip_length _
    -- Both texts have as many separators as parameters, so nothing is left out.
    have all : kept.length = options.length := by
      rw [synapiBuildQueryString_cut method hfits, Except.ok.injEq] at hbuild
      rw [← count_queryText kept method, ← hbuild, List.count_append, count_pieces,
        List.count_eq_zero_of_not_mem (fun h => trailer_plain method (List.mem_of_mem_take h))]
      rfl
    have same : kept = options := List.Sublist.eq_of_length hsub all
    rwa [same] at whole

theorem degrades_safely_iff (method : SynapiMethod) (options : Option (List SynapiOption)) :
    DegradesSafely method options ↔ (queryText (options.getD []) method).length ≤ 2047 := by
  constructor
  · exact short_of_degradesSafely
  · intro h
    refine ⟨queryText (options.getD []) method, ?_, _, List.Sublist.refl _, rfl⟩
    cases options with
    | none => exact synapiBuildQueryString_none method
    | some options => exact synapiBuildQueryString_short h

theorem method_cut : ¬ DegradesSafely .put
    (some [.playerName ⟨List.replicate 2020 97, by decide +kernel⟩]) := by
  intro h
  exact absurd (short_of_degradesSafely h) (by decide +kernel)

end Synapi

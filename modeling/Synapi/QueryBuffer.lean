import Synapi.RequestText
import Synapi.Library.FormEncoding

/-!
The buffer the query is built in: what a `strncat` leaves of a text that is too
long, and when the builder stays inside the buffer.
-/

namespace Synapi

open Runs Text FormEncoding

def SynapiOption.name : SynapiOption → Bytes
  | .serverSlots _ => ascii "server[server_profile_attributes][slots]"
  | .serverGame _ => ascii "server[server_profile_attributes][game_identifier]"
  | .serverIp _ => ascii "server[server_profile_attributes][ip]"
  | .serverPort _ => ascii "server[server_profile_attributes][port]"
  | .serverName _ => ascii "server[server_profile_attributes][name]"
  | .serverLevel _ => ascii "server[server_profile_attributes][level_name]"
  | .playerName _ => ascii "server_player[name]"
  | .playerScore _ => ascii "server_player[score]"
  | .playerScoreModifier _ => ascii "server_player[score_modifier]"
  | .playerInternalId _ => ascii "server_player[internal_id]"
  | .playerNetworkId _ => ascii "server_player[network_identifier]"

theorem attr_eq (option : SynapiOption) : option.attr = option.name ++ [61] := by
  cases option <;> simp only [SynapiOption.attr, SynapiOption.name] <;> decide +kernel

theorem attr_length (option : SynapiOption) :
    20 ≤ option.attr.length ∧ option.attr.length < 64 := by
  cases option <;> simp only [SynapiOption.attr] <;> decide +kernel

/-! The text in the buffer -/

/-- The buffer with a text in it: `buffer_size` counts the NUL as well. -/
def bufferOf (text : Bytes) : QueryBuffer := ⟨text, 1 + text.length⟩

theorem bufferOf_text (text : Bytes) : (bufferOf text).text = text := rfl

theorem bufferOf_size (text : Bytes) : (bufferOf text).size = 1 + text.length := rfl

def clip (text : Bytes) : Bytes := text.take 2047

/-- What `synapi_add_parameter` takes of a string: as much as its length as an
`int` says, and there is no end to it when that is negative. -/
def taken (src : Bytes) : Option Bytes :=
  if 0 ≤ toInt src.length then some (src.take (toInt src.length).toNat) else none

theorem toInt_le (n : ℕ) : toInt n ≤ n ∧ (0 ≤ toInt n ∨ 2 ^ 31 ≤ n) := by
  unfold toInt
  have hb := Int.bmod_def n (2 ^ 32)
  split_ifs at hb <;> omega

theorem toInt_lower (n : ℕ) : -2 ^ 31 ≤ toInt n := by
  have := Int.le_bmod (x := n) (m := 2 ^ 32) (by omega)
  unfold toInt
  omega

theorem taken_short {src : Bytes} (h : src.length < 2 ^ 31) : taken src = some src := by
  rw [taken, toInt_natCast h, if_pos (by omega), Int.toNat_natCast, List.take_length]

theorem taken_length {src s : Bytes} (h : taken src = some s) :
    (s.length : ℤ) = toInt src.length ∧ s = src.take s.length := by
  unfold taken at h
  split_ifs at h with h0
  have hle := (toInt_le src.length).1
  obtain rfl := Option.some.inj h
  have hlen : (src.take (toInt src.length).toNat).length = (toInt src.length).toNat := by
    rw [List.length_take]
    omega
  rw [hlen]
  exact ⟨by omega, rfl⟩

theorem clip_short {text : Bytes} (h : text.length ≤ 2047) : clip text = text :=
  List.take_of_length_le h

theorem clip_length (text : Bytes) : (clip text).length ≤ 2047 :=
  List.length_take_le _ _

theorem clip_full {text : Bytes} (h : 2047 ≤ text.length) : (clip text).length = 2047 := by
  rw [clip, List.length_take]
  omega

theorem clip_append (text more : Bytes) : clip (clip text ++ more) = clip (text ++ more) := by
  by_cases h : text.length ≤ 2047
  · rw [clip_short h]
  · have full := clip_full (Nat.le_of_lt (Nat.lt_of_not_le h))
    have whole : clip (text ++ more) = clip text := List.take_append_of_le_length (by omega)
    rw [whole, clip, List.take_append_of_le_length (Nat.le_of_eq full.symm),
      List.take_of_length_le (Nat.le_of_eq full)]

theorem sizeT_neg {z : ℤ} (h : z < 0) (hz : -2 ^ 31 ≤ z) : 2 ^ 63 ≤ sizeT z := by
  unfold sizeT
  omega

section Append

variable {text src s : Bytes} (hfit : text.length ≤ 2047)

include hfit

theorem clamp_bufferOf (ht : taken src = some s) :
    (bufferOf text).clamp src = min s.length (2047 - text.length) := by
  obtain ⟨hlen, -⟩ := taken_length ht
  simp only [QueryBuffer.clamp, bufferOf, bufferMax, ← hlen]
  split_ifs <;> omega

theorem clampedCat_bufferOf (ht : taken src = some s) :
    (bufferOf text).clampedCat src = .ok (bufferOf (clip (text ++ s))) := by
  obtain ⟨-, hs⟩ := taken_length ht
  have clipped : clip (text ++ s) = text ++ src.take (min s.length (2047 - text.length)) := by
    rw [clip, List.take_append, List.take_of_length_le hfit, Nat.min_comm, ← List.take_take, ← hs]
  have length := congrArg List.length clipped
  rw [List.length_append, List.length_take] at length
  have hsrc : s.length ≤ src.length := by
    rw [hs]
    exact List.length_take_le' _ _
  have bound : sizeT ((min s.length (2047 - text.length) : ℕ) : ℤ) =
      min s.length (2047 - text.length) := sizeT_natCast (by omega)
  have small : (clip (text ++ s)).length < bufferMax :=
    Nat.lt_of_le_of_lt (clip_length _) (by decide)
  rw [QueryBuffer.clampedCat, QueryBuffer.strncat, clamp_bufferOf hfit ht, bound, Text.strncat,
    bufferOf_text, ← clipped, if_pos small, inBounds, ok_bind, bufferOf_size]
  refine congrArg Except.ok (congrArg (QueryBuffer.mk _) ?_)
  omega

theorem clampedCat_overrun (ht : taken src = none) :
    (bufferOf text).clampedCat src = .error .outOfBounds := by
  unfold taken at ht
  split_ifs at ht with h0
  have hlong := (toInt_le src.length).2.resolve_left h0
  have hlow := toInt_lower src.length
  have clamp : (bufferOf text).clamp src = toInt src.length := by
    have room : (bufferMax : ℤ) - (bufferOf text).size = 2047 - text.length := by
      rw [bufferOf_size, bufferMax]
      omega
    rw [QueryBuffer.clamp, room, if_neg (by omega)]
  have bound := sizeT_neg (by omega) hlow
  rw [QueryBuffer.clampedCat, clamp, QueryBuffer.strncat, Text.strncat, bufferOf_text, if_neg]
  · rfl
  · rw [List.length_append, List.length_take, bufferMax]
    omega

theorem addParameter_bufferOf {attr value : Bytes} (ha : attr.length < 64)
    (hv : taken value = some s) :
    synapiAddParameter (bufferOf text) attr (some value) =
      .ok (bufferOf (clip (text ++ attr ++ s))) := by
  rw [synapiAddParameter, clampedCat_bufferOf hfit (taken_short (by omega)), ok_bind, inBounds,
    ok_bind, clampedCat_bufferOf (clip_length _) hv, clip_append]

end Append

theorem separate_bufferOf {text : Bytes} {bound : ℤ} (hfit : text.length ≤ 2046)
    (hb : text ≠ [] → 1 ≤ sizeT bound) :
    separate (bufferOf text) bound = .ok (bufferOf (separated text)) := by
  unfold separate separated
  by_cases ht : text = []
  · rw [if_pos ht, ht, if_neg (by simp [bufferOf])]
  · have := List.length_pos_iff.mpr ht
    have amp : (ascii "&").take (sizeT bound) = [38] := List.take_of_length_le (hb ht)
    have grown : (text ++ [38]).length < bufferMax := by
      rw [List.length_append, bufferMax, List.length_singleton]
      omega
    rw [if_neg ht, if_pos (by rw [bufferOf_size]; omega), QueryBuffer.strncat, Text.strncat, amp,
      bufferOf_text, if_pos grown, inBounds, ok_bind, bufferOf_size, bufferOf, List.length_append,
      List.length_singleton]
    push_cast
    rw [Int.add_assoc]

theorem separate_full {text : Bytes} {bound : ℤ} (hfull : text.length = 2047)
    (hb : 1 ≤ sizeT bound) : separate (bufferOf text) bound = .error .outOfBounds := by
  have amp : (ascii "&").take (sizeT bound) = [38] := List.take_of_length_le hb
  have grown : ¬(text ++ [38]).length < bufferMax := by
    rw [List.length_append, bufferMax, List.length_singleton]
    omega
  rw [separate, if_pos (by rw [bufferOf_size]; omega), QueryBuffer.strncat, Text.strncat, amp,
    bufferOf_text, if_neg grown]
  rfl

/-- The bound of the separator wraps around, except on a text of six bytes. -/
theorem separator_bound {text : Bytes} (h : text.length ≠ 6) (hfit : text.length ≤ 2047) :
    1 ≤ sizeT (sizeofBuffer - ((bufferOf text).size + 1)) := by
  simp only [sizeofBuffer, bufferOf, sizeT]
  omega

/-! The options -/

def SynapiOption.takenText (option : SynapiOption) : Option Bytes := option.encoded.bind taken

def SynapiOption.piece (option : SynapiOption) : Bytes := option.takenText.getD []

def pieces (options : List SynapiOption) : List (Bytes × Bytes) :=
  options.map (fun option => (option.name, option.piece))

/-- Every value has an end, and the parameters leave room for one more byte. -/
def Fits (options : List SynapiOption) : Prop :=
  (∀ option ∈ options, option.takenText.isSome = true) ∧ (render (pieces options)).length ≤ 2046

instance (options : List SynapiOption) : Decidable (Fits options) :=
  inferInstanceAs (Decidable (_ ∧ _))

theorem fits_nil : Fits [] := by decide

def trailer : SynapiMethod → Bytes
  | .get => []
  | method => ascii "_method=" ++ method.name

theorem pieces_append (options more : List SynapiOption) :
    pieces (options ++ more) = pieces options ++ pieces more :=
  List.map_append

theorem Fits.of_append {options more : List SynapiOption} (h : Fits (options ++ more)) :
    Fits options := by
  refine ⟨fun option ho => h.1 option (List.mem_append_left _ ho), le_trans ?_ h.2⟩
  rw [pieces_append]
  exact render_length_le _ _

theorem renderPair_piece (option : SynapiOption) :
    renderPair (option.name, option.piece) = option.attr ++ option.piece := by
  rw [attr_eq, renderPair, List.append_assoc, List.singleton_append]

theorem render_pieces_snoc (done : List SynapiOption) (option : SynapiOption) :
    render (pieces (done ++ [option])) =
      separated (render (pieces done)) ++ option.attr ++ option.piece := by
  rw [pieces_append, List.append_assoc, ← renderPair_piece]
  exact render_snoc _ _

theorem pieces_length {options : List SynapiOption} (h : options ≠ []) :
    20 ≤ (render (pieces options)).length := by
  rcases List.eq_nil_or_concat options with rfl | ⟨done, option, rfl⟩
  · exact absurd rfl h
  · have := attr_length option
    rw [List.concat_eq_append, render_pieces_snoc, List.length_append, List.length_append]
    omega

theorem separator_pieces {done : List SynapiOption} {bound : ℤ}
    (hfit : (render (pieces done)).length ≤ 2047)
    (hbound : bound = 1 ∨ bound = sizeofBuffer - ((bufferOf (render (pieces done))).size + 1))
    (hne : render (pieces done) ≠ []) : 1 ≤ sizeT bound := by
  rcases hbound with rfl | rfl
  · decide
  · have hdone : done ≠ [] := by
      rintro rfl
      exact hne rfl
    have := pieces_length hdone
    exact separator_bound (by omega) hfit

theorem separated_length {text : Bytes} (h : text.length ≤ 2046) :
    (separated text).length ≤ 2047 := by
  unfold separated
  split_ifs
  · exact Nat.zero_le _
  · rw [List.length_append, List.length_singleton]
    omega

theorem takenText_eq {option : SynapiOption} {v : Bytes} (h : option.takenText = some v) :
    ∃ value, option.encoded = some value ∧ taken value = some v ∧ option.piece = v := by
  obtain ⟨value, hvalue, hv⟩ := Option.bind_eq_some_iff.mp h
  exact ⟨value, hvalue, hv, by rw [SynapiOption.piece, h, Option.getD_some]⟩

theorem takenText_none {option : SynapiOption} {value : Bytes}
    (hvalue : option.encoded = some value) (h : option.takenText = none) : taken value = none := by
  unfold SynapiOption.takenText at h
  rw [hvalue] at h
  exact (Option.bind_some value taken).symm.trans h

theorem addOption_bufferOf {done : List SynapiOption} {option : SynapiOption} {v : Bytes}
    (hfit : (render (pieces done)).length ≤ 2046) (hv : option.takenText = some v) :
    addOption (bufferOf (render (pieces done))) option =
      .ok (bufferOf (clip (render (pieces (done ++ [option]))))) := by
  obtain ⟨value, hvalue, htaken, hpiece⟩ := takenText_eq hv
  rw [addOption, separate_bufferOf hfit (separator_pieces (by omega) (.inr rfl)), ok_bind, hvalue,
    addParameter_bufferOf (separated_length hfit) (attr_length option).2 htaken,
    render_pieces_snoc, hpiece]

theorem addOption_overrun {done : List SynapiOption} {option : SynapiOption}
    (hfit : (render (pieces done)).length ≤ 2046) (hv : option.takenText = none) :
    addOption (bufferOf (render (pieces done))) option = .error .outOfBounds := by
  have hattr : option.attr.length < 2 ^ 31 := by
    have := (attr_length option).2
    omega
  rw [addOption, separate_bufferOf hfit (separator_pieces (by omega) (.inr rfl)), ok_bind,
    synapiAddParameter, clampedCat_bufferOf (separated_length hfit) (taken_short hattr), ok_bind]
  cases hvalue : option.encoded with
  | none => rfl
  | some value =>
    rw [inBounds, ok_bind, clampedCat_overrun (clip_length _) (takenText_none hvalue hv)]

theorem addOption_full {text : Bytes} (hfull : text.length = 2047) (option : SynapiOption) :
    addOption (bufferOf text) option = .error .outOfBounds := by
  have hb : 1 ≤ sizeT (sizeofBuffer - ((bufferOf text).size + 1)) :=
    separator_bound (by omega) (by omega)
  rw [addOption, separate_full hfull hb]
  rfl

theorem addOptions_bufferOf (options done : List SynapiOption) (hfits : Fits (done ++ options)) :
    addOptions (bufferOf (render (pieces done))) options =
      .ok (bufferOf (render (pieces (done ++ options)))) := by
  induction options generalizing done with
  | nil => rw [List.append_nil]; rfl
  | cons option options ih =>
    rw [← List.singleton_append, ← List.append_assoc] at hfits ⊢
    have first := hfits.of_append
    obtain ⟨v, hv⟩ := Option.isSome_iff_exists.mp (first.1 option (by simp))
    rw [List.singleton_append, addOptions, addOption_bufferOf first.of_append.2 hv,
      clip_short (Nat.le_succ_of_le first.2), ok_bind]
    exact ih _ hfits

theorem addOptions_fits (options done : List SynapiOption) {b b' : QueryBuffer}
    (hdone : Fits done) (h : addOptions (bufferOf (render (pieces done))) options = .ok b)
    (hsep : separate b 1 = .ok b') : Fits (done ++ options) := by
  induction options generalizing done with
  | nil => rwa [List.append_nil]
  | cons option options ih =>
    obtain ⟨b₁, hb₁, hrest⟩ := bind_eq_ok.mp h
    cases hv : option.takenText with
    | none =>
      rw [addOption_overrun hdone.2 hv] at hb₁
      cases hb₁
    | some v =>
      rw [addOption_bufferOf hdone.2 hv, Except.ok.injEq] at hb₁
      subst hb₁
      have room : (render (pieces (done ++ [option]))).length ≤ 2046 := by
        by_contra hlong
        have full : (clip (render (pieces (done ++ [option])))).length = 2047 := clip_full (by omega)
        cases options with
        | nil =>
          rw [← Except.ok.inj hrest, separate_full full (by decide)] at hsep
          cases hsep
        | cons next options =>
          rw [addOptions, addOption_full full] at hrest
          cases hrest
      rw [clip_short (Nat.le_succ_of_le room)] at hrest
      have grown : Fits (done ++ [option]) := by
        refine ⟨fun x hx => ?_, room⟩
        rcases List.mem_append.mp hx with hx | hx
        · exact hdone.1 x hx
        · rw [List.mem_singleton.mp hx, hv]
          rfl
      rw [← List.singleton_append, ← List.append_assoc]
      exact ih _ grown hrest

theorem addMethod_bufferOf {text : Bytes} (hfit : text.length ≤ 2047) (method : SynapiMethod) :
    addMethod (bufferOf text) method = .ok (bufferOf (clip (text ++ trailer method))) := by
  have named (name : Bytes) (hn : name.length < 64) :
      synapiAddParameter (bufferOf text) (ascii "_method=") (some name) =
        .ok (bufferOf (clip (text ++ (ascii "_method=" ++ name)))) := by
    rw [addParameter_bufferOf hfit (by decide) (taken_short (by omega)), List.append_assoc]
  cases method with
  | get => rw [trailer, List.append_nil, clip_short hfit]; rfl
  | post => exact named _ (by decide)
  | put => exact named _ (by decide)
  | delete => exact named _ (by decide)

theorem take_bufferOf (text : Bytes) :
    (bufferOf text).text.take (bufferOf text).size.toNat = text := by
  rw [bufferOf_text, bufferOf_size]
  exact List.take_of_length_le (by omega)


theorem synapiBuildQueryString_fits (method : SynapiMethod) {options : List SynapiOption}
    (h : Fits options) : synapiBuildQueryString method (some options) =
      .ok (clip (separated (render (pieces options)) ++ trailer method)) := by
  have added : optionsText (some options) = .ok (bufferOf (render (pieces options))) :=
    addOptions_bufferOf options [] h
  rw [synapiBuildQueryString, added, ok_bind,
    separate_bufferOf h.2 (separator_pieces (Nat.le_succ_of_le h.2) (.inl rfl)), ok_bind,
    addMethod_bufferOf (separated_length h.2), ok_bind, take_bufferOf]

theorem fits_of_build {method : SynapiMethod} {options : List SynapiOption} {query : Bytes}
    (h : synapiBuildQueryString method (some options) = .ok query) : Fits options := by
  obtain ⟨b, hb, h⟩ := bind_eq_ok.mp h
  obtain ⟨b', hb', -⟩ := bind_eq_ok.mp h
  exact addOptions_fits options [] fits_nil hb hb'

/-! The calls of `strncat`, one by one -/

inductive Append where
  | separator (inLoop : Bool)
  | clamped (src : Option Bytes)

-- The bounds of the separators are of the type `size_t`, the others of the type `int`.
def Append.bound (b : QueryBuffer) : Append → ℤ
  | .separator true => sizeT (sizeofBuffer - (b.size + 1))
  | .separator false => 1
  | .clamped src => b.clamp (src.getD [])

def appendStep (b : QueryBuffer) : Append → Except Fault QueryBuffer
  | .separator true => separate b (sizeofBuffer - (b.size + 1))
  | .separator false => separate b 1
  | .clamped src => do b.clampedCat (← inBounds src)

def optionAppends (option : SynapiOption) : List Append :=
  [.separator true, .clamped (some option.attr), .clamped option.encoded]

def methodAppends : SynapiMethod → List Append
  | .get => []
  | method => [.clamped (some (ascii "_method=")), .clamped (some method.name)]

def appends (method : SynapiMethod) (options : List SynapiOption) : List Append :=
  options.flatMap optionAppends ++ .separator false :: methodAppends method

structure QueryBuffer.InStep (b : QueryBuffer) : Prop where
  fits : b.text.length + 1 ≤ bufferMax
  counted : b.size = b.text.length + 1

def Append.Sound (b : QueryBuffer) (a : Append) (b' : QueryBuffer) : Prop :=
  b.InStep ∧ 0 ≤ a.bound b ∧ b'.InStep

def StaysInside (method : SynapiMethod) (options : List SynapiOption) : Prop :=
  EachStep Append.Sound appendStep ⟨[], 1⟩ (appends method options) ∧
    ∃ b, run appendStep ⟨[], 1⟩ (appends method options) = .ok b ∧
      synapiBuildQueryString method (some options) = .ok b.text

theorem optionAppends_run (b : QueryBuffer) (option : SynapiOption) :
    run appendStep b (optionAppends option) = addOption b option := by
  simp only [optionAppends, run, appendStep, addOption, synapiAddParameter]
  cases separate b (sizeofBuffer - (b.size + 1)) with
  | error e => rfl
  | ok b₁ =>
    simp only [ok_bind, inBounds]
    cases b₁.clampedCat option.attr with
    | error e => rfl
    | ok b₂ =>
      simp only [ok_bind]
      cases option.encoded with
      | none => rfl
      | some value =>
        simp only [ok_bind]
        cases b₂.clampedCat value <;> rfl

theorem optionsAppends_run (b : QueryBuffer) (options : List SynapiOption) :
    run appendStep b (options.flatMap optionAppends) = addOptions b options := by
  induction options generalizing b with
  | nil => rfl
  | cons option options ih =>
    rw [List.flatMap_cons, run_append, optionAppends_run, addOptions]
    exact congrArg _ (funext ih)

theorem methodAppends_run (b : QueryBuffer) (method : SynapiMethod) :
    run appendStep b (methodAppends method) = addMethod b method := by
  have named (name : Bytes) :
      run appendStep b [.clamped (some (ascii "_method=")), .clamped (some name)] =
        synapiAddParameter b (ascii "_method=") (some name) := by
    simp only [run, appendStep, synapiAddParameter, inBounds, ok_bind]
    cases b.clampedCat (ascii "_method=") with
    | error e => rfl
    | ok b₁ =>
      simp only [ok_bind]
      cases b₁.clampedCat name <;> rfl
  cases method with
  | get => rfl
  | post => exact named _
  | put => exact named _
  | delete => exact named _

/-- The builder makes these calls and copies what they leave. -/
theorem appends_run (method : SynapiMethod) (options : List SynapiOption) :
    synapiBuildQueryString method (some options) =
      (run appendStep ⟨[], 1⟩ (appends method options) >>=
        fun b => .ok (b.text.take b.size.toNat)) := by
  rw [appends, run_append, optionsAppends_run, synapiBuildQueryString, optionsText]
  cases addOptions ⟨[], 1⟩ options with
  | error e => rfl
  | ok b =>
    simp only [ok_bind, run, appendStep]
    cases separate b 1 with
    | error e => rfl
    | ok b₁ =>
      simp only [ok_bind, methodAppends_run]

theorem inStep_bufferOf {text : Bytes} (h : text.length ≤ 2047) : (bufferOf text).InStep := by
  refine ⟨?_, ?_⟩
  · rw [bufferOf_text, bufferMax]
    omega
  · rw [bufferOf_size, bufferOf_text]
    omega

theorem sound_clamped {text src s : Bytes} (hfit : text.length ≤ 2047) (ht : taken src = some s) :
    (Append.clamped (some src)).Sound (bufferOf text) (bufferOf (clip (text ++ s))) := by
  refine ⟨inStep_bufferOf hfit, ?_, inStep_bufferOf (clip_length _)⟩
  rw [Append.bound, Option.getD_some, clamp_bufferOf hfit ht]
  exact Int.natCast_nonneg _

theorem eachStep_clamped {text src s : Bytes} {rest : List Append} (hfit : text.length ≤ 2047)
    (ht : taken src = some s)
    (hrest : EachStep Append.Sound appendStep (bufferOf (clip (text ++ s))) rest) :
    EachStep Append.Sound appendStep (bufferOf text) (.clamped (some src) :: rest) := by
  refine ⟨_, ?_, sound_clamped hfit ht, hrest⟩
  rw [appendStep, inBounds, ok_bind, clampedCat_bufferOf hfit ht]

theorem eachStep_separator {done : List SynapiOption} (inLoop : Bool) {rest : List Append}
    (hfit : (render (pieces done)).length ≤ 2046)
    (hrest : EachStep Append.Sound appendStep (bufferOf (separated (render (pieces done)))) rest) :
    EachStep Append.Sound appendStep (bufferOf (render (pieces done)))
      (.separator inLoop :: rest) := by
  have inside := inStep_bufferOf (Nat.le_succ_of_le hfit)
  have inside' := inStep_bufferOf (separated_length hfit)
  cases inLoop with
  | true =>
    refine ⟨_, separate_bufferOf hfit (separator_pieces (by omega) (.inr rfl)), ?_, hrest⟩
    exact ⟨inside, Int.natCast_nonneg _, inside'⟩
  | false =>
    refine ⟨_, separate_bufferOf hfit (separator_pieces (by omega) (.inl rfl)), ?_, hrest⟩
    exact ⟨inside, Int.zero_le_ofNat 1, inside'⟩

theorem eachStep_option {done : List SynapiOption} {option : SynapiOption} {v : Bytes}
    (hfit : (render (pieces done)).length ≤ 2046) (hv : option.takenText = some v) :
    EachStep Append.Sound appendStep (bufferOf (render (pieces done))) (optionAppends option) := by
  obtain ⟨value, hvalue, htaken, -⟩ := takenText_eq hv
  have hattr : option.attr.length < 2 ^ 31 := by
    have := (attr_length option).2
    omega
  rw [optionAppends, hvalue]
  apply eachStep_separator true hfit
  apply eachStep_clamped (separated_length hfit) (taken_short hattr)
  exact eachStep_clamped (clip_length _) htaken trivial

theorem eachStep_options (options done : List SynapiOption) (hfits : Fits (done ++ options)) :
    EachStep Append.Sound appendStep (bufferOf (render (pieces done)))
      (options.flatMap optionAppends) := by
  induction options generalizing done with
  | nil => trivial
  | cons option options ih =>
    rw [← List.singleton_append, ← List.append_assoc] at hfits
    have first := hfits.of_append
    have before := first.of_append
    obtain ⟨v, hv⟩ := Option.isSome_iff_exists.mp (first.1 option (by simp))
    rw [List.flatMap_cons]
    refine eachStep_append (eachStep_option before.2 hv) ?_ (ih _ hfits)
    rw [optionAppends_run, addOption_bufferOf before.2 hv, clip_short (Nat.le_succ_of_le first.2)]

theorem eachStep_method {text : Bytes} (hfit : text.length ≤ 2047) (method : SynapiMethod) :
    EachStep Append.Sound appendStep (bufferOf text) (methodAppends method) := by
  have named (name : Bytes) (hn : name.length < 64) : EachStep Append.Sound appendStep
      (bufferOf text) [.clamped (some (ascii "_method=")), .clamped (some name)] := by
    apply eachStep_clamped hfit (taken_short (by decide))
    exact eachStep_clamped (clip_length _) (taken_short (by omega)) trivial
  cases method with
  | get => trivial
  | post => exact named _ (by decide)
  | put => exact named _ (by decide)
  | delete => exact named _ (by decide)

/-- The builder stays inside its buffer exactly when the parameters leave room
for one more byte. -/
theorem stays_inside_iff (method : SynapiMethod) (options : List SynapiOption) :
    StaysInside method options ↔ Fits options := by
  constructor
  · rintro ⟨-, b, -, hb⟩
    exact fits_of_build hb
  · intro h
    have added : addOptions (bufferOf []) options = .ok (bufferOf (render (pieces options))) :=
      addOptions_bufferOf options [] h
    have start : (⟨[], 1⟩ : QueryBuffer) = bufferOf [] := rfl
    have last := eachStep_separator false h.2
      (eachStep_method (separated_length h.2) method)
    refine ⟨?_, bufferOf (clip (separated (render (pieces options)) ++ trailer method)), ?_,
      synapiBuildQueryString_fits method h⟩
    · rw [start]
      exact eachStep_append (eachStep_options options [] h)
        ((optionsAppends_run _ _).trans added) last
    · rw [start, appends, run_append, optionsAppends_run, added, ok_bind, run, appendStep,
        separate_bufferOf h.2 (separator_pieces (Nat.le_succ_of_le h.2) (.inl rfl))]
      exact (methodAppends_run _ _).trans (addMethod_bufferOf (separated_length h.2) method)

theorem long_name_overruns :
    ¬ StaysInside .put [.playerName ⟨List.replicate 2027 97, by decide +kernel⟩] := by
  rintro ⟨-, b, -, hb⟩
  have overrun : synapiBuildQueryString .put
      (some [.playerName ⟨List.replicate 2027 97, by decide +kernel⟩]) = .error .outOfBounds := by
    decide +kernel
  rw [overrun] at hb
  cases hb

end Synapi

import Synapi.QueryBuffer

/-!
The query is the form encoding of the options: it can be read back.
-/

namespace Synapi

open Runs Text FormEncoding

def SynapiOption.value : SynapiOption → Bytes
  | .serverSlots n | .playerScore n | .playerScoreModifier n | .playerInternalId n =>
    decimal n.toInt
  | .serverGame s | .serverIp s | .serverPort s | .serverName s | .serverLevel s
  | .playerName s | .playerNetworkId s => s.val

/-- The names of the options, with the values as they are written. -/
def optionPairs (options : List SynapiOption) : List (Bytes × Bytes) :=
  options.map (fun option => (option.name, option.text))

def queryPairs (options : List SynapiOption) (method : SynapiMethod) : List (Bytes × Bytes) :=
  optionPairs options ++ [(ascii "_method", method.name)]

/-- What a query is to say: the options in order, then the method. -/
def queryMeaning (options : List SynapiOption) (method : SynapiMethod) : List (Bytes × Bytes) :=
  options.map (fun option => (option.name, option.value)) ++ [(ascii "_method", method.name)]

theorem name_plain (option : SynapiOption) : 61 ∉ option.name ∧ 38 ∉ option.name := by
  cases option <;> simp only [SynapiOption.name] <;> decide +kernel

theorem int32_decimal (n : Int32) : snprintf 63 (decimal n.toInt) = decimal n.toInt := by
  apply snprintf_whole
  have := decimal_length n.le_toInt n.toInt_lt
  omega

theorem decimal_plain {z : ℤ} {b : UInt8} (hb : b = 37 ∨ b = 38) : b ∉ decimal z := by
  intro h
  rcases hb with rfl | rfl <;> rcases mem_decimal h with h | h <;> revert h <;> decide

theorem decode_text (option : SynapiOption) : percentDecode option.text = option.value := by
  have number (n : Int32) : percentDecode (snprintf 63 (decimal n.toInt)) = decimal n.toInt := by
    rw [int32_decimal]
    exact percentDecode_plain (decimal_plain (.inl rfl))
  cases option <;> first | exact number _ | exact percentDecode_percentEncode _

theorem text_plain (option : SynapiOption) : 38 ∉ option.text := by
  have number (n : Int32) : 38 ∉ snprintf 63 (decimal n.toInt) := by
    rw [int32_decimal]
    exact decimal_plain (.inr rfl)
  cases option <;> first | exact number _ | exact amp_notMem_percentEncode _

/-! Short values -/

theorem length_le_percentEncode (s : Bytes) : s.length ≤ (percentEncode s).length := by
  induction s with
  | nil => exact Nat.zero_le _
  | cons b s ih =>
    have hb : 1 ≤ (encodeByte b).length := by
      unfold encodeByte
      split_ifs <;> simp
    rw [percentEncode, List.flatMap_cons, List.length_append, List.length_cons]
    change s.length + 1 ≤ (encodeByte b).length + (percentEncode s).length
    omega

theorem curlEscapeArg_short {s : CString} (h : (curlEscape s.val).length < 2 ^ 31) :
    curlEscapeArg s = some (curlEscape s.val) := by
  have hlen := length_le_percentEncode s.val
  have hint : toInt s.val.length = s.val.length :=
    toInt_natCast (Nat.lt_of_le_of_lt hlen h)
  unfold curlEscapeArg
  rw [hint, if_neg (by omega), Int.toNat_natCast, List.take_length, ite_self]

theorem encoded_short {option : SynapiOption} (h : option.text.length < 2 ^ 31) :
    option.encoded = some option.text := by
  cases option with
  | serverSlots | playerScore | playerScoreModifier | playerInternalId => rfl
  | _ =>
    simp only [SynapiOption.encoded, SynapiOption.text] at h ⊢
    exact curlEscapeArg_short h

theorem takenText_short {option : SynapiOption} (h : option.text.length < 2 ^ 31) :
    option.takenText = some option.text := by
  rw [SynapiOption.takenText, encoded_short h]
  exact (Option.bind_some _ _).trans (taken_short h)

theorem text_length_le {options : List SynapiOption} {option : SynapiOption}
    (ho : option ∈ options) : option.text.length ≤ (render (optionPairs options)).length := by
  obtain ⟨pre, post, rfl⟩ := List.append_of_mem ho
  have split : optionPairs (pre ++ option :: post) =
      optionPairs pre ++ [(option.name, option.text)] ++ optionPairs post := by
    simp [optionPairs]
  have whole := render_length_le (optionPairs pre ++ [(option.name, option.text)]) (optionPairs post)
  rw [render_snoc, renderPair, List.length_append, List.length_append, List.length_cons] at whole
  rw [split]
  simp only at whole
  omega

theorem pieces_short {options : List SynapiOption}
    (h : (render (optionPairs options)).length ≤ 2046) :
    Fits options ∧ pieces options = optionPairs options := by
  have short {option : SynapiOption} (ho : option ∈ options) :
      option.takenText = some option.text := by
    have := text_length_le ho
    exact takenText_short (by omega)
  have same : pieces options = optionPairs options := by
    refine List.map_congr_left (fun option ho => ?_)
    rw [SynapiOption.piece, short ho, Option.getD_some]
  refine ⟨⟨fun option ho => by rw [short ho, Option.isSome_some], ?_⟩, same⟩
  rw [same]
  exact h

theorem synapiBuildQueryString_eq {method : SynapiMethod} {options : List SynapiOption}
    (hm : method ≠ .get) (hfit : (render (queryPairs options method)).length ≤ 2047) :
    synapiBuildQueryString method (some options) = .ok (render (queryPairs options method)) := by
  have whole : render (queryPairs options method) =
      separated (render (optionPairs options)) ++ (ascii "_method=" ++ method.name) := by
    rw [queryPairs, render_snoc, renderPair]
    rfl
  have last : trailer method = ascii "_method=" ++ method.name := by
    cases method with
    | get => exact absurd rfl hm
    | _ => rfl
  have front : (render (optionPairs options)).length ≤ 2046 := by
    have hmethod : (ascii "_method=").length = 8 := rfl
    have := length_le_separated (render (optionPairs options))
    rw [whole, List.length_append, List.length_append] at hfit
    omega
  obtain ⟨hfits, hpieces⟩ := pieces_short front
  rw [synapiBuildQueryString_fits method hfits, hpieces, last, ← whole, clip_short hfit]

theorem parse_query {method : SynapiMethod} (options : List SynapiOption) :
    parse (render (queryPairs options method)) = queryMeaning options method := by
  have hname : ∀ pair ∈ queryPairs options method, 61 ∉ pair.1 ∧ 38 ∉ pair.1 := by
    intro pair hp
    rcases List.mem_append.mp hp with hp | hp
    · obtain ⟨option, -, rfl⟩ := List.mem_map.mp hp
      exact name_plain option
    · rw [List.mem_singleton.mp hp]
      change 61 ∉ ascii "_method" ∧ 38 ∉ ascii "_method"
      decide
  have hvalue : ∀ pair ∈ queryPairs options method, 38 ∉ pair.2 := by
    intro pair hp
    rcases List.mem_append.mp hp with hp | hp
    · obtain ⟨option, -, rfl⟩ := List.mem_map.mp hp
      exact text_plain option
    · rw [List.mem_singleton.mp hp]
      cases method <;> decide
  rw [parse_render (by simp [queryPairs]) hname hvalue, queryPairs, queryMeaning, optionPairs,
    List.map_append, List.map_map, List.map_singleton]
  congr 1
  · exact List.map_congr_left (fun option _ => by simp only [Function.comp, decode_text])
  · rw [percentDecode_plain (by cases method <;> decide)]

-- The value of the enumeration `synapi_option`.
def SynapiOption.code : SynapiOption → ℕ
  | .serverSlots _ => 0
  | .serverGame _ => 1
  | .serverIp _ => 2
  | .serverPort _ => 3
  | .serverName _ => 4
  | .serverLevel _ => 5
  | .playerName _ => 6
  | .playerScore _ => 7
  | .playerScoreModifier _ => 8
  | .playerInternalId _ => 9
  | .playerNetworkId _ => 10

def optionNames : List Bytes :=
  [ascii "server[server_profile_attributes][slots]",
    ascii "server[server_profile_attributes][game_identifier]",
    ascii "server[server_profile_attributes][ip]",
    ascii "server[server_profile_attributes][port]",
    ascii "server[server_profile_attributes][name]",
    ascii "server[server_profile_attributes][level_name]",
    ascii "server_player[name]", ascii "server_player[score]",
    ascii "server_player[score_modifier]", ascii "server_player[internal_id]",
    ascii "server_player[network_identifier]"]

theorem optionNames_code (option : SynapiOption) :
    optionNames[option.code]? = some option.name := by
  cases option <;> rfl

theorem code_of_name {a b : SynapiOption} (h : a.name = b.name) : a.code = b.code := by
  have distinct : optionNames.Nodup := by decide +kernel
  have ha := optionNames_code a
  have hb := optionNames_code b
  obtain ⟨hl, -⟩ := List.getElem?_eq_some_iff.mp ha
  refine (List.getElem?_inj hl distinct).mp ?_
  rw [ha, hb, h]

theorem option_ext {a b : SynapiOption} (hn : a.name = b.name) (hv : a.value = b.value) :
    a = b := by
  have number {m n : Int32} (h : decimal m.toInt = decimal n.toInt) : m = n :=
    Int32.toInt_inj.mp (decimal_injective h)
  have hc : a.code = b.code := code_of_name hn
  cases a <;> cases b <;>
    first
    | exact congrArg _ (number hv)
    | exact congrArg _ (Subtype.ext hv)
    | exact absurd hc (by simp [SynapiOption.code])

theorem queryMeaning_injective {options options' : List SynapiOption}
    {method method' : SynapiMethod}
    (h : queryMeaning options method = queryMeaning options' method') :
    options = options' ∧ method = method' := by
  obtain ⟨hoptions, hmethod⟩ := List.append_inj' h rfl
  constructor
  · refine List.map_injective_iff.mpr (fun a b hab => ?_) hoptions
    exact option_ext (congrArg Prod.fst hab) (congrArg Prod.snd hab)
  · have hname : method.name = method'.name := by simpa using hmethod
    cases method <;> cases method' <;> first | rfl | exact absurd hname (by decide)

theorem query_faithful (method : SynapiMethod) (options : List SynapiOption)
    (hm : method ≠ .get) (hfit : (render (queryPairs options method)).length ≤ 2047) :
    ∃ query, synapiBuildQueryString method (some options) = .ok query ∧
      parse query = queryMeaning options method ∧
      ∀ method' options', method' ≠ .get →
        (render (queryPairs options' method')).length ≤ 2047 →
        synapiBuildQueryString method' (some options') = .ok query →
        options' = options ∧ method' = method := by
  refine ⟨_, synapiBuildQueryString_eq hm hfit, parse_query options, ?_⟩
  intro method' options' hm' hfit' hsame
  rw [synapiBuildQueryString_eq hm' hfit', Except.ok.injEq] at hsame
  apply queryMeaning_injective
  rw [← parse_query, ← parse_query, hsame]

theorem query_faithful_hostile :
    ∃ query, synapiBuildQueryString .put (some [.playerName ⟨ascii "a&b=%41", by decide⟩,
        .playerName ⟨[], by decide⟩, .playerScore (-2147483648)]) = .ok query ∧
      parse query = [(ascii "server_player[name]", ascii "a&b=%41"),
        (ascii "server_player[name]", []), (ascii "server_player[score]", ascii "-2147483648"),
        (ascii "_method", ascii "put")] := by
  obtain ⟨query, hq, hp, -⟩ := query_faithful .put
    [.playerName ⟨ascii "a&b=%41", by decide⟩, .playerName ⟨[], by decide⟩,
      .playerScore (-2147483648)] (by decide) (by decide +kernel)
  exact ⟨query, hq, hp⟩

end Synapi

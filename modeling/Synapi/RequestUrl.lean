import Synapi.KeyGate
import Mathlib.Data.List.TakeDrop

/-!
When the URL of a request is whole: 254 bytes are all that the array takes.
-/

namespace Synapi

open Runs Text

variable {p : ℤ} {w : World p} {key : Block Bytes} {r r₁ r₂ : SynapiRequest}

def SynapiAction.onPlayer (action : SynapiAction) : Prop :=
  action = .playersUpdate ∨ action = .playersDelete

def wholeUrl (w : World p) (key : Bytes) (request : SynapiRequest) : Bytes :=
  urlOf request.action w.handle.baseUrl.str key request.userData

/-- A registration needs no key, every other request the encoded one. -/
def HasKey (w : World p) (key : Block Bytes) (request : SynapiRequest) : Prop :=
  request.action = .serversNew ∨ w.handle.encodedApiKey = some key

/-- The URLs of two requests on one handle are whole, and a request for one
player goes neither to another player nor to all of them. -/
structure UrlsWhole (w : World p) (key : Bytes) (r₁ r₂ : SynapiRequest) : Prop where
  first : synapiBuildUrl w r₁ = .ok (wholeUrl w key r₁)
  second : synapiBuildUrl w r₂ = .ok (wholeUrl w key r₂)
  apart : r₁.action.onPlayer → r₂.action.onPlayer → r₁.userData ≠ r₂.userData →
    synapiBuildUrl w r₁ ≠ synapiBuildUrl w r₂
  collection : r₁.action.onPlayer → r₂.action = .playersNew →
    synapiBuildUrl w r₁ ≠ synapiBuildUrl w r₂

theorem urlOf_player {action : SynapiAction} (h : action.onPlayer) (base key : Bytes) (id : Int32) :
    urlOf action base key id =
      urlOf .playersNew base key id ++ (ascii "/" ++ decimal id.toInt) := by
  have path : ascii "/server_players/" = ascii "/server_players" ++ ascii "/" := by decide
  rcases h with rfl | rfl <;> simp only [urlOf, path, List.append_assoc]

theorem urlOf_player_injective {a b : SynapiAction} (ha : a.onPlayer) (hb : b.onPlayer)
    {base key : Bytes} {m n : Int32} (h : urlOf a base key m = urlOf b base key n) : m = n := by
  rw [urlOf_player ha, urlOf_player hb] at h
  have same : urlOf .playersNew base key m = urlOf .playersNew base key n := rfl
  rw [same, List.append_cancel_left_eq, List.append_cancel_left_eq] at h
  exact Int32.toInt_inj.mp (decimal_injective h)

theorem urlOf_player_ne_collection {a : SynapiAction} (ha : a.onPlayer) (base key : Bytes)
    (m n : Int32) : urlOf a base key m ≠ urlOf .playersNew base key n := by
  intro h
  have longer := congrArg List.length h
  rw [urlOf_player ha, List.length_append, List.length_append] at longer
  have same : urlOf .playersNew base key m = urlOf .playersNew base key n := rfl
  have slash : (ascii "/").length = 1 := rfl
  rw [same] at longer
  omega

section Whole

variable (hb : w.handle.baseUrl.Terminated)

include hb

theorem synapiBuildUrl_cut (hk : HasKey w key r) :
    synapiBuildUrl w r = .ok (snprintf 255 (wholeUrl w key.val r)) := by
  rcases hk with hnew | hk
  · rw [synapiBuildUrl_new w r hb hnew, wholeUrl, hnew]
    rfl
  · exact synapiBuildUrl_keyed w r hb hk

theorem url_whole_iff (hk : HasKey w key r) : synapiBuildUrl w r = .ok (wholeUrl w key.val r) ↔
    (wholeUrl w key.val r).length ≤ 254 := by
  rw [synapiBuildUrl_cut hb hk, Except.ok.injEq]
  exact List.take_eq_self_iff _

theorem urlsWhole_of_length (hk₁ : HasKey w key r₁) (hk₂ : HasKey w key r₂)
    (h₁ : (wholeUrl w key.val r₁).length ≤ 254)
    (h₂ : (wholeUrl w key.val r₂).length ≤ 254) : UrlsWhole w key.val r₁ r₂ := by
  have first := (url_whole_iff hb hk₁).mpr h₁
  have second := (url_whole_iff hb hk₂).mpr h₂
  constructor
  · exact first
  · exact second
  · intro ha₁ ha₂ hne hsame
    rw [first, second, Except.ok.injEq] at hsame
    exact hne (urlOf_player_injective ha₁ ha₂ hsame)
  · intro ha₁ ha₂ hsame
    rw [first, second, Except.ok.injEq, wholeUrl, wholeUrl, ha₂] at hsame
    exact urlOf_player_ne_collection ha₁ _ _ _ _ hsame

theorem urls_whole_iff (r₁ r₂ : SynapiRequest) (hk₁ : HasKey w key r₁) (hk₂ : HasKey w key r₂) :
    UrlsWhole w key.val r₁ r₂ ↔
      (wholeUrl w key.val r₁).length ≤ 254 ∧ (wholeUrl w key.val r₂).length ≤ 254 := by
  constructor
  · intro h
    exact ⟨(url_whole_iff hb hk₁).mp h.first, (url_whole_iff hb hk₂).mp h.second⟩
  · rintro ⟨h₁, h₂⟩
    exact urlsWhole_of_length hb hk₁ hk₂ h₁ h₂

end Whole

/-! The longest URL -/

theorem urlOf_length_le (action : SynapiAction) (base key : Bytes) (id : Int32) :
    (urlOf action base key id).length ≤ base.length + key.length + 36 := by
  have servers : (ascii "/servers").length = 8 := rfl
  have server : (ascii "/servers/").length = 9 := rfl
  have collection : (ascii "/server_players").length = 15 := rfl
  have players : (ascii "/server_players/").length = 16 := rfl
  have digits := decimal_length id.le_toInt id.toInt_lt
  cases action <;> simp only [urlOf, List.length_append] <;> omega

theorem urlOf_length_longest (base key : Bytes) :
    (urlOf .playersUpdate base key (-2147483648)).length = base.length + key.length + 36 := by
  have server : (ascii "/servers/").length = 9 := rfl
  have players : (ascii "/server_players/").length = 16 := rfl
  have digits : (decimal (Int32.toInt (-2147483648))).length = 11 := by decide
  simp only [urlOf, List.length_append]
  omega

/-- All the URLs of a handle are whole when those of the longest id are. -/
theorem all_urls_whole_iff (hb : w.handle.baseUrl.Terminated)
    (hk : w.handle.encodedApiKey = some key) :
    (∀ r₁ r₂, UrlsWhole w key.val r₁ r₂) ↔
      w.handle.baseUrl.str.length + key.val.length ≤ 218 := by
  constructor
  · intro h
    let longest := newRequest w .playersUpdate .put false (-2147483648) []
    have whole := (url_whole_iff hb (.inr hk)).mp (h longest longest).first
    have length := urlOf_length_longest w.handle.baseUrl.str key.val
    change (urlOf .playersUpdate w.handle.baseUrl.str key.val (-2147483648)).length ≤ 254 at whole
    omega
  · intro h r₁ r₂
    have short (r : SynapiRequest) : (wholeUrl w key.val r).length ≤ 254 := by
      have := urlOf_length_le r.action w.handle.baseUrl.str key.val r.userData
      rw [wholeUrl]
      omega
    exact urlsWhole_of_length hb (.inr hk) (.inr hk) (short r₁) (short r₂)

theorem default_urls_whole : ∃ w : World 1, Reachable w ∧ ∃ key, w.handle.encodedApiKey = some key ∧
    UrlsWhole w key.val (newRequest w .playersUpdate .put false 7 [])
      (newRequest w .playersDelete .delete false (-7) []) := by
  have run : ∃ w ∈ trial (p := 1) (fun _ _ => True) (some (literal "SYN:S:1:ab")) [],
      ∃ key ∈ w.handle.encodedApiKey,
        (wholeUrl w key.val (newRequest w .playersUpdate .put false 7 [])).length ≤ 254 ∧
          (wholeUrl w key.val (newRequest w .playersDelete .delete false (-7) [])).length ≤ 254 := by
    decide +kernel
  obtain ⟨w, hw, key, hk, hlength⟩ := trial_exists run
  refine ⟨w, hw, key, hk, ?_⟩
  exact (urls_whole_iff (reachable_inv hw).2.baseUrl _ _ (.inr hk) (.inr hk)).mpr hlength

theorem players_share_url : ∃ w : World 1, Reachable w ∧ ∃ key, w.handle.encodedApiKey = some key ∧
    ¬ UrlsWhole w key.val (newRequest w .playersUpdate .put false 123456 [])
      (newRequest w .playersDelete .delete false 123457 []) := by
  have run : ∃ w ∈ trial (p := 1) (fun _ _ => True)
        (some ⟨List.replicate 200 97, by decide +kernel⟩) [],
      ∃ key ∈ w.handle.encodedApiKey,
        synapiBuildUrl w (newRequest w .playersUpdate .put false 123456 []) =
          synapiBuildUrl w (newRequest w .playersDelete .delete false 123457 []) := by
    decide +kernel
  obtain ⟨w, hw, key, hk, hsame⟩ := trial_exists run
  refine ⟨w, hw, key, hk, fun h => h.apart (.inl rfl) (.inr rfl) ?_ hsame⟩
  exact (by decide : (123456 : Int32) ≠ 123457)

/-! The requests that have left -/

variable {C : World p → Call → Prop} {sent sent₁ sent₂ : Sent}

theorem sent_url_whole (h : ReachableBy C w) (hs : sent ∈ sents w.trace)
    (hr : sent.request.apiKeyRequest = false)
    (hshort : sent.view.baseUrl.length + (curlEscape sent.view.apiKey).length ≤ 218) :
    sent.url = urlOf sent.request.action sent.view.baseUrl (curlEscape sent.view.apiKey)
      sent.request.userData := by
  have := urlOf_length_le sent.request.action sent.view.baseUrl (curlEscape sent.view.apiKey)
    sent.request.userData
  rw [(sent_keyed h hs hr).url]
  apply snprintf_whole
  omega

/-- With one base URL and one key, no two players share a URL. -/
theorem sent_players_apart (h : ReachableBy C w) (hs₁ : sent₁ ∈ sents w.trace)
    (hs₂ : sent₂ ∈ sents w.trace) (hr₁ : sent₁.request.apiKeyRequest = false)
    (hr₂ : sent₂.request.apiKeyRequest = false) (ha₁ : sent₁.request.action.onPlayer)
    (ha₂ : sent₂.request.action.onPlayer) (hbase : sent₁.view.baseUrl = sent₂.view.baseUrl)
    (hkey : sent₁.view.apiKey = sent₂.view.apiKey)
    (hshort : sent₂.view.baseUrl.length + (curlEscape sent₂.view.apiKey).length ≤ 218)
    (hsame : sent₁.url = sent₂.url) : sent₁.request.userData = sent₂.request.userData := by
  have first := sent_url_whole h hs₁ hr₁ (by rw [hbase, hkey]; exact hshort)
  have second := sent_url_whole h hs₂ hr₂ hshort
  rw [first, second, hbase, hkey] at hsame
  exact urlOf_player_injective ha₁ ha₂ hsame

end Synapi

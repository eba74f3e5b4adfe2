import Synapi.KeyGate

/-!
The body of a registration response, as the chunks the callback is given.
-/

namespace Synapi

open Runs Text Replay

variable {p : ℤ} {C : World p → Call → Prop} {w : World p} {handle : ℕ}

def Event.chunk (handle : ℕ) : Event → Option Bytes
  | .apiKeyWrite h data _ => if h = handle then some data else none
  | _ => none

def chunks (handle : ℕ) (trace : List Event) : List Bytes :=
  trace.filterMap (Event.chunk handle)

def Event.setsKey : Event → Bool
  | .apiKey _ | .apiKeyWrite _ _ _ => true
  | .multiAddHandle sent => sent.request.apiKeyRequest
  | _ => false

def HandleView.key (v : HandleView) : Bool × Bytes × Option Bytes :=
  (v.apiKeySet, v.apiKey, v.encodedApiKey)

structure PlainKey (body : Bytes) : Prop where
  length_lt : body.length < 256
  nul : 0 ∉ body
  cr : 13 ∉ body
  lf : 10 ∉ body

instance (body : Bytes) : Decidable (PlainKey body) :=
  decidable_of_iff (body.length < 256 ∧ 0 ∉ body ∧ 13 ∉ body ∧ 10 ∉ body)
    ⟨fun h => ⟨h.1, h.2.1, h.2.2.1, h.2.2.2⟩, fun h => ⟨h.1, h.2, h.3, h.4⟩⟩

theorem cutAfter_plain {c : UInt8} {s : Bytes} (h : c ∉ s) : cutAfter c s = s := by
  have : s.findIdx? (· = c) = none := by
    rw [List.findIdx?_eq_none_iff]
    intro b hb
    simp only [decide_eq_false_iff_not]
    rintro rfl
    exact h hb
  rw [cutAfter, this]

theorem usableSize_plain {body : Bytes} (h : body.length < 256) :
    usableSize (toInt body.length) = body.length := by
  rw [toInt_natCast (by omega), usableSize, sizeT_natCast (by omega), if_neg (by omega)]

theorem PlainKey.chunkKey {body : Bytes} (h : PlainKey body) : chunkKey body = body := by
  rw [Synapi.chunkKey, storedKey, usableSize_plain h.length_lt, cstr_of_notMem h.nul,
    List.take_length, cutAfter_plain h.cr, cutAfter_plain h.lf]

theorem PlainKey.inBounds {body : Bytes} (h : PlainKey body) :
    SetterInBounds body (toInt body.length) := by
  rw [SetterInBounds, usableSize_plain h.length_lt]
  exact ⟨h.length_lt, .inl (Nat.le_refl _)⟩

theorem PlainKey.of_append {before data : Bytes} (h : PlainKey (before ++ data)) : PlainKey data := by
  have sub : ∀ b, b ∈ data → b ∈ before ++ data := fun b => List.mem_append_right before
  have hl := h.length_lt
  rw [List.length_append] at hl
  exact ⟨by omega, fun hb => h.nul (sub 0 hb), fun hb => h.cr (sub 13 hb), fun hb => h.lf (sub 10 hb)⟩

theorem Tells.key {v v' : HandleView} {events : List Event} (h : Tells v events v')
    (hn : ∀ e ∈ events, e.setsKey = false) : v'.key = v.key := by
  obtain ⟨hl, rfl⟩ := h
  refine replay_invariant (P := fun u => u.key = v.key) ?_ hl rfl
  intro e he u hu hlegal
  have hset := hn e he
  cases e with
  | apiKey | apiKeyWrite => cases hset
  | url view => obtain ⟨url, host, rfl⟩ := hlegal; exact hu
  | multiAddHandle sent =>
    rw [Event.Legal, if_neg (by rw [show sent.request.apiKeyRequest = false from hset]; simp)] at hlegal
    change sent.view.key = v.key
    rw [hlegal.1, hu]
  | _ => exact hu

/-- A keyed request is sent with the key as the last event that set it left it. -/
theorem key_at_send (h : ReachableBy C w) {first mid second : List Event} {e : Event}
    {view : HandleView} {sent : Sent}
    (ht : w.trace = first ++ e :: (mid ++ .multiAddHandle sent :: second)) (he : e.view = some view)
    (hmid : ∀ x ∈ mid, x.setsKey = false) (hs : sent.request.apiKeyRequest = false) :
    sent.view.key = view.key := by
  obtain ⟨v, -, -, ⟨-, hl⟩, -⟩ := legal_event h ht
  rw [Event.after, he, Option.getD_some] at hl
  obtain ⟨hbefore, hadd, -⟩ := legal_append.mp hl
  rw [Event.Legal, if_neg (by simp [hs])] at hadd
  rw [hadd.1]
  exact Tells.key ⟨hbefore, rfl⟩ hmid

/-- After the last chunk the handle holds the key that one call with the whole
body leaves, and no keyed request carried any other key of that response. -/
structure OneKey (handle : ℕ) (trace : List Event) : Prop where
  after_last : ∀ first data view second, trace = first ++ .apiKeyWrite handle data view :: second →
    chunks handle second = [] → ∀ (p : ℤ) (u u' : World p),
      synapiApiKeyWrite u handle (chunks handle trace).flatten = .ok u' →
        view.apiKey = u'.view.apiKey ∧ view.encodedApiKey = u'.view.encodedApiKey
  sends : ∀ first data view mid sent second,
    trace = first ++ .apiKeyWrite handle data view :: (mid ++ .multiAddHandle sent :: second) →
      (∀ e ∈ mid, e.setsKey = false) → sent.request.apiKeyRequest = false →
        sent.view.apiKey = (chunks handle trace).flatten

theorem chunks_split {trace first second : List Event} {data : Bytes} {view : HandleView}
    (ht : trace = first ++ .apiKeyWrite handle data view :: second) :
    chunks handle trace = chunks handle first ++ data :: chunks handle second := by
  simp [chunks, ht, Event.chunk]

theorem chunk_legal (h : ReachableBy C w) {first second : List Event} {data : Bytes}
    {view : HandleView} (ht : w.trace = first ++ .apiKeyWrite handle data view :: second) :
    data ≠ [] ∧ view.apiKey = chunkKey data ∧
      view.encodedApiKey = some (curlEscape (chunkKey data)) := by
  obtain ⟨v, -, hl, -⟩ := legal_event h ht
  refine ⟨hl.1, ?_⟩
  rw [hl.2]
  exact ⟨withKey_apiKey v _, withKey_encodedApiKey v _⟩

theorem chunks_ne_nil (h : ReachableBy C w) : ∀ data ∈ chunks handle w.trace, data ≠ [] := by
  intro data hd
  obtain ⟨e, he, hchunk⟩ := List.mem_filterMap.mp hd
  obtain ⟨first, second, ht⟩ := List.append_of_mem he
  cases e with
  | apiKeyWrite h' data' view =>
    simp only [Event.chunk] at hchunk
    split_ifs at hchunk with hh
    subst hh
    rw [← Option.some.inj hchunk]
    exact (chunk_legal h ht).1
  | _ => cases hchunk

theorem last_chunk (hc : chunks handle w.trace ≠ []) :
    ∃ first data view second, w.trace = first ++ .apiKeyWrite handle data view :: second ∧
      chunks handle second = [] := by
  rcases split_last (fun e => e.chunk handle ≠ none) w.trace with hnone | ⟨first, e, second, ht, he, hlast⟩
  · exact absurd (List.filterMap_eq_nil_iff.mpr (fun e he => not_not.mp (hnone e he))) hc
  · cases e with
    | apiKeyWrite h' data view =>
      simp only [Event.chunk] at he
      split_ifs at he with hh
      · subst hh
        exact ⟨first, data, view, second, ht,
          List.filterMap_eq_nil_iff.mpr (fun e he => not_not.mp (hlast e he))⟩
      · exact absurd rfl he
    | _ => exact absurd rfl he

theorem OneKey.single (h : ReachableBy C w) (hc : chunks handle w.trace ≠ [])
    (hb : PlainKey (chunks handle w.trace).flatten) (hone : OneKey handle w.trace) :
    (chunks handle w.trace).length = 1 := by
  obtain ⟨first, data, view, second, ht, hsecond⟩ := last_chunk hc
  have split := chunks_split ht
  rw [hsecond] at split
  have body : (chunks handle w.trace).flatten = (chunks handle first).flatten ++ data := by
    simp [split]
  obtain ⟨a, ha, hs, -⟩ := synapiApiKey_spec w hb.inBounds
  have call : synapiApiKeyWrite w handle (chunks handle w.trace).flatten =
      .ok ((w.withApiKey a).emit (.apiKeyWrite handle (chunks handle w.trace).flatten
        (w.withApiKey a).view)) := by
    rw [synapiApiKeyWrite, ha, ok_bind]
  have same := (hone.after_last first data view second ht hsecond p w _ call).1
  have whole : data = (chunks handle w.trace).flatten := by
    have hdata : PlainKey data := (body ▸ hb).of_append
    calc data = chunkKey data := hdata.chunkKey.symm
      _ = view.apiKey := (chunk_legal h ht).2.1.symm
      _ = a.str := same
      _ = chunkKey (chunks handle w.trace).flatten := hs
      _ = (chunks handle w.trace).flatten := hb.chunkKey
  have earlier : chunks handle first = [] := by
    apply List.eq_nil_iff_forall_not_mem.mpr
    intro d hd
    have empty : (chunks handle first).flatten = [] := by
      have hl := congrArg List.length (whole.trans body)
      rw [List.length_append] at hl
      exact List.eq_nil_of_length_eq_zero (by omega)
    have := List.flatten_eq_nil_iff.mp empty d hd
    exact chunks_ne_nil h d (split ▸ List.mem_append_left _ hd) this
  rw [split, earlier]
  rfl

theorem OneKey.of_single (h : ReachableBy C w) (hb : PlainKey (chunks handle w.trace).flatten)
    (hl : (chunks handle w.trace).length = 1) : OneKey handle w.trace := by
  have only {first second : List Event} {data : Bytes} {view : HandleView}
      (ht : w.trace = first ++ .apiKeyWrite handle data view :: second) :
      (chunks handle w.trace).flatten = data := by
    have split := chunks_split ht
    have hn := congrArg List.length split
    rw [hl, List.length_append, List.length_cons] at hn
    rw [split, List.eq_nil_of_length_eq_zero (l := chunks handle first) (by omega),
      List.eq_nil_of_length_eq_zero (l := chunks handle second) (by omega)]
    simp
  constructor
  · intro first data view second ht _ q u u' hu
    obtain ⟨u₁, hu₁, hu'⟩ := bind_eq_ok.mp hu
    obtain ⟨-, a, rfl, hs, -⟩ := synapiApiKey_ok hu₁
    obtain ⟨-, hkey, hencoded⟩ := chunk_legal h ht
    rw [← Except.ok.inj hu', hkey, hencoded, ← only ht]
    have ha : a.str = chunkKey (chunks handle w.trace).flatten := hs
    constructor
    · exact ha.symm
    · rw [← ha]
      rfl
  · intro first data view mid sent second ht hmid hs
    have hkey := key_at_send h ht rfl hmid hs
    have hsent : sent.view.apiKey = view.apiKey := congrArg (·.2.1) hkey
    have hdata := only ht
    rw [hsent, (chunk_legal h ht).2.1, ← hdata, hb.chunkKey]

theorem split_response (h : Reachable w) (hc : chunks handle w.trace ≠ [])
    (hb : PlainKey (chunks handle w.trace).flatten) :
    OneKey handle w.trace ↔ (chunks handle w.trace).length = 1 :=
  ⟨OneKey.single h hc hb, OneKey.of_single h hb⟩

theorem split_response_whole : ∃ w : World 1, chunks 7 w.trace = [ascii "SYN:S:1:ab"] ∧
    (OneKey 7 w.trace ↔ (chunks 7 w.trace).length = 1) := by
  have run : ∃ w ∈ trial (p := 1) (fun _ _ => True) none
      [.newServer ⟨true, true⟩, .perform (.smooth [.chunk 7 (ascii "SYN:S:1:ab")])],
      chunks 7 w.trace = [ascii "SYN:S:1:ab"] := by
    decide +kernel
  obtain ⟨w, hw, hc⟩ := trial_exists run
  exact ⟨w, hc, split_response hw (by rw [hc]; decide) (by rw [hc]; decide)⟩

theorem split_response_halves : ∃ w : World 2, Reachable w ∧
    chunks 7 w.trace = [ascii "SYN:S", ascii ":1:ab"] ∧
    PlainKey (chunks 7 w.trace).flatten ∧ w.view.apiKey = ascii ":1:ab" ∧
    (∃ sent ∈ sents w.trace, sent.request.action = .heartbeat ∧ sent.view.apiKey = ascii "SYN:S") ∧
    ¬ OneKey 7 w.trace := by
  have run : ∃ w ∈ trial (p := 2) (fun _ _ => True) none
      [.newServer ⟨true, true⟩, .heartbeat, .perform (.smooth [.chunk 7 (ascii "SYN:S")]),
        .perform (.smooth [.chunk 7 (ascii ":1:ab"), .done 7 (.response 200)])],
      chunks 7 w.trace = [ascii "SYN:S", ascii ":1:ab"] ∧
      PlainKey (chunks 7 w.trace).flatten ∧ w.view.apiKey = ascii ":1:ab" ∧
      ∃ sent ∈ sents w.trace, sent.request.action = .heartbeat ∧
        sent.view.apiKey = ascii "SYN:S" := by
    decide +kernel
  obtain ⟨w, hw, hc, hb, hkey, hsent⟩ := trial_exists run
  refine ⟨w, hw, hc, hb, hkey, hsent, fun hone => ?_⟩
  have := hone.single hw (by rw [hc]; decide) hb
  rw [hc] at this
  cases this

end Synapi

import Synapi.World
import Synapi.Library.Runs

namespace Synapi

open Runs

variable {p : ℤ}

def curlEscape (s : Bytes) : Bytes := FormEncoding.percentEncode s

/-- `strchr(a, c)` and a NUL stored one past what it finds. -/
def cutAt (a : CharArray 256) (c : UInt8) : Except Fault (CharArray 256) := do
  match ← inBounds (a.strchr c) with
  | some k => inBounds (a.store (k + 1) 0)
  | none => .ok a

def usableSize (size : ℤ) : ℕ := if 256 < sizeT size then 255 else sizeT size

def World.withApiKey (w : World p) (a : CharArray 256) : World p :=
  let w' := (w.freeAll w.handle.encodedApiKey).malloc
  { w' with handle := { w.handle with
      apiKey := a
      apiKeySet := true
      encodedApiKey := some ⟨w.fresh, curlEscape a.str⟩ } }

def synapiApiKey (w : World p) (newApiKey : Bytes) (size : ℤ) : Except Fault (World p) := do
  let a ← inBounds (w.handle.apiKey.strncpy newApiKey (usableSize size))
  let a ← inBounds (a.store (usableSize size) 0)
  let a ← cutAt a 13
  let a ← cutAt a 10
  .ok (w.withApiKey a)

-- Returns `size * nmemb`, so libcurl goes on with the transfer.
def synapiApiKeyWrite (w : World p) (handle : ℕ) (data : Bytes) : Except Fault (World p) := do
  let w ← synapiApiKey w data (toInt data.length)
  .ok (w.emit (.apiKeyWrite handle data w.view))

def synapiUrl (w : World p) (url hostHeader : CString) : Except Fault (World p) := do
  let base ← inBounds (w.handle.baseUrl.strncpy (url.val ++ [0]) 255)
  let base ← inBounds (base.store 255 0)
  let host ← inBounds (w.handle.hostHeader.strncpy (hostHeader.val ++ [0]) 255)
  let host ← inBounds (host.store 255 0)
  let w := { w with handle := { w.handle with baseUrl := base, hostHeader := host } }
  .ok (w.emit (.url w.view))

/-! What the setters leave in the handle -/

def cutAfter (c : UInt8) (s : Bytes) : Bytes :=
  match s.findIdx? (· = c) with
  | some k => s.take (k + 1)
  | none => s

def storedKey (newApiKey : Bytes) (size : ℤ) : Bytes :=
  cutAfter 10 (cutAfter 13 ((cstr newApiKey).take (usableSize size)))

def chunkKey (data : Bytes) : Bytes := storedKey data (toInt data.length)

def SetterInBounds (newApiKey : Bytes) (size : ℤ) : Prop :=
  usableSize size < 256 ∧ (usableSize size ≤ newApiKey.length ∨ 0 ∈ newApiKey)

def HandleView.withKey (v : HandleView) (key : Bytes) : HandleView :=
  { v with apiKeySet := true, apiKey := key, encodedApiKey := some (curlEscape key) }

def HandleView.cleared (v : HandleView) : HandleView := { v with apiKeySet := false, apiKey := [] }

def HandleView.withUrl (v : HandleView) (url hostHeader : Bytes) : HandleView :=
  { v with baseUrl := url.take 255, hostHeader := hostHeader.take 255 }

theorem withKey_apiKey (v : HandleView) (key : Bytes) : (v.withKey key).apiKey = key := rfl

theorem withKey_encodedApiKey (v : HandleView) (key : Bytes) :
    (v.withKey key).encodedApiKey = some (curlEscape key) := rfl

theorem cutAt_terminated {a : CharArray 256} (h : a.Terminated) (c : UInt8) :
    ∃ b, cutAt a c = .ok b ∧ b.str = cutAfter c a.str ∧ b.Terminated := by
  have hl := CharArray.str_length_lt h
  unfold cutAt cutAfter
  rw [CharArray.strchr, CharArray.read_of_terminated h, Option.map_some, inBounds, ok_bind]
  cases hk : a.str.findIdx? (· = c) with
  | none => exact ⟨a, rfl, rfl, h⟩
  | some k =>
    obtain ⟨hlt, -⟩ := List.findIdx?_eq_some_iff_getElem.mp hk
    obtain ⟨b, hb, hs, ht⟩ := CharArray.store_zero (a := a) (k := k + 1) (by omega)
    exact ⟨b, by simp [hb, inBounds], hs, ht⟩

theorem usableSize_le (size : ℤ) : usableSize size ≤ 256 := by
  unfold usableSize
  split_ifs <;> omega

theorem synapiApiKey_spec (w : World p) {newApiKey : Bytes} {size : ℤ}
    (h : SetterInBounds newApiKey size) :
    ∃ a, synapiApiKey w newApiKey size = .ok (w.withApiKey a) ∧
      a.str = storedKey newApiKey size ∧ a.Terminated := by
  obtain ⟨a₁, a₂, h₁, h₂, hs₂, ht₂⟩ :=
    CharArray.strncpy_store w.handle.apiKey newApiKey h.1 h.2
  obtain ⟨a₃, h₃, hs₃, ht₃⟩ := cutAt_terminated ht₂ 13
  obtain ⟨a₄, h₄, hs₄, ht₄⟩ := cutAt_terminated ht₃ 10
  refine ⟨a₄, ?_, ?_, ht₄⟩
  · simp only [synapiApiKey, h₁, h₂, h₃, h₄, inBounds, ok_bind]
  · rw [hs₄, hs₃, hs₂, storedKey]

theorem synapiApiKey_fault (w : World p) {newApiKey : Bytes} {size : ℤ}
    (h : ¬ SetterInBounds newApiKey size) :
    synapiApiKey w newApiKey size = .error .outOfBounds := by
  have hle := usableSize_le size
  unfold synapiApiKey
  cases hc : w.handle.apiKey.strncpy newApiKey (usableSize size) with
  | none => rfl
  | some a =>
    have full : usableSize size = 256 := by
      by_contra hne
      exact h ⟨by omega, CharArray.strncpy_source hc⟩
    simp only [inBounds, ok_bind, full, CharArray.store_none (Nat.le_refl 256)]
    rfl

theorem synapiApiKey_ok {w w' : World p} {newApiKey : Bytes} {size : ℤ}
    (h : synapiApiKey w newApiKey size = .ok w') :
    SetterInBounds newApiKey size ∧
      ∃ a, w' = w.withApiKey a ∧ a.str = storedKey newApiKey size ∧ a.Terminated := by
  by_cases hb : SetterInBounds newApiKey size
  · obtain ⟨a, ha, hs, ht⟩ := synapiApiKey_spec w hb
    rw [ha, Except.ok.injEq] at h
    exact ⟨hb, a, h.symm, hs, ht⟩
  · rw [synapiApiKey_fault w hb] at h
    cases h

theorem synapiUrl_ok (w : World p) (url hostHeader : CString) :
    ∃ base host, base.str = url.val.take 255 ∧ host.str = hostHeader.val.take 255 ∧
      base.Terminated ∧ host.Terminated ∧
      let w' := { w with handle := { w.handle with baseUrl := base, hostHeader := host } }
      synapiUrl w url hostHeader = .ok (w'.emit (.url w'.view)) := by
  have source (s : CString) : 255 ≤ (s.val ++ [0]).length ∨ (0 : UInt8) ∈ s.val ++ [0] :=
    .inr (by simp)
  obtain ⟨a₁, a₂, ha₁, ha₂, hsa, hta⟩ := CharArray.strncpy_store
    w.handle.baseUrl _ (by omega) (source url)
  obtain ⟨b₁, b₂, hb₁, hb₂, hsb, htb⟩ := CharArray.strncpy_store
    w.handle.hostHeader _ (by omega) (source hostHeader)
  refine ⟨a₂, b₂, ?_, ?_, hta, htb, ?_⟩
  · rw [hsa, cstr_append_zero url.property]
  · rw [hsb, cstr_append_zero hostHeader.property]
  · simp only [synapiUrl, ha₁, ha₂, hb₁, hb₂, inBounds, ok_bind]

end Synapi

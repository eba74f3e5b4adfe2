import Synapi.Reachable

/-!
The three character arrays of a handle: nothing is stored outside them, and
each holds a NUL, as long as no key is of 256 bytes.
-/

namespace Synapi

open Runs Relation

variable {p : ℤ} {C : World p → Call → Prop} {c : Call} {w₀ w w' : World p}

structure World.StringsEnd (w : World p) : Prop where
  apiKey : w.handle.apiKey.Terminated
  baseUrl : w.handle.baseUrl.Terminated
  hostHeader : w.handle.hostHeader.Terminated

/-- What is handed to `synapi_api_key` can be read as far as its size says. -/
def Call.Readable : Call → Prop
  | .apiKey newApiKey size => usableSize size ≤ newApiKey.length ∨ 0 ∈ newApiKey
  | _ => True

/-- No key and no part of a response has the size of the array. -/
def Call.Clamped : Call → Prop
  | .apiKey _ size => sizeT size ≠ 256
  | .perform env => ∀ handle data, .chunk handle data ∈ env.progress → toInt data.length ≠ 256
  | _ => True

theorem setterInBounds_iff {newApiKey : Bytes} {size : ℤ}
    (hread : usableSize size ≤ newApiKey.length ∨ 0 ∈ newApiKey) :
    SetterInBounds newApiKey size ↔ sizeT size ≠ 256 := by
  rw [SetterInBounds, and_iff_left hread, usableSize]
  split_ifs <;> omega

theorem usableSize_natCast_le (n : ℕ) : usableSize (toInt n) ≤ n := by
  have hb := Int.bmod_def n (2 ^ 32)
  unfold usableSize toInt sizeT
  split_ifs at hb ⊢ <;> omega

theorem sizeT_toInt (n : ℕ) : sizeT (toInt n) = 256 ↔ toInt n = 256 := by
  have hb := Int.bmod_def n (2 ^ 32)
  unfold toInt sizeT
  split_ifs at hb <;> omega

theorem chunkInBounds_iff (data : Bytes) :
    SetterInBounds data (toInt data.length) ↔ toInt data.length ≠ 256 := by
  rw [setterInBounds_iff (.inl (usableSize_natCast_le _)), ne_eq, sizeT_toInt]

theorem Call.Clamped.not_overruns (hc : c.Clamped) (hread : c.Readable) (hkeyed : c.keyed = none) :
    ¬ c.Overruns := by
  rintro (⟨hquery, -⟩ | h | ⟨hm, h⟩)
  · rw [hkeyed] at hquery
    cases hquery
  · exact h ((setterInBounds_iff hread).mpr hc)
  · exact h ((chunkInBounds_iff _).mpr (hc _ _ hm))

theorem Effect.apiKey_terminated (h : Effect c w₀ w w') (hw : w.handle.apiKey.Terminated) :
    w'.handle.apiKey.Terminated := by
  cases h with
  | @register env query a k _ hs _ =>
    apply CharArray.terminated_of_length
    change a.str.length < 256
    rw [hs]
    decide
  | setKey _ _ ta => exact ta
  | write _ _ _ _ _ _ _ ta => exact ta
  | _ => exact hw

theorem reachable_stringsEnd (h : ReachableBy C w) : w.StringsEnd := by
  have ends : w.handle.apiKey.Terminated := by
    refine reachable_induction (P := fun w => w.handle.apiKey.Terminated) ?_ ?_ h
    · intro start a i ha
      apply CharArray.terminated_of_length (a := a)
      rw [ha]
      decide
    · intro c w₀ w w' _ hw he
      exact he.apiKey_terminated hw
  obtain ⟨-, ha⟩ := reachable_inv h
  exact ⟨ends, ha.baseUrl, ha.hostHeader⟩

theorem synapiInit_ok (start : Start) {apiKey : Option CString}
    (hkey : ∀ key ∈ apiKey, toInt key.val.length ≠ 256) :
    ∃ w₀ : World p, synapiInit start apiKey p = .ok w₀ := by
  obtain ⟨a, -, hrun⟩ := synapiInit_run start apiKey p
  have url (w : World p) : ∃ w', synapiUrl w defaultUrl defaultHostHeader = .ok w' := by
    obtain ⟨base, host, -, -, -, -, hr⟩ := synapiUrl_ok w defaultUrl defaultHostHeader
    exact ⟨_, hr⟩
  rw [hrun]
  cases apiKey with
  | none =>
    obtain ⟨w', hw'⟩ := url ((blank start a p).setI p.toNat)
    exact ⟨w', run_cons_ok.mpr ⟨w', hw', rfl⟩⟩
  | some key =>
    have inBounds : SetterInBounds (key.val ++ [0]) (toInt key.val.length) := by
      rw [setterInBounds_iff (.inr (by simp)), ne_eq, sizeT_toInt]
      exact hkey key rfl
    obtain ⟨b, hb, -⟩ := synapiApiKey_spec ((blank start a p).setI p.toNat) inBounds
    obtain ⟨w', hw'⟩ := url ((((blank start a p).setI p.toNat).withApiKey b).emit
      (.apiKey (((blank start a p).setI p.toNat).withApiKey b).view))
    refine ⟨w', run_cons_ok.mpr ⟨_, ?_, run_cons_ok.mpr ⟨w', hw', rfl⟩⟩⟩
    rw [step, setApiKey, hb, ok_bind]

/-- Along a run without a key of 256 bytes no string is stored out of bounds,
and each array holds a NUL after every call. -/
theorem strings_well_formed {start : Start} {apiKey : Option CString} {calls : List Call}
    (hkey : ∀ key ∈ apiKey, toInt key.val.length ≠ 256) (hread : ∀ c ∈ calls, c.Readable)
    (hcalls : ∀ c ∈ calls, c.Clamped) :
    ∃ w₀ : World p, synapiInit start apiKey p = .ok w₀ ∧
      ∀ pre post w, calls = pre ++ post → run step w₀ pre = .ok w →
        w.StringsEnd ∧ ∀ c ∈ post.head?, c.keyed = none → step w c ≠ .error .outOfBounds := by
  obtain ⟨w₀, hinit⟩ := synapiInit_ok (p := p) start hkey
  refine ⟨w₀, hinit, fun pre post w heq hrun => ?_⟩
  have hreach : Reachable w :=
    Reach.run (.start ⟨start, apiKey, hinit⟩) (fun _ _ _ _ _ _ => trivial) hrun
  obtain ⟨hinv, ha⟩ := reachable_inv hreach
  refine ⟨reachable_stringsEnd hreach, fun c hc hkeyed herror => ?_⟩
  have hmem : c ∈ calls := by
    rw [heq]
    exact List.mem_append_right pre (List.mem_of_mem_head? hc)
  exact (hcalls c hmem).not_overruns (hread c hmem) hkeyed (step_outOfBounds hinv ha herror)

theorem strings_well_formed_clamped : ∃ w₀ : World 1, synapiInit .zero none 1 = .ok w₀ ∧
    ∀ pre post w, [.newServer ⟨true, true⟩, .apiKey (List.replicate 300 97) 300] = pre ++ post →
      run step w₀ pre = .ok w →
        w.StringsEnd ∧ ∀ c ∈ post.head?, c.keyed = none → step w c ≠ .error .outOfBounds := by
  have read : usableSize 300 ≤ (List.replicate 300 (97 : UInt8)).length := by
    rw [List.length_replicate]
    exact Nat.le_trans (usableSize_le 300) (by omega)
  apply strings_well_formed
  · rintro key ⟨⟩
  · rw [List.forall_mem_cons, List.forall_mem_singleton]
    exact ⟨trivial, .inl read⟩
  · rw [List.forall_mem_cons, List.forall_mem_singleton]
    exact ⟨trivial, (by decide : sizeT 300 ≠ 256)⟩

theorem key_of_256 : synapiInit .zero (some ⟨List.replicate 256 97, by decide⟩) 1 =
    .error .outOfBounds := by
  have stored : (synapiInit .zero (some ⟨List.replicate 256 97, by decide⟩) 1).map (fun _ => ()) =
      .error .outOfBounds := by
    decide +kernel
  exact map_eq_error stored

end Synapi

import Synapi.StringFields

/-!
When the key in the handle is the part of its source before the first line
break, which is what the setter is to cut it at.
-/

namespace Synapi

open Runs Text

variable {p : ℤ}

def firstBytes (newApiKey : Bytes) (size : ℤ) : Bytes := newApiKey.take (min size 255).toNat

def cleanKey (newApiKey : Bytes) (size : ℤ) : Bytes :=
  (firstBytes newApiKey size).takeWhile (fun b => b ≠ 0 ∧ b ≠ 13 ∧ b ≠ 10)

def StoresClean (w : World p) (newApiKey : Bytes) (size : Int32) : Prop :=
  ∃ w', synapiApiKey w newApiKey size.toInt = .ok w' ∧
    w'.handle.apiKey.read = some (cleanKey newApiKey size.toInt) ∧
    w'.handle.apiKeySet = true ∧
    w'.handle.encodedApiKey.map (·.val) = some (curlEscape (cleanKey newApiKey size.toInt))

theorem cutAfter_cons (c b : UInt8) (s : Bytes) :
    cutAfter c (b :: s) = if b = c then [b] else b :: cutAfter c s := by
  unfold cutAfter
  rw [List.findIdx?_cons]
  by_cases h : b = c
  · simp only [h, decide_true, if_true, List.take_succ_cons, List.take_zero]
  · simp only [h, decide_false, Bool.false_eq_true, if_false]
    cases s.findIdx? (fun b => decide (b = c)) <;> rfl

theorem cutAfter_ne_nil (c : UInt8) {s : Bytes} (h : s ≠ []) : cutAfter c s ≠ [] := by
  cases s with
  | nil => exact absurd rfl h
  | cons b s =>
    rw [cutAfter_cons]
    split_ifs <;> exact List.cons_ne_nil _ _

theorem cut_clean_iff (s : Bytes) :
    cutAfter 10 (cutAfter 13 s) = s.takeWhile (fun b => b ≠ 13 ∧ b ≠ 10) ↔
      ∀ b ∈ s, b ≠ 13 ∧ b ≠ 10 := by
  induction s with
  | nil => exact iff_of_true rfl (fun b hb => absurd hb List.not_mem_nil)
  | cons b s ih =>
    rw [List.forall_mem_cons, cutAfter_cons]
    by_cases hr : b = 13
    · subst hr
      refine iff_of_false ?_ (fun h => h.1.1 rfl)
      rw [if_pos rfl, List.takeWhile_cons_of_neg (by decide)]
      decide
    rw [if_neg hr, cutAfter_cons]
    by_cases hn : b = 10
    · subst hn
      refine iff_of_false ?_ (fun h => h.1.2 rfl)
      rw [if_pos rfl, List.takeWhile_cons_of_neg (by decide)]
      exact List.cons_ne_nil _ _
    · rw [if_neg hn, List.takeWhile_cons_of_pos (by simp [hr, hn]), List.cons_inj_right, ih]
      exact (and_iff_right ⟨hr, hn⟩).symm

theorem cleanKey_eq (newApiKey : Bytes) (size : ℤ) : cleanKey newApiKey size =
    (cstr (firstBytes newApiKey size)).takeWhile (fun b => b ≠ 13 ∧ b ≠ 10) := by
  rw [cleanKey, cstr, List.takeWhile_takeWhile]
  refine congrArg (List.takeWhile · _) (funext fun b => decide_eq_decide.mpr ?_)
  simp only [decide_eq_true_eq]
  exact and_comm

theorem storesClean_iff_stored (w : World p) (newApiKey : Bytes) (size : Int32) :
    StoresClean w newApiKey size ↔ SetterInBounds newApiKey size.toInt ∧
      storedKey newApiKey size.toInt = cleanKey newApiKey size.toInt := by
  constructor
  · rintro ⟨w', hset, hkey, -, -⟩
    obtain ⟨hb, a, rfl, hs, ht⟩ := synapiApiKey_ok hset
    change a.read = _ at hkey
    rw [CharArray.read_of_terminated ht, Option.some.injEq] at hkey
    exact ⟨hb, hs.symm.trans hkey⟩
  · rintro ⟨hb, hkey⟩
    obtain ⟨a, hset, hs, ht⟩ := synapiApiKey_spec w hb
    rw [hkey] at hs
    refine ⟨w.withApiKey a, hset, ?_, rfl, ?_⟩
    · exact (CharArray.read_of_terminated ht).trans (congrArg some hs)
    · exact congrArg (fun s => some (curlEscape s)) hs

/-! The three kinds of sizes -/

theorem usableSize_negative {size : ℤ} (h : size < 0) (hl : -2 ^ 31 ≤ size) :
    usableSize size = 255 := by
  have large : 256 < sizeT size := by
    unfold sizeT
    omega
  rw [usableSize, if_pos large]

theorem usableSize_clamped {size : ℤ} (h : 0 ≤ size) (hu : size < 2 ^ 31) (hne : size ≠ 256) :
    usableSize size = (min size 255).toNat := by
  have same : sizeT size = size.toNat := by
    unfold sizeT
    omega
  rw [usableSize, same]
  split_ifs <;> omega

theorem firstBytes_negative (newApiKey : Bytes) {size : ℤ} (h : size < 0) :
    firstBytes newApiKey size = [] := by
  rw [firstBytes, show (min size 255).toNat = 0 by omega, List.take_zero]

theorem stored_negative_iff {newApiKey : Bytes} {size : ℤ} (h : size < 0) (hl : -2 ^ 31 ≤ size) :
    (SetterInBounds newApiKey size ∧ storedKey newApiKey size = cleanKey newApiKey size) ↔
      newApiKey.head? = some 0 := by
  rw [SetterInBounds, storedKey, usableSize_negative h hl, cleanKey, firstBytes_negative _ h,
    List.takeWhile_nil]
  cases newApiKey with
  | nil => simp
  | cons b rest =>
    rw [List.head?_cons, Option.some.injEq]
    constructor
    · rintro ⟨-, hempty⟩
      by_contra hb
      have first : (cstr (b :: rest)).take 255 ≠ [] := by simp [cstr, hb]
      exact cutAfter_ne_nil 10 (cutAfter_ne_nil 13 first) hempty
    · rintro rfl
      exact ⟨⟨by omega, .inr List.mem_cons_self⟩, rfl⟩

theorem stored_clamped_iff {newApiKey : Bytes} {size : ℤ} (h : 0 ≤ size) (hu : size < 2 ^ 31)
    (hne : size ≠ 256) :
    storedKey newApiKey size = cleanKey newApiKey size ↔
      ∀ b ∈ cstr (firstBytes newApiKey size), b ≠ 13 ∧ b ≠ 10 := by
  have source : (cstr newApiKey).take (usableSize size) = cstr (firstBytes newApiKey size) := by
    rw [usableSize_clamped h hu hne, cstr, List.take_takeWhile]
    rfl
  rw [storedKey, source, cleanKey_eq, cut_clean_iff]

/-- The setter keeps the line break it cuts at, stores out of bounds for the
size of the array, and takes a negative size for the largest. -/
theorem storesClean_iff (w : World p) {newApiKey : Bytes} {size : Int32}
    (hread : size.toInt ≤ newApiKey.length) :
    StoresClean w newApiKey size ↔
      size.toInt ≠ 256 ∧ (∀ b ∈ cstr (firstBytes newApiKey size.toInt), b ≠ 13 ∧ b ≠ 10) ∧
        (size.toInt < 0 → newApiKey.head? = some 0) := by
  have hl := size.le_toInt
  have hu := size.toInt_lt
  rw [storesClean_iff_stored]
  by_cases hneg : size.toInt < 0
  · rw [stored_negative_iff hneg hl, firstBytes_negative newApiKey hneg]
    constructor
    · intro h
      exact ⟨by omega, fun b hb => absurd hb List.not_mem_nil, fun _ => h⟩
    · rintro ⟨-, -, h⟩
      exact h hneg
  by_cases hfull : size.toInt = 256
  · refine iff_of_false ?_ (fun h => h.1 hfull)
    rintro ⟨⟨hb, -⟩, -⟩
    rw [hfull] at hb
    exact absurd hb (by decide)
  have inBounds : SetterInBounds newApiKey size.toInt := by
    have usable := usableSize_clamped (by omega) hu hfull
    exact ⟨by omega, .inl (by omega)⟩
  rw [stored_clamped_iff (by omega) hu hfull, and_iff_right inBounds, and_iff_right hfull]
  exact (and_iff_left (fun h => absurd h hneg)).symm

theorem storesClean_plain : StoresClean (blank .zero Start.zero.apiKey 1) (ascii "SYN:S:1:ab") 10 := by
  apply (storesClean_iff _ (by decide)).mpr
  refine ⟨by decide, ?_, by decide⟩
  decide +kernel

theorem line_break_kept :
    ¬ StoresClean (blank .zero Start.zero.apiKey 1) (ascii "SYN:S:1:ab" ++ [13, 10]) 12 := by
  rw [storesClean_iff_stored]
  rintro ⟨-, hkey⟩
  exact absurd hkey (by decide)

end Synapi

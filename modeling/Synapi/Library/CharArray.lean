import Mathlib.Data.List.TakeWhile
import Mathlib.Data.List.Basic

/-!
C strings in byte arrays of fixed size. An operation that would touch a byte
outside the array, or read past the end of its source, has no result.
-/

abbrev Bytes := List UInt8

/-- The bytes before the first NUL. -/
def cstr (l : Bytes) : Bytes := l.takeWhile (· ≠ 0)

/-- A string argument of the C code: bytes without a NUL. -/
def CString := { s : Bytes // 0 ∉ s }

structure CharArray (n : ℕ) where
  bytes : Bytes
  size_eq : bytes.length = n

theorem cstr_of_notMem {s : Bytes} (h : 0 ∉ s) : cstr s = s := by
  refine List.takeWhile_eq_self_iff.mpr (fun b hb => ?_)
  simp only [ne_eq, decide_eq_true_eq]
  rintro rfl
  exact h hb

theorem zero_notMem_cstr (l : Bytes) : 0 ∉ cstr l := by
  intro h
  simpa using List.mem_takeWhile_imp h

theorem cstr_append_zero {s : Bytes} (h : 0 ∉ s) (l : Bytes) : cstr (s ++ 0 :: l) = s := by
  rw [cstr, List.takeWhile_append_of_pos, List.takeWhile_cons_of_neg (by simp), List.append_nil]
  intro b hb
  simp only [ne_eq, decide_eq_true_eq]
  rintro rfl
  exact h hb

theorem cstr_set_zero {l : Bytes} {k : ℕ} (hk : k < l.length) :
    cstr (l.set k 0) = (cstr l).take k := by
  induction l generalizing k with
  | nil => simp at hk
  | cons b l ih =>
    cases k with
    | zero => simp [cstr]
    | succ k =>
      have tail := ih (k := k) (by simpa using hk)
      by_cases hb : b = 0
      · simp [cstr, hb]
      · simpa [cstr, hb] using tail

namespace CharArray

variable {n : ℕ}

/-- The array holds a NUL, so a scan for it stays inside. -/
def Terminated (a : CharArray n) : Prop := 0 ∈ a.bytes

instance (a : CharArray n) : Decidable a.Terminated := inferInstanceAs (Decidable (0 ∈ a.bytes))

def str (a : CharArray n) : Bytes := cstr a.bytes

def read (a : CharArray n) : Option Bytes := if a.Terminated then some a.str else none

def store (a : CharArray n) (k : ℕ) (b : UInt8) : Option (CharArray n) :=
  if k < n then some ⟨a.bytes.set k b, by simp [a.size_eq]⟩ else none

/-- What `strncpy` writes for a bound `k`: the source up to its NUL, filled up
with NULs. There is no result when the source ends before either limit. -/
def copied (src : Bytes) (k : ℕ) : Option Bytes :=
  if k ≤ (cstr src).length then some ((cstr src).take k)
  else if 0 ∈ src then some (cstr src ++ List.replicate (k - (cstr src).length) 0)
  else none

theorem copied_length {src w : Bytes} {k : ℕ} (h : copied src k = some w) : w.length = k := by
  unfold copied at h
  split_ifs at h with hk hz
  · simp only [Option.some.injEq] at h
    simp [← h, hk]
  · simp only [Option.some.injEq] at h
    simp only [← h, List.length_append, List.length_replicate]
    omega

def strncpy (a : CharArray n) (src : Bytes) (k : ℕ) : Option (CharArray n) :=
  match h : copied src k with
  | none => none
  | some w =>
    if hk : k ≤ n then some ⟨w ++ a.bytes.drop k, by simp [copied_length h, a.size_eq, hk]⟩
    else none

def strchr (a : CharArray n) (c : UInt8) : Option (Option ℕ) :=
  a.read.map (fun s => s.findIdx? (· = c))

theorem read_of_terminated {a : CharArray n} (h : a.Terminated) : a.read = some a.str := by
  simp [read, h]

theorem str_length_lt {a : CharArray n} (h : a.Terminated) : a.str.length < n := by
  obtain ⟨s, l, hs⟩ := List.append_of_mem h
  have hle : a.str.length ≤ s.length := by
    rw [str, hs, cstr, List.takeWhile_append]
    split_ifs with hl
    · simp
    · exact (List.takeWhile_prefix _).length_le
  have hn := a.size_eq
  rw [hs, List.length_append, List.length_cons] at hn
  omega

theorem terminated_of_length {a : CharArray n} (h : a.str.length < n) : a.Terminated := by
  by_contra hz
  rw [str, cstr_of_notMem hz, a.size_eq] at h
  exact Nat.lt_irrefl n h

theorem store_some {a : CharArray n} {k : ℕ} (h : k < n) (b : UInt8) :
    ∃ a', a.store k b = some a' ∧ a'.bytes = a.bytes.set k b := by
  simp [store, h]

theorem store_none {a : CharArray n} {k : ℕ} (h : n ≤ k) (b : UInt8) : a.store k b = none := by
  simp [store, Nat.not_lt.mpr h]

theorem store_zero {a : CharArray n} {k : ℕ} (h : k < n) :
    ∃ a', a.store k 0 = some a' ∧ a'.str = a.str.take k ∧ a'.Terminated := by
  obtain ⟨a', ha, hb⟩ := store_some (a := a) h 0
  have hl : k < a.bytes.length := by rw [a.size_eq]; exact h
  refine ⟨a', ha, ?_, ?_⟩
  · rw [str, hb, cstr_set_zero hl, str]
  · rw [Terminated, hb]
    exact List.mem_set hl 0

theorem strncpy_some {a : CharArray n} {src : Bytes} {k : ℕ} (hk : k ≤ n)
    (hsrc : k ≤ src.length ∨ 0 ∈ src) :
    ∃ a', a.strncpy src k = some a' ∧ a'.str.take k = (cstr src).take k := by
  have full : 0 ∈ src ∨ cstr src = src := by
    by_cases hz : 0 ∈ src
    · exact .inl hz
    · exact .inr (cstr_of_notMem hz)
  have hw : ∃ w, copied src k = some w ∧
      ∀ l, (cstr (w ++ l)).take k = (cstr src).take k := by
    unfold copied
    by_cases hl : k ≤ (cstr src).length
    · refine ⟨(cstr src).take k, by simp [hl], fun l => ?_⟩
      have hz : 0 ∉ (cstr src).take k := fun h => zero_notMem_cstr src (List.mem_of_mem_take h)
      rw [cstr, List.takeWhile_append_of_pos]
      · rw [List.take_append_of_le_length (by simp [hl]), List.take_take, Nat.min_self]
      · intro b hb
        simp only [ne_eq, decide_eq_true_eq]
        rintro rfl
        exact hz hb
    · have hz : 0 ∈ src := by
        rcases full with hz | he
        · exact hz
        · rcases hsrc with hs | hs
          · rw [he] at hl; omega
          · exact hs
      refine ⟨cstr src ++ List.replicate (k - (cstr src).length) 0, by simp [hl, hz], fun l => ?_⟩
      obtain ⟨m, hm⟩ : ∃ m, k - (cstr src).length = m + 1 :=
        ⟨k - (cstr src).length - 1, by omega⟩
      rw [hm, List.replicate_succ, List.append_assoc, List.cons_append,
        cstr_append_zero (zero_notMem_cstr src)]
  obtain ⟨w, hc, hs⟩ := hw
  refine ⟨⟨w ++ a.bytes.drop k, by simp [copied_length hc, a.size_eq, hk]⟩, ?_, hs _⟩
  unfold strncpy
  split
  · simp_all
  · next w' hw' =>
    rw [hc, Option.some.injEq] at hw'
    subst hw'
    simp [hk]

theorem strncpy_source {a a' : CharArray n} {src : Bytes} {k : ℕ} (h : a.strncpy src k = some a') :
    k ≤ src.length ∨ 0 ∈ src := by
  have hc : ∃ w, copied src k = some w := by
    cases hc : copied src k with
    | some w => exact ⟨w, rfl⟩
    | none =>
      unfold strncpy at h
      split at h
      · cases h
      · simp_all
  obtain ⟨w, hw⟩ := hc
  unfold copied at hw
  split_ifs at hw with hk hz
  · exact .inl (hk.trans (List.takeWhile_prefix _).length_le)
  · exact .inr hz

theorem strncpy_store (a : CharArray n) (src : Bytes) {k : ℕ} (hk : k < n)
    (hsrc : k ≤ src.length ∨ 0 ∈ src) :
    ∃ a₁ a₂, a.strncpy src k = some a₁ ∧ a₁.store k 0 = some a₂ ∧
      a₂.str = (cstr src).take k ∧ a₂.Terminated := by
  obtain ⟨a₁, h₁, hs₁⟩ := strncpy_some (a := a) (Nat.le_of_lt hk) hsrc
  obtain ⟨a₂, h₂, hs₂, ht₂⟩ := store_zero (a := a₁) hk
  exact ⟨a₁, a₂, h₁, h₂, hs₂.trans hs₁, ht₂⟩

end CharArray

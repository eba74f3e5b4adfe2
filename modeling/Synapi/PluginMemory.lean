import Synapi.Session
import Synapi.KeyCopy
import Synapi.Library.Utf8

/-!
The memory of a plugin, and how SourceMod copies a text into an array there.
-/

namespace Synapi

open Runs Utf8

inductive SpError where
  | none
  | invalidAddress
  deriving DecidableEq

structure PluginContext where
  hp : Int32
  sp : Int32
  memory : Bytes

def PluginContext.invalid (ctx : PluginContext) (localAddr : Int32) : Bool :=
  (ctx.hp ≤ localAddr && localAddr < ctx.sp) || localAddr < 0 ||
    ctx.memory.length ≤ localAddr.toUInt32.toNat

namespace PluginContext

-- `StringToLocal`.
def stringToLocal (ctx : PluginContext) (localAddr : Int32) (bytes : ℕ) (source : CString) :
    Except Fault (SpError × PluginContext) := do
  if ctx.invalid localAddr then .ok (.invalidAddress, ctx)
  else if bytes = 0 then .ok (.none, ctx)
  else
    let dest := localAddr.toUInt32.toNat
    let len := if bytes ≤ source.val.length then bytes - 1 else source.val.length
    let memory ← inBounds (overlay ctx.memory dest (source.val.take len))
    let memory ← inBounds (overlay memory (dest + len) [0])
    .ok (.none, { ctx with memory })

end PluginContext

def byteCount (c : UInt8) : ℕ :=
  if c &&& 0xF0 = 0xC0 ∨ c &&& 0xF0 = 0xD0 then 2
  else if c &&& 0xF0 = 0xE0 then 3
  else if c &&& 0xF0 = 0xF0 then 4
  else 0

/-- `__CheckValidChar`, from the byte at `c` backwards. -/
def checkValidChar (memory : Bytes) (c count : ℕ) : Except Fault ℕ := do
  let b ← inBounds memory[c]?
  if isContinuation b then
    match c with
    | 0 => .error .outOfBounds
    | c + 1 => checkValidChar memory c (count + 1)
  else .ok (if byteCount b ≠ count then count else 0)

-- How much of the copy that ends at `last` is taken back.
def brokenBytes (memory : Bytes) (last : ℕ) (needtocheck : Bool) : Except Fault ℕ := do
  let c ← inBounds memory[last]?
  if c &&& 128 ≠ 0 ∧ needtocheck = true then checkValidChar memory last 1 else .ok 0

/-- `StringToLocalUTF8`, with what it stores at `wrtnbytes`. -/
def PluginContext.stringToLocalUTF8 (ctx : PluginContext) (localAddr : Int32) (maxbytes : ℕ)
    (source : CString) : Except Fault (SpError × Option ℕ × PluginContext) := do
  if ctx.invalid localAddr then .ok (.invalidAddress, none, ctx)
  else if maxbytes = 0 then .ok (.none, none, ctx)
  else
    let dest := localAddr.toUInt32.toNat
    let needtocheck := decide (maxbytes ≤ source.val.length)
    let len := if needtocheck then maxbytes - 1 else source.val.length
    let memory ← inBounds (overlay ctx.memory dest (source.val.take len))
    match dest + len with
    | 0 => .error .outOfBounds
    | last + 1 =>
      let count ← brokenBytes memory last needtocheck
      -- `dest[len]` is counted from the end of the copy, which `len` may wrap around below.
      let memory ← inBounds (overlay memory (last + 1 - count) [0])
      .ok (.none, some (sizeT (len - count)), { ctx with memory })

/-- The longest beginning of a text that has whole characters only and fits. -/
def Clip.utf8 : Clip where
  cut size s := ⟨wholeChars (size - 1) (chars s.val), fun h => s.property (wholeChars_subset _ _ h)⟩
  bounded _ s hsize := wholeChars_length_lt hsize (chars s.val)

/-! The bytes of a character -/

theorem byte_all : (List.range 256).all (fun n =>
    (!isContinuation (UInt8.ofNat n) || (UInt8.ofNat n &&& 128 != 0)) &&
    ((leadSize (UInt8.ofNat n)).all fun k => !isContinuation (UInt8.ofNat n) &&
      if k = 1 then UInt8.ofNat n &&& 128 == 0
      else UInt8.ofNat n &&& 128 != 0 && byteCount (UInt8.ofNat n) == k)) = true := by
  decide +kernel

theorem byte_cases (b : UInt8) : (isContinuation b = true → b &&& 128 ≠ 0) ∧
    ∀ k, leadSize b = some k → isContinuation b = false ∧
      if k = 1 then b &&& 128 = 0 else b &&& 128 ≠ 0 ∧ byteCount b = k := by
  have all := List.all_eq_true.mp byte_all b.toNat (List.mem_range.mpr b.toNat_lt)
  rw [UInt8.ofNat_toNat, Bool.and_eq_true] at all
  constructor
  · intro h
    have := all.1
    rw [h] at this
    simpa using this
  · intro k hk
    have := all.2
    rw [hk, Option.all_some, Bool.and_eq_true] at this
    refine ⟨by simpa using this.1, ?_⟩
    have size := this.2
    split_ifs at size ⊢
    · simpa using size
    · simpa using size

theorem checkValidChar_spec {pre conts : Bytes} {lead : UInt8} (rest : Bytes)
    (hlead : isContinuation lead = false) (hconts : ∀ b ∈ conts, isContinuation b = true) (count : ℕ) :
    checkValidChar (pre ++ (lead :: conts) ++ rest) (pre.length + conts.length) count =
      .ok (if byteCount lead ≠ count + conts.length then count + conts.length else 0) := by
  induction conts using List.reverseRecOn generalizing rest count with
  | nil =>
    have read : (pre ++ [lead] ++ rest)[pre.length]? = some lead := by simp
    rw [checkValidChar.eq_def, List.length_nil, Nat.add_zero, read]
    simp only [inBounds, ok_bind, hlead]
    rfl
  | append_singleton conts b ih =>
    have hb := hconts b (List.mem_append_right _ List.mem_cons_self)
    have read : (pre ++ (lead :: (conts ++ [b])) ++ rest)[pre.length + conts.length + 1]? =
        some b := by
      rw [List.append_assoc, List.getElem?_append_right (by omega)]
      simp [Nat.add_assoc]
    have next := ih (b :: rest) (fun d hd => hconts d (List.mem_append_left _ hd)) (count + 1)
    have same : pre ++ (lead :: conts) ++ b :: rest = pre ++ (lead :: (conts ++ [b])) ++ rest := by
      simp
    rw [same] at next
    rw [List.length_append, List.length_singleton, ← Nat.add_assoc, checkValidChar.eq_def, read]
    simp only [inBounds, ok_bind, hb, if_true, next]
    rw [Nat.add_right_comm, Nat.add_assoc]

/-- The last byte copied decides whether the copy ends inside a character, and
if so how many bytes of it there are. -/
theorem brokenBytes_tail {pre conts rest : Bytes} {lead : UInt8} {k : ℕ}
    (hlead : leadSize lead = some k) (hconts : ∀ b ∈ conts, isContinuation b = true)
    (hle : conts.length + 1 ≤ k) :
    brokenBytes (pre ++ (lead :: conts) ++ rest) (pre.length + conts.length) true =
      .ok (if conts.length + 1 = k then 0 else conts.length + 1) := by
  obtain ⟨hstart, hsize⟩ := (byte_cases lead).2 k hlead
  have whole (h2 : 2 ≤ k) :
      checkValidChar (pre ++ (lead :: conts) ++ rest) (pre.length + conts.length) 1 =
        .ok (if conts.length + 1 = k then 0 else conts.length + 1) := by
    rw [if_neg (by omega)] at hsize
    rw [checkValidChar_spec rest hstart hconts, hsize.2, Nat.add_comm 1]
    split_ifs with hne hk hk <;> first | rfl | exact absurd hk (Ne.symm hne) | omega
  rcases List.eq_nil_or_concat conts with rfl | ⟨init, b, rfl⟩
  · have read : (pre ++ [lead] ++ rest)[pre.length + ([] : Bytes).length]? = some lead := by simp
    simp only [brokenBytes, read, inBounds, ok_bind, and_true]
    by_cases hk : k = 1
    · rw [if_pos hk] at hsize
      rw [if_neg (not_not.mpr hsize), List.length_nil, if_pos hk.symm]
    · rw [if_neg hk] at hsize
      rw [if_pos hsize.1]
      apply whole
      change 0 + 1 ≤ k at hle
      omega
  · have read : (pre ++ (lead :: init.concat b) ++ rest)[pre.length + (init.concat b).length]? =
        some b := by
      rw [List.append_assoc, List.getElem?_append_right (by omega)]
      simp
    have hb := (byte_cases b).1 (hconts b (by simp))
    simp only [brokenBytes, read, inBounds, ok_bind, and_true]
    rw [if_pos hb]
    apply whole
    rw [List.length_concat] at hle
    omega

/-! The two copies -/

/-- The text in the array that begins at the address. -/
def PluginContext.text (ctx : PluginContext) (localAddr : Int32) : Bytes :=
  cstr (ctx.memory.drop localAddr.toUInt32.toNat)

/-- Nothing has changed but the array of this size. -/
structure PluginContext.Keeps (ctx : PluginContext) (localAddr : Int32) (size : ℕ)
    (ctx' : PluginContext) : Prop where
  below : ctx'.memory.take localAddr.toUInt32.toNat = ctx.memory.take localAddr.toUInt32.toNat
  above : ctx'.memory.drop (localAddr.toUInt32.toNat + size) =
    ctx.memory.drop (localAddr.toUInt32.toNat + size)
  registers : ctx'.hp = ctx.hp ∧ ctx'.sp = ctx.sp

/-- A NUL stored in a copy, after the bytes of it that are to stay. -/
theorem overlay_cut {memory : Bytes} {d size : ℕ} (whole part : Bytes)
    (hroom : d + size ≤ memory.length) (hfit : (whole ++ part).length < size) :
    ∃ after, overlay (memory.take d ++ (whole ++ part) ++ memory.drop (d + (whole ++ part).length))
        (d + whole.length) [0] = some after ∧
      after.drop d = whole ++ 0 :: (part ++ memory.drop (d + (whole ++ part).length)).drop 1 ∧
        after.take d = memory.take d ∧ after.drop (d + size) = memory.drop (d + size) := by
  have hd : (memory.take d).length = d := List.length_take_of_le (by omega)
  have room : [(0 : UInt8)].length ≤
      (part ++ memory.drop (d + (whole ++ part).length)).length := by
    simp only [List.length_append, List.length_drop, List.length_singleton] at hfit ⊢
    omega
  have written := overlay_append (memory.take d ++ whole) room
  rw [show (memory.take d ++ whole).length = d + whole.length by rw [List.length_append, hd]]
    at written
  refine ⟨_, Eq.trans ?_ written, ?_, ?_, ?_⟩
  · simp only [List.append_assoc]
  · rw [List.append_assoc, List.drop_append_of_le_length (by omega),
      List.drop_of_length_le (Nat.le_of_eq hd), List.nil_append]
    rfl
  · rw [List.append_assoc, List.take_append_of_le_length (by omega),
      List.take_of_length_le (Nat.le_of_eq hd)]
  · rw [List.length_append] at hfit
    rw [List.drop_append, List.drop_of_length_le (by rw [List.length_append]; omega),
      List.nil_append, List.drop_append, List.drop_of_length_le (by simp; omega), List.nil_append,
      List.drop_drop, List.drop_append, List.drop_of_length_le (by simp; omega), List.nil_append,
      List.drop_drop]
    apply congrArg (List.drop · memory)
    simp only [List.length_append, List.length_singleton]
    omega

section Copies

variable {ctx : PluginContext} {localAddr : Int32} {size : ℕ} {source : CString}

/-- The array the plugin names lies in its memory. -/
structure PluginContext.Holds (ctx : PluginContext) (localAddr : Int32) (size : ℕ) : Prop where
  valid : ctx.invalid localAddr = false
  inside : localAddr.toUInt32.toNat + size ≤ ctx.memory.length

theorem overlay_copy {d : ℕ} (memory text : Bytes) (h : d + text.length ≤ memory.length) :
    overlay memory d text = some (memory.take d ++ text ++ memory.drop (d + text.length)) :=
  if_pos h

/-- How much is copied, and that it is less than the array holds. -/
theorem copied (source : CString) (hsize : 0 < size) :
    (if size ≤ source.val.length then size - 1 else source.val.length) =
        (source.val.take (size - 1)).length ∧
      source.val.take (if size ≤ source.val.length then size - 1 else source.val.length) =
        source.val.take (size - 1) ∧ (source.val.take (size - 1)).length < size := by
  refine ⟨?_, ?_, ?_⟩
  · rw [List.length_take]
    split_ifs <;> omega
  · split_ifs
    · rfl
    · rw [List.take_length, List.take_of_length_le (by omega)]
  · rw [List.length_take]
    omega

theorem stringToLocal_ok (source : CString) (h : ctx.Holds localAddr size) (hsize : 0 < size) :
    ∃ ctx', ctx.stringToLocal localAddr size source = .ok (.none, ctx') ∧
      ctx'.memory.drop localAddr.toUInt32.toNat = source.val.take (size - 1) ++ 0 ::
        (ctx.memory.drop (localAddr.toUInt32.toNat + (source.val.take (size - 1)).length)).drop 1 ∧
      ctx.Keeps localAddr size ctx' := by
  obtain ⟨hlen, htake, hlt⟩ := copied source hsize
  have inside := h.inside
  obtain ⟨after, hafter, htext, hbelow, habove⟩ := overlay_cut (source.val.take (size - 1)) []
    inside (by rwa [List.append_nil])
  rw [List.append_nil] at hafter htext
  have copy := overlay_copy ctx.memory (source.val.take (size - 1))
    (show localAddr.toUInt32.toNat + _ ≤ _ by omega)
  refine ⟨{ ctx with memory := after }, ?_, htext, ⟨hbelow, habove, rfl, rfl⟩⟩
  rw [PluginContext.stringToLocal, h.valid, if_neg Bool.false_ne_true, if_neg (by omega)]
  simp only [htake]
  simp only [hlen, copy, hafter, inBounds, ok_bind]

theorem stringToLocal_clips (source : CString) (h : ctx.Holds localAddr size) (hsize : 0 < size) :
    ∃ ctx', ctx.stringToLocal localAddr size source = .ok (.none, ctx') ∧
      ctx'.text localAddr = (Clip.toLocal.cut size source).val ∧ ctx.Keeps localAddr size ctx' := by
  obtain ⟨ctx', hcopy, hdrop, hkeeps⟩ := stringToLocal_ok source h hsize
  have hclean := (Clip.toLocal.cut size source).property
  exact ⟨ctx', hcopy, (congrArg cstr hdrop).trans (cstr_append_zero hclean _), hkeeps⟩

/-- The copy as `sm_synapi_get_api_key` sees it, in the cells of the array. -/
theorem stringToLocal_array (source : CString) (h : ctx.Holds localAddr size) (hsize : 0 < size) :
    Synapi.stringToLocal ((ctx.memory.drop localAddr.toUInt32.toNat).map some) size
        ((source.val ++ [0]).map some) =
      (ctx.stringToLocal localAddr size source).map
        (fun r => (r.2.memory.drop localAddr.toUInt32.toNat).map some) := by
  obtain ⟨ctx', hcopy, hdrop, -⟩ := stringToLocal_ok source h hsize
  have inside := h.inside
  have terminated := stringToLocal_terminated source.property
    ((ctx.memory.drop localAddr.toUInt32.toNat).map some) [] (show size ≠ 0 by omega)
  have room : (source.val.take (size - 1) ++ [0]).length ≤
      ((ctx.memory.drop localAddr.toUInt32.toNat).map some).length := by
    simp only [List.length_append, List.length_take, List.length_map, List.length_drop,
      List.length_singleton]
    omega
  rw [List.append_nil] at terminated
  rw [terminated, Cells.overwrite_some room, hcopy]
  apply congrArg Except.ok
  change _ = (ctx'.memory.drop localAddr.toUInt32.toNat).map some
  rw [hdrop, ← List.map_drop, ← List.map_append, List.drop_drop, List.drop_drop, List.append_assoc,
    List.length_append, Nat.add_assoc]
  rfl

/-- What the check counts is what the copy has of a character beyond the whole ones. -/
theorem brokenBytes_copy (hv : Valid source.val) (hsize : 2 ≤ size) {pre : Bytes} (hpre : pre ≠ [])
    (rest : Bytes) : ∃ part last,
      source.val.take (size - 1) = (Clip.utf8.cut size source).val ++ part ∧
      pre.length + (source.val.take (size - 1)).length = last + 1 ∧
      brokenBytes (pre ++ source.val.take (size - 1) ++ rest) last
        (decide (size ≤ source.val.length)) = .ok part.length := by
  obtain ⟨part, hpart, hcases⟩ := take_flatten (size - 1) (chars source.val)
  rw [chars_flatten] at hpart
  by_cases hlong : size ≤ source.val.length
  · have hlen : (source.val.take (size - 1)).length = size - 1 := List.length_take_of_le (by omega)
    rw [decide_eq_true hlong]
    have tail {before conts : Bytes} {lead : UInt8} {k : ℕ} (hlead : leadSize lead = some k)
        (hconts : ∀ b ∈ conts, isContinuation b = true) (hle : conts.length + 1 ≤ k)
        (hcopy : source.val.take (size - 1) = before ++ (lead :: conts)) :
        ∃ last, pre.length + (source.val.take (size - 1)).length = last + 1 ∧
          brokenBytes (pre ++ source.val.take (size - 1) ++ rest) last true =
            .ok (if conts.length + 1 = k then 0 else conts.length + 1) := by
      refine ⟨(pre ++ before).length + conts.length, ?_, ?_⟩
      · rw [hcopy]
        simp only [List.length_append, List.length_cons]
        omega
      · rw [hcopy, ← List.append_assoc]
        exact brokenBytes_tail hlead hconts hle
    rcases hcases with rfl | ⟨c, hc, hprefix, hne, hlt⟩
    · -- The copy ends with a whole character.
      have hcopy := hpart.trans (List.append_nil _)
      have hwhole : wholeChars (size - 1) (chars source.val) ≠ [] := by
        intro hnil
        rw [hcopy, hnil] at hlen
        change 0 = size - 1 at hlen
        omega
      obtain ⟨before, c, hc, hlast⟩ := wholeChars_last hwhole
      obtain ⟨lead, conts, rfl, hlead, hconts⟩ := isChar_parts (hv c hc)
      obtain ⟨last, hlast', hcount⟩ := tail hlead hconts (Nat.le_refl _) (hcopy.trans hlast)
      rw [List.length_cons, if_pos rfl] at hcount
      exact ⟨[], last, hpart, hlast', hcount⟩
    · -- The copy ends inside a character.
      obtain ⟨lead, conts, rfl, hlead, hconts⟩ := isChar_parts (hv c hc)
      obtain ⟨m, hm⟩ : ∃ m, part.length = m + 1 :=
        Nat.exists_eq_succ_of_ne_zero (fun h0 => hne (List.length_eq_zero_iff.mp h0))
      rw [hm, List.take_succ_cons] at hprefix
      rw [hm] at hlt
      rw [List.length_cons] at hlt hlead
      have length : (conts.take m).length = m := List.length_take_of_le (by omega)
      have hcopy : source.val.take (size - 1) =
          (Clip.utf8.cut size source).val ++ (lead :: conts.take m) := by
        rw [← hprefix]
        exact hpart
      obtain ⟨last, hlast, hcount⟩ := tail hlead
        (fun b hb => hconts b (List.mem_of_mem_take hb)) (by rw [length]; omega) hcopy
      rw [length, if_neg (show m + 1 ≠ conts.length + 1 by omega), ← hm] at hcount
      exact ⟨part, last, hpart, hlast, hcount⟩
  · have whole : (Clip.utf8.cut size source).val = source.val := by
      refine (wholeChars_all ?_).trans (chars_flatten _)
      rw [chars_flatten]
      omega
    have all : source.val.take (size - 1) = source.val := List.take_of_length_le (by omega)
    have hlen := List.length_pos_iff.mpr hpre
    refine ⟨[], pre.length + source.val.length - 1, by rw [all, whole, List.append_nil],
      by rw [all]; omega, ?_⟩
    have inside : pre.length + source.val.length - 1 < (pre ++ source.val ++ rest).length := by
      rw [List.length_append, List.length_append]
      omega
    rw [all, decide_eq_false hlong, brokenBytes, List.getElem?_eq_getElem inside]
    simp only [inBounds, ok_bind]
    rw [if_neg (fun h => Bool.false_ne_true h.2)]
    rfl

/-- A name in UTF-8 is copied into the plugin's array without a broken character
at the end, and nothing outside the array changes. -/
theorem stringToLocalUTF8_clips (h : ctx.Holds localAddr size) (hsize : 2 ≤ size)
    (haddr : localAddr ≠ 0) (hv : Valid source.val) :
    ∃ ctx', ctx.stringToLocalUTF8 localAddr size source =
        .ok (.none, some (sizeT (Clip.utf8.cut size source).val.length), ctx') ∧
      ctx'.text localAddr = (Clip.utf8.cut size source).val ∧ ctx.Keeps localAddr size ctx' := by
  obtain ⟨hlen, htake, hlt⟩ := copied source (show 0 < size by omega)
  have inside := h.inside
  have pos : localAddr.toUInt32.toNat ≠ 0 := by
    intro hzero
    apply haddr
    have zero : localAddr.toUInt32 = 0 := UInt32.toNat_inj.mp hzero
    exact congrArg UInt32.toInt32 zero
  have hbefore : (ctx.memory.take localAddr.toUInt32.toNat).length = localAddr.toUInt32.toNat :=
    List.length_take_of_le (by omega)
  have before : ctx.memory.take localAddr.toUInt32.toNat ≠ [] := by
    intro hnil
    rw [hnil] at hbefore
    exact pos hbefore.symm
  obtain ⟨part, last, hpart, hlast, hcount⟩ := brokenBytes_copy hv hsize before
    (ctx.memory.drop (localAddr.toUInt32.toNat + (source.val.take (size - 1)).length))
  rw [hbefore] at hlast
  obtain ⟨after, hafter, htext, hbelow, habove⟩ := overlay_cut (Clip.utf8.cut size source).val part
    inside (hpart ▸ hlt)
  have wholes : last + 1 - part.length =
      localAddr.toUInt32.toNat + (Clip.utf8.cut size source).val.length := by
    rw [← hlast, hpart, List.length_append]
    omega
  have written : ((source.val.take (size - 1)).length : ℤ) - part.length =
      (Clip.utf8.cut size source).val.length := by
    rw [hpart, List.length_append, Int.natCast_add, Int.add_sub_cancel]
  have copy := overlay_copy ctx.memory (source.val.take (size - 1))
    (show localAddr.toUInt32.toNat + _ ≤ _ by omega)
  rw [← hpart, ← wholes] at hafter
  rw [hlast] at copy hcount hafter
  refine ⟨{ ctx with memory := after }, ?_, (congrArg cstr htext).trans
    (cstr_append_zero (Clip.utf8.cut size source).property _), ⟨hbelow, habove, rfl, rfl⟩⟩
  rw [PluginContext.stringToLocalUTF8, h.valid, if_neg Bool.false_ne_true, if_neg (by omega)]
  simp only [decide_eq_true_eq, htake]
  simp only [hlen, copy, inBounds, ok_bind, hlast, hcount, hafter, written]

theorem stringToLocalUTF8_euro :
    ∃ ctx' : PluginContext, PluginContext.stringToLocalUTF8 ⟨8, 8, List.replicate 10 1⟩ 2 5
        ⟨[97, 0xC3, 0xA9, 0xE2, 0x82, 0xAC], by decide⟩ = .ok (.none, some 3, ctx') ∧
      ctx'.text 2 = [97, 0xC3, 0xA9] ∧ ctx'.memory.drop 7 = [1, 1, 1] := by
  have holds : PluginContext.Holds ⟨8, 8, List.replicate 10 1⟩ 2 5 := ⟨by decide, by decide⟩
  have valid : Valid (Subtype.val (⟨[97, 0xC3, 0xA9, 0xE2, 0x82, 0xAC], by decide⟩ : CString)) := by
    decide
  obtain ⟨ctx', hcopy, htext, hkeeps⟩ := stringToLocalUTF8_clips holds (by decide) (by decide) valid
  exact ⟨ctx', hcopy, htext, hkeeps.above⟩

end Copies

end Synapi

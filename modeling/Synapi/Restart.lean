import Synapi.Chunks
import Synapi.Extension
import Synapi.KeyCopy
import Synapi.Ownership
import Synapi.StringFields
import Synapi.UrlPairing

/-!
The key over a restart of the plugin: `OnPluginEnd` stores it in a KeyValues
file, and the next `OnPluginStart` looks for it there.
-/

namespace Synapi

open Runs Text

/-- The string under `api_key` in `synapi.cfg`, if there is one. -/
structure ConfigFile where
  apiKey : Option CString

def noneKey : CString := literal "none"

def kvGetString (kv : ConfigFile) (maxlength : ℕ) (defvalue : CString) : CString :=
  let value := kv.apiKey.getD defvalue
  ⟨value.val.take (maxlength - 1), fun h => value.property (List.mem_of_mem_take h)⟩

def toLower (b : UInt8) : UInt8 := if 65 ≤ b ∧ b ≤ 90 then b + 32 else b

/-- `StrEqual(s, t, false)`: the case of letters makes no difference. -/
def strEqual (s t : Bytes) : Bool := s.map toLower == t.map toLower

-- `decl` leaves the array of the plugin as it finds it.
def storeApiKey (apiKey : Option (CharArray 256)) : Except Fault ConfigFile := do
  let array ← copyApiKey apiKey (Cells.unwritten 256) 255
  let s ← inBounds array.read
  .ok ⟨some s⟩

def findApiKey (file : Option ConfigFile) (maxlength : ℕ) : Option CString × ConfigFile :=
  match file with
  | some kv =>
    let apiKey := kvGetString kv maxlength noneKey
    if strEqual apiKey.val noneKey.val then (none, kv) else (some apiKey, kv)
  | none => (none, ⟨some noneKey⟩)

-- `sm_synapi_init` or `sm_synapi_init_with_api_key`, with `POOL_SIZE`.
def initNative (start : Start) (apiKey : Option CString) : Except Fault (World 15) := do
  let w ← synapiInit start apiKey 15
  synapiUrl w extensionUrl extensionHostHeader

def onPluginStart (start : Start) (env : SendEnv) (file : Option ConfigFile) :
    Except Fault (World 15 × ConfigFile) := do
  match findApiKey file 255 with
  | (some apiKey, kv) =>
    let w ← initNative start (some apiKey)
    .ok (w, kv)
  | (none, kv) =>
    let w ← initNative start none
    let r ← synapiNewServer env w
    .ok (r.2, kv)

def onPluginEnd (w : World 15) : Except Fault (World 15 × ConfigFile) := do
  let kv ← storeApiKey (some w.handle.apiKey)
  let w ← synapiFree w
  .ok (w, kv)

/-- The handle of the session after the one that ends with `w`. -/
def restart (start : Start) (env : SendEnv) (w : World 15) : Except Fault (World 15) := do
  let ended ← onPluginEnd w
  let started ← onPluginStart start env (some ended.2)
  .ok started.1

/-- The handles of a session: the natives call no setter after `OnPluginStart`. -/
def InSession : World 15 → Prop :=
  Reach (fun w => ∃ start env file kv, onPluginStart start env file = .ok (w, kv)) step
    (fun _ c => ¬ c.Sets)

/-- What the session that ended with `w` makes of the next one. A key that is not
set is empty. -/
structure KeySurvives (w w' : World 15) : Prop where
  kept : w.view.apiKey ≠ [] → 13 ∉ w.view.apiKey → 10 ∉ w.view.apiKey →
    w'.view.apiKeySet = true ∧ w'.view.apiKey = w.view.apiKey ∧ sents w'.trace = []
  registers : w.view.apiKey = [] →
    w'.view.apiKeySet = false ∧ ∃ sent ∈ sents w'.trace, sent.request.apiKeyRequest = true

/-- A key that is stored whole and is not taken for the mark of a missing one. -/
def Restorable (key : Bytes) : Prop :=
  key ≠ [] ∧ (13 ∉ key → 10 ∉ key → key.length ≤ 253 ∧ strEqual key noneKey.val = false)

variable {p : ℤ} {w : World 15}

/-! The file -/

theorem storeApiKey_ok {a : CharArray 256} (ha : a.Terminated) :
    storeApiKey (some a) = .ok ⟨some ⟨a.str.take 253,
      fun h => zero_notMem_cstr _ (List.mem_of_mem_take h)⟩⟩ := by
  have size : copySize 255 = 255 := by decide
  have clean : 0 ∉ a.str.take 253 := fun h => zero_notMem_cstr _ (List.mem_of_mem_take h)
  have room : (a.str.take 253 ++ [0]).length ≤ (Cells.unwritten 256).length := by
    simp only [Cells.unwritten, List.length_append, List.length_take, List.length_singleton,
      List.length_replicate]
    omega
  have copied : copyApiKey (some a) (Cells.unwritten 256) 255 = _ :=
    copyApiKey_ok ha _ (by rw [size]; omega)
  rw [size, Cells.overwrite_some room] at copied
  rw [storeApiKey, copied, inBounds, ok_bind, Cells.read_terminated clean]
  rfl

theorem findApiKey_stored {s : CString} (h : s.val.length ≤ 254) :
    findApiKey (some ⟨some s⟩) 255 =
      if strEqual s.val noneKey.val then (none, ⟨some s⟩) else (some s, ⟨some s⟩) := by
  have whole : kvGetString ⟨some s⟩ 255 noneKey = s := Subtype.ext (List.take_of_length_le h)
  simp only [findApiKey, whole]

/-! The start -/

theorem synapiInit_key {start : Start} {key : CString} {w : World p}
    (h : synapiInit start (some key) p = .ok w) : w.view.apiKeySet = true ∧
      w.view.apiKey = storedKey (key.val ++ [0]) (toInt key.val.length) := by
  obtain ⟨a, -, hrun⟩ := synapiInit_run start (some key) p
  rw [hrun] at h
  obtain ⟨w₁, hset, h⟩ := run_cons_ok.mp h
  obtain ⟨w₂, hurl, h⟩ := run_cons_ok.mp h
  obtain ⟨u, hu, hset⟩ := bind_eq_ok.mp hset
  obtain ⟨-, b, hb, hstored, -⟩ := synapiApiKey_ok hu
  obtain ⟨base, host, -, -, -, -, hr⟩ := synapiUrl_ok w₁ defaultUrl defaultHostHeader
  rw [step, hr] at hurl
  rw [← Except.ok.inj h, ← Except.ok.inj hurl, ← Except.ok.inj hset, hb]
  exact ⟨rfl, hstored⟩

theorem synapiUrl_unsent {w w' : World p} {url hostHeader : CString}
    (h : synapiUrl w url hostHeader = .ok w') (hs : sents w.trace = []) : sents w'.trace = [] := by
  obtain ⟨base, host, -, -, -, -, hr⟩ := synapiUrl_ok w url hostHeader
  rw [hr] at h
  rw [← Except.ok.inj h]
  exact (sents_marks (marks_append _ _)).trans (by rw [hs]; rfl)

theorem initNative_reachable {start : Start} {apiKey : Option CString}
    (h : initNative start apiKey = .ok w) : Reachable w ∧ sents w.trace = [] := by
  obtain ⟨u, hinit, hurl⟩ := bind_eq_ok.mp h
  exact ⟨.next (c := .url extensionUrl extensionHostHeader) (.start ⟨_, _, hinit⟩) trivial hurl,
    synapiUrl_unsent hurl (synapiInit_unsent hinit)⟩

theorem initNative_ok (start : Start) {apiKey : Option CString}
    (h : ∀ key ∈ apiKey, key.val.length < 256) : ∃ w, initNative start apiKey = .ok w := by
  have fits : ∀ key ∈ apiKey, toInt key.val.length ≠ 256 := by
    intro key hkey
    have := h key hkey
    rw [toInt_natCast (by omega)]
    omega
  obtain ⟨u, hinit⟩ := synapiInit_ok (p := 15) start fits
  obtain ⟨base, host, -, -, -, -, hr⟩ := synapiUrl_ok u extensionUrl extensionHostHeader
  exact ⟨_, by rw [initNative, hinit, ok_bind, hr]⟩

theorem initNative_key {start : Start} {key : CString} (hlen : key.val.length < 256)
    (h : initNative start (some key) = .ok w) :
    w.view.apiKeySet = true ∧ w.view.apiKey = cutAfter 10 (cutAfter 13 key.val) := by
  obtain ⟨u, hinit, hurl⟩ := bind_eq_ok.mp h
  obtain ⟨hset, hkey⟩ := synapiInit_key hinit
  obtain ⟨base, host, -, -, -, -, hr⟩ := synapiUrl_ok u extensionUrl extensionHostHeader
  rw [hr] at hurl
  rw [storedKey, cstr_append_zero key.property, usableSize_plain hlen, List.take_length] at hkey
  rw [← Except.ok.inj hurl]
  exact ⟨hset, hkey⟩

theorem pool_empty (h : Reachable w) (hs : sents w.trace = []) :
    ∃ k, w.handle.pool.lowestFree = some k := by
  have books := (reachable_accounts h).transfers.length_eq
  rw [hs, List.length_append, List.length_map, List.length_map, List.length_map] at books
  cases hk : w.handle.pool.lowestFree with
  | some k => exact ⟨k, rfl⟩
  | none =>
    have full := (SlotTable.lowestFree_eq_none_iff _).mp hk
    change _ = 15 at full
    rw [List.length_nil] at books
    omega

theorem newServer_registers (env : SendEnv) (h : Reachable w) (hs : sents w.trace = []) :
    ∃ r, synapiNewServer env w = .ok r ∧ r.2.view.apiKeySet = false ∧
      ∃ sent ∈ sents r.2.trace, sent.request.apiKeyRequest = true := by
  obtain ⟨hinv, ha⟩ := reachable_inv h
  obtain ⟨k, hk⟩ := pool_empty h hs
  obtain ⟨a, query, -, hr⟩ := newServer_ok env hinv ha hk
  refine ⟨_, hr, rfl, newSent env w.built (newRequest w .serversNew .post true 0 query)
    (snprintf 255 (w.handle.baseUrl.str ++ ascii "/servers")) w.view.cleared, ?_, rfl⟩
  rw [sents_marks (marks_register w env _ _ k a)]
  exact List.mem_append_right _ List.mem_cons_self

variable (start : Start) (env : SendEnv) {file : Option ConfigFile} {kv : ConfigFile}

theorem onPluginStart_missing (h : findApiKey file 255 = (none, kv)) :
    ∃ w, onPluginStart start env file = .ok (w, kv) ∧ Reachable w ∧ w.view.apiKeySet = false ∧
      ∃ sent ∈ sents w.trace, sent.request.apiKeyRequest = true := by
  have bare : ∀ key ∈ (none : Option CString), key.val.length < 256 := by rintro key ⟨⟩
  obtain ⟨u, hinit⟩ := initNative_ok start bare
  obtain ⟨hreach, hs⟩ := initNative_reachable hinit
  obtain ⟨r, hnew, hset, hsent⟩ := newServer_registers env hreach hs
  refine ⟨r.2, ?_, hreach.next (c := .newServer env) trivial ?_, hset, hsent⟩
  · simp only [onPluginStart, h, hinit, ok_bind, hnew]
  · rw [step, hnew]
    rfl

theorem onPluginStart_found {key : CString} (h : findApiKey file 255 = (some key, kv))
    (hlen : key.val.length < 256) :
    ∃ w, onPluginStart start env file = .ok (w, kv) ∧ Reachable w ∧ w.view.apiKeySet = true ∧
      sents w.trace = [] ∧ w.view.apiKey = cutAfter 10 (cutAfter 13 key.val) := by
  have short : ∀ k ∈ some key, k.val.length < 256 := by
    rintro k ⟨⟩
    exact hlen
  obtain ⟨w, hinit⟩ := initNative_ok start short
  obtain ⟨hreach, hs⟩ := initNative_reachable hinit
  obtain ⟨hset, hkey⟩ := initNative_key hlen hinit
  refine ⟨w, ?_, hreach, hset, hs, hkey⟩
  simp only [onPluginStart, h, hinit, ok_bind]

theorem findApiKey_length {key : CString} (h : findApiKey file 255 = (some key, kv)) :
    key.val.length < 256 := by
  unfold findApiKey at h
  split at h
  · simp only at h
    split_ifs at h with hnone
    · cases (Prod.mk.inj h).1
    · rw [← Option.some.inj (Prod.mk.inj h).1]
      exact Nat.lt_of_le_of_lt (List.length_take_le 254 _) (by omega)
  · cases (Prod.mk.inj h).1

theorem onPluginStart_reachable {start : Start} {env : SendEnv}
    (h : onPluginStart start env file = .ok (w, kv)) : Reachable w := by
  rcases hfind : findApiKey file 255 with ⟨_ | key, kv'⟩
  · obtain ⟨u, hu, hreach, -⟩ := onPluginStart_missing start env hfind
    rw [hu] at h
    rwa [← (Prod.mk.inj (Except.ok.inj h)).1]
  · obtain ⟨u, hu, hreach, -⟩ :=
      onPluginStart_found start env hfind (findApiKey_length hfind)
    rw [hu] at h
    rwa [← (Prod.mk.inj (Except.ok.inj h)).1]

theorem inSession_reachable (h : InSession w) : Reachable w := by
  refine h.invariant (P := Reachable) ?_ (fun _ _ _ hs _ hstep => hs.next trivial hstep)
  rintro w ⟨start, env, file, kv, hstart⟩
  exact onPluginStart_reachable hstart

/-! The restart -/

theorem onPluginEnd_ok (h : InSession w) : ∃ w', onPluginEnd w =
    .ok (w', ⟨some ⟨w.view.apiKey.take 253, fun h => zero_notMem_cstr _ (List.mem_of_mem_take h)⟩⟩) := by
  obtain ⟨w', hfree, -⟩ := synapiFree_ok w
  have ends := (reachable_stringsEnd (inSession_reachable h)).apiKey
  exact ⟨w', by rw [onPluginEnd, storeApiKey_ok ends, ok_bind, hfree]; rfl⟩

theorem restart_cases (h : InSession w) :
    ∃ w', restart start env w = .ok w' ∧
      if strEqual (w.view.apiKey.take 253) noneKey.val then
        w'.view.apiKeySet = false ∧ ∃ sent ∈ sents w'.trace, sent.request.apiKeyRequest = true
      else
        w'.view.apiKeySet = true ∧ sents w'.trace = [] ∧
          w'.view.apiKey = cutAfter 10 (cutAfter 13 (w.view.apiKey.take 253)) := by
  obtain ⟨freed, hend⟩ := onPluginEnd_ok h
  have hlen := List.length_take_le 253 w.view.apiKey
  let stored : CString :=
    ⟨w.view.apiKey.take 253, fun h => zero_notMem_cstr _ (List.mem_of_mem_take h)⟩
  have find := findApiKey_stored (s := stored) (Nat.le_succ_of_le hlen)
  split_ifs with hnone
  · rw [if_pos hnone] at find
    obtain ⟨w', hstart, -, hset, hsent⟩ := onPluginStart_missing start env find
    exact ⟨w', by rw [restart, hend, ok_bind, hstart, ok_bind], hset, hsent⟩
  · rw [if_neg hnone] at find
    obtain ⟨w', hstart, -, hset, hs, hkey⟩ :=
      onPluginStart_found start env find (Nat.lt_of_le_of_lt hlen (by omega))
    exact ⟨w', by rw [restart, hend, ok_bind, hstart, ok_bind], hset, hs, hkey⟩

theorem survives_missing {w' : World 15}
    (hnone : strEqual (w.view.apiKey.take 253) noneKey.val = true)
    (hsent : ∃ sent ∈ sents w'.trace, sent.request.apiKeyRequest = true) :
    KeySurvives w w' ↔ Restorable w.view.apiKey := by
  obtain ⟨sent, hsent, -⟩ := hsent
  have nonempty : w.view.apiKey ≠ [] := by
    intro hempty
    rw [hempty] at hnone
    exact absurd hnone (by decide)
  constructor
  · refine fun hk => ⟨nonempty, fun hcr hlf => ?_⟩
    obtain ⟨-, -, hs⟩ := hk.kept nonempty hcr hlf
    rw [hs] at hsent
    cases hsent
  · refine fun hr => ⟨fun _ hcr hlf => ?_, fun hempty => absurd hempty nonempty⟩
    obtain ⟨hlen, hother⟩ := hr.2 hcr hlf
    rw [List.take_of_length_le hlen, hother] at hnone
    cases hnone

theorem survives_found {w' : World 15}
    (hother : strEqual (w.view.apiKey.take 253) noneKey.val = false)
    (hset : w'.view.apiKeySet = true) (hs : sents w'.trace = [])
    (hkey : w'.view.apiKey = cutAfter 10 (cutAfter 13 (w.view.apiKey.take 253))) :
    KeySurvives w w' ↔ Restorable w.view.apiKey := by
  have plain (hcr : 13 ∉ w.view.apiKey) (hlf : 10 ∉ w.view.apiKey) :
      w'.view.apiKey = w.view.apiKey.take 253 := by
    rw [hkey, cutAfter_plain (fun h => hcr (List.mem_of_mem_take h)),
      cutAfter_plain (fun h => hlf (List.mem_of_mem_take h))]
  constructor
  · intro hk
    have nonempty : w.view.apiKey ≠ [] := by
      intro hempty
      obtain ⟨-, sent, hsent, -⟩ := hk.registers hempty
      rw [hs] at hsent
      cases hsent
    refine ⟨nonempty, fun hcr hlf => ?_⟩
    obtain ⟨-, hsame, -⟩ := hk.kept nonempty hcr hlf
    have whole := (plain hcr hlf).symm.trans hsame
    rw [whole] at hother
    refine ⟨?_, hother⟩
    rw [← whole]
    exact List.length_take_le 253 _
  · refine fun hr => ⟨fun _ hcr hlf => ⟨hset, ?_, hs⟩, fun hempty => absurd hempty hr.1⟩
    rw [plain hcr hlf, List.take_of_length_le (hr.2 hcr hlf).1]

end Synapi

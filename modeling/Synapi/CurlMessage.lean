import Synapi.CurlRun

/-!
`synapi_perform` reads the message of a transfer where libcurl keeps it, in the
node of the transfer, and its loop over the pool frees that node.
-/

namespace Synapi

open Runs Ring CountedLoop

variable {p : ℤ} {w w₃ : World p} {m m' : CurlMulti} {network : ℕ → ℕ → Transfer}

inductive SideFault where
  | library (fault : Fault)
  | memory (fault : MemoryFault)
  deriving DecidableEq

def SideFault.ofLibrary {α : Type} : Except Fault α → Except SideFault α :=
  Except.mapError .library

def SideFault.ofMemory {α : Type} : Except MemoryFault α → Except SideFault α :=
  Except.mapError .memory

open SideFault

-- `existingHandle` is the address of the message.
def reapBodyAt (existingHandle : ℕ) (s : World p × CurlMulti) :
    Except SideFault (Flow (World p × CurlMulti) Unit) := do
  match ← ofLibrary (entry s.1.handle.pool s.1.i) with
  | some curl =>
    let msg ← ofMemory (s.2.extmsg existingHandle >>= notNull)
    if some msg.easyHandle = curl.handle then
      let (_, multi) ← ofMemory (s.2.curlMultiRemoveHandle msg.easyHandle)
      let w ← ofLibrary (synapiFreeCurlHandle (s.1.curlMultiRemoveHandle msg.easyHandle) curl)
      let multi ← ofMemory (multi.curlEasyCleanup curl.handle)
      .ok (.next (w, multi))
    else .ok (.next s)
  | none => .ok (.next s)

def reapLoopAt (existingHandle : ℕ) (s : World p × CurlMulti) :
    Except SideFault (Flow (World p × CurlMulti) Unit) :=
  forLoop (fun s => decide (s.1.i < p)) (fun s => (s.1.setI (s.1.i + 1), s.2))
    (reapBodyAt existingHandle) (.library .stillRunning) p.toNat (s.1.setI 0, s.2)

def reapOneAt (s : World p × CurlMulti) : Except SideFault (World p × CurlMulti) := do
  let (existingHandle, _, multi) ← ofMemory s.2.curlMultiInfoRead
  let s := (s.1.curlMultiInfoRead, multi)
  match existingHandle with
  | some existingHandle =>
    match ← reapLoopAt existingHandle s with
    | .next s | .stop s () => .ok s
  | none => .ok s

/-- `synapi_perform` up to where it reads a message. -/
def beforeRead (env : PerformEnv) (w : World p) : Except Fault (World p) := do
  let w ← sendOne env.send w
  drive env.progress (wait env.timeo env.select w)

section Loop

variable {msg : CurlMsg} {ptr k : ℕ} {curl : SynapiCurlHandle}

theorem reapBodyAt_skip {v : Option SynapiCurlHandle} (h : w.handle.pool.slot k = some v)
    (hv : ∀ c, v = some c → c.handle ≠ some msg.easyHandle)
    (hmsg : m.extmsg ptr = .ok (some msg)) :
    reapBodyAt ptr (w.setI k, m) = .ok (.next (w.setI k, m)) := by
  have he : entry (w.setI k).handle.pool (w.setI k).i = .ok v := entry_natCast h
  rw [reapBodyAt, he]
  cases v with
  | none => rfl
  | some c =>
    change (ofMemory (m.extmsg ptr >>= notNull) >>= _) = _
    rw [hmsg]
    exact if_neg (Ne.symm (hv c rfl))

theorem reapBodyAt_hit (h : w.handle.pool.slot k = some (some curl))
    (hc : curl.handle = some msg.easyHandle) (hmsg : m.extmsg ptr = .ok (some msg))
    (hremove : m.curlMultiRemoveHandle msg.easyHandle = .ok (.ok, m'))
    (hsession : m'.sessions msg.easyHandle = some ⟨false, none⟩) :
    reapBodyAt ptr (w.setI k, m) = .ok (.next (((((w.curlMultiRemoveHandle msg.easyHandle).setPool
      (w.handle.pool.clear (isCurlHandle curl))).freeCurlHandle curl).setI p.toNat),
        m'.setSession msg.easyHandle none)) := by
  have he : entry (w.setI k).handle.pool (w.setI k).i = .ok (some curl) := entry_natCast h
  have hcleanup : m'.curlEasyCleanup (some msg.easyHandle) =
      .ok (m'.setSession msg.easyHandle none) := by
    rw [CurlMulti.curlEasyCleanup, hsession]
    rfl
  rw [reapBodyAt, he]
  change (ofMemory (m.extmsg ptr >>= notNull) >>= _) = _
  rw [hmsg]
  refine (if_pos hc.symm).trans ?_
  rw [hremove, hc]
  change (ofLibrary (synapiFreeCurlHandle _ curl) >>= _) = _
  rw [synapiFreeCurlHandle_ok]
  change (ofMemory (m'.curlEasyCleanup (some msg.easyHandle)) >>= _) = _
  rw [hcleanup]
  rfl

/-- The loop does not come back to the message after its transfer is removed:
`synapi_free_curl_handle` leaves the counter that the two loops share at the end. -/
theorem reapLoopAt_hit (hk : w.handle.pool.slot k = some (some curl))
    (hc : curl.handle = some msg.easyHandle)
    (below : ∀ j < k, ∀ c, w.handle.pool.slot j = some (some c) → c.handle ≠ some msg.easyHandle)
    (hmsg : m.extmsg ptr = .ok (some msg))
    (hremove : m.curlMultiRemoveHandle msg.easyHandle = .ok (.ok, m'))
    (hsession : m'.sessions msg.easyHandle = some ⟨false, none⟩) :
    reapLoopAt ptr (w, m) = .ok (.next (((((w.curlMultiRemoveHandle msg.easyHandle).setPool
      (w.handle.pool.clear (isCurlHandle curl))).freeCurlHandle curl).setI (p.toNat + 1)),
        m'.setSession msg.easyHandle none)) := by
  have hkp : k < p.toNat := SlotTable.slot_lt hk
  have below_p (j : ℕ) (hj : j < p.toNat) : decide ((w.setI j).i < p) = true := by
    rw [decide_eq_true_eq]
    change (j : ℤ) < p
    omega
  have fuel : p.toNat = p.toNat - k - 1 + 1 + k := by omega
  rw [reapLoopAt]
  conv_lhs => rw [fuel]
  refine (forLoop_passes (fun j : ℕ => (w.setI j, m)) k _ ?_).trans ?_
  · intro j hj
    obtain ⟨v, hv⟩ := w.handle.pool.slot_of_lt (Nat.lt_trans hj hkp)
    exact ⟨below_p j (Nat.lt_trans hj hkp), _,
      reapBodyAt_skip hv (fun c hcv => below j hj c (hcv ▸ hv)) hmsg, rfl⟩
  · have hit := reapBodyAt_hit hk hc hmsg hremove hsession
    refine (forLoop_next ?_ hit _).trans ?_
    · exact below_p k hkp
    · apply forLoop_exit
      rw [decide_eq_false_iff_not]
      change ¬ (p.toNat : ℤ) + 1 < p
      omega

end Loop

/-- With the message in the memory of libcurl the call does the same. -/
theorem reapOneAt_ok {ring : List (ℕ × CurlOneEasy)} {queue : List (ℕ × ℕ)} (hw : Inv w)
    (h : m.Shows ring queue w.multi) :
    ∃ w' m', reapOneAt (w, m) = .ok (w', m') ∧ reapOne w = .ok w' ∧
      ∃ ring' later, m'.Shows ring' later w'.multi := by
  cases hm : w.multi.messages with
  | nil =>
    refine ⟨w.curlMultiInfoRead, m, ?_, ?_, ring, queue, ?_⟩
    · rw [reapOneAt, CurlMulti.infoRead_empty h hm]
      rfl
    · rw [reapOne, hm]
      rfl
    · rw [infoRead_multi hm]
      exact h
  | cons msg rest =>
    obtain ⟨curl, hcurl, hc⟩ := hw.flight.message (hm ▸ List.mem_cons_self)
    obtain ⟨k, hk⟩ := SlotTable.mem_occupants.mp hcurl
    have below : ∀ j < k, ∀ c, w.handle.pool.slot j = some (some c) →
        c.handle ≠ some msg.easyHandle :=
      fun j hj d hd hdh => Nat.ne_of_lt hj (hw.flight.transfer_unique hd hk hdh hc)
    have added := hw.flight.completed _ (hw.flight.messages msg (hm ▸ List.mem_cons_self))
    obtain ⟨ptr, left, m₁, m₂, ring', later, hread, hmsg, hremove, hsessions, shows⟩ :=
      CurlMulti.reap_shows h hm added
    have hsession : m₂.sessions msg.easyHandle = some ⟨false, none⟩ := by
      rw [hsessions, Function.update_self]
    have loop := reapLoop_hit msg (w := w.curlMultiInfoRead) hk hc below
    have loopAt := reapLoopAt_hit (w := w.curlMultiInfoRead) hk hc below hmsg hremove hsession
    refine ⟨(w.reap msg curl).setI (p.toNat + 1), m₂.setSession msg.easyHandle none, ?_, ?_,
      ring', later, ?_⟩
    · rw [reapOneAt, hread]
      change (reapLoopAt ptr (w.curlMultiInfoRead, m₁) >>= _) = _
      rw [loopAt]
      rfl
    · rw [reapOne, hm]
      change (poolLoop (reapBody msg) w.curlMultiInfoRead >>= _) = _
      rw [loop]
      rfl
    · have multi : ({ w.multi with messages := w.multi.messages.tail } : Multi) =
          { w.multi with messages := rest } := by
        rw [hm]
        rfl
      rw [← multi] at shows
      exact shows

/-- In every run `synapi_perform` reads each message before libcurl frees it. -/
theorem message_read_in_time {env : PerformEnv} (hmemory : ∀ d x, (network d x).memory = true)
    (h : ReachableBy (Networked network) w) (hnet : Networked network w (.perform env))
    (hread : beforeRead env w = .ok w₃) :
    ∃ s w' multi, run (CurlSide.follow network) .start w₃.trace = .ok s ∧
      reapOneAt (w₃, s.multi) = .ok (w', multi) ∧ synapiPerform env w = .ok w' ∧
      ∃ ring queue, multi.Shows ring queue w'.multi := by
  obtain ⟨⟨hw, ha⟩, followed⟩ := reachable_followed hmemory h
  obtain ⟨w₁, h₁, h₃⟩ := bind_eq_ok.mp hread
  obtain ⟨s, hrun, ⟨ring, queue, shows⟩, -⟩ := followed.driven hmemory hw ha hnet h₁ h₃
  obtain ⟨w', multi, hat, hone, shows'⟩ := reapOneAt_ok (driven_inv hw ha h₁ h₃) shows
  refine ⟨s, w', multi, hrun, hat, ?_, shows'⟩
  rw [synapiPerform, h₁, ok_bind]
  change (drive env.progress (wait env.timeo env.select w₁) >>= reapOne) = _
  rw [h₃, ok_bind, hone]

theorem message_read_in_time_registration : ∃ w w₃ : World 2,
    w₃.multi.messages = [⟨7, .response 201⟩] ∧
    ∃ s w' multi, run (CurlSide.follow twoWalks) .start w₃.trace = .ok s ∧
      reapOneAt (w₃, s.multi) = .ok (w', multi) ∧
      synapiPerform (.smooth [.done 7 (.response 201)]) w = .ok w' ∧
      ∃ ring queue, multi.Shows ring queue w'.multi := by
  have start : ∃ w ∈ trial (p := 2) (Networked twoWalks) none [.newServer ⟨true, true⟩,
      .perform (.smooth [.chunk 7 (Text.ascii "SYN:S:1:ab")])],
      Networked twoWalks w (.perform (.smooth [.done 7 (.response 201)])) ∧
      ∃ w₃ ∈ (beforeRead (.smooth [.done 7 (.response 201)]) w).toOption,
        w₃.multi.messages = [⟨7, .response 201⟩] := by
    decide +kernel
  obtain ⟨w, hw, hnet, w₃, hread, hmessages⟩ := trial_exists start
  exact ⟨w, w₃, hmessages, message_read_in_time twoWalks_memory hw hnet (eq_ok_of_toOption hread)⟩

end Synapi

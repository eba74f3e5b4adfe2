import Synapi.Requests

/-!
`synapi_perform`. The environment decides what `curl_multi_timeout` and
`select` return and what `curl_multi_perform` does for each transfer.
-/

namespace Synapi

open Runs CountedLoop

variable {p : ℤ}

structure PerformEnv where
  send : SendEnv
  timeo : ℤ
  select : ℤ
  progress : List Progress

def PerformEnv.smooth (progress : List Progress) : PerformEnv := ⟨⟨true, true⟩, 0, 1, progress⟩

-- `0.05f` becomes 0 in `tv_sec`, and `tv_sec > 0.05f` holds from 1 on.
def selectTimeout (timeo : ℤ) : Timeval :=
  if 0 ≤ timeo then
    if 0 < timeo / 1000 then ⟨0, 0⟩ else ⟨timeo / 1000, timeo % 1000 * 1000⟩
  else ⟨0, 0⟩

/-! libcurl's side -/

def Multi.Running (m : Multi) (handle : ℕ) : Prop :=
  handle ∈ m.added.map Easy.id ∧ handle ∉ m.completed

/-- The handle's response goes to `synapi_api_key_write`. -/
def Multi.WritesKey (m : Multi) (handle : ℕ) : Prop :=
  ∃ e ∈ m.added, e.id = handle ∧ EasyOption.writeData ∈ e.options

instance (m : Multi) (handle : ℕ) : Decidable (m.Running handle) :=
  inferInstanceAs (Decidable (_ ∧ _))

instance (m : Multi) (handle : ℕ) : Decidable (m.WritesKey handle) :=
  inferInstanceAs (Decidable (∃ e ∈ m.added, _))

def Multi.complete (m : Multi) (handle : ℕ) (result : TransferResult) : Multi :=
  { m with completed := handle :: m.completed, messages := m.messages ++ [⟨handle, result⟩] }

def Multi.remove (m : Multi) (handle : ℕ) : Multi where
  added := m.added.filter (·.id ≠ handle)
  completed := m.completed.filter (· ≠ handle)
  messages := m.messages.filter (·.easyHandle ≠ handle)

-- A callback is never called without data.
def progressStep (w : World p) : Progress → Except Fault (World p)
  | .chunk handle data =>
    if w.multi.Running handle ∧ w.multi.WritesKey handle ∧ data ≠ [] then
      synapiApiKeyWrite w handle data
    else .ok w
  | .done handle result =>
    if w.multi.Running handle then .ok { w with multi := w.multi.complete handle result }
    else .ok w

def curlMultiPerform (w : World p) (progress : List Progress) : Except Fault (World p) :=
  run progressStep (w.emit .multiPerform) progress

def World.curlMultiInfoRead (w : World p) : World p :=
  { w with
    multi := { w.multi with messages := w.multi.messages.tail }
    trace := w.trace ++ [.multiInfoRead w.multi.messages.head?] }

def World.curlMultiRemoveHandle (w : World p) (handle : ℕ) : World p :=
  { w with
    multi := w.multi.remove handle
    trace := w.trace ++ [.multiRemoveHandle handle] }

/-! The function -/

def sendBody (env : SendEnv) (w : World p) : Except Fault (Flow (World p) Unit) := do
  match ← entry w.handle.requests w.i with
  | some request =>
    let w ← synapiSend env w request
    .ok (.stop w ())
  | none => .ok (.next w)

def reapBody (msg : CurlMsg) (w : World p) : Except Fault (Flow (World p) Unit) := do
  match ← entry w.handle.pool w.i with
  | some curl =>
    if some msg.easyHandle = curl.handle then
      let w := w.curlMultiRemoveHandle msg.easyHandle
      let w ← synapiFreeCurlHandle w curl
      .ok (.next w)
    else .ok (.next w)
  | none => .ok (.next w)

def sendOne (env : SendEnv) (w : World p) : Except Fault (World p) := do
  if w.handle.apiKeySet then
    match ← poolLoop (sendBody env) w with
    | .next w | .stop w () => .ok w
  else .ok w

def wait (timeo select : ℤ) (w : World p) : World p :=
  let w := ((w.emit (.multiTimeout timeo)).emit .multiFdset).emit (.select (selectTimeout timeo))
  { w with
    multiPerformCounter :=
      if select = -1 then w.multiPerformCounter + 1
      else if select = 0 then w.multiPerformCounter + 1
      else 5 }

def drive (progress : List Progress) (w : World p) : Except Fault (World p) := do
  if w.multiPerformCounter = 5 then
    let w ← curlMultiPerform w progress
    .ok { w with multiPerformCounter := 0 }
  else .ok w

-- Every message of libcurl is of the kind `CURLMSG_DONE`.
def reapOne (w : World p) : Except Fault (World p) := do
  let existingHandle := w.multi.messages.head?
  let w := w.curlMultiInfoRead
  match existingHandle with
  | some msg =>
    match ← poolLoop (reapBody msg) w with
    | .next w | .stop w () => .ok w
  | none => .ok w

def synapiPerform (env : PerformEnv) (w : World p) : Except Fault (World p) := do
  let w ← sendOne env.send w
  let w := wait env.timeo env.select w
  let w ← drive env.progress w
  reapOne w

/-! What the two loops do -/

theorem sendBody_skip {env : SendEnv} {w : World p} {k : ℕ}
    (h : w.handle.requests.slot k = some none) :
    sendBody env (w.setI k) = .ok (.next (w.setI k)) := by
  have he : entry (w.setI k).handle.requests (w.setI k).i = .ok none := entry_natCast h
  rw [sendBody, he]
  rfl

theorem sendLoop_empty (env : SendEnv) {w : World p} (h : w.handle.requests.lowestUsed = none) :
    poolLoop (sendBody env) w = .ok (.next (w.setI p.toNat)) := by
  apply poolLoop_all (fun k => w.setI k) rfl (fun _ => rfl)
  intro k hk
  exact ⟨_, sendBody_skip (SlotTable.lowestUsed_none h hk), rfl⟩

theorem sendLoop_used (env : SendEnv) {w : World p} {k : ℕ} {request : SynapiRequest}
    (h : w.handle.requests.lowestUsed = some k)
    (hr : w.handle.requests.slot k = some (some request)) :
    poolLoop (sendBody env) w =
      (synapiSend env (w.setI k) request).map (fun w' => .stop w' ()) := by
  obtain ⟨hk, -, below⟩ := SlotTable.lowestUsed_some h
  have he : entry (w.setI k).handle.requests (w.setI k).i = .ok (some request) :=
    entry_natCast hr
  have hskip : ∀ j < k, ∃ t, sendBody env (w.setI j) = .ok (.next t) ∧
      t.setI (t.i + 1) = w.setI (j + 1 : ℕ) :=
    fun j hj => ⟨_, sendBody_skip (below j hj), rfl⟩
  have hb : sendBody env (w.setI k) =
      (synapiSend env (w.setI k) request).map (fun w' => .stop w' ()) := by
    rw [sendBody, he, ok_bind]
    cases hsend : synapiSend env (w.setI k) request <;> simp only [hsend] <;> rfl
  cases hsend : synapiSend env (w.setI k) request with
  | error e =>
    rw [hsend] at hb
    exact poolLoop_error (fun k => w.setI k) rfl (fun _ => rfl) hk hskip hb
  | ok w' =>
    rw [hsend] at hb
    exact poolLoop_stop (fun k => w.setI k) rfl (fun _ => rfl) hk hskip hb

theorem reapBody_skip {msg : CurlMsg} {w : World p} {k : ℕ} {v : Option SynapiCurlHandle}
    (h : w.handle.pool.slot k = some v) (hv : ∀ c, v = some c → c.handle ≠ some msg.easyHandle) :
    reapBody msg (w.setI k) = .ok (.next (w.setI k)) := by
  have he : entry (w.setI k).handle.pool (w.setI k).i = .ok v := entry_natCast h
  rw [reapBody, he]
  cases v with
  | none => rfl
  | some c => simp only [ok_bind, Ne.symm (hv c rfl), if_false]

theorem reapLoop_hit (msg : CurlMsg) {w : World p} {k : ℕ} {curl : SynapiCurlHandle}
    (hk : w.handle.pool.slot k = some (some curl)) (hc : curl.handle = some msg.easyHandle)
    (below : ∀ j < k, ∀ c, w.handle.pool.slot j = some (some c) → c.handle ≠ some msg.easyHandle) :
    poolLoop (reapBody msg) w = .ok (.next (((((w.curlMultiRemoveHandle msg.easyHandle).setPool
      (w.handle.pool.clear (isCurlHandle curl))).freeCurlHandle curl).setI (p.toNat + 1)))) := by
  have he : entry (w.setI k).handle.pool (w.setI k).i = .ok (some curl) := entry_natCast hk
  let reaped := ((w.curlMultiRemoveHandle msg.easyHandle).setPool
    (w.handle.pool.clear (isCurlHandle curl))).freeCurlHandle curl
  refine poolLoop_leave (fun k => w.setI k) (t := reaped.setI p.toNat) rfl (fun _ => rfl)
    (SlotTable.slot_lt hk) ?_ ?_ ?_
  · intro j hj
    obtain ⟨v, hv⟩ := w.handle.pool.slot_of_lt (Nat.lt_trans hj (SlotTable.slot_lt hk))
    refine ⟨_, reapBody_skip hv (fun c hc => below j hj c (hc ▸ hv)), rfl⟩
  · rw [reapBody, he, ok_bind]
    simp only [hc, if_true, synapiFreeCurlHandle_ok, ok_bind]
    rfl
  · change p ≤ (p.toNat : ℤ) + 1
    omega

end Synapi

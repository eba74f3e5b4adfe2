import Synapi.Perform

/-!
The public functions of the library on one handle.
-/

namespace Synapi

open Runs CountedLoop Text

variable {p : ℤ}

def literal (s : String) (h : 0 ∉ ascii s := by decide) : CString := ⟨ascii s, h⟩

def defaultUrl : CString := literal "http://api.serversyn.com"

def defaultHostHeader : CString := literal "Host: api.serversyn.com"

/-- What `synapi_init` finds: the globals, and the bytes in the memory it gets. -/
structure Start where
  i : ℤ
  multiPerformCounter : ℤ
  apiKey : CharArray 256
  baseUrl : CharArray 256
  hostHeader : CharArray 256

def initBody (w : World p) : Except Fault (Flow (World p) Unit) := do
  let _ ← entry w.handle.pool w.i
  let _ ← entry w.handle.requests w.i
  let w := w.setPool (w.handle.pool.put w.i.toNat none)
  .ok (.next (w.setRequests (w.handle.requests.put w.i.toNat none)))

-- `calloc` gets no memory for a negative `pool_size`, which is too large as a `size_t`.
def tableAddrs (poolSize : ℤ) : List ℕ := if poolSize < 0 then [] else [1, 2]

def blank (start : Start) (a : CharArray 256) (poolSize : ℤ) : World poolSize where
  i := start.i
  multiPerformCounter := start.multiPerformCounter
  fresh := 3
  handle :=
    { apiKeySet := false
      apiKey := a
      encodedApiKey := none
      baseUrl := start.baseUrl
      hostHeader := start.hostHeader
      pool := SlotTable.empty _ _
      requests := SlotTable.empty _ _ }
  multi := ⟨[], [], []⟩
  trace := .malloc 0 :: (tableAddrs poolSize).map .malloc

def setApiKey (w : World p) (newApiKey : Bytes) (size : ℤ) : Except Fault (World p) := do
  let w ← synapiApiKey w newApiKey size
  .ok (w.emit (.apiKey w.view))

def synapiInit (start : Start) (apiKey : Option CString) (poolSize : ℤ) :
    Except Fault (World poolSize) := do
  let a ← inBounds (start.apiKey.store 0 0)
  match ← poolLoop initBody (blank start a poolSize) with
  | .next w | .stop w () =>
    let w ← match apiKey with
      | some key => setApiKey w (key.val ++ [0]) (toInt key.val.length)
      | none => .ok w
    synapiUrl w defaultUrl defaultHostHeader

def countBody {α : Type} (table : World p → SlotTable α p.toNat) (s : World p × ℤ) :
    Except Fault (Flow (World p × ℤ) Unit) := do
  match ← entry (table s.1) s.1.i with
  | some _ => .ok (.next (s.1, s.2 + 1))
  | none => .ok (.next s)

def countLoop {α : Type} (table : World p → SlotTable α p.toNat) (s : World p × ℤ) :
    Except Fault (World p × ℤ) := do
  match ← forLoop (fun s => decide (s.1.i < p)) (fun s => (s.1.setI (s.1.i + 1), s.2))
      (countBody table) .stillRunning p.toNat (s.1.setI 0, s.2) with
  | .next s | .stop s () => .ok s

def synapiQueued (w : World p) : Except Fault (World p × ℤ) := do
  let s ← if w.handle.apiKeySet then countLoop (·.handle.pool) (w, 0) else .ok (w, 0)
  countLoop (·.handle.requests) s

def freeBody (w : World p) : Except Fault (Flow (World p) Unit) := do
  match ← entry w.handle.pool w.i with
  | some curl =>
    let w := (w.emit (.easyCleanup curl.handle)).free curl.addr
    .ok (.next (w.setPool (w.handle.pool.put w.i.toNat none)))
  | none => .ok (.next w)

-- The handle is the first block its `synapi_init` gets, at address 0.
def synapiFree (w : World p) : Except Fault (World p) := do
  let w := { w.emit .multiCleanup with multi := ⟨[], [], []⟩ }
  match ← poolLoop freeBody w with
  | .next w | .stop w () => .ok (w.free 0)

/-! Actions -/

-- `synapi_queue` sends nothing for these, so what a send finds is not asked for.
def keyed (w : World p) (action : SynapiAction) (method : SynapiMethod) (userData : Int32)
    (options : Option (List SynapiOption)) : Except Fault (ℤ × World p) :=
  synapiQueue ⟨true, true⟩ w action method false userData options

def synapiNewServer (env : SendEnv) (w : World p) : Except Fault (ℤ × World p) :=
  synapiQueue env w .serversNew .post true 0 none

def synapiUpdateServer (w : World p) (options : List SynapiOption) :=
  keyed w .serversUpdate .put 0 (some options)

def synapiNewPlayer (w : World p) (options : List SynapiOption) :=
  keyed w .playersNew .post 0 (some options)

def synapiUpdatePlayer (w : World p) (internalId : Int32) (options : List SynapiOption) :=
  keyed w .playersUpdate .put internalId (some options)

def synapiDeletePlayer (w : World p) (internalId : Int32) :=
  keyed w .playersDelete .delete internalId none

def synapiHeartbeat (w : World p) :=
  keyed w .heartbeat .put 0 none

/-- A public call, with what the environment decides during it. -/
inductive Call where
  | newServer (env : SendEnv)
  | updateServer (options : List SynapiOption)
  | newPlayer (options : List SynapiOption)
  | updatePlayer (internalId : Int32) (options : List SynapiOption)
  | deletePlayer (internalId : Int32)
  | heartbeat
  | perform (env : PerformEnv)
  | apiKey (newApiKey : Bytes) (size : ℤ)
  | url (url hostHeader : CString)
  | queued

def step (w : World p) : Call → Except Fault (World p)
  | .newServer env => (synapiNewServer env w).map Prod.snd
  | .updateServer options => (synapiUpdateServer w options).map Prod.snd
  | .newPlayer options => (synapiNewPlayer w options).map Prod.snd
  | .updatePlayer internalId options => (synapiUpdatePlayer w internalId options).map Prod.snd
  | .deletePlayer internalId => (synapiDeletePlayer w internalId).map Prod.snd
  | .heartbeat => (synapiHeartbeat w).map Prod.snd
  | .perform env => synapiPerform env w
  | .apiKey newApiKey size => setApiKey w newApiKey size
  | .url url hostHeader => synapiUrl w url hostHeader
  | .queued => (synapiQueued w).map Prod.fst

/-- The handles of the runs whose calls meet the condition `C`. -/
def ReachableBy (C : World p → Call → Prop) : World p → Prop :=
  Reach (fun w => ∃ start apiKey, synapiInit start apiKey p = .ok w) step C

def Reachable : World p → Prop := ReachableBy (fun _ _ => True)

def Start.zero : Start :=
  let filled : CharArray 256 := ⟨List.replicate 256 0, List.length_replicate⟩
  ⟨0, 0, filled, filled, filled⟩

def trial (C : World p → Call → Prop) [∀ w c, Decidable (C w c)] (apiKey : Option CString)
    (calls : List Call) : Option (World p) :=
  match synapiInit .zero apiKey p with
  | .ok w => runWhile step C w calls
  | .error _ => none

theorem trial_reachable {C : World p → Call → Prop} [∀ w c, Decidable (C w c)]
    {apiKey : Option CString} {calls : List Call} {w : World p}
    (h : trial C apiKey calls = some w) : ReachableBy C w := by
  unfold trial at h
  cases hinit : synapiInit .zero apiKey p with
  | error e => simp [hinit] at h
  | ok w₀ =>
    rw [hinit] at h
    exact Reach.runWhile (.start ⟨_, _, hinit⟩) h

theorem trial_exists {C : World p → Call → Prop} [∀ w c, Decidable (C w c)]
    {apiKey : Option CString} {calls : List Call} {Q : World p → Prop}
    (h : ∃ w ∈ trial C apiKey calls, Q w) : ∃ w, ReachableBy C w ∧ Q w := by
  obtain ⟨w, hw, hQ⟩ := h
  exact ⟨w, trial_reachable hw, hQ⟩

theorem initLoop (start : Start) (a : CharArray 256) (poolSize : ℤ) :
    poolLoop initBody (blank start a poolSize) =
      .ok (.next ((blank start a poolSize).setI poolSize.toNat)) := by
  apply poolLoop_all (fun k => (blank start a poolSize).setI k) rfl (fun _ => rfl)
  intro k hk
  refine ⟨(blank start a poolSize).setI k, ?_, rfl⟩
  let w := (blank start a poolSize).setI k
  have hpool : entry w.handle.pool w.i = .ok none := entry_natCast (SlotTable.slot_empty hk)
  have hrequests : entry w.handle.requests w.i = .ok none :=
    entry_natCast (SlotTable.slot_empty hk)
  change initBody w = .ok (.next w)
  rw [initBody, hpool, hrequests, ok_bind, ok_bind]
  change Except.ok (Flow.next ((w.setPool ((SlotTable.empty SynapiCurlHandle _).put k none)).setRequests
    ((SlotTable.empty SynapiRequest _).put k none))) = _
  rw [SlotTable.put_same (SlotTable.slot_empty hk), SlotTable.put_same (SlotTable.slot_empty hk)]
  rfl

end Synapi

import Synapi.CurlList
import Synapi.Perform

/-!
libcurl's multi handle (`multi.c`): the ring of added easy handles and the list
of messages. What the network does for a transfer is an argument.
-/

namespace Synapi

open Runs Ring

inductive CurlmCode where
  | ok
  | badEasyHandle
  | outOfMemory
  deriving DecidableEq

inductive CurlmState where
  | init
  | connect
  | waitResolve
  | waitConnect
  | waitProxyConnect
  | protoConnect
  | waitDo
  | do'
  | doing
  | doMore
  | doDone
  | waitPerform
  | perform
  | tooFast
  | done
  | completed
  | msgSent
  deriving DecidableEq

-- Below `CURLM_STATE_COMPLETED`.
def CurlmState.alive : CurlmState → Bool
  | .completed | .msgSent => false
  | _ => true

theorem CurlmState.alive_of_ne {s : CurlmState} (hc : s ≠ .completed) (hm : s ≠ .msgSent) :
    s.alive = true := by
  cases s with
  | completed => exact absurd rfl hc
  | msgSent => exact absurd rfl hm
  | _ => rfl

-- `msg` is empty until it is filled in.
structure CurlOneEasy where
  easyHandle : ℕ
  state : CurlmState
  msg : Option CurlMsg

structure SessionHandle where
  multi : Bool
  multiPos : Option ℕ
  deriving DecidableEq

/-- The anchor of the ring is the `easy` of the multi handle itself. An element
of `msglist` points to the message of a node of the ring. -/
structure CurlMulti where
  easy : Memory ℕ CurlOneEasy
  numEasy : ℤ
  numAlive : ℤ
  msglist : CurlLlist ℕ
  sessions : ℕ → Option SessionHandle
  fresh : ℕ

/-- What the network does for a transfer while `curl_multi_perform` runs; `memory`
is whether there is some for its message. -/
structure Transfer where
  chunks : List Bytes
  state : CurlmState
  result : TransferResult
  memory : Bool
  reached : state ≠ .msgSent

namespace CurlMulti

def setSession (m : CurlMulti) (x : ℕ) (data : Option SessionHandle) : CurlMulti :=
  { m with sessions := Function.update m.sessions x data }

def setEasy (m : CurlMulti) (easy : ℕ) (e : CurlOneEasy) : CurlMulti :=
  { m with easy := m.easy.store easy e }

def curlMultiInit : CurlMulti where
  easy := Memory.empty
  numEasy := 0
  numAlive := 0
  msglist := CurlLlist.alloc ℕ
  sessions := fun _ => none
  fresh := 0

def curlEasyInit (m : CurlMulti) (x : ℕ) : CurlMulti := m.setSession x (some ⟨false, none⟩)

-- The new node is in the state `CURLM_STATE_INIT` as `calloc` leaves it.
def curlMultiAddHandle (m : CurlMulti) (easyHandle : Option ℕ) (memory : Bool) :
    Except MemoryFault (CurlmCode × CurlMulti) := do
  match easyHandle with
  | none => .ok (.badEasyHandle, m)
  | some x =>
    let data ← deref (m.sessions x)
    if data.multi then .ok (.badEasyHandle, m)
    else if !memory then .ok (.outOfMemory, m)
    else
      let easy := m.fresh
      let ring := m.easy.store easy ⟨x, .init, none⟩
      let ring ← deref (ring.setNext (some easy) none)
      let ring ← deref (ring.setPrev (some easy) (ring.links.prev none))
      let ring ← deref (ring.setPrev none (some easy))
      let prev ← deref (ring.prev (some easy))
      let ring ← deref (ring.setNext prev (some easy))
      let m := { m with
        easy := ring
        numEasy := m.numEasy + 1
        numAlive := m.numAlive + 1
        fresh := m.fresh + 1 }
      .ok (.ok, m.setSession x (some ⟨true, some easy⟩))

/-- What `msg` points to. -/
def extmsg (m : CurlMulti) (msg : ℕ) : Except MemoryFault (Option CurlMsg) := do
  let easy ← deref (m.easy.cells msg)
  .ok easy.msg

-- The loop of `curl_multi_remove_handle` over the messages.
def dropMessage (m : CurlMulti) (x : ℕ) : ℕ → Option ℕ → Except MemoryFault (CurlLlist ℕ)
  | _, none => .ok m.msglist
  | 0, some _ => .error .running
  | fuel + 1, some e => do
    let msg ← deref (m.msglist.memory.cells e)
    let extmsg ← m.extmsg msg
    if extmsg.map CurlMsg.easyHandle = some x then m.msglist.remove (some e)
    else
      let next ← deref (m.msglist.memory.next (some e))
      dropMessage m x fuel next

def curlMultiRemoveHandle (m : CurlMulti) (x : ℕ) : Except MemoryFault (CurlmCode × CurlMulti) := do
  let data ← deref (m.sessions x)
  match data.multiPos with
  | none => .ok (.badEasyHandle, m)
  | some easy =>
    let e ← deref (m.easy.cells easy)
    let _ ← deref (m.sessions e.easyHandle)
    let numAlive := if e.state.alive then m.numAlive - 1 else m.numAlive
    let m := { m with numAlive, easy := m.easy.store easy { e with state := .completed } }
    let msglist ← m.dropMessage e.easyHandle m.msglist.size m.msglist.head
    let next ← deref (m.easy.next (some easy))
    let prev ← deref (m.easy.prev (some easy))
    let ring ← deref (m.easy.setNext prev next)
    let ring ← deref (ring.setPrev next prev)
    let m := { m with easy := ring.release easy, msglist, numEasy := m.numEasy - 1 }
    .ok (.ok, m.setSession e.easyHandle (some ⟨false, none⟩))

-- The pointer it returns, and `msgs_in_queue`.
def curlMultiInfoRead (m : CurlMulti) : Except MemoryFault (Option ℕ × ℤ × CurlMulti) := do
  if m.msglist.size = 0 then .ok (none, 0, m)
  else
    let e ← notNull m.msglist.head
    let msg ← deref (m.msglist.memory.cells e)
    let msglist ← m.msglist.remove (some e)
    .ok (some msg, toInt msglist.size, { m with msglist })

def multistate (m : CurlMulti) (easy : ℕ) (state : CurlmState) : Except MemoryFault CurlMulti := do
  let e ← deref (m.easy.cells easy)
  if e.state = state then .ok m
  else
    let m := m.setEasy easy { e with state }
    if state = .completed then
      let data ← deref (m.sessions e.easyHandle)
      if data.multi then .ok { m with numAlive := m.numAlive - 1 } else .error .nullPointer
    else .ok m

def multiAddmsg (m : CurlMulti) (msg : ℕ) (memory : Bool) :
    Except MemoryFault (CurlmCode × CurlMulti) := do
  let (added, msglist) ← m.msglist.insertNext m.msglist.tail msg (if memory then some m.fresh else none)
  .ok (if added then .ok else .outOfMemory, { m with msglist, fresh := m.fresh + 1 })

-- The calls of `multi_runsingle` for one node, as long as it asks for another.
def multiRunsingle (t : Transfer) (m : CurlMulti) (easy : ℕ) : Except MemoryFault CurlMulti := do
  let e ← deref (m.easy.cells easy)
  let _ ← deref (m.sessions e.easyHandle)
  if e.state = .msgSent then .ok m
  else
    let m ← if e.state = .completed then .ok m else m.multistate easy t.state
    let e ← deref (m.easy.cells easy)
    if e.state = .completed then
      let m := m.setEasy easy { e with msg := some ⟨e.easyHandle, t.result⟩ }
      let (_, m) ← m.multiAddmsg easy t.memory
      m.multistate easy .msgSent
    else .ok m

def performFrom (transfers : ℕ → Transfer) (m : CurlMulti) :
    ℕ → Option ℕ → Except MemoryFault CurlMulti
  | _, none => .ok m
  | 0, some _ => .error .running
  | fuel + 1, some easy => do
    let e ← deref (m.easy.cells easy)
    let m ← multiRunsingle (transfers e.easyHandle) m easy
    let next ← deref (m.easy.next (some easy))
    performFrom transfers m fuel next

-- With `running_handles`.
def curlMultiPerform (transfers : ℕ → Transfer) (m : CurlMulti) :
    Except MemoryFault (ℤ × CurlMulti) := do
  let m ← performFrom transfers m m.numEasy.toNat (m.easy.links.next none)
  .ok (m.numAlive, m)

-- The loop of `curl_multi_cleanup` over the ring.
def freeRing (m : CurlMulti) : ℕ → Option ℕ → Except MemoryFault CurlMulti
  | _, none => .ok m
  | 0, some _ => .error .running
  | fuel + 1, some easy => do
    let nexteasy ← deref (m.easy.next (some easy))
    let e ← deref (m.easy.cells easy)
    let data ← deref (m.sessions e.easyHandle)
    let m := m.setSession e.easyHandle (some { data with multi := false })
    freeRing { m with easy := m.easy.release easy } fuel nexteasy

-- What is left is the multi handle that is freed.
def curlMultiCleanup (m : CurlMulti) : Except MemoryFault CurlMulti := do
  let msglist ← m.msglist.destroy m.msglist.size
  freeRing { m with msglist } m.numEasy.toNat (m.easy.links.next none)

def curlEasyCleanup (m : CurlMulti) (x : Option ℕ) : Except MemoryFault CurlMulti := do
  match x with
  | none => .ok m
  | some x =>
    let data ← deref (m.sessions x)
    let m ← if data.multi then (m.curlMultiRemoveHandle x).map Prod.snd else .ok m
    .ok (m.setSession x none)

end CurlMulti

end Synapi

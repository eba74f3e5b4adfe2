import Synapi.RequestText
import Synapi.Library.CountedLoop

/-!
The loops over the two tables of a handle. All of them count with the global
`i`, so a loop that calls another one finds `i` changed.
-/

namespace Synapi

open Runs CountedLoop

variable {p : ℤ} {ρ : Type}

def entry {α : Type} {n : ℕ} (t : SlotTable α n) (i : ℤ) : Except Fault (Option α) :=
  if 0 ≤ i then inBounds (t.slot i.toNat) else .error .outOfBounds

namespace World

def setI (w : World p) (i : ℤ) : World p := { w with i := i }

def setPool (w : World p) (t : SlotTable SynapiCurlHandle p.toNat) : World p :=
  { w with handle := { w.handle with pool := t } }

def setRequests (w : World p) (t : SlotTable SynapiRequest p.toNat) : World p :=
  { w with handle := { w.handle with requests := t } }

end World

/-- `for (i = 0; i < handle->pool_size; i++) body`. -/
def poolLoop (body : World p → Except Fault (Flow (World p) ρ)) (w : World p) :
    Except Fault (Flow (World p) ρ) :=
  forLoop (fun w => decide (w.i < p)) (fun w => w.setI (w.i + 1)) body .stillRunning p.toNat (w.setI 0)

def World.curlEasyInit (w : World p) (succeeds : Bool) : World p :=
  { w with
    fresh := w.fresh + 1
    trace := w.trace ++ [.easyInit (if succeeds then some w.fresh else none)] }

def getCurlHandleBody (easyInit : Bool) (w : World p) :
    Except Fault (Flow (World p) SynapiCurlHandle) := do
  match ← entry w.handle.pool w.i with
  | none =>
    let addr := w.fresh
    let w := w.malloc
    let handle := if easyInit then some w.fresh else none
    let w := w.curlEasyInit easyInit
    let curl : SynapiCurlHandle := ⟨addr, handle, none⟩
    .ok (.stop (w.setPool (w.handle.pool.put w.i.toNat (some curl))) curl)
  | some _ => .ok (.next w)

-- Past the loop the C function ends without a return value.
def synapiGetCurlHandle (easyInit : Bool) (w : World p) :
    Except Fault (SynapiCurlHandle × World p) := do
  match ← poolLoop (getCurlHandleBody easyInit) w with
  | .stop w curl => .ok (curl, w)
  | .next _ => .error .poolExhausted

-- `table` and `set` say which of the two tables the loop is over.
def clearBody {α : Type} (table : World p → SlotTable α p.toNat)
    (set : World p → SlotTable α p.toNat → World p) (same : α → Bool) (w : World p) :
    Except Fault (Flow (World p) Unit) := do
  match ← entry (table w) w.i with
  | some a =>
    if same a then .ok (.next (set w ((table w).put w.i.toNat none))) else .ok (.next w)
  | none => .ok (.next w)

def isCurlHandle (curl : SynapiCurlHandle) (c : SynapiCurlHandle) : Bool := c.addr = curl.addr

def isRequest (request : SynapiRequest) (r : SynapiRequest) : Bool := r.addr = request.addr

def World.freeCurlHandle (w : World p) (curl : SynapiCurlHandle) : World p :=
  ((w.emit (.easyCleanup curl.handle)).freeAll curl.headers).free curl.addr

def synapiFreeCurlHandle (w : World p) (curl : SynapiCurlHandle) : Except Fault (World p) := do
  match ← poolLoop (clearBody (·.handle.pool) World.setPool (isCurlHandle curl)) w with
  | .next w | .stop w () => .ok (w.freeCurlHandle curl)

def World.freeRequest (w : World p) (request : SynapiRequest) : World p :=
  (w.free request.query.addr).free request.addr

def synapiFreeRequest (w : World p) (request : SynapiRequest) : Except Fault (World p) := do
  if request.apiKeyRequest then
    .ok (w.freeRequest request)
  else
    match ← poolLoop (clearBody (·.handle.requests) World.setRequests (isRequest request)) w with
    | .next w | .stop w () => .ok (w.freeRequest request)

/-! The loops -/

section Loops

variable {body : World p → Except Fault (Flow (World p) ρ)} {w : World p} {m : ℕ}
  (head : ℕ → World p)

theorem poolLoop_passes (h0 : head 0 = w.setI 0) (hi : ∀ k, (head k).i = k) (hm : m ≤ p.toNat)
    (h : ∀ k < m, ∃ t, body (head k) = .ok (.next t) ∧ t.setI (t.i + 1) = head (k + 1)) :
    poolLoop body w = forLoop (fun w => decide (w.i < p)) (fun w => w.setI (w.i + 1)) body
      .stillRunning (p.toNat - m) (head m) := by
  rw [poolLoop, ← h0]
  conv_lhs => rw [← Nat.sub_add_cancel hm]
  apply forLoop_passes head
  intro k hk
  exact ⟨by rw [hi, decide_eq_true_eq]; omega, h k hk⟩

theorem poolLoop_all (h0 : head 0 = w.setI 0) (hi : ∀ k, (head k).i = k)
    (h : ∀ k < p.toNat, ∃ t, body (head k) = .ok (.next t) ∧ t.setI (t.i + 1) = head (k + 1)) :
    poolLoop body w = .ok (.next (head p.toNat)) := by
  rw [poolLoop_passes head h0 hi (Nat.le_refl _) h]
  apply forLoop_exit
  rw [hi, decide_eq_false_iff_not]
  omega

theorem poolLoop_stop {t : World p} {r : ρ} (h0 : head 0 = w.setI 0) (hi : ∀ k, (head k).i = k)
    (hm : m < p.toNat)
    (h : ∀ k < m, ∃ t, body (head k) = .ok (.next t) ∧ t.setI (t.i + 1) = head (k + 1))
    (hb : body (head m) = .ok (.stop t r)) : poolLoop body w = .ok (.stop t r) := by
  rw [poolLoop_passes head h0 hi (Nat.le_of_lt hm) h,
    show p.toNat - m = p.toNat - m - 1 + 1 by omega]
  apply forLoop_stop _ hb
  rw [hi, decide_eq_true_eq]
  omega

theorem poolLoop_error {e : Fault} (h0 : head 0 = w.setI 0) (hi : ∀ k, (head k).i = k)
    (hm : m < p.toNat)
    (h : ∀ k < m, ∃ t, body (head k) = .ok (.next t) ∧ t.setI (t.i + 1) = head (k + 1))
    (hb : body (head m) = .error e) : poolLoop body w = .error e := by
  rw [poolLoop_passes head h0 hi (Nat.le_of_lt hm) h,
    show p.toNat - m = p.toNat - m - 1 + 1 by omega]
  apply forLoop_error _ hb
  rw [hi, decide_eq_true_eq]
  omega

theorem poolLoop_leave {t : World p} (h0 : head 0 = w.setI 0) (hi : ∀ k, (head k).i = k)
    (hm : m < p.toNat)
    (h : ∀ k < m, ∃ t, body (head k) = .ok (.next t) ∧ t.setI (t.i + 1) = head (k + 1))
    (hb : body (head m) = .ok (.next t)) (ht : p ≤ t.i + 1) :
    poolLoop body w = .ok (.next (t.setI (t.i + 1))) := by
  rw [poolLoop_passes head h0 hi (Nat.le_of_lt hm) h,
    show p.toNat - m = p.toNat - m - 1 + 1 by omega, forLoop_next _ hb]
  · apply forLoop_exit
    rw [decide_eq_false_iff_not]
    exact Int.not_lt.mpr ht
  · rw [hi, decide_eq_true_eq]
    omega

end Loops

theorem entry_natCast {α : Type} {n k : ℕ} {t : SlotTable α n} {v : Option α}
    (h : t.slot k = some v) : entry t k = .ok v := by
  simp [entry, h, inBounds]

/-! What the functions on the tables do -/

theorem getCurlHandle_skip (easyInit : Bool) {w : World p} {k : ℕ} {c : SynapiCurlHandle}
    (h : w.handle.pool.slot k = some (some c)) :
    getCurlHandleBody easyInit (w.setI k) = .ok (.next (w.setI k)) := by
  have he : entry (w.setI k).handle.pool (w.setI k).i = .ok (some c) := entry_natCast h
  rw [getCurlHandleBody, he]
  rfl

theorem synapiGetCurlHandle_free (easyInit : Bool) {w : World p} {k : ℕ}
    (h : w.handle.pool.lowestFree = some k) :
    let curl : SynapiCurlHandle := ⟨w.fresh, if easyInit then some (w.fresh + 1) else none, none⟩
    synapiGetCurlHandle easyInit w = .ok (curl,
      ((w.setI k).malloc.curlEasyInit easyInit).setPool (w.handle.pool.put k (some curl))) := by
  obtain ⟨hk, hs, below⟩ := SlotTable.lowestFree_some h
  have he : entry (w.setI k).handle.pool (w.setI k).i = .ok none := entry_natCast hs
  unfold synapiGetCurlHandle
  rw [poolLoop_stop (fun k => w.setI k) rfl (fun _ => rfl) hk]
  · rfl
  · intro j hj
    obtain ⟨c, hc⟩ := below j hj
    exact ⟨_, getCurlHandle_skip easyInit hc, rfl⟩
  · rw [getCurlHandleBody, he]
    rfl

theorem synapiGetCurlHandle_full (easyInit : Bool) {w : World p}
    (h : w.handle.pool.lowestFree = none) :
    synapiGetCurlHandle easyInit w = .error .poolExhausted := by
  unfold synapiGetCurlHandle
  rw [poolLoop_all (fun k => w.setI k) rfl (fun _ => rfl)]
  · rfl
  · intro j hj
    obtain ⟨c, hc⟩ := SlotTable.lowestFree_none h hj
    exact ⟨_, getCurlHandle_skip easyInit hc, rfl⟩

theorem clearLoop {α : Type} (table : World p → SlotTable α p.toNat)
    (set : World p → SlotTable α p.toNat → World p) (same : α → Bool) (w : World p)
    (htable : ∀ (k : ℤ) (t : SlotTable α p.toNat), table (set (w.setI k) t) = t)
    (hi : ∀ (k : ℤ) (t : SlotTable α p.toNat), (set (w.setI k) t).i = k)
    (hnext : ∀ (k l : ℤ) (t : SlotTable α p.toNat),
      (set (w.setI k) t).setI l = set (w.setI l) t)
    (hset : ∀ (k : ℤ) (t u : SlotTable α p.toNat), set (set (w.setI k) t) u = set (w.setI k) u)
    (hstart : set (w.setI 0) (table w) = w.setI 0) :
    poolLoop (clearBody table set same) w =
      .ok (.next (set (w.setI p.toNat) ((table w).clear same))) := by
  rw [← SlotTable.clearBelow_all]
  apply poolLoop_all (fun k => set (w.setI k) ((table w).clearBelow same k))
  · change set (w.setI 0) ((table w).clearBelow same 0) = w.setI 0
    rw [SlotTable.clearBelow_zero, hstart]
  · intro k
    exact hi k _
  · intro k hk
    obtain ⟨v, hv⟩ := (table w).slot_of_lt hk
    have he : entry ((table w).clearBelow same k) k = .ok v := by
      apply entry_natCast
      rw [SlotTable.slot_clearBelow, if_neg (Nat.lt_irrefl k), hv]
    refine ⟨set (w.setI k) ((table w).clearBelow same (k + 1)), ?_, ?_⟩
    · rw [clearBody, htable, hi, he, ok_bind]
      cases v with
      | none => rw [SlotTable.clearBelow_miss hv (by simp)]
      | some a =>
        cases ha : same a with
        | true => simp only [ha, if_true, hset, Int.toNat_natCast, SlotTable.clearBelow_hit hv ha]
        | false =>
          have miss := SlotTable.clearBelow_miss (p := same) hv (by simp [ha])
          simp only [ha, Bool.false_eq_true, if_false, miss]
    · rw [hi, hnext]
      rfl

theorem synapiFreeRequest_keyed (w : World p) {request : SynapiRequest}
    (h : request.apiKeyRequest = false) :
    synapiFreeRequest w request = .ok (((w.setI p.toNat).setRequests
      (w.handle.requests.clear (isRequest request))).freeRequest request) := by
  have loop := clearLoop (·.handle.requests) World.setRequests (isRequest request) w
    (fun _ _ => rfl) (fun _ _ => rfl) (fun _ _ _ => rfl) (fun _ _ _ => rfl) rfl
  simp only [synapiFreeRequest, h, Bool.false_eq_true, if_false, loop, ok_bind]

theorem synapiFreeRequest_new (w : World p) {request : SynapiRequest}
    (h : request.apiKeyRequest = true) :
    synapiFreeRequest w request = .ok (w.freeRequest request) := by
  simp only [synapiFreeRequest, h, if_true]

theorem synapiFreeCurlHandle_ok (w : World p) (curl : SynapiCurlHandle) :
    synapiFreeCurlHandle w curl = .ok (((w.setI p.toNat).setPool
      (w.handle.pool.clear (isCurlHandle curl))).freeCurlHandle curl) := by
  have loop := clearLoop (·.handle.pool) World.setPool (isCurlHandle curl) w
    (fun _ _ => rfl) (fun _ _ => rfl) (fun _ _ _ => rfl) (fun _ _ _ => rfl) rfl
  simp only [synapiFreeCurlHandle, loop, ok_bind]

end Synapi

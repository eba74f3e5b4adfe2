import Synapi.LocalCounter

/-!
`synapi_perform` with the shared counter does what it does with counters of its
own, as long as no easy handle is in two records.
-/

namespace Synapi

open Runs CountedLoop Lockstep Text

variable {p : ℤ} {ρ : Type} {n : ℕ} {C : World p → Call → Prop} {c : Call} {w w' : World p}

def OneRecord (t : SlotTable SynapiCurlHandle n) : Prop :=
  ∀ c ∈ t.occupants, ∀ d ∈ t.occupants, ∀ x, c.handle = some x → d.handle = some x →
    c.addr = d.addr

/-- libcurl hands out no easy handle twice. -/
structure EasyHandlesOnce (w : World p) : Prop where
  given : ∀ c ∈ w.handle.pool.occupants, ∀ x, c.handle = some x → x < w.fresh
  once : OneRecord w.handle.pool

/-! `synapi_perform` -/

theorem sendOne_agree (env : SendEnv) {w v : World p} (h : Alike w v) :
    Agree Alike (sendOne env w) (Local.sendOne env v) := by
  have loop : Agree (SameFlow Alike) (poolLoop (sendBody env) w)
      (Local.poolLoop (Local.sendBody env) v) := by
    apply poolLoop_agree (P := fun _ => True) (fun _ _ _ => trivial) _ trivial h
    rintro k w v ⟨hk, -, i, rfl⟩
    rw [sendBody, Local.sendBody, hk]
    apply Agree.bind_same (entry w.handle.requests k)
    intro found
    cases found with
    | none => exact .ok (.next ⟨hk, trivial, i, rfl⟩)
    | some request =>
      apply (send_agree env request ⟨i, rfl⟩).bind
      intro a b hab
      exact .ok (.stop hab ())
  have set : v.handle.apiKeySet = w.handle.apiKeySet := by
    obtain ⟨i, rfl⟩ := h
    rfl
  rw [sendOne, Local.sendOne, set]
  cases w.handle.apiKeySet with
  | false => exact .ok h
  | true =>
    apply loop.bind
    intro a b hab
    cases hab with
    | next halike => exact .ok halike
    | stop halike => exact .ok halike

theorem apiKey_agree (newApiKey : Bytes) (size : ℤ) {w v : World p} (h : Alike w v) :
    Agree Alike (synapiApiKey w newApiKey size) (synapiApiKey v newApiKey size) := by
  obtain ⟨i, rfl⟩ := h
  apply Agree.bind_same (inBounds (w.handle.apiKey.strncpy newApiKey _))
  intro a
  apply Agree.bind_same (inBounds (a.store _ 0))
  intro a
  apply Agree.bind_same (cutAt a 13)
  intro a
  exact Agree.bind_same (cutAt a 10) (fun a => .ok ⟨i, rfl⟩)

theorem apiKeyWrite_agree (handle : ℕ) (data : Bytes) {w v : World p} (h : Alike w v) :
    Agree Alike (synapiApiKeyWrite w handle data) (synapiApiKeyWrite v handle data) := by
  apply (apiKey_agree data _ h).bind
  intro a b hab
  obtain ⟨j, rfl⟩ := hab
  exact .ok ⟨j, rfl⟩

theorem progressStep_agree (x : Progress) {w v : World p} (h : Alike w v) :
    Agree Alike (progressStep w x) (progressStep v x) := by
  have multi : v.multi = w.multi := by
    obtain ⟨i, rfl⟩ := h
    rfl
  cases x with
  | chunk handle data =>
    rw [progressStep, progressStep, multi]
    split_ifs
    · exact apiKeyWrite_agree handle data h
    · exact .ok h
  | done handle result =>
    rw [progressStep, progressStep, multi]
    split_ifs
    · obtain ⟨i, rfl⟩ := h
      exact .ok ⟨i, rfl⟩
    · exact .ok h

theorem drive_agree (progress : List Progress) {w v : World p} (h : Alike w v) :
    Agree Alike (drive progress w) (drive progress v) := by
  obtain ⟨i, rfl⟩ := h
  have performed : Agree Alike (curlMultiPerform w progress)
      (curlMultiPerform (w.setI i) progress) :=
    agree_run (Q := fun _ => True) (fun _ _ _ _ _ => trivial)
      (fun _ _ x _ h => progressStep_agree x h) progress trivial ⟨i, rfl⟩
  rw [drive, drive]
  by_cases hturn : w.multiPerformCounter = 5
  · have hturn' : (w.setI i).multiPerformCounter = 5 := hturn
    rw [if_pos hturn, if_pos hturn']
    apply performed.bind
    intro a b hab
    obtain ⟨j, rfl⟩ := hab
    exact .ok ⟨j, rfl⟩
  · have hturn' : ¬ (w.setI i).multiPerformCounter = 5 := hturn
    rw [if_neg hturn, if_neg hturn']
    exact .ok ⟨i, rfl⟩

/-! The pool -/

theorem entry_some {α : Type} {t : SlotTable α n} {k : ℕ} {v : Option α}
    (h : entry t k = .ok v) : t.slot k = some v := by
  rw [entry, if_pos (Int.natCast_nonneg k), Int.toNat_natCast] at h
  cases hs : t.slot k with
  | none =>
    rw [hs] at h
    cases h
  | some u =>
    rw [hs] at h
    rw [Except.ok.inj h]

theorem mem_occupants_put {t : SlotTable SynapiCurlHandle n} {k : ℕ} {curl c : SynapiCurlHandle}
    (h : c ∈ (t.put k (some curl)).occupants) : c = curl ∨ c ∈ t.occupants := by
  obtain ⟨j, hj⟩ := SlotTable.mem_occupants.mp h
  by_cases hjk : j = k
  · subst hjk
    rw [SlotTable.slot_put_self (SlotTable.slot_lt hj)] at hj
    exact .inl (Option.some.inj (Option.some.inj hj)).symm
  · rw [SlotTable.slot_put_ne hjk] at hj
    exact .inr (SlotTable.mem_occupants.mpr ⟨j, hj⟩)

theorem mem_occupants_modify {t : SlotTable SynapiCurlHandle n} {same : SynapiCurlHandle → Bool}
    {headers : Option (Block (List Bytes))} {c : SynapiCurlHandle}
    (h : c ∈ (t.modify same (fun c => { c with headers := headers })).occupants) :
    ∃ d ∈ t.occupants, d.addr = c.addr ∧ d.handle = c.handle := by
  obtain ⟨j, hj⟩ := SlotTable.mem_occupants.mp h
  rw [SlotTable.slot_modify] at hj
  obtain ⟨v, hv, hc⟩ := Option.map_eq_some_iff.mp hj
  obtain ⟨d, rfl, rfl⟩ := Option.map_eq_some_iff.mp hc
  refine ⟨d, SlotTable.mem_occupants.mpr ⟨j, hv⟩, ?_⟩
  split_ifs <;> exact ⟨rfl, rfl⟩

theorem mem_occupants_clear {t : SlotTable SynapiCurlHandle n} {same : SynapiCurlHandle → Bool}
    {c : SynapiCurlHandle} (h : c ∈ (t.clear same).occupants) :
    c ∈ t.occupants ∧ same c = false := by
  rw [SlotTable.occupants_clear, List.mem_filter, Bool.not_eq_true'] at h
  exact h

theorem OneRecord.send {t : SlotTable SynapiCurlHandle n} {fresh k : ℕ} {curl : SynapiCurlHandle}
    (same : SynapiCurlHandle → Bool) (headers : Option (Block (List Bytes))) (h : OneRecord t)
    (hgiven : ∀ c ∈ t.occupants, ∀ x, c.handle = some x → x < fresh)
    (hcurl : ∀ x, curl.handle = some x → fresh ≤ x) :
    OneRecord ((t.put k (some curl)).modify same (fun c => { c with headers := headers })) := by
  intro c hc d hd x hcx hdx
  obtain ⟨c', hc', hca, hch⟩ := mem_occupants_modify hc
  obtain ⟨d', hd', hda, hdh⟩ := mem_occupants_modify hd
  rw [← hch] at hcx
  rw [← hdh] at hdx
  rw [← hca, ← hda]
  rcases mem_occupants_put hc' with hnew | hold <;> rcases mem_occupants_put hd' with hnew' | hold'
  · rw [hnew, hnew']
  · rw [hnew] at hcx
    exact absurd (hcurl x hcx) (Nat.not_le.mpr (hgiven d' hold' x hdx))
  · rw [hnew'] at hdx
    exact absurd (hcurl x hdx) (Nat.not_le.mpr (hgiven c' hold x hcx))
  · exact h c' hold d' hold' x hcx hdx

theorem closeGate_pool (h : closeGate w = .ok w') : w'.handle.pool = w.handle.pool := by
  obtain ⟨a, -, h⟩ := bind_eq_ok.mp h
  rw [← Except.ok.inj h]

theorem freeRequest_pool {request : SynapiRequest} (h : synapiFreeRequest w request = .ok w') :
    w'.handle.pool = w.handle.pool := by
  cases hnew : request.apiKeyRequest with
  | true =>
    rw [synapiFreeRequest_new w hnew] at h
    rw [← Except.ok.inj h]
    rfl
  | false =>
    rw [synapiFreeRequest_keyed w hnew] at h
    rw [← Except.ok.inj h]
    rfl

theorem send_oneRecord {env : SendEnv} {request : SynapiRequest} (hw : EasyHandlesOnce w)
    (h : synapiSend env w request = .ok w') : OneRecord w'.handle.pool := by
  obtain ⟨url, -, h⟩ := bind_eq_ok.mp h
  obtain ⟨⟨curl, w₁⟩, hget, h⟩ := bind_eq_ok.mp h
  cases hk : w.handle.pool.lowestFree with
  | none =>
    rw [synapiGetCurlHandle_full env.easyInit hk] at hget
    cases hget
  | some k =>
    rw [synapiGetCurlHandle_free env.easyInit hk, Except.ok.injEq, Prod.mk.injEq] at hget
    obtain ⟨rfl, rfl⟩ := hget
    let curl : SynapiCurlHandle := ⟨w.fresh, if env.easyInit then some (w.fresh + 1) else none, none⟩
    have later : ∀ x, curl.handle = some x → w.fresh ≤ x := by
      intro x hx
      change (if env.easyInit then some (w.fresh + 1) else none) = some x at hx
      split_ifs at hx
      rw [← Option.some.inj hx]
      exact Nat.le_succ w.fresh
    have sent : OneRecord ((w.handle.pool.put k (some curl)).modify (isCurlHandle curl)
        (fun c => { c with headers := request.headers })) :=
      hw.once.send _ _ hw.given later
    cases hnew : request.apiKeyRequest with
    | true =>
      simp only [hnew, if_true] at h
      obtain ⟨w₂, hgate, h⟩ := bind_eq_ok.mp h
      rw [freeRequest_pool h]
      change OneRecord w₂.handle.pool
      rw [closeGate_pool hgate]
      exact sent
    | false =>
      simp only [hnew, Bool.false_eq_true, if_false] at h
      rw [freeRequest_pool h]
      exact sent

theorem sendOne_oneRecord {env : SendEnv} (hw : EasyHandlesOnce w) (h : sendOne env w = .ok w') :
    OneRecord w'.handle.pool := by
  unfold sendOne at h
  split_ifs at h with hset
  · cases hj : w.handle.requests.lowestUsed with
    | none =>
      rw [sendLoop_empty env hj] at h
      rw [← Except.ok.inj h]
      exact hw.once
    | some j =>
      obtain ⟨-, ⟨request, hr⟩, -⟩ := SlotTable.lowestUsed_some hj
      rw [sendLoop_used env hj hr] at h
      obtain ⟨flow, hflow, h⟩ := bind_eq_ok.mp h
      obtain ⟨w₁, hsend, rfl⟩ := map_eq_ok.mp hflow
      rw [← Except.ok.inj h]
      exact send_oneRecord (w := w.setI j) ⟨hw.given, hw.once⟩ hsend
  · rw [← Except.ok.inj h]
    exact hw.once

theorem progressStep_pool {x : Progress} (h : progressStep w x = .ok w') :
    w'.handle.pool = w.handle.pool := by
  cases x with
  | chunk handle data =>
    rw [progressStep] at h
    split_ifs at h
    · obtain ⟨u, hu, h⟩ := bind_eq_ok.mp h
      obtain ⟨-, a, rfl, -, -⟩ := synapiApiKey_ok hu
      rw [← Except.ok.inj h]
      rfl
    · rw [Except.ok.inj h]
  | done handle result =>
    rw [progressStep] at h
    split_ifs at h
    · rw [← Except.ok.inj h]
    · rw [Except.ok.inj h]

theorem drive_pool {progress : List Progress} (h : drive progress w = .ok w') :
    w'.handle.pool = w.handle.pool := by
  have performed {u u' : World p} (h : run progressStep u progress = .ok u') :
      u'.handle.pool = u.handle.pool :=
    run_relates (P := fun _ => True) (R := fun u u' : World p => u'.handle.pool = u.handle.pool)
      (fun _ => rfl) (fun _ _ _ h h' => h'.trans h) (fun _ _ _ _ _ => trivial)
      (fun _ _ _ _ h => progressStep_pool h) trivial h
  unfold drive at h
  split_ifs at h
  · obtain ⟨u, hu, h⟩ := bind_eq_ok.mp h
    have same : u.handle.pool = (w.emit .multiPerform).handle.pool := performed hu
    rw [← Except.ok.inj h]
    exact same
  · rw [Except.ok.inj h]

/-! Reaping -/

theorem localReap_skip {msg : CurlMsg} {v : World p} {j : ℕ} (hj : j < p.toNat)
    (h : ∀ d ∈ v.handle.pool.occupants, d.handle ≠ some msg.easyHandle) :
    Local.reapBody msg j v = .ok (.next v) := by
  obtain ⟨found, hfound⟩ := v.handle.pool.slot_of_lt hj
  rw [Local.reapBody, entry_natCast hfound, ok_bind]
  cases found with
  | none => rfl
  | some d =>
    have other := h d (SlotTable.mem_occupants.mpr ⟨j, hfound⟩)
    simp only [Ne.symm other, if_false]

theorem reapBody_agree (msg : CurlMsg) {k : ℕ} {w v : World p}
    (h : AtPass (fun w => OneRecord w.handle.pool) k w v) :
    Agree (PoolPass (Local.reapBody msg) (fun w => OneRecord w.handle.pool) k)
      (reapBody msg w) (Local.reapBody msg k v) := by
  obtain ⟨hk, once, i, rfl⟩ := h
  rw [reapBody, Local.reapBody, hk]
  change Agree _ (entry w.handle.pool k >>= _) (entry w.handle.pool k >>= _)
  cases hfound : entry w.handle.pool k with
  | error e => exact .error e
  | ok found =>
    cases found with
    | none => exact .ok (.next ⟨hk, once, i, rfl⟩)
    | some curl =>
      simp only [ok_bind]
      by_cases hmsg : some msg.easyHandle = curl.handle
      · rw [if_pos hmsg, if_pos hmsg]
        have freed := freeCurlHandle_agree curl
          (w := w.curlMultiRemoveHandle msg.easyHandle)
          (v := (w.setI i).curlMultiRemoveHandle msg.easyHandle) ⟨i, rfl⟩
        rw [synapiFreeCurlHandle_ok] at freed ⊢
        generalize Local.synapiFreeCurlHandle ((w.setI i).curlMultiRemoveHandle msg.easyHandle) curl = y
          at freed ⊢
        cases freed with
        | ok hfreed =>
          obtain ⟨j, rfl⟩ := hfreed
          refine .ok (.leave ?_ ⟨j, rfl⟩ (fun l _ hl => localReap_skip hl (fun d hd hdm => ?_)))
          · change p ≤ (p.toNat : ℤ) + 1
            omega
          -- The nested scan has run past the end; a slot behind this one holds another transfer.
          · obtain ⟨hold, hother⟩ := mem_occupants_clear hd
            have held : curl ∈ w.handle.pool.occupants :=
              SlotTable.mem_occupants.mpr ⟨k, entry_some hfound⟩
            have same := once d hold curl held msg.easyHandle hdm hmsg.symm
            exact absurd same (of_decide_eq_false hother)
      · rw [if_neg hmsg, if_neg hmsg]
        exact .ok (.next ⟨hk, once, i, rfl⟩)

theorem reapOne_agree {w v : World p} (hw : OneRecord w.handle.pool) (h : Alike w v) :
    Agree Alike (reapOne w) (Local.reapOne v) := by
  obtain ⟨i, rfl⟩ := h
  have same : (w.setI i).multi.messages.head? = w.multi.messages.head? := rfl
  simp only [reapOne, Local.reapOne, same]
  cases w.multi.messages.head? with
  | none => exact .ok ⟨i, rfl⟩
  | some msg =>
    have loop : Agree (SameFlow Alike) (poolLoop (reapBody msg) w.curlMultiInfoRead)
        (Local.poolLoop (Local.reapBody msg) (w.setI i).curlMultiInfoRead) :=
      poolLoop_agree (P := fun w => OneRecord w.handle.pool) (fun _ _ h => h)
        (fun _ _ _ => reapBody_agree msg) hw ⟨i, rfl⟩
    apply loop.bind
    intro a b hab
    cases hab with
    | next halike => exact .ok halike
    | stop halike => exact .ok halike

theorem perform_agree (env : PerformEnv) {w v : World p} (hw : EasyHandlesOnce w)
    (h : Alike w v) : Agree Alike (synapiPerform env w) (Local.synapiPerform env v) := by
  have sent := (sendOne_agree env.send h).left (fun a => sendOne_oneRecord hw)
  refine sent.bind (fun w₁ v₁ ⟨halike, once⟩ => ?_)
  have waited : Alike (wait env.timeo env.select w₁) (wait env.timeo env.select v₁) := by
    obtain ⟨i, rfl⟩ := halike
    exact ⟨i, rfl⟩
  have driven := (drive_agree env.progress waited).left (fun a ha => drive_pool ha)
  refine driven.bind (fun w₂ v₂ ⟨halike, hpool⟩ => reapOne_agree ?_ halike)
  rw [hpool]
  exact once

/-! The indices -/

/-- The handles, each with its `i`, on which a loop over a table enters its body. -/
def poolVisits (body : World p → Except Fault (Flow (World p) ρ)) (w : World p) : List (World p) :=
  visits (fun w => decide (w.i < p)) (fun w => w.setI (w.i + 1)) body p.toNat (w.setI 0)

def InTable (body : World p → Except Fault (Flow (World p) ρ)) : Prop :=
  ∀ w, ∀ v ∈ poolVisits body w, 0 ≤ v.i ∧ v.i ≤ p - 1

structure LoopsInTable (p : ℤ) : Prop where
  getCurlHandle : ∀ easyInit, InTable (getCurlHandleBody (p := p) easyInit)
  freeCurlHandle : ∀ curl, InTable (p := p) (clearBody (·.handle.pool) World.setPool (isCurlHandle curl))
  freeRequest : ∀ request,
    InTable (p := p) (clearBody (·.handle.requests) World.setRequests (isRequest request))
  queue : ∀ request, InTable (queueBody (p := p) request)
  send : ∀ env, InTable (sendBody (p := p) env)
  reap : ∀ msg, InTable (reapBody (p := p) msg)

theorem inTable_of_next {body : World p → Except Fault (Flow (World p) ρ)}
    (h : ∀ w w', 0 ≤ w.i → body w = .ok (.next w') → 0 ≤ w'.i) : InTable body := by
  intro w v hv
  have kept : ∀ w w' : World p, 0 ≤ w.i → body w = .ok (.next w') → 0 ≤ (w'.setI (w'.i + 1)).i := by
    intro w w' hw hb
    have := h w w' hw hb
    change 0 ≤ w'.i + 1
    omega
  obtain ⟨h0, hg⟩ := visits_invariant (P := fun w : World p => 0 ≤ w.i) kept p.toNat
    (Int.le_refl 0) v hv
  rw [decide_eq_true_eq] at hg
  exact ⟨h0, by omega⟩

theorem clearBody_inTable {α : Type} (table : World p → SlotTable α p.toNat)
    (set : World p → SlotTable α p.toNat → World p) (same : α → Bool)
    (hi : ∀ (w : World p) (t : SlotTable α p.toNat), (set w t).i = w.i) :
    InTable (clearBody table set same) := by
  apply inTable_of_next
  intro w w' h0 h
  obtain ⟨found, -, h⟩ := bind_eq_ok.mp h
  cases found with
  | none =>
    cases h
    exact h0
  | some a =>
    cases ha : same a with
    | true =>
      simp only [ha, if_true, Except.ok.injEq, Flow.next.injEq] at h
      rw [← h, hi]
      exact h0
    | false =>
      simp only [ha, Bool.false_eq_true, if_false, Except.ok.injEq, Flow.next.injEq] at h
      rw [← h]
      exact h0

theorem loops_inTable (p : ℤ) : LoopsInTable p := by
  constructor
  · intro easyInit
    apply inTable_of_next
    intro w w' h0 h
    obtain ⟨found, -, h⟩ := bind_eq_ok.mp h
    cases found with
    | none => cases h
    | some c => cases h; exact h0
  · exact fun curl => clearBody_inTable _ _ _ (fun _ _ => rfl)
  · exact fun request => clearBody_inTable _ _ _ (fun _ _ => rfl)
  · intro request
    apply inTable_of_next
    intro w w' h0 h
    obtain ⟨found, -, h⟩ := bind_eq_ok.mp h
    cases found with
    | none => cases h
    | some r => cases h; exact h0
  · intro env
    apply inTable_of_next
    intro w w' h0 h
    obtain ⟨found, -, h⟩ := bind_eq_ok.mp h
    cases found with
    | none => cases h; exact h0
    | some request =>
      obtain ⟨u, -, h⟩ := bind_eq_ok.mp h
      cases h
  · intro msg
    apply inTable_of_next
    intro w w' h0 h
    obtain ⟨found, -, h⟩ := bind_eq_ok.mp h
    cases found with
    | none => cases h; exact h0
    | some curl =>
      by_cases hmsg : some msg.easyHandle = curl.handle
      · simp only [if_pos hmsg, synapiFreeCurlHandle_ok, ok_bind, Except.ok.injEq,
          Flow.next.injEq] at h
        rw [← h]
        exact Int.natCast_nonneg p.toNat
      · simp only [if_neg hmsg, Except.ok.injEq, Flow.next.injEq] at h
        rw [← h]
        exact h0

/-! The two versions -/

/-- Each function does what its version with local counters does, and leaves
another value in `i` at most. -/
structure CounterHarmless (w : World p) : Prop where
  perform : ∀ env, Agree Alike (synapiPerform env w) (Local.synapiPerform env w)
  send : ∀ env request, Agree Alike (synapiSend env w request) (Local.synapiSend env w request)
  queue : ∀ env action method apiKeyRequest userData options, Agree AlikeResult
    (synapiQueue env w action method apiKeyRequest userData options)
    (Local.synapiQueue env w action method apiKeyRequest userData options)
  freeCurlHandle : ∀ curl,
    Agree Alike (synapiFreeCurlHandle w curl) (Local.synapiFreeCurlHandle w curl)
  freeRequest : ∀ request,
    Agree Alike (synapiFreeRequest w request) (Local.synapiFreeRequest w request)
  getCurlHandle : ∀ easyInit,
    Agree AlikeResult (synapiGetCurlHandle easyInit w) (Local.synapiGetCurlHandle easyInit w)

theorem harmless_of_easyHandlesOnce (hw : EasyHandlesOnce w) : CounterHarmless w where
  perform env := perform_agree env hw (.refl w)
  send env request := send_agree env request (.refl w)
  queue env action method apiKeyRequest userData options :=
    queue_agree env action method apiKeyRequest userData options (.refl w)
  freeCurlHandle curl := freeCurlHandle_agree curl (.refl w)
  freeRequest request := freeRequest_agree request (.refl w)
  getCurlHandle easyInit := getCurlHandle_agree easyInit (.refl w)

/-! Every handle that can be reached -/

theorem reachable_easyHandlesOnce (h : ReachableBy C w) : EasyHandlesOnce w := by
  obtain ⟨hinv, -⟩ := reachable_inv h
  constructor
  · intro c hc x hx
    exact hinv.flight.transfer_lt x (List.mem_filterMap.mpr ⟨c, hc, hx⟩)
  · intro c hc d hd x hcx hdx
    obtain ⟨j, hj⟩ := SlotTable.mem_occupants.mp hc
    obtain ⟨k, hk⟩ := SlotTable.mem_occupants.mp hd
    obtain rfl := hinv.flight.transfer_unique hj hk hcx hdx
    rw [hj] at hk
    rw [Option.some.inj (Option.some.inj hk)]

theorem keyed_agree (action : SynapiAction) (method : SynapiMethod) (userData : Int32)
    (options : Option (List SynapiOption)) {w v : World p} (h : Alike w v) :
    Agree Alike ((keyed w action method userData options).map Prod.snd)
      ((Local.keyed v action method userData options).map Prod.snd) :=
  (queue_agree ⟨true, true⟩ action method false userData options h).map (fun _ _ hab => hab.2)

theorem step_agree {w v : World p} (hw : Reachable w) (c : Call) (h : Alike w v) :
    Agree Alike (step w c) (Local.step v c) := by
  cases c with
  | newServer env =>
    exact (queue_agree env .serversNew .post true 0 none h).map (fun _ _ hab => hab.2)
  | updateServer | newPlayer | updatePlayer | deletePlayer | heartbeat =>
    exact keyed_agree _ _ _ _ h
  | perform env => exact perform_agree env (reachable_easyHandlesOnce hw) h
  | apiKey newApiKey size =>
    apply (apiKey_agree newApiKey size h).bind
    intro a b hab
    obtain ⟨j, rfl⟩ := hab
    exact .ok ⟨j, rfl⟩
  | url url hostHeader =>
    obtain ⟨i, rfl⟩ := h
    apply Agree.bind_same (inBounds (w.handle.baseUrl.strncpy _ 255))
    intro base
    apply Agree.bind_same (inBounds (base.store 255 0))
    intro base
    apply Agree.bind_same (inBounds (w.handle.hostHeader.strncpy _ 255))
    intro host
    exact Agree.bind_same (inBounds (host.store 255 0)) (fun host => .ok ⟨i, rfl⟩)
  | queued => exact (queued_agree h).map (fun _ _ hab => hab.1)

/-- A run of the library with the shared counter is a run with local ones. -/
theorem run_agree {w v : World p} (hw : Reachable w) (h : Alike w v) (calls : List Call) :
    Agree Alike (run step w calls) (run Local.step v calls) :=
  agree_run (Q := Reachable) (fun _ _ _ hw hstep => hw.next trivial hstep)
    (fun _ _ c hw h => step_agree hw c h) calls hw h

end Synapi

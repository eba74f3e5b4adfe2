import Synapi.Effects

/-!
Every call is a sequence of effects, and the only ways a call can fail are a
store out of bounds and a send that finds the pool full.
-/

namespace Synapi

open Runs CountedLoop Relation Text

variable {p : ℤ}

def Sends (w : World p) : Call → Prop
  | .newServer _ => True
  | .perform _ => w.handle.apiKeySet = true ∧ w.handle.requests.lowestUsed ≠ none
  | _ => False

instance (w : World p) (c : Call) : Decidable (Sends w c) := by
  cases c <;> unfold Sends <;> infer_instance

/-- What makes a call store out of bounds. -/
inductive Call.Overruns : Call → Prop
  | query {c action method userData options}
      (hc : c.keyed = some (action, method, userData, options))
      (hq : synapiBuildQueryString method options = .error .outOfBounds) : Call.Overruns c
  | apiKey {newApiKey size} (h : ¬ SetterInBounds newApiKey size) :
      Call.Overruns (.apiKey newApiKey size)
  | chunk {env handle data} (hm : .chunk handle data ∈ env.progress)
      (h : ¬ SetterInBounds data (toInt data.length)) : Call.Overruns (.perform env)

/-- What a computation on `w₀` does under the call `c`: effects, or a store out of bounds. -/
def Acts (c : Call) (w₀ w : World p) (result : Except Fault (World p)) : Prop :=
  match result with
  | .ok w' => ReflTransGen (Effect c w₀) w w'
  | .error e => e = .outOfBounds ∧ c.Overruns

variable {c : Call} {w₀ w w₁ : World p}

theorem inBounds_error {α : Type} {v : Option α} {e : Fault} (h : inBounds v = .error e) :
    e = .outOfBounds := by
  cases v with
  | none => exact (Except.error.inj h).symm
  | some a => cases h

theorem strncat_error {b : QueryBuffer} {src : Bytes} {bound added : ℤ} {e : Fault}
    (h : b.strncat src bound added = .error e) : e = .outOfBounds := by
  rcases bind_eq_error.mp h with h | ⟨_, _, h⟩
  · exact inBounds_error h
  · cases h

theorem synapiAddParameter_error {b : QueryBuffer} {attr : Bytes} {value : Option Bytes} {e : Fault}
    (h : synapiAddParameter b attr value = .error e) : e = .outOfBounds := by
  rcases bind_eq_error.mp h with h | ⟨_, _, h⟩
  · exact strncat_error h
  rcases bind_eq_error.mp h with h | ⟨_, _, h⟩
  · exact inBounds_error h
  · exact strncat_error h

theorem separate_error {b : QueryBuffer} {bound : ℤ} {e : Fault}
    (h : separate b bound = .error e) : e = .outOfBounds := by
  unfold separate at h
  split_ifs at h
  exact strncat_error h

theorem addOption_error {b : QueryBuffer} {option : SynapiOption} {e : Fault}
    (h : addOption b option = .error e) : e = .outOfBounds := by
  rcases bind_eq_error.mp h with h | ⟨_, _, h⟩
  · exact separate_error h
  · exact synapiAddParameter_error h

theorem addOptions_error {b : QueryBuffer} {options : List SynapiOption} {e : Fault}
    (h : addOptions b options = .error e) : e = .outOfBounds := by
  induction options generalizing b with
  | nil => cases h
  | cons option options ih =>
    rcases bind_eq_error.mp h with h | ⟨_, _, h⟩
    · exact addOption_error h
    · exact ih h

theorem synapiBuildQueryString_error {method : SynapiMethod}
    {options : Option (List SynapiOption)} {e : Fault}
    (h : synapiBuildQueryString method options = .error e) : e = .outOfBounds := by
  rcases bind_eq_error.mp h with h | ⟨_, _, h⟩
  · cases options with
    | none => cases h
    | some options => exact addOptions_error h
  rcases bind_eq_error.mp h with h | ⟨_, _, h⟩
  · exact separate_error h
  rcases bind_eq_error.mp h with h | ⟨_, _, h⟩
  · cases method with
    | get => cases h
    | _ => exact synapiAddParameter_error h
  · cases h

/-! Effects in sequence -/

theorem inv_of_effects (h : ReflTransGen (Effect c w₀) w w₁) (hw : Inv w) : Inv w₁ := by
  induction h with
  | refl => exact hw
  | tail _ he ih => exact he.inv ih

theorem addressed_of_effects (h : ReflTransGen (Effect c w₀) w w₁) (hw : Addressed w) :
    Addressed w₁ := by
  induction h with
  | refl => exact hw
  | tail _ he ih => exact he.addressed ih

theorem Acts.after {result : Except Fault (World p)} (h : ReflTransGen (Effect c w₀) w w₁)
    (hr : Acts c w₀ w₁ result) : Acts c w₀ w result := by
  cases result with
  | error e => exact hr
  | ok w' => exact h.trans hr

theorem effects_setI (w : World p) (i : ℤ) : ReflTransGen (Effect c w₀) w (w.setI i) :=
  .single (.counters w i w.multiPerformCounter)

/-! The calls -/

theorem synapiQueue_textError {env : SendEnv} {action : SynapiAction} {method : SynapiMethod}
    {userData : Int32} {options : Option (List SynapiOption)} {e : Fault}
    (hh : w.handle.hostHeader.Terminated) (hq : synapiBuildQueryString method options = .error e) :
    synapiQueue env w action method false userData options = .error e := by
  have hr : w.malloc.handle.hostHeader.read = some w.handle.hostHeader.str :=
    CharArray.read_of_terminated hh
  simp only [synapiQueue, hr, inBounds, ok_bind, hq, error_bind]

theorem keyed_acts {action method userData options} (ha : Addressed w)
    (hc : c.keyed = some (action, method, userData, options)) :
    Acts c w w ((keyed w action method userData options).map Prod.snd) := by
  unfold keyed
  cases hq : synapiBuildQueryString method options with
  | error e =>
    obtain rfl := synapiBuildQueryString_error hq
    rw [synapiQueue_textError ha.hostHeader hq]
    exact ⟨rfl, .query hc hq⟩
  | ok query =>
    cases hk : w.handle.requests.lowestFree with
    | some k =>
      rw [synapiQueue_accept ha.hostHeader hq hk]
      exact .single (.queue hc hq hk)
    | none =>
      rw [synapiQueue_reject ha.hostHeader hq hk]
      apply (effects_setI w p.toNat).tail
      have turned : Effect c w (w.setI p.toNat) { w.setI p.toNat with
          fresh := w.fresh + 3
          trace := w.trace ++ [.malloc w.fresh, .malloc (w.fresh + 1), .malloc (w.fresh + 2),
            .rejected (newRequest w action method false userData query)] } :=
        .silent _ _ rfl
          (.inr ⟨newRequest w action method false userData query, by simp⟩) 3
      simpa only [Except.map, World.emit, World.setI, World.built, List.append_assoc,
        List.cons_append, List.nil_append] using turned

theorem newRequest_query : synapiBuildQueryString .post none = .ok (ascii "_method=post") :=
  synapiBuildQueryString_null .post (by decide)

theorem newServer_full (env : SendEnv) (ha : Addressed w)
    (hk : w.handle.pool.lowestFree = none) : synapiNewServer env w = .error .poolExhausted := by
  rw [synapiNewServer, synapiQueue_new ha.hostHeader newRequest_query,
    synapiSend_full (synapiBuildUrl_new w.built _ ha.baseUrl rfl) hk]
  rfl

theorem newServer_built (env : SendEnv) {k : ℕ} (hw : Inv w) (ha : Addressed w)
    (hk : w.handle.pool.lowestFree = some k) : ∃ a, a.str = [] ∧
      synapiNewServer env w = .ok (0, w.built.sendNew env
        (newRequest w .serversNew .post true 0 (ascii "_method=post"))
        (snprintf 255 (w.handle.baseUrl.str ++ ascii "/servers")) k a) := by
  have fresh : ∀ c ∈ w.built.handle.pool.occupants, c.addr < w.built.fresh :=
    fun c hc => Nat.lt_add_right 3 (hw.flight.addr_lt c hc)
  have url := synapiBuildUrl_new w.built
    (newRequest w .serversNew .post true 0 (ascii "_method=post")) ha.baseUrl rfl
  obtain ⟨a, hs, hsend⟩ := synapiSend_new env url hk fresh rfl
  refine ⟨a, hs, ?_⟩
  rw [synapiNewServer, synapiQueue_new ha.hostHeader newRequest_query, hsend]
  rfl

theorem newServer_ok (env : SendEnv) {k : ℕ} (hw : Inv w) (ha : Addressed w)
    (hk : w.handle.pool.lowestFree = some k) : ∃ a query, a.str = [] ∧
      synapiNewServer env w = .ok (0, w.built.sendNew env
        (newRequest w .serversNew .post true 0 query)
        (snprintf 255 (w.handle.baseUrl.str ++ ascii "/servers")) k a) := by
  obtain ⟨a, hs, hr⟩ := newServer_built env hw ha hk
  exact ⟨a, ascii "_method=post", hs, hr⟩

theorem newServer_acts {env : SendEnv} {k : ℕ} (hw : Inv w) (ha : Addressed w)
    (hk : w.handle.pool.lowestFree = some k) :
    Acts (.newServer env) w w ((synapiNewServer env w).map Prod.snd) := by
  obtain ⟨a, query, hs, hr⟩ := newServer_ok env hw ha hk
  rw [hr]
  exact .single (.register rfl hs hk)

/-! `synapi_perform` -/

inductive SendOne (env : SendEnv) (w : World p) : Except Fault (World p) → Prop
  | closed (hset : w.handle.apiKeySet = false) : SendOne env w (.ok w)
  | empty (hset : w.handle.apiKeySet = true) (hj : w.handle.requests.lowestUsed = none) :
      SendOne env w (.ok (w.setI p.toNat))
  | full (hset : w.handle.apiKeySet = true) (hj : w.handle.requests.lowestUsed ≠ none)
      (hk : w.handle.pool.lowestFree = none) : SendOne env w (.error .poolExhausted)
  | sent {request key j k} (hset : w.handle.apiKeySet = true)
      (hkey : w.handle.encodedApiKey = some key) (hj : w.handle.requests.lowestUsed = some j)
      (hr : w.handle.requests.slot j = some (some request))
      (hk : w.handle.pool.lowestFree = some k) :
      SendOne env w (.ok (w.sendWaiting env request (snprintf 255
        (urlOf request.action w.handle.baseUrl.str key.val request.userData)) k))

theorem sendOne_cases (env : SendEnv) (hw : Inv w) (ha : Addressed w) :
    SendOne env w (sendOne env w) := by
  unfold sendOne
  cases hset : w.handle.apiKeySet with
  | false => exact .closed hset
  | true =>
    rw [if_pos rfl]
    cases hj : w.handle.requests.lowestUsed with
    | none =>
      rw [sendLoop_empty env hj]
      exact .empty hset hj
    | some j =>
      obtain ⟨-, ⟨request, hr⟩, -⟩ := SlotTable.lowestUsed_some hj
      obtain ⟨key, hkey, -⟩ := KeyOk.encoded hw.key hset
      have hurl := synapiBuildUrl_keyed (w.setI j) request ha.baseUrl hkey
      rw [sendLoop_used env hj hr]
      cases hk : w.handle.pool.lowestFree with
      | none =>
        rw [synapiSend_full hurl hk]
        exact .full hset (by rw [hj]; exact Option.some_ne_none j) hk
      | some k =>
        have hm : request ∈ w.handle.requests.occupants := SlotTable.mem_occupants.mpr ⟨j, hr⟩
        rw [synapiSend_waiting hurl hk hw.flight.addr_lt (hw.waiting.keyed request hm).1]
        exact .sent hset hkey hj hr hk

theorem sendOne_full {env : SendEnv} {env' : PerformEnv} (hw : Inv w) (ha : Addressed w)
    (hs : Sends w (.perform env')) (hk : w.handle.pool.lowestFree = none) :
    sendOne env w = .error .poolExhausted := by
  obtain ⟨hset, hused⟩ := hs
  have cases := sendOne_cases env hw ha
  generalize sendOne env w = result at cases ⊢
  cases cases with
  | closed hclosed => rw [hset] at hclosed; cases hclosed
  | empty _ hj => exact absurd hj hused
  | full => rfl
  | sent _ _ _ _ hfree => rw [hk] at hfree; cases hfree

theorem sendOne_acts {env : PerformEnv} (hw : Inv w) (ha : Addressed w)
    (h : ¬ (Sends w (.perform env) ∧ w.handle.pool.lowestFree = none)) :
    ∃ w₁, sendOne env.send w = .ok w₁ ∧ ReflTransGen (Effect (.perform env) w) w w₁ := by
  have cases := sendOne_cases env.send hw ha
  generalize sendOne env.send w = result at cases ⊢
  cases cases with
  | closed => exact ⟨w, rfl, .refl⟩
  | empty => exact ⟨_, rfl, effects_setI w _⟩
  | full hset hj hk => exact absurd ⟨⟨hset, hj⟩, hk⟩ h
  | sent hset hkey hj hr hk => exact ⟨_, rfl, .single (.send rfl hset hkey hj hr hk)⟩

theorem wait_acts (timeo select : ℤ) (w : World p) :
    ReflTransGen (Effect c w₀) w (wait timeo select w) := by
  have waited : Effect c w₀ w { w with trace := w.trace ++
      [.multiTimeout timeo, .multiFdset, .select (selectTimeout timeo)] } :=
    .silent w _ rfl (.inl (by simp [Event.created, Event.released])) 0
  have counted := ReflTransGen.single waited |>.tail (.counters _ w.i
    (if select = -1 then w.multiPerformCounter + 1
      else if select = 0 then w.multiPerformCounter + 1 else 5))
  simpa only [wait, World.emit, List.append_assoc, List.cons_append, List.nil_append] using counted

theorem progress_acts (w₀ w : World p) {env : PerformEnv} {x : Progress} (hx : x ∈ env.progress) :
    Acts (.perform env) w₀ w (progressStep w x) := by
  cases x with
  | chunk handle data =>
    rw [progressStep]
    split_ifs with hcond
    · cases hr : synapiApiKeyWrite w handle data with
      | error e =>
        rcases bind_eq_error.mp hr with hr | ⟨_, _, hr⟩
        · by_cases hb : SetterInBounds data (toInt data.length)
          · obtain ⟨a, ha, -⟩ := synapiApiKey_spec w hb
            rw [ha] at hr
            cases hr
          · rw [synapiApiKey_fault w hb] at hr
            exact ⟨(Except.error.inj hr).symm, .chunk hx hb⟩
        · cases hr
      | ok w' =>
        obtain ⟨u, hu, hr⟩ := bind_eq_ok.mp hr
        obtain ⟨-, a, rfl, hs, ht⟩ := synapiApiKey_ok hu
        rw [← Except.ok.inj hr]
        exact .single (.write w rfl hx hcond.1 hcond.2.1 hcond.2.2 hs ht)
    · exact .refl
  | done handle result =>
    rw [progressStep]
    split_ifs with hrun
    · exact .single (.complete w rfl hrun)
    · exact .refl

theorem progressRun_acts (w₀ w : World p) {env : PerformEnv} {progress : List Progress}
    (hx : ∀ x ∈ progress, x ∈ env.progress) :
    Acts (.perform env) w₀ w (run progressStep w progress) := by
  induction progress generalizing w with
  | nil => exact .refl
  | cons x progress ih =>
    have first := progress_acts w₀ w (hx x List.mem_cons_self)
    unfold run
    cases hr : progressStep w x with
    | error e =>
      rw [hr] at first
      exact first
    | ok w' =>
      rw [hr] at first
      exact .after first (ih w' (fun y hy => hx y (List.mem_cons_of_mem x hy)))

theorem drive_acts (env : PerformEnv) (w : World p) :
    Acts (.perform env) w₀ w (drive env.progress w) := by
  unfold drive
  split_ifs
  · have performed : Effect (.perform env) w₀ w (w.emit .multiPerform) :=
      .silent w [_] rfl (.inl (List.forall_mem_singleton.mpr ⟨rfl, rfl⟩)) 0
    have driven := Acts.after (.single performed)
      (progressRun_acts w₀ (w.emit .multiPerform) (fun x hx => hx))
    unfold curlMultiPerform
    cases hr : run progressStep (w.emit .multiPerform) env.progress with
    | error e =>
      rw [hr] at driven
      exact driven
    | ok w' =>
      rw [hr] at driven
      exact ReflTransGen.tail driven (.counters w' w'.i 0)
  · exact .refl

theorem reapOne_cases (hw : Inv w) :
    (w.multi.messages = [] ∧ reapOne w = .ok w.curlMultiInfoRead) ∨
    ∃ msg rest curl k i, w.multi.messages = msg :: rest ∧
      w.handle.pool.slot k = some (some curl) ∧ curl.handle = some msg.easyHandle ∧
        reapOne w = .ok ((w.reap msg curl).setI i) := by
  unfold reapOne
  cases hm : w.multi.messages with
  | nil => exact .inl ⟨rfl, rfl⟩
  | cons msg rest =>
    obtain ⟨curl, hcurl, hh⟩ := hw.flight.message (hm ▸ List.mem_cons_self)
    obtain ⟨k, hk⟩ := SlotTable.mem_occupants.mp hcurl
    have hloop := reapLoop_hit msg (w := w.curlMultiInfoRead) hk hh (fun j hj d hd hdh =>
      Nat.ne_of_lt hj (hw.flight.transfer_unique hd hk hdh hh))
    refine .inr ⟨msg, rest, curl, k, p.toNat + 1, rfl, hk, hh, ?_⟩
    simp only [List.head?_cons, hloop, ok_bind]
    rfl

theorem reapOne_acts (w₀ : World p) (env : PerformEnv) (hw : Inv w) :
    ∃ w', reapOne w = .ok w' ∧ ReflTransGen (Effect (.perform env) w₀) w w' := by
  rcases reapOne_cases hw with ⟨hm, hr⟩ | ⟨msg, rest, curl, k, i, hm, hk, hh, hr⟩
  · have h : Effect (.perform env) w₀ w { w with trace := w.trace ++ [.multiInfoRead none] } :=
      .silent w _ rfl (.inl (List.forall_mem_singleton.mpr ⟨rfl, rfl⟩)) 0
    refine ⟨_, hr, .single ?_⟩
    simp only [World.curlMultiInfoRead, hm, List.tail_nil, List.head?_nil]
    rw [← hm]
    exact h
  · exact ⟨_, hr, .tail (.single (.reap w rfl hm hk hh)) (.counters _ i _)⟩

theorem perform_acts {env : PerformEnv} (hw : Inv w) (ha : Addressed w)
    (h : ¬ (Sends w (.perform env) ∧ w.handle.pool.lowestFree = none)) :
    Acts (.perform env) w w (synapiPerform env w) := by
  obtain ⟨w₁, hsend, acts₁⟩ := sendOne_acts hw ha h
  have acts₂ := acts₁.trans (wait_acts env.timeo env.select w₁)
  have acts₃ := Acts.after acts₂ (drive_acts env (wait env.timeo env.select w₁))
  rw [synapiPerform, hsend, ok_bind]
  change Acts _ w w (drive env.progress (wait env.timeo env.select w₁) >>= reapOne)
  cases hd : drive env.progress (wait env.timeo env.select w₁) with
  | error e =>
    rw [hd] at acts₃
    exact acts₃
  | ok w₃ =>
    rw [hd] at acts₃
    obtain ⟨w', hr, acts₄⟩ := reapOne_acts w env (inv_of_effects acts₃ hw)
    rw [ok_bind, hr]
    exact ReflTransGen.trans acts₃ acts₄

theorem setKey_acts {newApiKey : Bytes} {size : ℤ} :
    Acts (.apiKey newApiKey size) w w (setApiKey w newApiKey size) := by
  unfold setApiKey
  cases hr : synapiApiKey w newApiKey size with
  | error e =>
    by_cases hb : SetterInBounds newApiKey size
    · obtain ⟨a, ha, -⟩ := synapiApiKey_spec w hb
      rw [ha] at hr
      cases hr
    · rw [synapiApiKey_fault w hb] at hr
      exact ⟨(Except.error.inj hr).symm, .apiKey hb⟩
  | ok u =>
    obtain ⟨-, a, rfl, hs, ht⟩ := synapiApiKey_ok hr
    exact .single (.setKey rfl hs ht)

theorem setUrl_acts {url hostHeader : CString} :
    Acts (.url url hostHeader) w w (synapiUrl w url hostHeader) := by
  obtain ⟨base, host, hb, hh, tb, th, hr⟩ := synapiUrl_ok w url hostHeader
  rw [hr]
  exact .single (.setUrl rfl hb hh tb th)

/-! Counting -/

def usedBelow {α : Type} {n : ℕ} (t : SlotTable α n) (k : ℕ) : ℕ :=
  (t.slots.take k).reduceOption.length

theorem usedBelow_succ {α : Type} {n k : ℕ} {t : SlotTable α n} {v : Option α}
    (h : t.slot k = some v) : usedBelow t (k + 1) = usedBelow t k + v.toList.length := by
  have hv : t.slots[k]? = some v := h
  rw [usedBelow, List.take_add_one, hv, List.reduceOption_append, List.length_append, usedBelow]
  cases v <;> rfl

theorem countLoop_ok {α : Type} (table : World p → SlotTable α p.toNat)
    (htable : ∀ (w : World p) (k : ℤ), table (w.setI k) = table w) (w : World p) (n : ℤ) :
    countLoop table (w, n) = .ok (w.setI p.toNat, n + (table w).occupants.length) := by
  let head (k : ℕ) : World p × ℤ := (w.setI k, n + usedBelow (table w) k)
  have start : head 0 = (w.setI 0, n) := by simp [head, usedBelow]
  have finish : (head p.toNat).2 = n + (table w).occupants.length := by
    simp only [head, usedBelow, SlotTable.occupants]
    rw [List.take_of_length_le (Nat.le_of_eq (table w).size_eq)]
  have passes : forLoop (fun s => decide (s.1.i < p)) (fun s => (s.1.setI (s.1.i + 1), s.2))
      (countBody table) .stillRunning p.toNat (head 0) =
        forLoop (fun s => decide (s.1.i < p)) (fun s => (s.1.setI (s.1.i + 1), s.2))
          (countBody table) .stillRunning 0 (head p.toNat) := by
    conv_lhs => rw [← Nat.zero_add p.toNat]
    apply forLoop_passes head
    intro k hk
    obtain ⟨v, hv⟩ := (table w).slot_of_lt hk
    have he : entry (table (head k).1) (head k).1.i = .ok v := by
      rw [htable]
      exact entry_natCast hv
    refine ⟨decide_eq_true (by change (k : ℤ) < p; omega),
      ((head k).1, (head k).2 + v.toList.length), ?_, ?_⟩
    · rw [countBody, he, ok_bind]
      cases v with
      | none => simp
      | some a => rfl
    · simp only [head, usedBelow_succ hv, Int.natCast_add, Int.add_assoc]
      rfl
  rw [countLoop, ← start, passes, forLoop_exit, ← finish]
  · rfl
  · exact decide_eq_false (by change ¬ (p.toNat : ℤ) < p; omega)

theorem synapiQueued_ok (w : World p) : ∃ i, synapiQueued w = .ok (w.setI i,
    (if w.handle.apiKeySet then (w.handle.pool.occupants.length : ℤ) else 0) +
      w.handle.requests.occupants.length) := by
  have pool := countLoop_ok (p := p) (·.handle.pool) (fun _ _ => rfl)
  have requests := countLoop_ok (p := p) (·.handle.requests) (fun _ _ => rfl)
  refine ⟨p.toNat, ?_⟩
  unfold synapiQueued
  by_cases hset : w.handle.apiKeySet = true
  · simp only [hset, if_true, pool, ok_bind, requests, Int.zero_add]
    rfl
  · simp only [hset, Bool.false_eq_true, if_false, ok_bind, requests]

theorem queued_acts : Acts .queued w w ((synapiQueued w).map Prod.fst) := by
  obtain ⟨i, hq⟩ := synapiQueued_ok w
  rw [hq]
  exact effects_setI w i

/-! The two outcomes of a call -/

theorem step_full (hw : Inv w) (ha : Addressed w) (hs : Sends w c)
    (hk : w.handle.pool.lowestFree = none) : step w c = .error .poolExhausted := by
  cases c with
  | newServer env => rw [step, newServer_full env ha hk]; rfl
  | perform env => rw [step, synapiPerform, sendOne_full hw ha hs hk]; rfl
  | _ => exact hs.elim

theorem step_acts (hw : Inv w) (ha : Addressed w)
    (h : ¬ (Sends w c ∧ w.handle.pool.lowestFree = none)) : Acts c w w (step w c) := by
  cases c with
  | newServer env =>
    obtain ⟨k, hk⟩ : ∃ k, w.handle.pool.lowestFree = some k :=
      Option.ne_none_iff_exists'.mp (fun hfull => h ⟨trivial, hfull⟩)
    exact newServer_acts hw ha hk
  | updateServer | newPlayer | updatePlayer | deletePlayer | heartbeat => exact keyed_acts ha rfl
  | perform env => exact perform_acts hw ha h
  | apiKey newApiKey size => exact setKey_acts
  | url url hostHeader => exact setUrl_acts
  | queued => exact queued_acts

theorem step_poolExhausted_iff (hw : Inv w) (ha : Addressed w) :
    step w c = .error .poolExhausted ↔ Sends w c ∧ w.handle.pool.lowestFree = none := by
  constructor
  · intro he
    by_contra h
    have acts := step_acts hw ha h
    rw [he] at acts
    cases acts.1
  · exact fun h => step_full hw ha h.1 h.2

theorem step_error {e : Fault} (hw : Inv w) (ha : Addressed w) (he : step w c = .error e) :
    e = .outOfBounds ∨ e = .poolExhausted := by
  by_cases h : Sends w c ∧ w.handle.pool.lowestFree = none
  · rw [step_full hw ha h.1 h.2] at he
    exact .inr (Except.error.inj he).symm
  · have acts := step_acts hw ha h
    rw [he] at acts
    exact .inl acts.1

theorem step_outOfBounds (hw : Inv w) (ha : Addressed w) (he : step w c = .error .outOfBounds) :
    c.Overruns := by
  by_cases h : Sends w c ∧ w.handle.pool.lowestFree = none
  · rw [step_full hw ha h.1 h.2] at he
    cases he
  · have acts := step_acts hw ha h
    rw [he] at acts
    exact acts.2

theorem step_effects {w' : World p} (hw : Inv w) (ha : Addressed w) (h : step w c = .ok w') :
    ReflTransGen (Effect c w) w w' := by
  have acts : Acts c w w (step w c) := by
    apply step_acts hw ha
    intro hfull
    rw [step_full hw ha hfull.1 hfull.2] at h
    cases h
  rw [h] at acts
  exact acts

end Synapi

import Synapi.Accounts
import Synapi.StringFields
import Synapi.Registrations

/-!
One call of `synapi_perform`: when it fails, and what it sends, drives and reads.
-/

namespace Synapi

open Runs Relation Text

variable {p : ℤ} {w w' w'' : World p} {env : PerformEnv}

def Event.drives : Event → Bool
  | .multiPerform => true
  | _ => false

def drives (trace : List Event) : ℕ := trace.countP Event.drives

def counted (select n : ℤ) : ℤ :=
  if select = -1 then n + 1 else if select = 0 then n + 1 else 5

/-- Of the responses to the registrations `takes`, a part of 256 bytes is delivered. -/
def ChunkOf256 (takes : ℕ → Prop) : List Progress → Prop
  | [] => False
  | .chunk handle data :: rest =>
    takes handle ∧ toInt data.length = 256 ∨ ChunkOf256 takes rest
  | .done handle _ :: rest => ChunkOf256 (fun x => takes x ∧ x ≠ handle) rest

def Multi.Takes (m : Multi) (handle : ℕ) : Prop := m.Running handle ∧ m.WritesKey handle

/-- The call delivers a part of a response that is as long as the array for the key. -/
def Overfills (w : World p) (env : PerformEnv) : Prop :=
  counted env.select w.multiPerformCounter = 5 ∧ ChunkOf256 w.multi.Takes env.progress

/-! What libcurl does with the transfers -/

structure Keeps (w w' : World p) : Prop where
  sents : sents w'.trace = sents w.trace
  reads : reads w'.trace = reads w.trace
  drives : drives w'.trace = drives w.trace
  requests : w'.handle.requests = w.handle.requests
  keySet : w.handle.apiKeySet = true → w'.handle.apiKeySet = true

theorem Keeps.refl (w : World p) : Keeps w w := ⟨rfl, rfl, rfl, rfl, id⟩

theorem Keeps.trans (h : Keeps w w') (h' : Keeps w' w'') : Keeps w w'' :=
  ⟨h'.sents.trans h.sents, h'.reads.trans h.reads, h'.drives.trans h.drives,
    h'.requests.trans h.requests, fun hset => h'.keySet (h.keySet hset)⟩

theorem chunkOf256_congr {takes takes' : ℕ → Prop} (h : ∀ x, takes x ↔ takes' x)
    (progress : List Progress) : ChunkOf256 takes progress ↔ ChunkOf256 takes' progress := by
  rw [funext fun x => propext (h x)]

theorem takes_complete (m : Multi) (handle : ℕ) (result : TransferResult) (x : ℕ) :
    (m.complete handle result).Takes x ↔ m.Takes x ∧ x ≠ handle := by
  simp only [Multi.Takes, Multi.Running, Multi.WritesKey, Multi.complete, List.mem_cons, not_or]
  tauto

theorem takes_not_running {m : Multi} {handle : ℕ} (h : ¬ m.Running handle) (x : ℕ) :
    m.Takes x ↔ m.Takes x ∧ x ≠ handle := by
  refine ⟨fun hx => ⟨hx, ?_⟩, And.left⟩
  rintro rfl
  exact h hx.1

theorem trace_withApiKey (w : World p) (a : CharArray 256) (e : Event) :
    ∃ events, ((w.withApiKey a).emit e).trace = w.trace ++ events ++ [e] ∧
      sents events = [] ∧ reads events = [] ∧ drives events = 0 := by
  refine ⟨_, congrArg (· ++ [e]) (List.append_assoc _ _ _), ?_⟩
  cases w.handle.encodedApiKey <;> exact ⟨rfl, rfl, rfl⟩

theorem sents_append (first second : List Event) :
    sents (first ++ second) = sents first ++ sents second :=
  List.filterMap_append

theorem reads_append (first second : List Event) :
    reads (first ++ second) = reads first ++ reads second :=
  List.filterMap_append

theorem drives_append (first second : List Event) :
    drives (first ++ second) = drives first + drives second :=
  List.countP_append

theorem progressStep_keeps {x : Progress} (h : progressStep w x = .ok w') : Keeps w w' := by
  cases x with
  | chunk handle data =>
    rw [progressStep] at h
    split_ifs at h
    · obtain ⟨u, hu, h⟩ := bind_eq_ok.mp h
      obtain ⟨-, a, rfl, -, -⟩ := synapiApiKey_ok hu
      obtain ⟨events, ht, hs, hr, hd⟩ :=
        trace_withApiKey w a (.apiKeyWrite handle data (w.withApiKey a).view)
      rw [← Except.ok.inj h]
      refine ⟨?_, ?_, ?_, rfl, fun _ => rfl⟩
      · rw [ht, sents_append, sents_append, hs]
        exact (List.append_nil _).trans (List.append_nil _)
      · rw [ht, reads_append, reads_append, hr]
        exact (List.append_nil _).trans (List.append_nil _)
      · rw [ht, drives_append, drives_append, hd]
        rfl
    · exact Except.ok.inj h ▸ .refl w
  | done handle result =>
    rw [progressStep] at h
    split_ifs at h
    · rw [← Except.ok.inj h]
      exact ⟨rfl, rfl, rfl, rfl, id⟩
    · exact Except.ok.inj h ▸ .refl w

theorem progress_keeps {progress : List Progress} (h : run progressStep w progress = .ok w') :
    Keeps w w' :=
  run_relates (P := fun _ => True) (R := Keeps) Keeps.refl (fun _ _ _ => Keeps.trans)
    (fun _ _ _ _ _ => trivial) (fun _ _ _ _ => progressStep_keeps) trivial h

section Chunk

variable {handle : ℕ} {data : Bytes}

theorem progressStep_taken (w : World p) (ht : w.multi.Takes handle) (hd : data ≠ []) :
    progressStep w (.chunk handle data) = synapiApiKeyWrite w handle data :=
  if_pos ⟨ht.1, ht.2, hd⟩

theorem apiKeyWrite_full (w : World p) (handle : ℕ) (h : toInt data.length = 256) :
    synapiApiKeyWrite w handle data = .error .outOfBounds := by
  have hb : ¬ SetterInBounds data (toInt data.length) := fun hb => (chunkInBounds_iff data).mp hb h
  rw [synapiApiKeyWrite, synapiApiKey_fault w hb, error_bind]

theorem apiKeyWrite_ok (w : World p) (handle : ℕ) (h : toInt data.length ≠ 256) :
    ∃ u, synapiApiKeyWrite w handle data = .ok u ∧ u.multi = w.multi := by
  obtain ⟨a, ha, -, -⟩ := synapiApiKey_spec w ((chunkInBounds_iff data).mpr h)
  refine ⟨(w.withApiKey a).emit (.apiKeyWrite handle data (w.withApiKey a).view), ?_, rfl⟩
  rw [synapiApiKeyWrite, ha, ok_bind]

end Chunk

theorem progress_error_iff (w : World p) (progress : List Progress) :
    (∃ e, run progressStep w progress = .error e) ↔ ChunkOf256 w.multi.Takes progress := by
  induction progress generalizing w with
  | nil => exact iff_of_false (by rintro ⟨e, ⟨⟩⟩) id
  | cons x progress ih =>
    have passes {u : World p} (hu : progressStep w x = .ok u) :
        (∃ e, run progressStep w (x :: progress) = .error e) ↔
          ChunkOf256 u.multi.Takes progress := by
      rw [run_cons_error, hu, ← ih u]
      simp
    cases x with
    | chunk handle data =>
      rw [ChunkOf256]
      by_cases hcond : w.multi.Takes handle ∧ data ≠ []
      · have taken := progressStep_taken w hcond.1 hcond.2
        by_cases h256 : toInt data.length = 256
        · have full := taken.trans (apiKeyWrite_full w handle h256)
          exact iff_of_true (run_cons_error.mpr (.inl ⟨_, full⟩)) (.inl ⟨hcond.1, h256⟩)
        · obtain ⟨u, hu, hmulti⟩ := apiKeyWrite_ok w handle h256
          rw [passes (taken.trans hu), hmulti, or_iff_right (fun h => h256 h.2)]
      · have skip : progressStep w (.chunk handle data) = .ok w := by
          rw [progressStep, if_neg (fun h => hcond ⟨⟨h.1, h.2.1⟩, h.2.2⟩)]
        rw [passes skip, or_iff_right]
        rintro ⟨ht, h256⟩
        refine hcond ⟨ht, ?_⟩
        rintro rfl
        exact absurd h256 (by decide)
    | done handle result =>
      rw [ChunkOf256]
      by_cases hrun : w.multi.Running handle
      · have complete : progressStep w (.done handle result) =
            .ok { w with multi := w.multi.complete handle result } := if_pos hrun
        rw [passes complete]
        exact chunkOf256_congr (takes_complete w.multi handle result) progress
      · have skip : progressStep w (.done handle result) = .ok w := if_neg hrun
        rw [passes skip]
        exact chunkOf256_congr (takes_not_running hrun) progress

/-! The three parts of the call -/

structure SentOne (w w₁ : World p) : Prop where
  sents : ∃ news, Synapi.sents w₁.trace = Synapi.sents w.trace ++ news ∧
    news.map Sent.request = if w.handle.apiKeySet then w.handle.requests.occupants.take 1 else []
  requests : w₁.handle.requests.occupants =
    if w.handle.apiKeySet then w.handle.requests.occupants.drop 1 else w.handle.requests.occupants
  reads : Synapi.reads w₁.trace = Synapi.reads w.trace
  drives : Synapi.drives w₁.trace = Synapi.drives w.trace
  keySet : w₁.handle.apiKeySet = w.handle.apiKeySet
  counter : w₁.multiPerformCounter = w.multiPerformCounter
  takes : ∀ x, w₁.multi.Takes x ↔ w.multi.Takes x

theorem occupants_of_lowestUsed_none {α : Type} {n : ℕ} {t : SlotTable α n}
    (h : t.lowestUsed = none) : t.occupants = [] := by
  refine List.eq_nil_iff_forall_not_mem.mpr (fun a ha => ?_)
  obtain ⟨k, hk⟩ := SlotTable.mem_occupants.mp ha
  rw [SlotTable.lowestUsed_none h (SlotTable.slot_lt hk)] at hk
  cases hk

theorem takes_send {m : Multi} {env : SendEnv} {request : SynapiRequest} {url : Bytes}
    (hr : request.apiKeyRequest = false) (x : ℕ) :
    (m.add (newEasy env w request url) env.multiAdd).Takes x ↔ m.Takes x := by
  have completed : (m.add (newEasy env w request url) env.multiAdd).completed = m.completed := by
    rw [Multi.add]
    split_ifs <;> rfl
  have grown : m.added ⊆ (m.add (newEasy env w request url) env.multiAdd).added := by
    rw [Multi.add]
    split_ifs
    · exact List.subset_append_left _ _
    · exact List.Subset.refl _
  constructor
  · rintro ⟨⟨-, hdone⟩, hwrites⟩
    obtain ⟨e, he, hid, hwrite⟩ := writesKey_send hr hwrites
    rw [completed] at hdone
    exact ⟨⟨List.mem_map.mpr ⟨e, he, hid⟩, hdone⟩, e, he, hid, hwrite⟩
  · rintro ⟨⟨hadded, hdone⟩, e, he, hid, hwrite⟩
    rw [← completed] at hdone
    exact ⟨⟨List.map_subset _ grown hadded, hdone⟩, e, grown he, hid, hwrite⟩

theorem sendOne_spec {env : SendEnv} {w₁ : World p} (hw : Inv w) (ha : Addressed w)
    (h : sendOne env w = .ok w₁) : SentOne w w₁ := by
  have cases := sendOne_cases env hw ha
  rw [h] at cases
  cases cases with
  | closed hset =>
    refine ⟨⟨[], (List.append_nil _).symm, ?_⟩, ?_, rfl, rfl, rfl, rfl, fun x => Iff.rfl⟩
    · rw [hset]
      rfl
    · rw [hset]
      rfl
  | empty hset hj =>
    have none := occupants_of_lowestUsed_none hj
    refine ⟨⟨[], (List.append_nil _).symm, ?_⟩, ?_, rfl, rfl, rfl, rfl, fun x => Iff.rfl⟩
    · rw [none]
      simp
    · rw [if_pos hset, none]
      exact none
  | @sent request key j k hset hkey hj hr hk =>
    obtain ⟨rest, hrest⟩ := SlotTable.occupants_of_lowestUsed hj hr
    have keyed := (hw.waiting.keyed request (SlotTable.mem_occupants.mpr ⟨j, hr⟩)).1
    have cleared := SlotTable.occupants_clear_one hw.waiting.nodup (isRequest_iff request) []
      rest hrest
    refine ⟨⟨[_], sents_marks (marks_send w _ _ _ _), ?_⟩, ?_, ?_, ?_, rfl, rfl,
      fun x => takes_send keyed x⟩
    · rw [if_pos hset, hrest]
      rfl
    · rw [if_pos hset, hrest]
      exact cleared
    · exact (reads_marks (marks_send w _ _ _ _)).trans (List.append_nil _)
    · exact drives_append _ _

theorem wait_counter (timeo select : ℤ) (w : World p) :
    (wait timeo select w).multiPerformCounter = counted select w.multiPerformCounter := rfl

theorem wait_keeps (timeo select : ℤ) (w : World p) : Keeps w (wait timeo select w) := by
  have trace : (wait timeo select w).trace =
      w.trace ++ [.multiTimeout timeo, .multiFdset, .select (selectTimeout timeo)] := by
    simp only [wait, World.emit, List.append_assoc, List.cons_append, List.nil_append]
  refine ⟨?_, ?_, ?_, rfl, id⟩
  · rw [trace, sents_append]
    exact List.append_nil _
  · rw [trace, reads_append]
    exact List.append_nil _
  · rw [trace]
    exact drives_append _ _

theorem drive_error_iff (progress : List Progress) (w : World p) :
    (∃ e, drive progress w = .error e) ↔
      w.multiPerformCounter = 5 ∧ ChunkOf256 w.multi.Takes progress := by
  unfold drive curlMultiPerform
  by_cases h5 : w.multiPerformCounter = 5
  · have driven := progress_error_iff (w.emit .multiPerform) progress
    rw [if_pos h5, and_iff_right h5, ← show (w.emit .multiPerform).multi = w.multi from rfl,
      ← driven]
    cases hr : run progressStep (w.emit .multiPerform) progress with
    | error e => exact iff_of_true ⟨e, rfl⟩ ⟨e, rfl⟩
    | ok u => exact iff_of_false (by rintro ⟨e, ⟨⟩⟩) (by rintro ⟨e, ⟨⟩⟩)
  · rw [if_neg h5]
    exact iff_of_false (by rintro ⟨e, ⟨⟩⟩) (fun h => h5 h.1)

/-- What the last two parts of the call leave, `driven` more calls of
`curl_multi_perform` later. -/
structure Finishes (driven : ℕ) (w w' : World p) : Prop where
  sents : Synapi.sents w'.trace = Synapi.sents w.trace
  drives : Synapi.drives w'.trace = Synapi.drives w.trace + driven
  requests : w'.handle.requests = w.handle.requests
  keySet : w.handle.apiKeySet = true → w'.handle.apiKeySet = true

theorem drive_spec {progress : List Progress} {w₂ w₃ : World p} (h : drive progress w₂ = .ok w₃) :
    Finishes (if w₂.multiPerformCounter = 5 then 1 else 0) w₂ w₃ ∧
    reads w₃.trace = reads w₂.trace ∧ w₃.multiPerformCounter =
      if w₂.multiPerformCounter = 5 then 0 else w₂.multiPerformCounter := by
  unfold drive at h
  split_ifs at h ⊢ with h5
  · obtain ⟨u, hu, h⟩ := bind_eq_ok.mp h
    have kept := progress_keeps hu
    rw [← Except.ok.inj h]
    refine ⟨⟨?_, ?_, kept.requests, kept.keySet⟩, ?_, rfl⟩
    · exact (kept.sents.trans (sents_append _ _)).trans (List.append_nil _)
    · exact kept.drives.trans (drives_append _ _)
    · exact (kept.reads.trans (reads_append _ _)).trans (List.append_nil _)
  · rw [← Except.ok.inj h]
    exact ⟨⟨rfl, rfl, rfl, id⟩, rfl, rfl⟩

theorem reapOne_spec {w₃ : World p} (hw : Inv w₃) (h : reapOne w₃ = .ok w') :
    Finishes 0 w₃ w' ∧ (∃ msg : Option CurlMsg, reads w'.trace = reads w₃.trace ++ msg.toList) ∧
      w'.multiPerformCounter = w₃.multiPerformCounter := by
  rcases reapOne_cases hw with ⟨hm, hr⟩ | ⟨msg, rest, curl, k, i, hm, -, -, hr⟩
  · rw [hr] at h
    rw [← Except.ok.inj h]
    refine ⟨⟨?_, drives_append _ _, rfl, id⟩, ⟨none, ?_⟩, rfl⟩
    · exact (sents_append _ _).trans (List.append_nil _)
    · simp only [World.curlMultiInfoRead, hm, reads_append]
      rfl
  · rw [hr] at h
    rw [← Except.ok.inj h]
    refine ⟨⟨?_, ?_, rfl, id⟩, ⟨some msg, reads_marks (marks_reap hm curl)⟩, rfl⟩
    · exact (sents_marks (marks_reap hm curl)).trans (List.append_nil _)
    · simp only [World.reap, World.setI, World.freeCurlHandle, World.free, World.freeAll,
        World.emit, World.setPool, World.curlMultiRemoveHandle, World.curlMultiInfoRead,
        drives_append]
      cases curl.headers <;> rfl

structure Performed (env : PerformEnv) (w w' : World p) : Prop where
  sents : ∃ news, Synapi.sents w'.trace = Synapi.sents w.trace ++ news ∧
    news.map Sent.request = if w.handle.apiKeySet then w.handle.requests.occupants.take 1 else []
  reads : ∃ msg : Option CurlMsg, Synapi.reads w'.trace = Synapi.reads w.trace ++ msg.toList
  drives : drives w'.trace =
    Synapi.drives w.trace + if counted env.select w.multiPerformCounter = 5 then 1 else 0
  requests : w'.handle.requests.occupants =
    if w.handle.apiKeySet then w.handle.requests.occupants.drop 1 else w.handle.requests.occupants
  keySet : w.handle.apiKeySet = true → w'.handle.apiKeySet = true
  counter : w'.multiPerformCounter = if counted env.select w.multiPerformCounter = 5 then 0
    else counted env.select w.multiPerformCounter

theorem driven_inv {w₁ w₃ : World p} (hw : Inv w) (ha : Addressed w)
    (h₁ : sendOne env.send w = .ok w₁)
    (h₃ : drive env.progress (wait env.timeo env.select w₁) = .ok w₃) : Inv w₃ := by
  have notFull : ¬ (Sends w (.perform env) ∧ w.handle.pool.lowestFree = none) := by
    rintro ⟨hs, hk⟩
    rw [sendOne_full hw ha hs hk] at h₁
    cases h₁
  obtain ⟨u, hu, acts₁⟩ := sendOne_acts hw ha notFull
  obtain rfl : u = w₁ := Except.ok.inj (hu.symm.trans h₁)
  have acts₃ := Acts.after (acts₁.trans (wait_acts env.timeo env.select u))
    (drive_acts env (wait env.timeo env.select u))
  rw [h₃] at acts₃
  exact inv_of_effects acts₃ hw

theorem perform_spec (hw : Inv w) (ha : Addressed w) (h : synapiPerform env w = .ok w') :
    Performed env w w' := by
  obtain ⟨w₁, h₁, h⟩ := bind_eq_ok.mp h
  obtain ⟨w₃, h₃, h₄⟩ := bind_eq_ok.mp h
  have first := sendOne_spec hw ha h₁
  have waited := wait_keeps env.timeo env.select w₁
  obtain ⟨third, reads₃, counter₃⟩ := drive_spec h₃
  obtain ⟨last, ⟨msg, reads₄⟩, counter₄⟩ := reapOne_spec (driven_inv hw ha h₁ h₃) h₄
  rw [wait_counter, first.counter] at third counter₃
  refine ⟨?_, ⟨msg, ?_⟩, ?_, ?_, ?_, ?_⟩
  · rw [last.sents, third.sents, waited.sents]
    exact first.sents
  · rw [reads₄, reads₃, waited.reads, first.reads]
  · rw [last.drives, third.drives, waited.drives, first.drives]
    rfl
  · rw [last.requests, third.requests, waited.requests]
    exact first.requests
  · rw [← first.keySet]
    exact fun hset => last.keySet (third.keySet (waited.keySet hset))
  · rw [counter₄, counter₃]

theorem perform_ok_iff (env : PerformEnv) (hw : Inv w) (ha : Addressed w) :
    (∃ w', synapiPerform env w = .ok w') ↔
      ¬ (Sends w (.perform env) ∧ w.handle.pool.lowestFree = none) ∧ ¬ Overfills w env := by
  constructor
  · rintro ⟨w', h⟩
    constructor
    · rintro ⟨hs, hk⟩
      rw [synapiPerform, sendOne_full hw ha hs hk] at h
      cases h
    · rintro ⟨h5, h256⟩
      obtain ⟨w₁, h₁, h⟩ := bind_eq_ok.mp h
      obtain ⟨w₃, h₃, -⟩ := bind_eq_ok.mp h
      have first := sendOne_spec hw ha h₁
      have failed := (drive_error_iff env.progress (wait env.timeo env.select w₁)).mpr
        ⟨by rw [wait_counter, first.counter, h5],
          (chunkOf256_congr first.takes env.progress).mpr h256⟩
      obtain ⟨e, he⟩ := failed
      rw [he] at h₃
      cases h₃
  · rintro ⟨hfull, hover⟩
    obtain ⟨w₁, h₁, -⟩ := sendOne_acts hw ha hfull
    have first := sendOne_spec hw ha h₁
    cases h₃ : drive env.progress (wait env.timeo env.select w₁) with
    | error e =>
      obtain ⟨h5, h256⟩ := (drive_error_iff env.progress _).mp ⟨e, h₃⟩
      rw [wait_counter, first.counter] at h5
      exact absurd ⟨h5, (chunkOf256_congr first.takes env.progress).mp h256⟩ hover
    | ok w₃ =>
      obtain ⟨w', h₄, -⟩ := reapOne_acts w env (driven_inv hw ha h₁ h₃)
      refine ⟨w', ?_⟩
      rw [synapiPerform, h₁, ok_bind]
      change drive env.progress (wait env.timeo env.select w₁) >>= reapOne = _
      rw [h₃, ok_bind, h₄]

end Synapi

import Synapi.Accounts
import Synapi.History
import Synapi.Library.Ledger

/-!
Who owns the memory of a handle, and what `synapi_free` releases of it.
-/

namespace Synapi

open Runs Relation Text

variable {p : ℤ} {C : World p → Call → Prop} {c : Call} {w₀ w w' : World p}

def blockAddr {α : Type} (block : Option (Block α)) : List ℕ := (block.map Block.addr).toList

def SynapiRequest.parts (r : SynapiRequest) : List ℕ := r.addr :: r.query.addr :: blockAddr r.headers

def SynapiCurlHandle.parts (curl : SynapiCurlHandle) : List ℕ :=
  curl.addr :: (curl.handle.toList ++ blockAddr curl.headers)

/-- The handle, its two tables, and what they refer to. -/
def World.owned (w : World p) : List ℕ :=
  (0 :: tableAddrs p) ++ blockAddr w.handle.encodedApiKey ++
    w.handle.requests.occupants.flatMap SynapiRequest.parts ++
      w.handle.pool.occupants.flatMap SynapiCurlHandle.parts

/-- What happens to the objects in a part of a call. -/
structure Moves (w w' : World p) (events : List Event) : Prop where
  trace : w'.trace = w.trace ++ events
  fresh : w.fresh ≤ w'.fresh
  made : (createdBy events).Nodup
  made_new : ∀ x ∈ createdBy events, w.fresh ≤ x ∧ x < w'.fresh
  moves : (releasedBy events ++ w'.owned).Perm (w.owned ++ createdBy events)

structure Books (w : World p) : Prop where
  ledger : Ledger (createdBy w.trace) (releasedBy w.trace) w.owned
  created_lt : ∀ x ∈ createdBy w.trace, x < w.fresh

theorem createdBy_append (first second : List Event) :
    createdBy (first ++ second) = createdBy first ++ createdBy second :=
  List.filterMap_append

theorem releasedBy_append (first second : List Event) :
    releasedBy (first ++ second) = releasedBy first ++ releasedBy second :=
  List.filterMap_append

theorem Books.step (h : Books w) {events : List Event} (hm : Moves w w' events) : Books w' := by
  constructor
  · rw [hm.trace, createdBy_append, releasedBy_append]
    refine h.ledger.step hm.made (fun x hx hold => ?_) hm.moves
    have := (hm.made_new x hx).1
    have := h.created_lt x hold
    omega
  · rw [hm.trace, createdBy_append]
    intro x hx
    rcases List.mem_append.mp hx with hx | hx
    · exact Nat.lt_of_lt_of_le (h.created_lt x hx) hm.fresh
    · exact (hm.made_new x hx).2

theorem owned_count (w : World p) (x : ℕ) : w.owned.count x = (0 :: tableAddrs p).count x +
    (blockAddr w.handle.encodedApiKey).count x +
      (w.handle.requests.occupants.flatMap SynapiRequest.parts).count x +
        (w.handle.pool.occupants.flatMap SynapiCurlHandle.parts).count x := by
  simp only [World.owned, List.count_append]

theorem owned_pool_count (w w' : World p)
    (hkey : w'.handle.encodedApiKey = w.handle.encodedApiKey)
    (hrequests : w'.handle.requests = w.handle.requests) (x : ℕ) :
    w'.owned.count x + (w.handle.pool.occupants.flatMap SynapiCurlHandle.parts).count x =
      w.owned.count x + (w'.handle.pool.occupants.flatMap SynapiCurlHandle.parts).count x := by
  rw [owned_count, owned_count w, hkey, hrequests]
  omega

theorem Moves.of_counts {events : List Event} (made gone : List ℕ) (n : ℕ)
    (ht : w'.trace = w.trace ++ events) (hf : w'.fresh = w.fresh + n)
    (hc : createdBy events = made) (hr : releasedBy events = gone) (hnodup : made.Nodup)
    (hnew : ∀ x ∈ made, w.fresh ≤ x ∧ x < w.fresh + n)
    (hcount : ∀ x, gone.count x + w'.owned.count x = w.owned.count x + made.count x) :
    Moves w w' events := by
  subst hc hr
  refine ⟨ht, by omega, hnodup, by rw [hf]; exact hnew, List.perm_iff_count.mpr (fun x => ?_)⟩
  rw [List.count_append, List.count_append]
  exact hcount x

theorem Moves.idle {events : List Event} {n : ℕ}
    (hi : ∀ e ∈ events, e.created = none ∧ e.released = none)
    (ht : w'.trace = w.trace ++ events) (hf : w'.fresh = w.fresh + n) (ho : w'.owned = w.owned) :
    Moves w w' events := by
  refine .of_counts [] [] n ht hf (List.filterMap_eq_nil_iff.mpr fun e he => (hi e he).1)
    (List.filterMap_eq_nil_iff.mpr fun e he => (hi e he).2) List.nodup_nil ?_ (fun x => ?_)
  · rintro x ⟨⟩
  · rw [ho]
    simp

theorem releasedBy_free {α : Type} (block : Option (Block α)) :
    releasedBy (block.map (fun b => Event.free b.addr)).toList = blockAddr block := by
  cases block <;> rfl

theorem createdBy_free {α : Type} (block : Option (Block α)) :
    createdBy (block.map (fun b => Event.free b.addr)).toList = [] := by
  cases block <;> rfl

theorem count_flatMap_perm {α : Type} {l l' : List α} (h : l.Perm l') (parts : α → List ℕ) (x : ℕ) :
    (l.flatMap parts).count x = (l'.flatMap parts).count x :=
  (h.flatMap_right parts).count_eq x

theorem moves_withApiKey (w : World p) (a : CharArray 256) {e : Event} (hc : e.created = none)
    (hr : e.released = none) : ∃ events, Moves w ((w.withApiKey a).emit e) events := by
  have created : createdBy [.malloc w.fresh, e] = [w.fresh] :=
    congrArg (w.fresh :: ·) (List.filterMap_cons_none hc)
  have released : releasedBy [.malloc w.fresh, e] = [] := List.filterMap_cons_none hr
  refine ⟨_, .of_counts [w.fresh] (blockAddr w.handle.encodedApiKey) 1
    (List.append_assoc _ _ _ |>.trans (List.append_assoc _ _ _)) rfl ?_ ?_ ?_ ?_ (fun x => ?_)⟩
  · rw [createdBy_append, createdBy_free, List.nil_append]
    exact created
  · rw [releasedBy_append, releasedBy_free]
    exact (congrArg _ released).trans (List.append_nil _)
  · exact List.nodup_singleton _
  · rw [List.forall_mem_singleton]
    omega
  · have owned : (blockAddr ((w.withApiKey a).emit e).handle.encodedApiKey).count x =
        [w.fresh].count x := rfl
    have requests : ((w.withApiKey a).emit e).handle.requests = w.handle.requests := rfl
    have pool : ((w.withApiKey a).emit e).handle.pool = w.handle.pool := rfl
    rw [owned_count, owned_count w, owned, requests, pool]
    omega

theorem moves_queue {k : ℕ} {request : SynapiRequest} (hk : w.handle.requests.lowestFree = some k)
    (hparts : request.parts = [w.fresh, w.fresh + 2, w.fresh + 1]) :
    ∃ events, Moves w (((w.built.setI k).setRequests
      (w.handle.requests.put k (some request))).emit (.queued request k)) events := by
  have put := SlotTable.occupants_put_perm (SlotTable.lowestFree_some hk).2.1 request
  refine ⟨_, .of_counts [w.fresh, w.fresh + 1, w.fresh + 2] [] 3
    (List.append_assoc _ _ _) rfl rfl rfl (by simp) (by simp) (fun x => ?_)⟩
  have requests := count_flatMap_perm put SynapiRequest.parts x
  rw [List.flatMap_cons, List.count_append, hparts] at requests
  have owned := owned_count (((w.built.setI k).setRequests
    (w.handle.requests.put k (some request))).emit (.queued request k)) x
  simp only [World.emit, World.setRequests, World.setI, World.built, requests] at owned
  simp only [World.emit, World.setRequests, World.setI, World.built]
  rw [owned, owned_count w]
  simp only [List.count_cons, List.count_nil]
  omega

section Send

variable (env : SendEnv) (w : World p) (request : SynapiRequest) (url : Bytes) (view : HandleView)

theorem createdBy_send : createdBy (sendEvents env w request url view) =
    w.fresh :: (newCurl env w request).handle.toList := by
  cases h : (newCurl env w request).handle <;> simp [sendEvents, createdBy, Event.created, h]

theorem releasedBy_send : releasedBy (sendEvents env w request url view) =
    [request.query.addr, request.addr] := rfl

theorem newCurl_parts : (newCurl env w request).parts =
    w.fresh :: ((newCurl env w request).handle.toList ++ blockAddr request.headers) := rfl

theorem newCurl_new : (w.fresh :: (newCurl env w request).handle.toList).Nodup ∧
    ∀ x ∈ w.fresh :: (newCurl env w request).handle.toList, w.fresh ≤ x ∧ x < w.fresh + 2 := by
  cases henv : env.easyInit <;> simp [newCurl, henv]

end Send

theorem moves_send (env : SendEnv) {request : SynapiRequest} (url : Bytes) {j k : ℕ} (hw : Inv w)
    (hj : w.handle.requests.lowestUsed = some j)
    (hr : w.handle.requests.slot j = some (some request))
    (hk : w.handle.pool.lowestFree = some k) :
    ∃ events, Moves w (w.sendWaiting env request url k) events := by
  obtain ⟨rest, hrest⟩ := SlotTable.occupants_of_lowestUsed hj hr
  have cleared := SlotTable.occupants_clear_one hw.waiting.nodup (isRequest_iff request) [] rest hrest
  have put := SlotTable.occupants_put_perm (SlotTable.lowestFree_some hk).2.1 (newCurl env w request)
  refine ⟨_, .of_counts _ _ 2 rfl rfl (createdBy_send env w request url w.view)
    (releasedBy_send env w request url w.view) (newCurl_new env w request).1
      (newCurl_new env w request).2 (fun x => ?_)⟩
  have pool := count_flatMap_perm put SynapiCurlHandle.parts x
  rw [List.flatMap_cons, List.count_append, newCurl_parts] at pool
  have owned := owned_count (w.sendWaiting env request url k) x
  simp only [World.sendWaiting, pool, cleared, List.nil_append] at owned
  have before := owned_count w x
  rw [hrest, List.flatMap_cons, List.count_append, SynapiRequest.parts] at before
  simp only [World.sendWaiting]
  rw [owned, before]
  simp only [List.count_cons, List.count_append, List.count_nil]
  omega

theorem registration_made (env : SendEnv) (w : World p) (request : SynapiRequest) :
    ([w.fresh, w.fresh + 1, w.fresh + 2] ++
      (w.fresh + 3) :: (newCurl env w.built request).handle.toList).Nodup ∧
    ∀ x ∈ [w.fresh, w.fresh + 1, w.fresh + 2] ++
      (w.fresh + 3) :: (newCurl env w.built request).handle.toList,
        w.fresh ≤ x ∧ x < w.fresh + 5 := by
  have built : w.built.fresh = w.fresh + 3 := rfl
  cases henv : env.easyInit with
  | false => simp [newCurl, henv]
  | true =>
    simp [newCurl, henv, built]
    omega

theorem moves_register (env : SendEnv) {request : SynapiRequest} (url : Bytes) {k : ℕ}
    (a : CharArray 256) (hparts : request.parts = [w.fresh, w.fresh + 2, w.fresh + 1])
    (hk : w.handle.pool.lowestFree = some k) :
    ∃ events, Moves w (w.built.sendNew env request url k a) events := by
  obtain ⟨haddr, hrest⟩ := List.cons.inj hparts
  obtain ⟨hquery, hheaders⟩ := List.cons.inj hrest
  have put := SlotTable.occupants_put_perm (SlotTable.lowestFree_some hk).2.1
    (newCurl env w.built request)
  obtain ⟨hnodup, hnew⟩ := registration_made env w request
  refine ⟨_, .of_counts ([w.fresh, w.fresh + 1, w.fresh + 2] ++
    (w.fresh + 3) :: (newCurl env w.built request).handle.toList) [w.fresh + 2, w.fresh] 5 (List.append_assoc _ _ _) rfl ?_ ?_ hnodup hnew (fun x => ?_)⟩
  · rw [createdBy_append, createdBy_send]
    rfl
  · rw [releasedBy_append, releasedBy_send, hquery, haddr]
    rfl
  · have pool := count_flatMap_perm put SynapiCurlHandle.parts x
    rw [List.flatMap_cons, List.count_append, newCurl_parts, hheaders,
      show w.built.fresh = w.fresh + 3 from rfl] at pool
    have owned : (w.built.sendNew env request url k a).owned.count x +
        (w.handle.pool.occupants.flatMap SynapiCurlHandle.parts).count x = w.owned.count x +
          ((w.handle.pool.put k (some (newCurl env w.built request))).occupants.flatMap
            SynapiCurlHandle.parts).count x :=
      owned_pool_count w (w.built.sendNew env request url k a) rfl rfl x
    rw [pool] at owned
    simp only [List.count_cons, List.count_append, List.count_nil] at owned ⊢
    omega

theorem moves_reap (hw : Inv w) (msg : CurlMsg) {curl : SynapiCurlHandle}
    (hc : curl ∈ w.handle.pool.occupants) : ∃ events, Moves w (w.reap msg curl) events := by
  obtain ⟨lower, upper, hs⟩ := List.append_of_mem hc
  have cleared := SlotTable.occupants_clear_one hw.flight.nodup (isCurlHandle_iff curl) lower upper hs
  refine ⟨_, .of_counts [] (curl.handle.toList ++ (blockAddr curl.headers ++ [curl.addr])) 0
    (List.append_assoc _ _ _ |>.trans (List.append_assoc _ _ _) |>.trans (List.append_assoc _ _ _)
      |>.trans (List.append_assoc _ _ _)) rfl ?_ ?_ List.nodup_nil (by rintro x ⟨⟩) (fun x => ?_)⟩
  · rw [createdBy_append, createdBy_append, createdBy_append, createdBy_append, createdBy_free]
    rfl
  · rw [releasedBy_append, releasedBy_append, releasedBy_append, releasedBy_append,
      releasedBy_free]
    have head : releasedBy [.multiInfoRead w.multi.messages.head?] = [] := rfl
    have removed : releasedBy [.multiRemoveHandle msg.easyHandle] = [] := rfl
    have cleanup : releasedBy [.easyCleanup curl.handle] = curl.handle.toList := by
      cases curl.handle <;> rfl
    have freed : releasedBy [.free curl.addr] = [curl.addr] := rfl
    rw [head, removed, cleanup, freed, List.nil_append, List.nil_append]
  · have owned : (w.reap msg curl).owned.count x +
        (w.handle.pool.occupants.flatMap SynapiCurlHandle.parts).count x = w.owned.count x +
          ((w.handle.pool.clear (isCurlHandle curl)).occupants.flatMap
            SynapiCurlHandle.parts).count x :=
      owned_pool_count w (w.reap msg curl) rfl rfl x
    rw [cleared, hs] at owned
    simp only [List.flatMap_append, List.flatMap_cons, SynapiCurlHandle.parts, List.count_append,
      List.count_cons, List.count_nil] at owned ⊢
    omega

theorem Effect.moves (h : Effect c w₀ w w') (hw : Inv w) (hn : ∀ r, .rejected r ∉ w'.trace) :
    ∃ events, Moves w w' events := by
  cases h with
  | counters => exact ⟨[], .idle (n := 0) (by simp) (List.append_nil _).symm rfl rfl⟩
  | silent _ events hs hi n =>
    refine ⟨events, .idle (n := n) (hi.resolve_right ?_) rfl rfl rfl⟩
    rintro ⟨r, hr⟩
    exact hn r (List.mem_append_right _ hr)
  | queue hc hq hk => exact moves_queue hk rfl
  | send hc hset hkey hj hr hk => exact moves_send _ _ hw hj hr hk
  | register hc hs hk => exact moves_register _ _ _ rfl hk
  | setKey => exact moves_withApiKey w₀ _ rfl rfl
  | setUrl =>
    exact ⟨_, .idle (n := 0) (List.forall_mem_singleton.mpr ⟨rfl, rfl⟩) rfl rfl rfl⟩
  | write => exact moves_withApiKey w _ rfl rfl
  | complete => exact ⟨[], .idle (n := 0) (by simp) (List.append_nil _).symm rfl rfl⟩
  | reap _ hc hm hk hh => exact moves_reap hw _ (SlotTable.mem_occupants.mpr ⟨_, hk⟩)

theorem blank_books (start : Start) (a : CharArray 256) (i : ℤ) :
    Books ((blank start a p).setI i) := by
  have mallocs (l : List ℕ) : createdBy (l.map .malloc) = l ∧ releasedBy (l.map .malloc) = [] := by
    induction l with
    | nil => exact ⟨rfl, rfl⟩
    | cons addr l ih => exact ⟨congrArg (addr :: ·) ih.1, ih.2⟩
  have created : createdBy ((blank start a p).setI i).trace = 0 :: tableAddrs p :=
    (mallocs (0 :: tableAddrs p)).1
  have released : releasedBy ((blank start a p).setI i).trace = [] :=
    (mallocs (0 :: tableAddrs p)).2
  have owned : ((blank start a p).setI i).owned = 0 :: tableAddrs p := by
    change ((0 :: tableAddrs p) ++ [] ++ (SlotTable.empty _ _).occupants.flatMap _) ++
      (SlotTable.empty _ _).occupants.flatMap _ = _
    rw [SlotTable.occupants_empty, SlotTable.occupants_empty]
    simp
  have tables : tableAddrs p = [] ∨ tableAddrs p = [1, 2] := by
    unfold tableAddrs
    split_ifs <;> simp
  refine ⟨⟨?_, ?_⟩, ?_⟩
  · rw [created, released, owned]
    exact .refl _
  · rw [created]
    rcases tables with h | h <;> simp [h]
  · rw [created]
    change ∀ x ∈ 0 :: tableAddrs p, x < 3
    rcases tables with h | h <;> simp [h]

theorem Extends.rejected (h : Extends w w') (hn : ∀ r, .rejected r ∉ w'.trace) :
    ∀ r, .rejected r ∉ w.trace := by
  obtain ⟨events, ht, -⟩ := h
  intro r hr
  apply hn r
  rw [ht]
  exact List.mem_append_left _ hr

theorem reachable_books (h : ReachableBy C w) (hn : ∀ r, .rejected r ∉ w.trace) : Books w := by
  refine reachable_induction (P := fun w => (∀ r, .rejected r ∉ w.trace) → Books w)
    (fun start a i _ _ => blank_books start a i) ?_ h hn
  intro c w₀ w w' hw hbooks he hn
  obtain ⟨events, hm⟩ := he.moves hw hn
  exact (hbooks ((he.extends hw).rejected hn)).step hm

/-! The transfers -/

/-- libcurl does not copy the header list it is given. -/
def Easy.refers (e : Easy) (curl : SynapiCurlHandle) : Prop :=
  curl.handle = some e.id ∧ ∀ headers, .httpHeader headers ∈ e.options → curl.headers = some headers

def Backed (w : World p) : Prop :=
  ∀ e ∈ w.multi.added, ∃ curl ∈ w.handle.pool.occupants, e.refers curl

theorem newEasy_refers (env : SendEnv) (w : World p) (request : SynapiRequest) (url : Bytes)
    {e : Easy} (he : newEasy env w request url = some e) : e.refers (newCurl env w request) := by
  obtain ⟨x, hx, rfl⟩ := Option.map_eq_some_iff.mp he
  refine ⟨hx, fun headers hheaders => ?_⟩
  change request.headers = some headers
  cases hr : request.headers with
  | none => cases hm : request.method <;> cases hk : request.apiKeyRequest <;>
      simp [sendOptions, hr, hm, hk] at hheaders
  | some b => cases hm : request.method <;> cases hk : request.apiKeyRequest <;>
      simp [sendOptions, hr, hm, hk] at hheaders <;> rw [hheaders]

theorem Backed.send (h : Backed w) {env : SendEnv} {u : World p} {request : SynapiRequest}
    {url : Bytes} {k : ℕ} (hk : w.handle.pool.slot k = some none)
    (hpool : w'.handle.pool = w.handle.pool.put k (some (newCurl env u request)))
    (hmulti : w'.multi = w.multi.add (newEasy env u request url) env.multiAdd) : Backed w' := by
  have perm := SlotTable.occupants_put_perm hk (newCurl env u request)
  have kept {e : Easy} (he : e ∈ w.multi.added) : ∃ curl ∈ w'.handle.pool.occupants, e.refers curl := by
    obtain ⟨curl, hcurl, hr⟩ := h e he
    refine ⟨curl, ?_, hr⟩
    rw [hpool]
    exact perm.mem_iff.mpr (List.mem_cons_of_mem _ hcurl)
  intro e he
  rw [hmulti, Multi.add] at he
  split_ifs at he
  · rcases List.mem_append.mp he with he | he
    · exact kept he
    · refine ⟨_, ?_, newEasy_refers env u request url (Option.mem_toList.mp he)⟩
      rw [hpool]
      exact perm.mem_iff.mpr List.mem_cons_self
  · exact kept he

theorem Backed.reap (h : Backed w) {msg : CurlMsg} {curl : SynapiCurlHandle} (hw : Inv w)
    (hc : curl ∈ w.handle.pool.occupants) (hh : curl.handle = some msg.easyHandle) :
    Backed (w.reap msg curl) := by
  intro e he
  obtain ⟨he, hne⟩ := List.mem_filter.mp he
  obtain ⟨other, hother, hr⟩ := h e he
  refine ⟨other, ?_, hr⟩
  change other ∈ (w.handle.pool.clear (isCurlHandle curl)).occupants
  rw [SlotTable.occupants_clear, List.mem_filter]
  refine ⟨hother, ?_⟩
  simp only [isCurlHandle, Bool.not_eq_true', decide_eq_false_iff_not]
  intro hsame
  have hid := hr.1
  rw [hw.flight.same hother hc hsame, hh] at hid
  simp only [ne_eq, decide_not, Bool.not_eq_true', decide_eq_false_iff_not] at hne
  exact hne (Option.some.inj hid).symm

theorem Effect.backed (h : Effect c w₀ w w') (hw : Inv w) (hl : Backed w) : Backed w' := by
  cases h with
  | send hc hset hkey hj hr hk => exact hl.send (SlotTable.lowestFree_some hk).2.1 rfl rfl
  | register hc hs hk => exact hl.send (SlotTable.lowestFree_some hk).2.1 rfl rfl
  | reap _ hc hm hk hh => exact hl.reap hw (SlotTable.mem_occupants.mpr ⟨_, hk⟩) hh
  | _ => exact hl

theorem reachable_backed (h : ReachableBy C w) : Backed w := by
  refine reachable_induction ?_ (fun c w₀ w w' hw hl he => he.backed hw hl) h
  rintro start a i - e ⟨⟩

/-! `synapi_free` -/

def SynapiCurlHandle.freeEvents (curl : SynapiCurlHandle) : List Event :=
  [.easyCleanup curl.handle, .free curl.addr]

def World.freedBelow (w : World p) (k : ℕ) : World p :=
  { w with
    i := k
    handle := { w.handle with pool := w.handle.pool.clearBelow (fun _ => true) k }
    multi := ⟨[], [], []⟩
    trace := w.trace ++ .multiCleanup ::
      (w.handle.pool.slots.take k).reduceOption.flatMap SynapiCurlHandle.freeEvents }

theorem freedBelow_none {k : ℕ} (hk : w.handle.pool.slot k = some none) :
    freeBody (w.freedBelow k) = .ok (.next (w.freedBelow k)) ∧
      (w.freedBelow k).setI (k + 1) = w.freedBelow (k + 1) := by
  have he : entry (w.freedBelow k).handle.pool (w.freedBelow k).i = .ok none := by
    apply entry_natCast
    exact (SlotTable.slot_clearBelow _ _ k k).trans ((if_neg (Nat.lt_irrefl k)).trans hk)
  have miss := SlotTable.clearBelow_miss (p := fun _ => true) hk (by rintro a ⟨⟩)
  have passed : (w.handle.pool.slots.take (k + 1)).reduceOption =
      (w.handle.pool.slots.take k).reduceOption := by
    rw [List.take_add_one, show w.handle.pool.slots[k]? = some none from hk, Option.toList_some,
      List.reduceOption_append, List.reduceOption_singleton, Option.toList_none, List.append_nil]
  constructor
  · rw [freeBody, he, ok_bind]
  · simp only [World.freedBelow, World.setI, miss, passed]
    rfl

theorem freedBelow_some {k : ℕ} {curl : SynapiCurlHandle}
    (hk : w.handle.pool.slot k = some (some curl)) :
    ∃ w', freeBody (w.freedBelow k) = .ok (.next w') ∧ w'.setI (w'.i + 1) = w.freedBelow (k + 1) := by
  have he : entry (w.freedBelow k).handle.pool (w.freedBelow k).i = .ok (some curl) := by
    apply entry_natCast
    exact (SlotTable.slot_clearBelow _ _ k k).trans ((if_neg (Nat.lt_irrefl k)).trans hk)
  have hit := SlotTable.clearBelow_hit (p := fun _ => true) hk rfl
  have passed : (w.handle.pool.slots.take (k + 1)).reduceOption =
      (w.handle.pool.slots.take k).reduceOption ++ [curl] := by
    rw [List.take_add_one, show w.handle.pool.slots[k]? = some (some curl) from hk,
      Option.toList_some, List.reduceOption_append, List.reduceOption_singleton, Option.toList_some]
  refine ⟨_, by rw [freeBody, he, ok_bind], ?_⟩
  simp only [World.freedBelow, World.setI, World.setPool, World.free, World.emit, Int.toNat_natCast,
    hit, passed, List.flatMap_append, List.flatMap_singleton,
    SynapiCurlHandle.freeEvents, List.append_assoc, List.cons_append, List.nil_append]
  rfl

theorem synapiFree_ok (w : World p) : ∃ w', synapiFree w = .ok w' ∧ w'.trace =
    w.trace ++ .multiCleanup ::
      (w.handle.pool.occupants.flatMap SynapiCurlHandle.freeEvents ++ [.free 0]) := by
  have all : poolLoop freeBody { w.emit .multiCleanup with multi := ⟨[], [], []⟩ } =
      .ok (.next (w.freedBelow p.toNat)) := by
    apply poolLoop_all w.freedBelow
    · simp only [World.freedBelow, SlotTable.clearBelow_zero]
      rfl
    · exact fun _ => rfl
    · intro k hk
      obtain ⟨v, hv⟩ := SlotTable.slot_of_lt w.handle.pool hk
      cases v with
      | none => exact ⟨_, freedBelow_none hv⟩
      | some curl => exact freedBelow_some hv
  refine ⟨(w.freedBelow p.toNat).free 0, ?_, ?_⟩
  · rw [synapiFree, all]
    rfl
  · have whole : w.handle.pool.slots.take p.toNat = w.handle.pool.slots :=
      List.take_of_length_le (Nat.le_of_eq w.handle.pool.size_eq)
    simp only [World.free, World.emit, World.freedBelow, whole, List.append_assoc, List.cons_append]
    rfl

/-- What `synapi_free` leaves: the tables, the key, the waiting requests and the
headers of the transfers. -/
def World.leaked (w : World p) : List ℕ :=
  tableAddrs p ++ blockAddr w.handle.encodedApiKey ++
    w.handle.requests.occupants.flatMap SynapiRequest.parts ++
      w.handle.pool.occupants.flatMap (fun curl => blockAddr curl.headers)

theorem freeEvents_released (l : List SynapiCurlHandle) :
    releasedBy (l.flatMap SynapiCurlHandle.freeEvents) =
      l.flatMap (fun curl => curl.handle.toList ++ [curl.addr]) := by
  rw [releasedBy, List.filterMap_flatMap]
  refine congrArg (List.flatMap · l) (funext fun ⟨addr, handle, headers⟩ => ?_)
  cases handle <;> rfl

theorem freeEvents_created (l : List SynapiCurlHandle) :
    createdBy (l.flatMap SynapiCurlHandle.freeEvents) = [] := by
  rw [createdBy, List.filterMap_flatMap]
  simp [SynapiCurlHandle.freeEvents, Event.created]

theorem parts_perm (l : List SynapiCurlHandle) :
    (l.flatMap (fun curl => curl.handle.toList ++ [curl.addr]) ++
      l.flatMap (fun curl => blockAddr curl.headers)).Perm (l.flatMap SynapiCurlHandle.parts) := by
  refine (List.flatMap_append_perm l _ _).trans (.flatMap_left l fun curl _ => ?_)
  rw [List.append_assoc]
  exact List.perm_middle

theorem synapiFree_ledger (hb : Books w) : ∃ w', synapiFree w = .ok w' ∧
    Ledger (createdBy w'.trace) (releasedBy w'.trace) w.leaked := by
  obtain ⟨w', hfree, ht⟩ := synapiFree_ok w
  refine ⟨w', hfree, ?_⟩
  have created : createdBy w'.trace = createdBy w.trace ++ [] := by
    rw [ht, createdBy_append]
    apply congrArg _
    change createdBy (_ ++ [.free 0]) = []
    rw [createdBy_append, freeEvents_created]
    rfl
  have released : releasedBy w'.trace = releasedBy w.trace ++
      (w.handle.pool.occupants.flatMap (fun curl => curl.handle.toList ++ [curl.addr]) ++ [0]) := by
    rw [ht, releasedBy_append]
    apply congrArg _
    change releasedBy (_ ++ [.free 0]) = _
    rw [releasedBy_append, freeEvents_released]
    rfl
  rw [created, released]
  refine hb.ledger.step List.nodup_nil (by rintro x ⟨⟩) (List.perm_iff_count.mpr fun x => ?_)
  have parts := (parts_perm w.handle.pool.occupants).count_eq x
  have owned := owned_count w x
  rw [List.count_append] at parts
  rw [List.append_nil, owned, ← parts]
  simp only [World.leaked, List.count_append, List.count_cons, List.count_nil]
  omega

theorem leaked_eq_nil : w.leaked = [] ↔ p < 0 ∧ w.handle.encodedApiKey = none := by
  constructor
  · intro h
    obtain ⟨h, -⟩ := List.append_eq_nil_iff.mp h
    obtain ⟨h, -⟩ := List.append_eq_nil_iff.mp h
    obtain ⟨htables, hkey⟩ := List.append_eq_nil_iff.mp h
    constructor
    · by_contra hp
      rw [tableAddrs, if_neg hp] at htables
      cases htables
    · exact Option.map_eq_none_iff.mp (Option.toList_eq_nil_iff.mp hkey)
  · rintro ⟨hp, hkey⟩
    have hn : p.toNat = 0 := by omega
    have empty {α : Type} (t : SlotTable α p.toNat) : t.occupants = [] := by
      have := t.occupants_length_le
      exact List.length_eq_zero_iff.mp (by omega)
    rw [World.leaked, empty, empty, hkey, tableAddrs, if_pos hp]
    rfl

/-! The whole run -/

def EasyOption.headersAddr : EasyOption → Option ℕ
  | .httpHeader headers => some headers.addr
  | _ => none

-- libcurl keeps the header list it is given, and a copy of the other strings.
def Easy.parts (e : Easy) : List ℕ := e.id :: e.options.filterMap EasyOption.headersAddr

/-- What the two tables hold, and what the transfers of libcurl refer to. -/
def World.referred (w : World p) : List ℕ :=
  w.handle.requests.occupants.flatMap SynapiRequest.parts ++
    w.handle.pool.occupants.flatMap SynapiCurlHandle.parts ++ w.multi.added.flatMap Easy.parts

theorem referred_owned (hl : Backed w) {x : ℕ} (hx : x ∈ w.referred) : x ∈ w.owned := by
  rcases List.mem_append.mp hx with hx | hx
  · rcases List.mem_append.mp hx with hx | hx
    · exact List.mem_append_left _ (List.mem_append_right _ hx)
    · exact List.mem_append_right _ hx
  · obtain ⟨e, he, hx⟩ := List.mem_flatMap.mp hx
    obtain ⟨curl, hcurl, hid, hheaders⟩ := hl e he
    refine List.mem_append_right _ (List.mem_flatMap.mpr ⟨curl, hcurl, ?_⟩)
    apply List.mem_cons_of_mem _
    rcases List.mem_cons.mp hx with rfl | hx
    · rw [hid]
      exact List.mem_cons_self
    · obtain ⟨option, hoption, hx⟩ := List.mem_filterMap.mp hx
      cases option with
      | httpHeader headers =>
        rw [hheaders headers hoption, ← Option.some.inj hx]
        exact List.mem_append_right _ List.mem_cons_self
      | _ => cases hx

def Event.accepts : Event → Bool
  | .rejected _ => false
  | _ => true

theorem rejects_none {trace : List Event} (h : trace.all Event.accepts = true) (r : SynapiRequest) :
    .rejected r ∉ trace := fun hr => Bool.false_ne_true (List.all_eq_true.mp h _ hr)

/-- `w` is the handle when `synapi_free` is called and `w'` what is left of it. -/
structure Balanced (w w' : World p) : Prop where
  once : (releasedBy w'.trace).Nodup
  live : ∀ x ∈ w.referred, x ∉ releasedBy w.trace
  all : ∀ x ∈ createdBy w'.trace, x ∈ releasedBy w'.trace

/-- Nothing is released twice or too early, but `synapi_free` leaves the tables, the
key, the waiting requests and the headers of the transfers. -/
theorem balanced_iff (h : Reachable w) (hn : ∀ r, .rejected r ∉ w.trace) :
    ∃ w', synapiFree w = .ok w' ∧ (releasedBy w'.trace).Nodup ∧
      (∀ x ∈ w.referred, x ∉ releasedBy w.trace) ∧
        (createdBy w'.trace).Perm (releasedBy w'.trace ++ w.leaked) ∧
          (Balanced w w' ↔ p < 0 ∧ w.handle.encodedApiKey = none) := by
  have books := reachable_books h hn
  obtain ⟨w', hfree, ledger⟩ := synapiFree_ledger books
  have live : ∀ x ∈ w.referred, x ∉ releasedBy w.trace :=
    fun x hx => books.ledger.held_apart (referred_owned (reachable_backed h) hx)
  refine ⟨w', hfree, ledger.released_once, live, ledger.balance, ?_⟩
  rw [← leaked_eq_nil, ← ledger.released_all_iff]
  exact ⟨Balanced.all, fun all => ⟨ledger.released_once, live, all⟩⟩

theorem balanced_heartbeat : ∃ w w' : World 1, synapiFree w = .ok w' ∧
    (Balanced w w' ↔ (1 : ℤ) < 0 ∧ w.handle.encodedApiKey = none) := by
  have run : ∃ w ∈ trial (p := 1) (fun _ _ => True) (some (literal "SYN:S:1:ab")) [.heartbeat],
      w.trace.all Event.accepts = true := by
    decide +kernel
  obtain ⟨w, hw, hn⟩ := trial_exists run
  obtain ⟨w', hfree, -, -, -, h⟩ := balanced_iff hw (rejects_none hn)
  exact ⟨w, w', hfree, h⟩

theorem tables_kept : ∃ w w' : World 1, Reachable w ∧ (∀ r, .rejected r ∉ w.trace) ∧
    synapiFree w = .ok w' ∧ ¬ Balanced w w' := by
  have run : ∃ w ∈ trial (p := 1) (fun _ _ => True) none [], w.trace.all Event.accepts = true ∧
      ∃ w' ∈ (synapiFree w).toOption, ∃ x ∈ createdBy w'.trace, x ∉ releasedBy w'.trace := by
    decide +kernel
  obtain ⟨w, hw, hn, w', hfree, x, hc, hr⟩ := trial_exists run
  exact ⟨w, w', hw, rejects_none hn, eq_ok_of_toOption hfree, fun hb => hr (hb.all x hc)⟩

end Synapi

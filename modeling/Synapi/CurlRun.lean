import Synapi.CurlMultiSpec
import Synapi.Outbox

/-!
The runs of the library in the memory of libcurl: each call of the trace that
libcurl's multi handle takes part in is made there.
-/

namespace Synapi

open Runs Ring

variable {p : ℤ} {w w' : World p} {network : ℕ → ℕ → Transfer}

/-- A call goes wrong in the memory of libcurl, or gives something else there
than the trace says. -/
inductive CurlFault where
  | memory (fault : MemoryFault)
  | otherResult
  deriving DecidableEq

def CurlFault.ofMemory {α : Type} : Except MemoryFault α → Except CurlFault α :=
  Except.mapError .memory

structure CurlSide where
  multi : CurlMulti
  walks : ℕ

def Transfer.progress (t : Transfer) (x : ℕ) : List Progress :=
  t.chunks.map (.chunk x) ++ if t.state = .completed then [.done x t.result] else []

/-- What the library sees of one walk along the ring. -/
def delivered (transfers : ℕ → Transfer) (handles : List ℕ) : List Progress :=
  handles.flatMap (fun x => (transfers x).progress x)

namespace CurlSide

def start : CurlSide := ⟨.curlMultiInit, 0⟩

/-- `network d x` is what the network does for the transfer `x` in the walk `d`. -/
def follow (network : ℕ → ℕ → Transfer) (s : CurlSide) : Event → Except CurlFault CurlSide
  | .easyInit (some x) => .ok { s with multi := s.multi.curlEasyInit x }
  | .multiAddHandle sent => do
    let (code, multi) ← CurlFault.ofMemory
      (s.multi.curlMultiAddHandle (sent.easy.map Easy.id) sent.accepted)
    if code = .ok ↔ sent.accepted then .ok { s with multi } else .error .otherResult
  | .multiRemoveHandle x => do
    let (code, multi) ← CurlFault.ofMemory (s.multi.curlMultiRemoveHandle x)
    if code = .ok then .ok { s with multi } else .error .otherResult
  | .multiPerform => do
    let (_, multi) ← CurlFault.ofMemory (s.multi.curlMultiPerform (network s.walks))
    .ok ⟨multi, s.walks + 1⟩
  | .multiInfoRead msg => do
    let (ptr, _, multi) ← CurlFault.ofMemory s.multi.curlMultiInfoRead
    let read ← match ptr with
      | some ptr => CurlFault.ofMemory (multi.extmsg ptr)
      | none => .ok none
    if read = msg then .ok { s with multi } else .error .otherResult
  | .multiCleanup => do
    let multi ← CurlFault.ofMemory s.multi.curlMultiCleanup
    .ok { s with multi }
  | .easyCleanup x => do
    let multi ← CurlFault.ofMemory (s.multi.curlEasyCleanup x)
    .ok { s with multi }
  | _ => .ok s

structure Mirrors (s : CurlSide) (w : World p) : Prop where
  multi : ∃ ring queue, s.multi.Shows ring queue w.multi
  owns : s.multi.Owns (transfers w.handle.pool) (w.multi.added.map Easy.id)
  walks : s.walks = drives w.trace

end CurlSide

/-- The events that change nothing in the memory of libcurl's multi handle. -/
def Event.quiet : Event → Bool
  | .easyInit (some _) | .easyCleanup _ | .multiAddHandle _ | .multiRemoveHandle _ | .multiPerform
  | .multiInfoRead _ | .multiCleanup => false
  | _ => true

/-- libcurl can make all the calls of the trace. -/
def Followed (network : ℕ → ℕ → Transfer) (w : World p) : Prop :=
  ∃ s, run (CurlSide.follow network) .start w.trace = .ok s ∧ s.Mirrors w

theorem follow_quiet {e : Event} (he : e.quiet = true) (s : CurlSide) :
    s.follow network e = .ok s := by
  cases e with
  | easyInit handle =>
    cases handle with
    | none => rfl
    | some x => cases he
  | _ => first | rfl | cases he

theorem run_quiet {events : List Event} (h : ∀ e ∈ events, e.quiet = true) (s : CurlSide) :
    run (CurlSide.follow network) s events = .ok s := by
  induction events with
  | nil => rfl
  | cons e events ih =>
    rw [run, follow_quiet (h e List.mem_cons_self)]
    exact ih (fun e he => h e (List.mem_cons_of_mem _ he))

theorem drives_quiet {events : List Event} (h : ∀ e ∈ events, e.quiet = true) :
    drives events = 0 := by
  refine List.countP_eq_zero.mpr (fun e he hd => ?_)
  have quiet := h e he
  cases e <;> cases hd
  cases quiet

theorem Followed.after {events : List Event} (h : Followed network w)
    (ht : w'.trace = w.trace ++ events) (hevents : ∀ s : CurlSide, s.Mirrors w →
      ∃ s', run (CurlSide.follow network) s events = .ok s' ∧ s'.Mirrors w') :
    Followed network w' := by
  obtain ⟨s, hrun, hs⟩ := h
  obtain ⟨s', hrun', hs'⟩ := hevents s hs
  refine ⟨s', ?_, hs'⟩
  rw [ht, run_append, hrun]
  exact hrun'

theorem Followed.quiet {events : List Event} (h : Followed network w)
    (ht : w'.trace = w.trace ++ events) (hq : ∀ e ∈ events, e.quiet = true)
    (hm : w'.multi = w.multi) (hp : w'.handle.pool = w.handle.pool) : Followed network w' := by
  refine h.after ht (fun s hs => ⟨s, run_quiet hq s, ?_, ?_, ?_⟩)
  · rw [hm]
    exact hs.multi
  · rw [hm, hp]
    exact hs.owns
  · rw [ht, drives_append, drives_quiet hq]
    exact hs.walks

theorem Followed.idle (h : Followed network w) (ht : w'.trace = w.trace)
    (hm : w'.multi = w.multi) (hp : w'.handle.pool = w.handle.pool) : Followed network w' :=
  h.quiet (ht.trans (List.append_nil _).symm) (List.forall_mem_nil _) hm hp

/-! Setters and queueing -/

theorem Followed.withApiKey {e : Event} (h : Followed network w) (a : CharArray 256)
    (he : e.quiet = true) : Followed network ((w.withApiKey a).emit e) := by
  refine h.quiet ((List.append_assoc _ _ _).trans (List.append_assoc _ _ _)) ?_ rfl rfl
  cases w.handle.encodedApiKey with
  | none => exact List.forall_mem_cons.mpr ⟨rfl, List.forall_mem_singleton.mpr he⟩
  | some block =>
    exact List.forall_mem_cons.mpr ⟨rfl, List.forall_mem_cons.mpr ⟨rfl, List.forall_mem_singleton.mpr he⟩⟩

theorem setApiKey_followed {newApiKey : Bytes} {size : ℤ} (h : Followed network w)
    (hr : setApiKey w newApiKey size = .ok w') : Followed network w' := by
  obtain ⟨u, hu, hr⟩ := bind_eq_ok.mp hr
  obtain ⟨-, a, rfl, -, -⟩ := synapiApiKey_ok hu
  rw [← Except.ok.inj hr]
  exact h.withApiKey a rfl

theorem synapiUrl_followed {url hostHeader : CString} (h : Followed network w)
    (hr : synapiUrl w url hostHeader = .ok w') : Followed network w' := by
  obtain ⟨base, host, -, -, -, -, hurl⟩ := synapiUrl_ok w url hostHeader
  rw [hurl] at hr
  rw [← Except.ok.inj hr]
  exact h.quiet rfl (List.forall_mem_singleton.mpr rfl) rfl rfl

theorem keyed_followed {c : Call} (ha : Addressed w) (hc : c.keyed.isSome = true)
    (h : Followed network w) (hr : step w c = .ok w') : Followed network w' := by
  obtain ⟨⟨action, method, userData, options⟩, hkeyed⟩ := Option.isSome_iff_exists.mp hc
  obtain ⟨query, -, reject, accept⟩ := keyed_steps ha hkeyed hr
  cases hk : w.handle.requests.lowestFree with
  | none =>
    rw [reject hk]
    exact h.quiet (List.append_assoc _ _ _) (by simp [Event.quiet]) rfl rfl
  | some k =>
    rw [accept k hk]
    exact h.quiet (List.append_assoc _ _ _) (by simp [Event.quiet]) rfl rfl

/-! Sending -/

theorem Multi.add_none (m : Multi) (succeeds : Bool) : m.add none succeeds = m := by
  cases succeeds with
  | false => rfl
  | true => exact congrArg (fun added => Multi.mk added m.completed m.messages) (List.append_nil _)

theorem FlightOk.unused (hw : FlightOk w.handle.pool w.multi w.fresh) :
    w.fresh + 1 ∉ w.multi.added.map Easy.id := by
  intro hx
  obtain ⟨e, he, hid⟩ := List.mem_map.mp hx
  have below := hw.transfer_lt _ (hw.added e he)
  omega

section Send

variable {request : SynapiRequest} {url : Bytes} {view : HandleView} (s : CurlSide)

theorem follow_unmade (multiAdd : Bool) : run (CurlSide.follow network) s
    (sendEvents ⟨false, multiAdd⟩ w request url view) = .ok s := by
  simp only [sendEvents, newSent, newEasy, newCurl, Bool.false_eq_true, if_false,
    Option.map_none, Option.isSome_none, Bool.and_false]
  rfl

theorem follow_refused : run (CurlSide.follow network) s
    (sendEvents ⟨true, false⟩ w request url view) =
      .ok { s with multi := s.multi.curlEasyInit (w.fresh + 1) } := by
  have session : (s.multi.curlEasyInit (w.fresh + 1)).sessions (w.fresh + 1) =
      some ⟨false, none⟩ := Function.update_self ..
  simp only [sendEvents, newSent, newEasy, newCurl, if_true, Option.map_some, Option.isSome_some,
    Bool.false_and, run, CurlSide.follow, CurlMulti.curlMultiAddHandle, session]
  rfl

theorem follow_added {m : CurlMulti} (h : (s.multi.curlEasyInit (w.fresh + 1)).curlMultiAddHandle
    (some (w.fresh + 1)) true = .ok (.ok, m)) : run (CurlSide.follow network) s
    (sendEvents ⟨true, true⟩ w request url view) = .ok { s with multi := m } := by
  simp only [sendEvents, newSent, newEasy, newCurl, if_true, Option.map_some, Option.isSome_some,
    Bool.true_and, run, CurlSide.follow, h]
  rfl

end Send

theorem Followed.send {env : SendEnv} {request : SynapiRequest} {url : Bytes} {view : HandleView}
    (h : Followed network w) (hw : FlightOk w.handle.pool w.multi w.fresh)
    (ht : w'.trace = w.trace ++ sendEvents env w request url view)
    (hm : w'.multi = w.multi.add (newEasy env w request url) env.multiAdd)
    (hp : ∀ x, x ∈ transfers w'.handle.pool ↔
      (newCurl env w request).handle = some x ∨ x ∈ transfers w.handle.pool) :
    Followed network w' := by
  refine h.after ht (fun s hs => ?_)
  obtain ⟨ring, queue, shows⟩ := hs.multi
  have walks : s.walks = drives w'.trace := by
    rw [ht, drives_append]
    exact hs.walks
  have fresh := hw.unused
  have known := shows.unused fresh (some ⟨false, none⟩)
  have put (x : ℕ) : some (w.fresh + 1) = some x ∨ x ∈ transfers w.handle.pool ↔
      x = w.fresh + 1 ∨ x ∈ transfers w.handle.pool := by
    rw [Option.some.injEq, eq_comm]
  obtain ⟨easyInit, multiAdd⟩ := env
  cases easyInit with
  | false =>
    have multi : w'.multi = w.multi := hm.trans (Multi.add_none w.multi multiAdd)
    refine ⟨s, follow_unmade s multiAdd, ?_, ⟨fun x => ?_, ?_⟩, walks⟩
    · rw [multi]
      exact ⟨ring, queue, shows⟩
    · rw [hp, hs.owns.handles]
      exact (or_iff_right (Option.some_ne_none x).symm).symm
    · rw [multi]
      exact hs.owns.added
  | true =>
    cases multiAdd with
    | false =>
      refine ⟨_, follow_refused s, ?_, ?_, walks⟩
      · rw [hm]
        exact ⟨ring, queue, known⟩
      · rw [hm]
        exact hs.owns.set rfl (fun x => (hp x).trans (put x)) (List.Subset.refl _)
          (fun hmulti => absurd hmulti Bool.false_ne_true)
    | true =>
      let easy : Easy := ⟨w.fresh + 1, sendOptions request url⟩
      have idle : easy.id ∉ w.multi.completed := fun hx => fresh (hw.completed _ hx)
      have session : (s.multi.curlEasyInit easy.id).sessions easy.id = some ⟨false, none⟩ :=
        Function.update_self ..
      obtain ⟨m', hadd, hsessions, shows'⟩ := CurlMulti.addHandle_shows known session idle
      refine ⟨{ s with multi := m' }, follow_added s hadd, ?_, ?_, walks⟩
      · rw [hm]
        exact ⟨_, queue, shows'⟩
      · have added : w'.multi.added.map Easy.id = w.multi.added.map Easy.id ++ [w.fresh + 1] := by
          rw [hm]
          exact List.map_append
        have sessions : m'.sessions =
            Function.update s.multi.sessions (w.fresh + 1) (some ⟨true, some s.multi.fresh⟩) :=
          hsessions.trans (Function.update_idem ..)
        rw [added]
        exact hs.owns.set sessions (fun x => (hp x).trans (put x)) (List.subset_append_left _ _)
          (fun _ => List.mem_append_right _ List.mem_cons_self)

/-! Driving -/

/-- What one notice of libcurl comes to. -/
def Multi.progress (m : Multi) : Progress → Multi
  | .chunk _ _ => m
  | .done x result => if m.Running x then m.complete x result else m

theorem foldl_chunks (m : Multi) (x : ℕ) (chunks : List Bytes) :
    (chunks.map (Progress.chunk x)).foldl Multi.progress m = m := by
  induction chunks with
  | nil => rfl
  | cons _ _ ih => exact ih

theorem foldl_transfer {m : Multi} {x : ℕ} (hx : x ∈ m.added.map Easy.id) (t : Transfer) :
    (t.progress x).foldl Multi.progress m = m.turn x t := by
  rw [Transfer.progress, List.foldl_append, foldl_chunks, Multi.turn]
  by_cases ht : t.state = .completed
  · rw [if_pos ht, List.foldl_cons, List.foldl_nil, Multi.progress]
    by_cases hc : x ∈ m.completed
    · rw [if_neg (fun hr => hr.2 hc), if_neg (fun hr => hr.2 hc)]
    · rw [if_pos ⟨hx, hc⟩, if_pos ⟨ht, hc⟩]
  · rw [if_neg ht, if_neg (fun hr => ht hr.1)]
    rfl

theorem foldl_delivered {transfers : ℕ → Transfer} {m : Multi} {handles : List ℕ}
    (h : ∀ x ∈ handles, x ∈ m.added.map Easy.id) :
    (delivered transfers handles).foldl Multi.progress m = m.turns transfers handles := by
  induction handles generalizing m with
  | nil => rfl
  | cons x handles ih =>
    obtain ⟨hx, hrest⟩ := List.forall_mem_cons.mp h
    rw [← m.turn_added x (transfers x)] at hrest
    rw [delivered, List.flatMap_cons, List.foldl_append, foldl_transfer hx]
    exact ih hrest

theorem progressStep_quiet {x : Progress} (h : progressStep w x = .ok w') :
    w'.multi = w.multi.progress x ∧ w'.handle.pool = w.handle.pool ∧
      ∃ events, w'.trace = w.trace ++ events ∧ ∀ e ∈ events, e.quiet = true := by
  cases x with
  | chunk handle data =>
    rw [progressStep] at h
    split_ifs at h
    · obtain ⟨u, hu, h⟩ := bind_eq_ok.mp h
      obtain ⟨-, a, rfl, -, -⟩ := synapiApiKey_ok hu
      rw [← Except.ok.inj h]
      refine ⟨rfl, rfl, _, (List.append_assoc _ _ _).trans (List.append_assoc _ _ _), ?_⟩
      cases w.handle.encodedApiKey <;> simp [Event.quiet]
    · rw [← Except.ok.inj h]
      exact ⟨rfl, rfl, [], (List.append_nil _).symm, List.forall_mem_nil _⟩
  | done handle result =>
    rw [progressStep] at h
    rw [Multi.progress]
    split_ifs at h ⊢ <;> rw [← Except.ok.inj h] <;>
      exact ⟨rfl, rfl, [], (List.append_nil _).symm, List.forall_mem_nil _⟩

theorem progressRun_quiet {progress : List Progress} (h : run progressStep w progress = .ok w') :
    w'.multi = progress.foldl Multi.progress w.multi ∧ w'.handle.pool = w.handle.pool ∧
      ∃ events, w'.trace = w.trace ++ events ∧ ∀ e ∈ events, e.quiet = true := by
  induction progress generalizing w with
  | nil =>
    rw [← Except.ok.inj h]
    exact ⟨rfl, rfl, [], (List.append_nil _).symm, List.forall_mem_nil _⟩
  | cons x progress ih =>
    obtain ⟨u, hu, h⟩ := run_cons_ok.mp h
    obtain ⟨hm, hp, first, ht, hq⟩ := progressStep_quiet hu
    obtain ⟨hm', hp', rest, ht', hq'⟩ := ih h
    refine ⟨?_, hp'.trans hp, first ++ rest, ?_, ?_⟩
    · rw [hm', hm]
      rfl
    · rw [ht', ht, List.append_assoc]
    · exact List.forall_mem_append.mpr ⟨hq, hq'⟩

theorem Followed.drive {progress : List Progress} (hmemory : ∀ d x, (network d x).memory = true)
    (h : Followed network w) (hnet : w.multiPerformCounter = 5 → progress =
      delivered (network (drives w.trace)) (w.multi.added.map Easy.id))
    (hr : drive progress w = .ok w') : Followed network w' := by
  unfold Synapi.drive at hr
  split_ifs at hr with hcounter
  · obtain ⟨u, hu, hr⟩ := bind_eq_ok.mp hr
    obtain ⟨hm, hp, events, ht, hq⟩ := progressRun_quiet hu
    have hm : u.multi = w.multi.turns (network (drives w.trace)) (w.multi.added.map Easy.id) := by
      rw [hm, hnet hcounter]
      exact foldl_delivered (fun x hx => hx)
    rw [← Except.ok.inj hr]
    refine h.after (ht.trans (List.append_assoc _ _ _)) (fun s hs => ?_)
    obtain ⟨ring, queue, shows⟩ := hs.multi
    obtain ⟨m', ring', later, hperform, hsessions, shows'⟩ :=
      CurlMulti.perform_shows (hmemory s.walks) shows
    refine ⟨⟨m', s.walks + 1⟩, ?_, ⟨ring', later, ?_⟩, ?_, ?_⟩
    · rw [List.singleton_append, run, CurlSide.follow, hperform]
      exact run_quiet hq _
    · rw [← hs.walks] at hm
      change m'.Shows ring' later u.multi
      rw [hm]
      exact shows'
    · change m'.Owns (transfers u.handle.pool) (u.multi.added.map Easy.id)
      rw [hp, hm, CurlMulti.turns_added]
      exact hs.owns.same hsessions
    · change s.walks + 1 = drives u.trace
      have walk : drives (w.emit .multiPerform).trace = drives w.trace + 1 :=
        drives_append w.trace [.multiPerform]
      rw [ht, drives_append, drives_quiet hq, walk, hs.walks]
  · rw [← Except.ok.inj hr]
    exact h

/-! Reading and removing -/

section Calls

variable {m m' : CurlMulti} {msg : CurlMsg} {x ptr : ℕ} {left : ℤ}

theorem follow_read (h : m.curlMultiInfoRead = .ok (some ptr, left, m'))
    (hmsg : m'.extmsg ptr = .ok (some msg)) (walks : ℕ) :
    CurlSide.follow network ⟨m, walks⟩ (.multiInfoRead (some msg)) = .ok ⟨m', walks⟩ := by
  rw [CurlSide.follow, h]
  change (CurlFault.ofMemory (m'.extmsg ptr) >>= _) = _
  rw [hmsg]
  exact if_pos rfl

theorem follow_remove (h : m.curlMultiRemoveHandle x = .ok (.ok, m')) (walks : ℕ) :
    CurlSide.follow network ⟨m, walks⟩ (.multiRemoveHandle x) = .ok ⟨m', walks⟩ := by
  rw [CurlSide.follow, h]
  rfl

theorem follow_cleanup {data : SessionHandle} (h : m.sessions x = some data)
    (hdata : data.multi = false) (walks : ℕ) :
    CurlSide.follow network ⟨m, walks⟩ (.easyCleanup (some x)) =
      .ok ⟨m.setSession x none, walks⟩ := by
  simp only [CurlSide.follow, CurlMulti.curlEasyCleanup, h, deref, ok_bind, hdata]
  rfl

end Calls

theorem Followed.reap {msg : CurlMsg} {rest : List CurlMsg} {curl : SynapiCurlHandle} {k : ℕ}
    (h : Followed network w) (hw : FlightOk w.handle.pool w.multi w.fresh)
    (hm : w.multi.messages = msg :: rest) (hk : w.handle.pool.slot k = some (some curl))
    (hc : curl.handle = some msg.easyHandle) :
    Followed network (w.reap msg curl) := by
  have trace : (w.reap msg curl).trace = w.trace ++ ([.multiInfoRead (some msg),
      .multiRemoveHandle msg.easyHandle, .easyCleanup curl.handle] ++
      ((curl.headers.map (fun b => Event.free b.addr)).toList ++ [.free curl.addr])) := by
    simp only [World.reap, World.freeCurlHandle, World.free, World.freeAll, World.emit,
      World.setPool, World.curlMultiRemoveHandle, World.curlMultiInfoRead, hm, List.head?_cons,
      List.append_assoc, List.cons_append, List.nil_append]
  have quiet : ∀ e ∈ (curl.headers.map (fun b => Event.free b.addr)).toList ++
      [.free curl.addr], e.quiet = true := by
    cases curl.headers <;> simp [Event.quiet]
  refine h.after trace (fun s hs => ?_)
  obtain ⟨ring, queue, shows⟩ := hs.multi
  have added := hw.completed _ (hw.messages msg (hm ▸ List.mem_cons_self))
  obtain ⟨ptr, left, m₁, m₂, ring', later, hread, hmsg, hremove, hsessions, shows'⟩ :=
    CurlMulti.reap_shows shows hm added
  have session : m₂.sessions msg.easyHandle = some ⟨false, none⟩ := by
    rw [hsessions, Function.update_self]
  have multi : (w.reap msg curl).multi =
      ({ w.multi with messages := rest } : Multi).remove msg.easyHandle := by
    change ({ w.multi with messages := w.multi.messages.tail } : Multi).remove _ = _
    rw [hm]
    rfl
  refine ⟨{ s with multi := m₂.setSession msg.easyHandle none }, ?_, ⟨ring', later, ?_⟩, ?_, ?_⟩
  · rw [run_append, hc]
    simp only [run, follow_read hread hmsg s.walks, follow_remove hremove s.walks,
      follow_cleanup session rfl s.walks]
    exact run_quiet quiet _
  · rw [multi]
    exact shows'
  · rw [multi]
    refine hs.owns.close ?_ (hw.transfers_clear hk hc) (fun y hy hne => ?_)
    · change Function.update m₂.sessions _ none = _
      rw [hsessions, Function.update_idem]
    · obtain ⟨e, he, hid⟩ := List.mem_map.mp hy
      exact List.mem_map.mpr ⟨e, List.mem_filter.mpr ⟨he, decide_eq_true (hid ▸ hne)⟩, hid⟩
  · rw [trace, drives_append, drives_append, drives_quiet quiet]
    exact hs.walks

theorem infoRead_multi (hm : w.multi.messages = []) : w.curlMultiInfoRead.multi = w.multi := by
  have tail : w.multi.messages.tail = w.multi.messages := by
    rw [hm]
    rfl
  exact congrArg (Multi.mk w.multi.added w.multi.completed) tail

theorem Followed.reapOne (h : Followed network w) (hw : Inv w) (hr : reapOne w = .ok w') :
    Followed network w' := by
  rcases reapOne_cases hw with ⟨hm, hread⟩ | ⟨msg, rest, curl, k, i, hm, hk, hc, hread⟩
  · rw [hread] at hr
    rw [← Except.ok.inj hr]
    refine h.after rfl (fun s hs => ?_)
    obtain ⟨ring, queue, shows⟩ := hs.multi
    refine ⟨s, ?_, ⟨ring, queue, ?_⟩, ?_, ?_⟩
    · rw [hm]
      simp only [run, CurlSide.follow, CurlMulti.infoRead_empty shows hm]
      rfl
    · rw [infoRead_multi hm]
      exact shows
    · rw [infoRead_multi hm]
      exact hs.owns
    · exact hs.walks.trans (drives_append w.trace [.multiInfoRead _]).symm
  · rw [hread] at hr
    rw [← Except.ok.inj hr]
    exact (h.reap hw.flight hm hk hc).idle rfl rfl rfl

/-! Runs -/

def walked (network : ℕ → ℕ → Transfer) (w : World p) (env : PerformEnv) : List Progress :=
  match sendOne env.send w with
  | .ok w' => delivered (network (drives w.trace)) (w'.multi.added.map Easy.id)
  | .error _ => []

/-- When the call drives the transfers, they do what `network` says. -/
def Networked (network : ℕ → ℕ → Transfer) (w : World p) : Call → Prop
  | .perform env =>
    counted env.select w.multiPerformCounter = 5 → env.progress = walked network w env
  | _ => True

instance (w : World p) (c : Call) : Decidable (Networked network w c) :=
  match c with
  | .perform env => decidable_of_iff
      (¬ counted env.select w.multiPerformCounter = 5 ∨ env.progress = walked network w env)
      Decidable.imp_iff_not_or.symm
  | .newServer _ | .updateServer _ | .newPlayer _ | .updatePlayer _ _ | .deletePlayer _
  | .heartbeat | .apiKey _ _ | .url _ _ | .queued => isTrue trivial

theorem Followed.sendOne {env : SendEnv} (h : Followed network w) (hw : Inv w) (ha : Addressed w)
    (hr : sendOne env w = .ok w') : Followed network w' := by
  have cases := sendOne_cases env hw ha
  rw [hr] at cases
  cases cases with
  | closed => exact h
  | empty => exact h.idle rfl rfl rfl
  | sent _ _ _ _ hk =>
    exact h.send hw.flight rfl rfl (mem_transfers_put (SlotTable.lowestFree_some hk).2.1 _)

theorem Followed.wait (h : Followed network w) (timeo select : ℤ) :
    Followed network (wait timeo select w) := by
  refine h.quiet ((List.append_assoc _ _ _).trans (List.append_assoc _ _ _)) ?_ rfl rfl
  simp [Event.quiet]

theorem Followed.driven {env : PerformEnv} {w₁ w₃ : World p}
    (hmemory : ∀ d x, (network d x).memory = true) (h : Followed network w) (hw : Inv w)
    (ha : Addressed w) (hnet : Networked network w (.perform env))
    (h₁ : Synapi.sendOne env.send w = .ok w₁)
    (h₃ : Synapi.drive env.progress (Synapi.wait env.timeo env.select w₁) = .ok w₃) :
    Followed network w₃ := by
  have first := sendOne_spec hw ha h₁
  have waited := wait_keeps env.timeo env.select w₁
  refine ((h.sendOne hw ha h₁).wait env.timeo env.select).drive hmemory ?_ h₃
  intro hcounter
  rw [wait_counter, first.counter] at hcounter
  rw [hnet hcounter, walked, h₁, waited.drives, first.drives]
  rfl

theorem Followed.perform {env : PerformEnv} (hmemory : ∀ d x, (network d x).memory = true)
    (h : Followed network w) (hw : Inv w) (ha : Addressed w)
    (hnet : Networked network w (.perform env)) (hr : synapiPerform env w = .ok w') :
    Followed network w' := by
  obtain ⟨w₁, h₁, hr⟩ := bind_eq_ok.mp hr
  obtain ⟨w₃, h₃, h₄⟩ := bind_eq_ok.mp hr
  exact (h.driven hmemory hw ha hnet h₁ h₃).reapOne (driven_inv hw ha h₁ h₃) h₄

theorem Followed.newServer {env : SendEnv} (h : Followed network w) (hw : Inv w)
    (ha : Addressed w) (hr : step w (.newServer env) = .ok w') : Followed network w' := by
  cases hk : w.handle.pool.lowestFree with
  | none =>
    rw [step, newServer_full env ha hk] at hr
    cases hr
  | some k =>
    obtain ⟨a, -, hnew⟩ := newServer_built env hw ha hk
    rw [step, hnew] at hr
    rw [← Except.ok.inj hr]
    have built : Followed network w.built := h.quiet rfl (by simp [Event.quiet]) rfl rfl
    exact built.send (hw.flight.mono (Nat.le_add_right _ 3)) rfl rfl
      (mem_transfers_put (SlotTable.lowestFree_some hk).2.1 _)

theorem step_followed {c : Call} (hmemory : ∀ d x, (network d x).memory = true)
    (h : Followed network w) (hw : Inv w) (ha : Addressed w) (hc : Networked network w c)
    (hr : step w c = .ok w') : Followed network w' := by
  cases c with
  | newServer env => exact h.newServer hw ha hr
  | perform env => exact h.perform hmemory hw ha hc hr
  | apiKey newApiKey size => exact setApiKey_followed h hr
  | url url hostHeader => exact synapiUrl_followed h hr
  | queued =>
    obtain ⟨i, hi⟩ := synapiQueued_ok w
    rw [step, hi] at hr
    rw [← Except.ok.inj hr]
    exact h.idle rfl rfl rfl
  | _ => exact keyed_followed ha rfl h hr

theorem blank_followed (start : Start) (a : CharArray 256) (i : ℤ) :
    Followed network ((blank start a p).setI i) := by
  have quiet : ∀ e ∈ ((blank start a p).setI i).trace, e.quiet = true := by
    intro e he
    rcases List.mem_cons.mp he with rfl | he
    · rfl
    · obtain ⟨addr, -, rfl⟩ := List.mem_map.mp he
      rfl
  refine ⟨.start, run_quiet quiet _, ⟨[], [], CurlMulti.init_shows⟩, ⟨fun x => ?_, ?_⟩,
    (drives_quiet quiet).symm⟩
  · have empty : transfers ((blank start a p).setI i).handle.pool = [] := by
      simp [transfers, blank, World.setI, SlotTable.occupants_empty]
    rw [empty]
    exact iff_of_false Bool.false_ne_true List.not_mem_nil
  · rintro x data ⟨⟩

theorem synapiInit_followed {start : Start} {apiKey : Option CString}
    (h : synapiInit start apiKey p = .ok w) : Followed network w := by
  obtain ⟨a, -, hrun⟩ := synapiInit_run start apiKey p
  rw [hrun] at h
  have blank : Followed network ((blank start a p).setI p.toNat) := blank_followed start a _
  cases apiKey with
  | none =>
    obtain ⟨w₁, hurl, h⟩ := run_cons_ok.mp h
    rw [← Except.ok.inj h]
    exact synapiUrl_followed blank hurl
  | some key =>
    obtain ⟨w₁, hkey, h⟩ := run_cons_ok.mp h
    obtain ⟨w₂, hurl, h⟩ := run_cons_ok.mp h
    rw [← Except.ok.inj h]
    exact synapiUrl_followed (setApiKey_followed blank hkey) hurl

theorem reachable_followed (hmemory : ∀ d x, (network d x).memory = true)
    (h : ReachableBy (Networked network) w) : (Inv w ∧ Addressed w) ∧ Followed network w := by
  apply h.invariant (P := fun w => (Inv w ∧ Addressed w) ∧ Followed network w)
  · rintro w ⟨start, apiKey, hinit⟩
    exact ⟨reachable_inv (C := fun _ _ => True) (.start ⟨start, apiKey, hinit⟩),
      synapiInit_followed hinit⟩
  · rintro w c w' ⟨⟨hw, ha⟩, h⟩ hc hr
    have effects := step_effects hw ha hr
    exact ⟨⟨inv_of_effects effects hw, addressed_of_effects effects ha⟩,
      step_followed hmemory h hw ha hc hr⟩

/-- In every run libcurl can make all its calls without following a pointer to
freed memory or a null pointer; they give what the library's trace says, and its
memory holds the transfers, the messages and the easy handles that the library
counts on. -/
theorem libcurl_follows (hmemory : ∀ d x, (network d x).memory = true)
    (h : ReachableBy (Networked network) w) :
    ∃ s, run (CurlSide.follow network) .start w.trace = .ok s ∧
      (∃ ring queue, s.multi.Shows ring queue w.multi) ∧
      (∀ x, (s.multi.sessions x).isSome = true ↔ x ∈ transfers w.handle.pool) ∧
      s.walks = drives w.trace := by
  obtain ⟨s, hrun, hs⟩ := (reachable_followed hmemory h).2
  exact ⟨s, hrun, hs.multi, hs.owns.handles, hs.walks⟩

/-- The first walk brings a key, and the transfers end in the second. -/
def twoWalks (walk _ : ℕ) : Transfer :=
  if walk = 0 then ⟨[Text.ascii "SYN:S:1:ab"], .perform, .response 200, true, by decide⟩
  else ⟨[], .completed, .response 201, true, by decide⟩

theorem twoWalks_memory (walk x : ℕ) : (twoWalks walk x).memory = true := by
  unfold twoWalks
  split_ifs <;> rfl

theorem libcurl_follows_registration : ∃ w : World 2,
    (w.multi.added = [] ∧ w.handle.apiKeySet = true ∧ Event.multiRemoveHandle 7 ∈ w.trace) ∧
    ∃ s, run (CurlSide.follow twoWalks) .start w.trace = .ok s ∧
      (∃ ring queue, s.multi.Shows ring queue w.multi) ∧
      (∀ x, (s.multi.sessions x).isSome = true ↔ x ∈ transfers w.handle.pool) ∧
      s.walks = drives w.trace := by
  have start : ∃ w ∈ trial (p := 2) (Networked twoWalks) none [.newServer ⟨true, true⟩,
      .perform (.smooth [.chunk 7 (Text.ascii "SYN:S:1:ab")]),
      .perform (.smooth [.done 7 (.response 201)])],
      w.multi.added = [] ∧ w.handle.apiKeySet = true ∧ Event.multiRemoveHandle 7 ∈ w.trace := by
    decide +kernel
  obtain ⟨w, hw, hresult⟩ := trial_exists start
  exact ⟨w, hresult, libcurl_follows twoWalks_memory hw⟩

end Synapi

import Synapi.Outbox
import Synapi.SessionRequests

/-!
The test program: a server that registers, goes online, and has one player.
-/

namespace Synapi

open Runs Relation Text FormEncoding Outbox

def sampleServer : Call :=
  .updateServer [.serverGame (literal "zombie_master"), .serverIp (literal "0.0.0.0"),
    .serverPort (literal "27015"), .serverName (literal "GameSyn API Test"), .serverSlots 16,
    .serverLevel (literal "zm_plundergrounds_b1")]

def samplePlayer : Call :=
  .newPlayer [.playerInternalId 1, .playerScore 100, .playerName (literal "player1"),
    .playerNetworkId (literal "STEAM:0:1")]

def sampleScore : Call := .updatePlayer 1 [.playerScore 200]

structure SampleEnv where
  start : Start
  register : SendEnv
  first : ℕ → PerformEnv
  between : PerformEnv
  second : ℕ → PerformEnv

-- `main`, up to its `synapi_free`; the address is the one the extension uses.
def sample (fuel : ℕ) (env : SampleEnv) : Except Fault (World 5) := do
  let w ← synapiInit env.start none 5
  let w ← synapiUrl w extensionUrl extensionHostHeader
  let w ← step w (.newServer env.register)
  let w ← step w sampleServer
  let (_, w) ← drain fuel env.first w
  let w ← step w samplePlayer
  let w ← synapiPerform env.between w
  let w ← step w .heartbeat
  let w ← step w sampleScore
  let (_, w) ← drain fuel env.second w
  .ok w

def sampleCalls (env : SampleEnv) : List Call :=
  [.newServer env.register, sampleServer, samplePlayer, .heartbeat, sampleScore]

variable {p : ℤ} {c : Call} {calls : List Call} {base host : Bytes} {w w' : World p}

/-! What has been asked of the API -/

/-- The request was made for the call, with this header. -/
def MadeFor (p : ℤ) (host : Bytes) (r : SynapiRequest) (c : Call) : Prop :=
  ∃ (u : World p) (options : Option (List SynapiOption)),
    Makes u c r options ∧ u.handle.hostHeader.str = host

/-- The requests made so far, sent or waiting, are those of the calls. -/
structure Asked (base host : Bytes) (w : World p) (calls : List Call) : Prop where
  reachable : Reachable w
  at_ : w.At base host
  made : List.Forall₂ (MadeFor p host) w.box.all calls

theorem asked_queues (h : Asked base host w calls) (hc : ¬ c.Sets) (hstep : step w c = .ok w')
    (hq : w.box.AllQueue p.toNat (acting w w' c)) {cs : List Call}
    (hmade : List.Forall₂ (MadeFor p host) (w.box.takes p.toNat (acting w w' c)) cs) :
    Asked base host w' (calls ++ cs) := by
  obtain ⟨hw, ha⟩ := reachable_inv h.reachable
  refine ⟨h.reachable.next trivial hstep, step_at h.reachable hc hstep h.at_, ?_⟩
  rw [step_box hw ha hstep, acts_queue hq]
  exact List.rel_append h.made hmade

theorem asked_perform {env : PerformEnv} (h : Asked base host w calls)
    (hstep : synapiPerform env w = .ok w') : Asked base host w' calls := by
  have asked := asked_queues (c := .perform env) h id hstep ⟨trivial, trivial, trivial⟩ .nil
  rwa [List.append_nil] at asked

theorem not_sets_of_keyed (hc : c.keyed.isSome = true) : ¬ c.Sets := by
  cases c <;> first | exact id | cases hc

theorem asked_keyed (h : Asked base host w calls) (hc : c.keyed.isSome = true)
    (hroom : w.box.waiting.length < p.toNat)
    (hplace : w.box.waiting.length ≤ w.handle.requests.lowestFree.getD p.toNat)
    (hstep : step w c = .ok w') : Asked base host w' (calls ++ [c]) ∧
      w'.box.waiting.length = w.box.waiting.length + 1 ∧ w'.box.isOpen = w.box.isOpen := by
  obtain ⟨hw, ha⟩ := reachable_inv h.reachable
  obtain ⟨⟨action, method, userData, options⟩, hkeyed⟩ := Option.isSome_iff_exists.mp hc
  obtain ⟨query, hq, -, -⟩ := keyed_steps ha hkeyed hstep
  have acts : acting w w' c = [.put (w.handle.requests.lowestFree.getD p.toNat)
      (newRequest w action method false userData query)] := acting_keyed hkeyed hq
  have hbox := step_box hw ha hstep
  rw [acts, Box.acts, List.foldl_cons, List.foldl_nil, Box.act, if_pos hroom] at hbox
  refine ⟨?_, ?_, ?_⟩
  · apply asked_queues h (not_sets_of_keyed hc) hstep
    · rw [acts]
      exact ⟨hplace, trivial⟩
    · rw [acts, Box.takes, Box.takes, Box.taken, if_pos hroom]
      refine .cons ⟨w, options, ?_, h.at_.hostHeader⟩ .nil
      exact makes_newRequest ((requested_of_keyed hkeyed).trans hkeyed) hq
  · rw [hbox]
    simp
    omega
  · rw [hbox]

theorem perform_line {env : PerformEnv} (h : Asked base host w calls)
    (hopen : w.box.isOpen = true) (hstep : synapiPerform env w = .ok w') :
    w'.box.waiting = w.box.waiting.drop 1 ∧ w'.box.isOpen = true := by
  obtain ⟨hw, ha⟩ := reachable_inv h.reachable
  have performed := perform_spec hw ha hstep
  exact ⟨performed.requests.trans (if_pos hopen), performed.keySet hopen⟩

/-- The gate opens only for a part of the response to the registration. -/
theorem chunk_of_opened {env : PerformEnv} (hw : Inv w) (ha : Addressed w)
    (hclosed : w.handle.apiKeySet = false) (h : step w (.perform env) = .ok w')
    (hopen : w'.handle.apiKeySet = true) : ∃ handle data, .chunk handle data ∈ env.progress := by
  have opened : w'.handle.apiKeySet = true → ∃ handle data, .chunk handle data ∈ env.progress := by
    apply effects_invariant
      (P := fun u => u.handle.apiKeySet = true → ∃ handle data, .chunk handle data ∈ env.progress)
      ?_ (step_effects hw ha h)
    · intro hset
      rw [hclosed] at hset
      cases hset
    · intro u v _ ih he
      cases he with
      | write _ hc hm =>
        cases hc
        exact fun _ => ⟨_, _, hm⟩
      | send _ hset =>
        rw [hclosed] at hset
        cases hset
      | setKey hc => cases hc
      | setUrl hc => cases hc
      | register hc => cases hc
      | queue hc => cases hc
      | _ => exact ih
  exact opened hopen

/-- A loop that ends leaves nothing waiting and nothing in flight, and has seen
a part of the response if the gate was closed. -/
theorem asked_drain {fuel n : ℕ} {envs : ℕ → PerformEnv} (h : Asked base host w calls)
    (hopen : w.box.isOpen = true ∨ w.box.waiting ≠ []) (hd : drain fuel envs w = .ok (n, w')) :
    Asked base host w' calls ∧ w'.box.waiting = [] ∧ w'.box.isOpen = true ∧ flying w' = 0 ∧
      (w.box.isOpen = false → ∃ k, ∃ handle data, .chunk handle data ∈ (envs k).progress) := by
  induction fuel generalizing w envs n with
  | zero => cases hd
  | succ fuel ih =>
    obtain ⟨i, hi⟩ := synapiQueued_ok w
    have hstep : step w .queued = .ok (w.setI i) := by
      rw [step, hi]
      rfl
    have same : Asked base host (w.setI i) calls := by
      have asked := asked_queues h id hstep trivial .nil
      rwa [List.append_nil] at asked
    by_cases hn : (if w.handle.apiKeySet then (w.handle.pool.occupants.length : ℤ) else 0) +
        w.handle.requests.occupants.length = 0
    · rw [hn] at hi
      rw [drain_end fuel hi] at hd
      obtain ⟨-, rfl⟩ := Prod.mk.inj (Except.ok.inj hd)
      have empty : w.handle.requests.occupants = [] := by
        apply List.length_eq_zero_iff.mp
        split_ifs at hn <;> omega
      have set : w.handle.apiKeySet = true := hopen.resolve_right (fun hne => hne empty)
      rw [if_pos set] at hn
      refine ⟨same, empty, set, ?_, ?_⟩
      · change w.handle.pool.occupants.length = 0
        omega
      · intro hclosed
        exact absurd (hclosed.symm.trans set) Bool.false_ne_true
    · rw [drain_pass fuel hi hn] at hd
      obtain ⟨u, hu, hd⟩ := bind_eq_ok.mp hd
      obtain ⟨⟨m, v⟩, hv, hd⟩ := bind_eq_ok.mp hd
      obtain ⟨-, rfl⟩ := Prod.mk.inj (Except.ok.inj hd)
      obtain ⟨hw, ha⟩ := reachable_inv same.reachable
      have performed := perform_spec hw ha hu
      have stays : u.box.isOpen = true ∨ u.box.waiting ≠ [] := by
        by_cases hset : w.handle.apiKeySet = true
        · exact .inl (performed.keySet hset)
        · right
          have kept : u.handle.requests.occupants = w.handle.requests.occupants :=
            performed.requests.trans (if_neg hset)
          change u.handle.requests.occupants ≠ []
          rw [kept]
          exact hopen.resolve_left hset
      obtain ⟨asked, hnone, hset, hpool, hchunk⟩ := ih (asked_perform same hu) stays hv
      refine ⟨asked, hnone, hset, hpool, fun hclosed => ?_⟩
      cases hu' : u.box.isOpen with
      | true =>
        obtain ⟨handle, data, hm⟩ := chunk_of_opened hw ha hclosed hu hu'
        exact ⟨0, handle, data, hm⟩
      | false =>
        obtain ⟨k, handle, data, hm⟩ := hchunk hu'
        exact ⟨k + 1, handle, data, hm⟩

/-! The whole program -/

theorem asked_url {u : World p} {start : Start} {url hostHeader : CString}
    (hinit : synapiInit start none p = .ok u) (h : synapiUrl u url hostHeader = .ok w) :
    Asked (url.val.take 255) (hostHeader.val.take 255) w [] ∧ w.box.waiting = [] := by
  obtain ⟨accepted_none, sents_none⟩ := synapiInit_trace hinit
  have hu : Reachable u := .start ⟨start, none, hinit⟩
  have hw : Reachable w := hu.next (c := .url url hostHeader) trivial h
  have books := (reachable_accounts hu).requests
  rw [accepted_none, left, sents_none] at books
  have empty : u.handle.requests.occupants = [] := books.symm.eq_nil
  obtain ⟨hinv, ha⟩ := reachable_inv hu
  have same : w.box = u.box := step_box (c := .url url hostHeader) hinv ha h
  refine ⟨⟨hw, url_at sents_none h, ?_⟩, ?_⟩
  · rw [same, Box.all, World.box, sents_none, empty]
    exact .nil
  · rw [same]
    exact empty

theorem asked_newServer {env : SendEnv} (h : Asked base host w calls) (hnone : w.box.waiting = [])
    (hstep : step w (.newServer env) = .ok w') :
    Asked base host w' (calls ++ [.newServer env]) ∧ w'.box.waiting = [] ∧
      w'.box.isOpen = false := by
  obtain ⟨hw, ha⟩ := reachable_inv h.reachable
  refine ⟨?_, ?_, ?_⟩
  · apply asked_queues h id hstep
    · exact ⟨hnone, trivial, trivial⟩
    · exact .cons ⟨w, none, makes_newRequest rfl newRequest_query, h.at_.hostHeader⟩ .nil
  · rw [step_box hw ha hstep]
    exact hnone
  · rw [step_box hw ha hstep]
    rfl

/-- The second request in the line gets a slot behind the first. -/
theorem place_second (h : Asked base host w calls) (hc : c.keyed.isSome = true)
    (hnone : w.box.waiting = []) (hp : 0 < p.toNat) (hstep : step w c = .ok w') :
    1 ≤ w'.handle.requests.lowestFree.getD p.toNat := by
  obtain ⟨hw, ha⟩ := reachable_inv h.reachable
  obtain ⟨⟨action, method, userData, options⟩, hkeyed⟩ := Option.isSome_iff_exists.mp hc
  obtain ⟨query, hq, -, accept⟩ := keyed_steps ha hkeyed hstep
  have empty : w.handle.requests.occupants = [] := hnone
  have first : w.handle.requests.lowestFree = some 0 := by
    cases hk : w.handle.requests.lowestFree with
    | none =>
      have full := (SlotTable.lowestFree_eq_none_iff _).mp hk
      rw [empty] at full
      exact absurd full (Nat.ne_of_lt hp)
    | some k =>
      cases k with
      | zero => rfl
      | succ k =>
        obtain ⟨a, ha⟩ := (SlotTable.lowestFree_some hk).2.2 0 (Nat.succ_pos k)
        have used := SlotTable.mem_occupants.mpr ⟨0, ha⟩
        rw [empty] at used
        cases used
  have table : w'.handle.requests =
      w.handle.requests.put 0 (some (newRequest w action method false userData query)) := by
    rw [accept 0 first]
    rfl
  rw [table]
  cases hk : (w.handle.requests.put 0
      (some (newRequest w action method false userData query))).lowestFree with
  | none => exact hp
  | some k =>
    cases k with
    | zero =>
      have free := (SlotTable.lowestFree_some hk).2.1
      rw [SlotTable.slot_put_self hp] at free
      cases free
    | succ k => exact Nat.succ_pos k

theorem sample_asked {fuel : ℕ} {env : SampleEnv} {w : World 5} (h : sample fuel env = .ok w) :
    Asked extensionUrl.val extensionHostHeader.val w (sampleCalls env) ∧ w.box.waiting = [] ∧
      flying w = 0 ∧ ∃ k, ∃ handle data, .chunk handle data ∈ (env.first k).progress := by
  obtain ⟨w₀, hinit, h⟩ := bind_eq_ok.mp h
  obtain ⟨w₁, hurl, h⟩ := bind_eq_ok.mp h
  obtain ⟨w₂, hnew, h⟩ := bind_eq_ok.mp h
  obtain ⟨w₃, hserver, h⟩ := bind_eq_ok.mp h
  obtain ⟨⟨m, w₄⟩, hfirst, h⟩ := bind_eq_ok.mp h
  obtain ⟨w₅, hplayer, h⟩ := bind_eq_ok.mp h
  obtain ⟨w₆, hperform, h⟩ := bind_eq_ok.mp h
  obtain ⟨w₇, hheartbeat, h⟩ := bind_eq_ok.mp h
  obtain ⟨w₈, hscore, h⟩ := bind_eq_ok.mp h
  obtain ⟨⟨n, w₉⟩, hsecond, h⟩ := bind_eq_ok.mp h
  obtain rfl : w₉ = w := Except.ok.inj h
  obtain ⟨asked₁, none₁⟩ := asked_url hinit hurl
  obtain ⟨asked₂, none₂, closed₂⟩ := asked_newServer asked₁ none₁ hnew
  obtain ⟨asked₃, one₃, same₃⟩ := asked_keyed asked₂ rfl (by rw [none₂]; decide)
    (by rw [none₂]; exact Nat.zero_le _) hserver
  obtain ⟨asked₄, none₄, open₄, -, chunk⟩ := asked_drain asked₃
    (.inr (fun hnone => by rw [hnone] at one₃; cases one₃)) hfirst
  obtain ⟨asked₅, one₅, same₅⟩ := asked_keyed asked₄ rfl (by rw [none₄]; decide)
    (by rw [none₄]; exact Nat.zero_le _) hplayer
  have asked₆ := asked_perform asked₅ hperform
  obtain ⟨line₆, open₆⟩ := perform_line asked₅ (same₅.trans open₄) hperform
  have none₆ : w₆.box.waiting = [] := by
    rw [line₆]
    apply List.drop_of_length_le
    rw [one₅, none₄]
    exact Nat.le_refl 1
  obtain ⟨asked₇, one₇, same₇⟩ := asked_keyed asked₆ rfl (by rw [none₆]; decide)
    (by rw [none₆]; exact Nat.zero_le _) hheartbeat
  have place := place_second asked₆ rfl none₆ (by decide) hheartbeat
  obtain ⟨asked₈, -, same₈⟩ := asked_keyed asked₇ rfl (by rw [one₇, none₆]; decide)
    (by rw [one₇, none₆]; exact place) hscore
  obtain ⟨asked₉, none₉, -, landed, -⟩ := asked_drain asked₈
    (.inl (same₈.trans (same₇.trans open₆))) hsecond
  exact ⟨asked₉, none₉, landed, chunk (same₃.trans closed₂)⟩

theorem sampleCalls_short {env : SampleEnv} (hc : c ∈ sampleCalls env) : c.Short := by
  rcases List.mem_cons.mp hc with rfl | hc
  · rintro ⟨action, method, userData, options⟩ ha
    cases ha
    exact queryText_nil_length _
  · have rest : ∀ c ∈ [sampleServer, samplePlayer, .heartbeat, sampleScore], c.Short := by
      decide +kernel
    exact rest c hc

/-- Every transfer has ended, so each was one libcurl had. -/
theorem easy_of_landed (h : Reachable w) (hnone : flying w = 0) {sent : Sent}
    (hs : sent ∈ sents w.trace) : ∃ easy, sent.easy = some easy := by
  have books := (reachable_accounts h).transfers
  rw [List.length_eq_zero_iff.mp hnone, List.map_nil, List.append_nil] at books
  obtain ⟨msg, -, hmsg⟩ := List.mem_map.mp (books.mem_iff.mp (List.mem_map_of_mem hs))
  cases he : sent.easy with
  | none =>
    rw [Sent.transfer, he] at hmsg
    cases hmsg
  | some easy => exact ⟨easy, rfl⟩

theorem forall₂_of_mem {α β : Type} {R S : α → β → Prop} {l : List α} {l' : List β}
    (h : List.Forall₂ R l l') (hS : ∀ a ∈ l, ∀ b ∈ l', R a b → S a b) : List.Forall₂ S l l' := by
  induction h with
  | nil => exact .nil
  | cons hab _ ih =>
    refine .cons (hS _ List.mem_cons_self _ List.mem_cons_self hab) (ih ?_)
    exact fun a ha b hb => hS a (List.mem_cons_of_mem _ ha) b (List.mem_cons_of_mem _ hb)

/-- An API that answers the five transfers at once, and the registration with a key. -/
def promptApi : PerformEnv :=
  .smooth ([7, 13, 18, 26, 28].flatMap fun x =>
    [.chunk x (ascii "SYN:S:1:ab"), .done x (.response 200)])

def promptSample : SampleEnv :=
  ⟨.zero, ⟨true, true⟩, fun _ => promptApi, promptApi, fun _ => promptApi⟩

end Synapi

import Synapi.Waiting
import Synapi.Delivery
import Synapi.Library.Outbox

/-!
The library as an outbox: the two tables, the gate of the key, and the requests
handed to libcurl, in any run of its functions.
-/

namespace Synapi

open Runs Relation Text Outbox

variable {p : ℤ} {c : Call} {k : ℕ} {w w' : World p}

def World.box (w : World p) : Box SynapiRequest where
  sent := (sents w.trace).map Sent.request
  waiting := w.handle.requests.occupants
  isOpen := w.handle.apiKeySet

/-- What the call is for the outbox. The place of a request in the line is the
slot it gets, which `synapi_queue` returns. -/
def acting (w w' : World p) : Call → List (Act SynapiRequest)
  | .perform _ => [.pass, .gate w'.handle.apiKeySet]
  | .newServer _ =>
    [.direct (newRequest w .serversNew .post true 0 (ascii "_method=post")), .gate false]
  | .apiKey _ _ => [.gate true]
  | c =>
    match c.keyed with
    | some (action, method, userData, options) =>
      match synapiBuildQueryString method options with
      | .ok query => [.put (w.handle.requests.lowestFree.getD p.toNat)
          (newRequest w action method false userData query)]
      | .error _ => []
    | none => []

def actsOf : World p → List Call → List (Act SynapiRequest)
  | _, [] => []
  | w, c :: calls =>
    match step w c with
    | .ok w' => acting w w' c ++ actsOf w' calls
    | .error _ => []

/-! One call -/

theorem occupants_put_lowest {α : Type} {n : ℕ} {t : SlotTable α n} (h : t.lowestFree = some k)
    (a : α) : (t.put k (some a)).occupants = t.occupants.take k ++ a :: t.occupants.drop k := by
  obtain ⟨-, hk, below⟩ := SlotTable.lowestFree_some h
  obtain ⟨lower, upper, hs, rfl⟩ := SlotTable.slots_split hk
  have used : lower.reduceOption.length = lower.length := by
    rw [List.reduceOption_length_eq_iff]
    intro v hv
    obtain ⟨j, hj, rfl⟩ := List.mem_iff_getElem.mp hv
    obtain ⟨b, hb⟩ := below j hj
    rw [SlotTable.slot, hs, List.getElem?_append_left hj, List.getElem?_eq_getElem hj] at hb
    rw [Option.some.inj hb]
    rfl
  simp only [SlotTable.occupants, SlotTable.put, hs, List.set_append_right _ _ (Nat.le_refl _),
    Nat.sub_self, List.set_cons_zero, List.reduceOption_append, List.reduceOption_cons_of_some,
    List.reduceOption_cons_of_none, List.take_left' used, List.drop_left' used]

theorem acting_keyed {action method userData options query}
    (hc : c.keyed = some (action, method, userData, options))
    (hq : synapiBuildQueryString method options = .ok query) :
    acting w w' c = [.put (w.handle.requests.lowestFree.getD p.toNat)
      (newRequest w action method false userData query)] := by
  cases c <;> cases hc <;> simp only [acting, Call.keyed, hq]

theorem keyed_steps {action method userData options} (ha : Addressed w)
    (hc : c.keyed = some (action, method, userData, options)) (h : step w c = .ok w') :
    ∃ query, synapiBuildQueryString method options = .ok query ∧
      (w.handle.requests.lowestFree = none → w' = (w.built.setI p.toNat).emit
        (.rejected (newRequest w action method false userData query))) ∧
      ∀ k, w.handle.requests.lowestFree = some k → w' = ((w.built.setI k).setRequests
        (w.handle.requests.put k (some (newRequest w action method false userData query)))).emit
          (.queued (newRequest w action method false userData query) k) := by
  have hstep : step w c = (keyed w action method userData options).map Prod.snd := by
    cases c <;> cases hc <;> rfl
  rw [hstep, keyed] at h
  cases hq : synapiBuildQueryString method options with
  | error e =>
    rw [synapiQueue_textError ha.hostHeader hq] at h
    cases h
  | ok query =>
    refine ⟨query, rfl, ?_, ?_⟩
    · intro hk
      rw [synapiQueue_reject ha.hostHeader hq hk] at h
      exact (Except.ok.inj h).symm
    · intro k hk
      rw [synapiQueue_accept ha.hostHeader hq hk] at h
      exact (Except.ok.inj h).symm

theorem keyed_box (ha : Addressed w) (hc : c.keyed.isSome = true)
    (h : step w c = .ok w') : w'.box = w.box.acts p.toNat (acting w w' c) := by
  obtain ⟨⟨action, method, userData, options⟩, hkeyed⟩ := Option.isSome_iff_exists.mp hc
  obtain ⟨query, hq, reject, accept⟩ := keyed_steps ha hkeyed h
  rw [acting_keyed hkeyed hq, Box.acts, List.foldl_cons, List.foldl_nil, Box.act]
  cases hk : w.handle.requests.lowestFree with
  | none =>
    have full : ¬ w.box.waiting.length < p.toNat :=
      Nat.not_lt.mpr (Nat.le_of_eq ((SlotTable.lowestFree_eq_none_iff _).mp hk).symm)
    rw [if_neg full, reject hk]
    simp only [World.box, World.emit, World.setI, World.built, sents_append]
    simp [sents, Event.sent]
  | some k =>
    have room : w.box.waiting.length < p.toNat := by
      have most := w.handle.requests.occupants_length_le
      have free : w.handle.requests.occupants.length ≠ p.toNat := by
        rw [ne_eq, ← SlotTable.lowestFree_eq_none_iff, hk]
        exact Option.some_ne_none k
      exact Nat.lt_of_le_of_ne most free
    have put := occupants_put_lowest hk (newRequest w action method false userData query)
    rw [if_pos room, accept k hk]
    simp only [World.box, World.emit, World.setRequests, World.setI, World.built, sents_append,
      put, Option.getD_some]
    simp [sents, Event.sent]

theorem newServer_box {env : SendEnv} (hw : Inv w) (ha : Addressed w)
    (h : step w (.newServer env) = .ok w') :
    w'.box = w.box.acts p.toNat (acting w w' (.newServer env)) := by
  cases hk : w.handle.pool.lowestFree with
  | none =>
    rw [step, newServer_full env ha hk] at h
    cases h
  | some k =>
    obtain ⟨a, -, hr⟩ := newServer_built env hw ha hk
    rw [step, hr] at h
    rw [← Except.ok.inj h, World.box, sents_marks (marks_register w _ _ _ _ _), List.map_append]
    rfl

theorem perform_box {env : PerformEnv} (hw : Inv w) (ha : Addressed w)
    (h : step w (.perform env) = .ok w') :
    w'.box = w.box.acts p.toNat (acting w w' (.perform env)) := by
  have performed := perform_spec hw ha h
  obtain ⟨news, hsents, hnews⟩ := performed.sents
  rw [World.box, hsents, List.map_append, hnews, performed.requests]
  change _ = Box.act p.toNat (Box.act p.toNat w.box .pass) (.gate w'.handle.apiKeySet)
  rw [Box.act, Box.act, World.box]
  split_ifs
  · rfl
  · rw [List.append_nil]

theorem step_box (hw : Inv w) (ha : Addressed w) (h : step w c = .ok w') :
    w'.box = w.box.acts p.toNat (acting w w' c) := by
  cases c with
  | newServer env => exact newServer_box hw ha h
  | updateServer | newPlayer | updatePlayer | deletePlayer | heartbeat => exact keyed_box ha rfl h
  | perform env => exact perform_box hw ha h
  | apiKey newApiKey size =>
    obtain ⟨u, hu, h⟩ := bind_eq_ok.mp h
    obtain ⟨-, a, rfl, -, -⟩ := synapiApiKey_ok hu
    rw [← Except.ok.inj h, World.box, sents_marks (marks_keyed rfl w a)]
    exact congrArg (fun sent => Box.mk (sent.map Sent.request) _ _) (List.append_nil _)
  | url url hostHeader =>
    obtain ⟨base, host, -, -, -, -, hr⟩ := synapiUrl_ok w url hostHeader
    rw [step, hr] at h
    rw [← Except.ok.inj h, World.box, World.emit, sents_append]
    exact congrArg (fun sent => Box.mk (sent.map Sent.request) _ _) (List.append_nil _)
  | queued =>
    obtain ⟨i, hi⟩ := synapiQueued_ok w
    rw [step, hi] at h
    rw [← Except.ok.inj h]
    rfl

/-! Runs -/

theorem run_box {calls : List Call} (h : Reachable w) (hrun : run step w calls = .ok w') :
    w'.box = w.box.acts p.toNat (actsOf w calls) := by
  induction calls generalizing w with
  | nil =>
    rw [← Except.ok.inj hrun]
    rfl
  | cons c calls ih =>
    obtain ⟨u, hu, hrun⟩ := run_cons_ok.mp hrun
    obtain ⟨hw, ha⟩ := reachable_inv h
    rw [ih (h.next trivial hu) hrun, step_box hw ha hu, ← acts_append]
    simp only [actsOf, hu]

end Synapi

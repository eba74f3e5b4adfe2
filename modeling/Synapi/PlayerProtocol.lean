import Synapi.Plugin
import Synapi.Library.Sessions
import Mathlib.Data.List.Pairwise

/-!
The plugin's player requests follow the protocol exactly when index and userid
agree and no client leaves unchecked.
-/

namespace Synapi

open Replay Sessions

def Issued.keyed (x : Issued) : Int32 × PlayerRequest := (x.id, x.request)

/-- An update or a delete carries an id its client was registered under. -/
def Issued.Attributed (before : List Issued) (x : Issued) : Prop :=
  x.request ≠ .new → ⟨x.connection, x.id, .new⟩ ∈ before

structure PlayerProtocol (issued : List Issued) : Prop where
  grouped : ∀ id, ∃ rest,
    wordOf id (issued.map Issued.keyed) ++ rest ∈ sessions PlayerRequest.new .update .delete
  attributed : AtEach Issued.Attributed issued

/-- A score or a name comes from a client whose userid is its index, and a
client that leaves has been checked. -/
def Engine.Matches (s : Engine) (e : ClientEvent) : Prop :=
  match e with
  | .connect _ _ | .postAdminCheck _ _ _ => True
  | .playerScore _ _ | .playerChangename _ _ => ∀ c, s.subject e = some c → c.userid = c.index
  | .disconnect _ => ∀ c, s.subject e = some c → c.checked = true

/-! The clients, and the ids they are registered under. -/

def Client.Apart (c d : Client) : Prop := c.index ≠ d.index ∧ c.connection ≠ d.connection

instance : Std.Symm Client.Apart := ⟨fun _ _ h => ⟨h.1.symm, h.2.symm⟩⟩

structure Registered (s : Engine) (issued : List Issued) : Prop where
  distinct : s.clients.Pairwise Client.Apart
  connection_lt : ∀ c ∈ s.clients, c.connection < s.connections
  issued_lt : ∀ x ∈ issued, ∀ n, x.connection = some n → n < s.connections
  new_iff : ∀ c ∈ s.clients, ∀ id, ⟨some c.connection, id, .new⟩ ∈ issued ↔
    c.checked = true ∧ c.index = id

def issuedFor (s : Engine) (e : ClientEvent) : List Issued :=
  e.request.toList.map (fun r => ⟨(s.subject e).map Client.connection, r.1, r.2⟩)

variable {s : Engine} {issued : List Issued} {e : ClientEvent} {c d : Client}

theorem subject_mem (h : s.subject e = some c) : c ∈ s.clients := by
  cases e with
  | connect client userid => cases h
  | _ => exact List.mem_of_find?_eq_some h

namespace Registered

theorem empty : Registered .empty [] where
  distinct := .nil
  connection_lt := by simp [Engine.empty]
  issued_lt := by simp
  new_iff := by simp [Engine.empty]

theorem apart (h : Registered s issued) (hc : c ∈ s.clients) (hd : d ∈ s.clients)
    (hne : c ≠ d) : c.Apart d :=
  h.distinct.forall hc hd hne

theorem index_inj (h : Registered s issued) (hc : c ∈ s.clients) (hd : d ∈ s.clients)
    (heq : c.index = d.index) : c = d := by
  by_contra hne
  exact (h.apart hc hd hne).1 heq

theorem other (h : Registered s issued) (hs : s.subject e = some c) (id : Int32)
    (request : PlayerRequest) (hr : request ≠ .new) :
    Registered s (issued ++ [⟨some c.connection, id, request⟩]) where
  distinct := h.distinct
  connection_lt := h.connection_lt
  issued_lt := by
    intro x hx n hn
    rcases List.mem_append.mp hx with hx | hx
    · exact h.issued_lt x hx n hn
    · rw [List.mem_singleton.mp hx] at hn
      rw [← Option.some.inj hn]
      exact h.connection_lt c (subject_mem hs)
  new_iff := by
    intro d hd j
    rw [List.mem_append, or_iff_left, h.new_iff d hd]
    intro heq
    injection List.mem_singleton.mp heq with _ _ hnew
    exact hr hnew.symm

theorem connect (h : Registered s issued) {client userid : Int32}
    (hd : s.Delivers (.connect client userid)) :
    Registered (s.after (.connect client userid)) issued where
  distinct := by
    apply List.pairwise_cons.mpr
    constructor
    · intro c hc
      exact ⟨(hd c hc).1.symm, (h.connection_lt c hc).ne'⟩
    · exact h.distinct
  connection_lt := by
    intro c hc
    rcases List.mem_cons.mp hc with rfl | hc
    · exact Nat.lt_succ_self _
    · exact Nat.lt_succ_of_lt (h.connection_lt c hc)
  issued_lt := fun x hx n hn => Nat.lt_succ_of_lt (h.issued_lt x hx n hn)
  new_iff := by
    intro c hc id
    rcases List.mem_cons.mp hc with rfl | hc
    · apply iff_of_false
      · intro hx
        exact Nat.lt_irrefl _ (h.issued_lt _ hx _ rfl)
      · simp
    · exact h.new_iff c hc id

theorem postAdminCheck (h : Registered s issued) {client : Int32} {name networkId : CString}
    (hs : s.subject (.postAdminCheck client name networkId) = some c) :
    Registered (s.after (.postAdminCheck client name networkId))
      (issued ++ [⟨some c.connection, client, .new⟩]) where
  distinct := by
    apply List.pairwise_map.mpr
    exact h.distinct
  connection_lt := by
    intro d' hd'
    obtain ⟨d, hd, rfl⟩ := List.mem_map.mp hd'
    exact h.connection_lt d hd
  issued_lt := by
    intro x hx n hn
    rcases List.mem_append.mp hx with hx | hx
    · exact h.issued_lt x hx n hn
    · rw [List.mem_singleton.mp hx] at hn
      rw [← Option.some.inj hn]
      exact h.connection_lt c (subject_mem hs)
  new_iff := by
    intro d' hd' id
    obtain ⟨d, hd, rfl⟩ := List.mem_map.mp hd'
    have hindex : c.index = client := by simpa using List.find?_some hs
    rw [List.mem_append, h.new_iff d hd, List.mem_singleton]
    by_cases heq : d = c
    · subst heq
      simp only [hindex, beq_self_eq_true, Bool.or_true, true_and, Issued.mk.injEq, and_true]
      constructor
      · rintro (⟨-, hid⟩ | hid)
        · exact hid
        · exact hid.symm
      · intro hid
        exact .inr hid.symm
    · obtain ⟨hother, hconnection⟩ := h.apart hd (subject_mem hs) heq
      rw [hindex] at hother
      simp [hother, hconnection]

theorem disconnect (h : Registered s issued) (client : Int32) :
    Registered (s.after (.disconnect client)) issued where
  distinct := h.distinct.filter _
  connection_lt := fun c hc => h.connection_lt c (List.mem_of_mem_filter hc)
  issued_lt := h.issued_lt
  new_iff := fun c hc => h.new_iff c (List.mem_of_mem_filter hc)

theorem deliver (h : Registered s issued) (hd : s.Delivers e) :
    Registered (s.after e) (issued ++ issuedFor s e) := by
  cases e with
  | connect client userid =>
    simpa [issuedFor, ClientEvent.request] using h.connect hd
  | postAdminCheck client name networkId =>
    obtain ⟨c, hs, -⟩ := hd
    simpa [issuedFor, ClientEvent.request, hs] using h.postAdminCheck hs
  | playerScore userid score =>
    obtain ⟨c, hs, -⟩ := hd
    change Registered s _
    simpa [issuedFor, ClientEvent.request, hs] using h.other hs userid .update (by decide)
  | playerChangename userid newname =>
    obtain ⟨c, hs, -⟩ := hd
    change Registered s _
    simpa [issuedFor, ClientEvent.request, hs] using h.other hs userid .update (by decide)
  | disconnect client =>
    obtain ⟨c, hs⟩ := hd
    simpa [issuedFor, ClientEvent.request, hs] using
      (h.other hs client .delete (by decide)).disconnect client

end Registered

theorem attributed_deliver (h : Registered s issued) (hd : s.Delivers e) :
    AtEach Issued.Attributed (issued ++ issuedFor s e) ↔
      AtEach Issued.Attributed issued ∧ s.Matches e := by
  have registered {c : Client} {id : Int32} (hs : s.subject e = some c) (request : PlayerRequest)
      (hr : request ≠ .new) :
      Issued.Attributed issued ⟨some c.connection, id, request⟩ ↔
        c.checked = true ∧ c.index = id := by
    rw [Issued.Attributed, ← h.new_iff c (subject_mem hs) id]
    exact forall_prop_of_true hr
  cases e with
  | connect client userid => simp [issuedFor, ClientEvent.request, Engine.Matches]
  | postAdminCheck client name networkId =>
    obtain ⟨c, hs, -⟩ := hd
    simp [issuedFor, ClientEvent.request, Engine.Matches, atEach_snoc, Issued.Attributed]
  | playerScore userid score =>
    obtain ⟨c, hs, hc⟩ := hd
    have huserid : c.userid = userid := by simpa using List.find?_some hs
    simp [issuedFor, ClientEvent.request, Engine.Matches, atEach_snoc, hs, registered hs .update,
      hc, huserid, eq_comm]
  | playerChangename userid newname =>
    obtain ⟨c, hs, hc⟩ := hd
    have huserid : c.userid = userid := by simpa using List.find?_some hs
    simp [issuedFor, ClientEvent.request, Engine.Matches, atEach_snoc, hs, registered hs .update,
      hc, huserid, eq_comm]
  | disconnect client =>
    obtain ⟨c, hs⟩ := hd
    have hindex : c.index = client := by simpa using List.find?_some hs
    simp [issuedFor, ClientEvent.request, Engine.Matches, atEach_snoc, hs, registered hs .delete,
      hindex]

/-! The ids of the checked clients, and the requests grouped by id. -/

def Engine.checkedIds (s : Engine) : Set Int32 := {id | ∃ c ∈ s.clients, c.index = id ∧ c.checked = true}

theorem checkedIds_connect (client userid : Int32) :
    (s.after (.connect client userid)).checkedIds = s.checkedIds := by
  ext id
  simp [Engine.checkedIds, Engine.after]

theorem checkedIds_postAdminCheck {client : Int32} {name networkId : CString}
    (hs : s.subject (.postAdminCheck client name networkId) = some c) :
    (s.after (.postAdminCheck client name networkId)).checkedIds = insert client s.checkedIds := by
  have hindex : c.index = client := by simpa using List.find?_some hs
  ext id
  constructor
  · rintro ⟨d', hd', rfl, hchecked⟩
    obtain ⟨d, hd, rfl⟩ := List.mem_map.mp hd'
    rcases Bool.or_eq_true_iff.mp hchecked with hc | hc
    · exact .inr ⟨d, hd, rfl, hc⟩
    · exact .inl (beq_iff_eq.mp hc)
  · rintro (rfl | ⟨d, hd, rfl, hchecked⟩)
    · exact ⟨_, List.mem_map_of_mem (subject_mem hs), hindex, by simp [hindex]⟩
    · exact ⟨_, List.mem_map_of_mem hd, rfl, by simp [hchecked]⟩

theorem checkedIds_disconnect (client : Int32) :
    (s.after (.disconnect client)).checkedIds = s.checkedIds \ {client} := by
  ext id
  constructor
  · rintro ⟨d, hd, rfl, hchecked⟩
    obtain ⟨hd, hne⟩ := List.mem_filter.mp hd
    exact ⟨⟨d, hd, rfl, hchecked⟩, by simpa using hne⟩
  · rintro ⟨⟨d, hd, rfl, hchecked⟩, hne⟩
    exact ⟨d, List.mem_filter.mpr ⟨hd, by simpa using hne⟩, rfl, hchecked⟩

def GroupedById (s : Engine) (issued : List Issued) : Prop :=
  Grouped PlayerRequest.new .update .delete s.checkedIds (issued.map Issued.keyed)

theorem grouped_update (hg : GroupedById s issued) (hc : c ∈ s.clients) (hchecked : c.checked = true)
    (hm : c.userid = c.index) :
    GroupedById s (issued ++ [⟨some c.connection, c.userid, .update⟩]) := by
  have running : c.userid ∈ s.checkedIds := ⟨c, hc, hm.symm, hchecked⟩
  simpa [GroupedById, Issued.keyed] using hg.snoc_use running

theorem grouped_deliver (h : Registered s issued) (hd : s.Delivers e) (hm : s.Matches e)
    (hg : GroupedById s issued) : GroupedById (s.after e) (issued ++ issuedFor s e) := by
  cases e with
  | connect client userid =>
    simpa [GroupedById, checkedIds_connect, issuedFor, ClientEvent.request] using hg
  | postAdminCheck client name networkId =>
    obtain ⟨c, hs, hunchecked⟩ := hd
    have hindex : c.index = client := by simpa using List.find?_some hs
    have fresh : client ∉ s.checkedIds := by
      rintro ⟨d, hd, hdc, hchecked⟩
      rw [h.index_inj hd (subject_mem hs) (hdc.trans hindex.symm), hunchecked] at hchecked
      cases hchecked
    rw [GroupedById, checkedIds_postAdminCheck hs]
    simpa [issuedFor, ClientEvent.request, hs, Issued.keyed] using hg.snoc_start fresh
  | playerScore userid score =>
    obtain ⟨c, hs, hchecked⟩ := hd
    have huserid : c.userid = userid := by simpa using List.find?_some hs
    have updated := grouped_update hg (subject_mem hs) hchecked (hm c hs)
    rw [huserid] at updated
    change GroupedById s _
    simpa [issuedFor, ClientEvent.request, hs] using updated
  | playerChangename userid newname =>
    obtain ⟨c, hs, hchecked⟩ := hd
    have huserid : c.userid = userid := by simpa using List.find?_some hs
    have updated := grouped_update hg (subject_mem hs) hchecked (hm c hs)
    rw [huserid] at updated
    change GroupedById s _
    simpa [issuedFor, ClientEvent.request, hs] using updated
  | disconnect client =>
    obtain ⟨c, hs⟩ := hd
    have hindex : c.index = client := by simpa using List.find?_some hs
    have running : client ∈ s.checkedIds := ⟨c, subject_mem hs, hindex, hm c hs⟩
    rw [GroupedById, checkedIds_disconnect]
    simpa [issuedFor, ClientEvent.request, hs, Issued.keyed] using hg.snoc_stop running

/-! Whole sequences of events. -/

variable {clip : ℕ → CString → CString} {g : SynAPI} {events : List ClientEvent}

theorem served_issued (events : List ClientEvent) (e : ClientEvent) :
    (served clip g (events ++ [e])).issued =
      (served clip g events).issued ++ issuedFor (replay Engine.after .empty events) e := by
  rw [served_snoc, deliver_issued, served_engine]
  rfl

theorem served_registered (hd : Legal Engine.after Engine.Delivers .empty events) :
    Registered (replay Engine.after .empty events) (served clip g events).issued := by
  induction events using List.reverseRecOn with
  | nil => exact .empty
  | append_singleton events e ih =>
    obtain ⟨hevents, he⟩ := legal_append.mp hd
    rw [served_issued, replay_append]
    exact (ih hevents).deliver he.1

theorem served_grouped (hd : Legal Engine.after Engine.Delivers .empty events)
    (hm : Legal Engine.after Engine.Matches .empty events) :
    GroupedById (replay Engine.after .empty events) (served clip g events).issued := by
  induction events using List.reverseRecOn with
  | nil => simpa [GroupedById, Engine.checkedIds, replay, Engine.empty, served] using Grouped.nil
  | append_singleton events e ih =>
    obtain ⟨hevents, he⟩ := legal_append.mp hd
    obtain ⟨hmatched, hme⟩ := legal_append.mp hm
    rw [served_issued, replay_append]
    exact grouped_deliver (served_registered hevents) he.1 hme.1 (ih hevents hmatched)

theorem served_attributed (hd : Legal Engine.after Engine.Delivers .empty events) :
    AtEach Issued.Attributed (served clip g events).issued ↔
      Legal Engine.after Engine.Matches .empty events := by
  induction events using List.reverseRecOn with
  | nil => exact iff_of_true atEach_nil trivial
  | append_singleton events e ih =>
    obtain ⟨hevents, he⟩ := legal_append.mp hd
    rw [served_issued, attributed_deliver (served_registered hevents) he.1, ih hevents,
      legal_append]
    simp [Legal]

theorem player_protocol_iff (clip : ℕ → CString → CString) (g : SynAPI)
    (events : List ClientEvent) (hd : Legal Engine.after Engine.Delivers .empty events) :
    PlayerProtocol (served clip g events).issued ↔
      Legal Engine.after Engine.Matches .empty events := by
  constructor
  · intro h
    exact (served_attributed hd).mp h.attributed
  · intro hm
    exact ⟨(served_grouped hd hm).isPrefix, (served_attributed hd).mpr hm⟩

theorem player_protocol_reused :
    PlayerProtocol (served (fun _ text => text) .sdkOnLoad
      [.connect 1 1, .postAdminCheck 1 (literal "a") (literal "b"), .playerScore 1 5,
        .disconnect 1, .connect 1 2, .postAdminCheck 1 (literal "c") (literal "d"),
        .disconnect 1]).issued := by
  apply (player_protocol_iff _ _ _ ?_).mpr
  · simp [Legal, Engine.Matches, Engine.subject, Engine.after, Engine.empty]
  · simp [Legal, Engine.Delivers, Engine.subject, Engine.after, Engine.empty]

theorem score_of_another_id :
    Legal Engine.after Engine.Delivers .empty
      [.connect 1 2, .postAdminCheck 1 (literal "a") (literal "b"), .playerScore 2 5] ∧
    ¬ PlayerProtocol (served (fun _ text => text) .sdkOnLoad
      [.connect 1 2, .postAdminCheck 1 (literal "a") (literal "b"), .playerScore 2 5]).issued := by
  constructor
  · simp [Legal, Engine.Delivers, Engine.subject, Engine.after, Engine.empty]
  · intro h
    have registered := h.attributed [⟨some 0, 1, .new⟩] ⟨some 0, 2, .update⟩ [] rfl (by decide)
    exact absurd registered (by decide)

end Synapi

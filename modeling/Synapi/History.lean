import Synapi.Reachable
import Synapi.Library.Replay

/-!
The strings of a handle, read back from the calls made: every change to them is
an event that says what they are after it.
-/

namespace Synapi

open Runs Relation Text Replay

variable {p : ℤ} {c : Call} {w₀ w w' w'' : World p}

def Event.view : Event → Option HandleView
  | .apiKey view | .apiKeyWrite _ _ view | .url view => some view
  | .multiAddHandle sent => some sent.view
  | _ => none

def Event.after (v : HandleView) (e : Event) : HandleView := e.view.getD v

/-- What the source does to the strings at each event. -/
def Event.Legal (v : HandleView) : Event → Prop
  | .apiKey view => ∃ key, view = v.withKey key
  | .apiKeyWrite _ data view => data ≠ [] ∧ view = v.withKey (chunkKey data)
  | .url view => ∃ url hostHeader, view = v.withUrl url hostHeader
  | .multiAddHandle sent =>
    if sent.request.apiKeyRequest then sent.view = v.cleared
    else sent.view = v ∧ v.apiKeySet = true ∧ v.encodedApiKey = some (curlEscape v.apiKey) ∧
      sent.url = snprintf 255
        (urlOf sent.request.action v.baseUrl (curlEscape v.apiKey) sent.request.userData)
  | _ => True

def Tells (v : HandleView) (events : List Event) (v' : HandleView) : Prop :=
  Recorded Event.after Event.Legal v events v'

def Extends (w w' : World p) : Prop :=
  ∃ events, w'.trace = w.trace ++ events ∧ Tells w.view events w'.view

theorem Extends.refl (w : World p) : Extends w w :=
  ⟨[], (List.append_nil _).symm, recorded_nil⟩

theorem Extends.trans (h : Extends w w') (h' : Extends w' w'') : Extends w w'' := by
  obtain ⟨first, hf, rf⟩ := h
  obtain ⟨second, hs, rs⟩ := h'
  exact ⟨first ++ second, by rw [hs, hf, List.append_assoc], rf.append rs⟩

theorem silent_plain {e : Event} (h : e.silent = true) (v : HandleView) :
    e.Legal v ∧ e.after v = v := by
  cases e <;> first | exact ⟨trivial, rfl⟩ | cases h

theorem tells_of_marks {v v' : HandleView} {events mark : List Event} (h : marks events = mark)
    (ht : Tells v mark v') : Tells v events v' := by
  have plain : ∀ e : Event, (!e.silent) = false → ∀ u, e.Legal u ∧ e.after u = u :=
    fun e he => silent_plain (by simpa using he)
  obtain ⟨hl, hr⟩ := ht
  rw [← h] at hl hr
  exact ⟨(legal_filter plain v events).mp hl,
    (replay_filter (fun e he u => (plain e he u).2) v events).symm.trans hr⟩

theorem tells_single {v : HandleView} {e : Event} (h : e.Legal v) : Tells v [e] (e.after v) :=
  recorded_single h

theorem extends_withApiKey {e : Event} {a : CharArray 256} (hm : marks [e] = [e])
    (h : e.Legal w.view) (ha : e.after w.view = (w.withApiKey a).view) :
    Extends w ((w.withApiKey a).emit e) := by
  refine ⟨_, List.append_assoc _ _ _ |>.trans (List.append_assoc _ _ _),
    tells_of_marks ?_ (ha ▸ tells_single h)⟩
  rw [marks_append, marks_free]
  exact hm

theorem Effect.extends (h : Effect c w₀ w w') (hw : Inv w) : Extends w w' := by
  cases h with
  | counters => exact ⟨[], (List.append_nil _).symm, recorded_nil⟩
  | silent _ _ hs => exact ⟨_, rfl, tells_of_marks hs recorded_nil⟩
  | queue hc hq hk =>
    exact ⟨_, List.append_assoc _ _ _, tells_of_marks rfl (tells_single trivial)⟩
  | @send env request key j k hc hset hkey hj hr hk =>
    refine ⟨_, rfl, tells_of_marks (marks_sendEvents _ _ _ _ _) (tells_single ?_)⟩
    have keyed := (hw.waiting.keyed request (SlotTable.mem_occupants.mpr ⟨j, hr⟩)).1
    obtain ⟨key', hkey', he⟩ := KeyOk.encoded hw.key hset
    rw [hkey, Option.some.injEq] at hkey'
    have encoded : w₀.view.encodedApiKey = some (curlEscape w₀.view.apiKey) := by
      change w₀.handle.encodedApiKey.map (·.val) = _
      rw [hkey, Option.map_some, hkey', he]
      rfl
    rw [Event.Legal, newSent, if_neg (by simp [keyed])]
    refine ⟨rfl, hset, encoded, ?_⟩
    rw [hkey', he]
    rfl
  | @register env query a k hc ha hk =>
    have hview : (w₀.built.sendNew env (newRequest w₀ .serversNew .post true 0 query)
        (snprintf 255 (w₀.handle.baseUrl.str ++ ascii "/servers")) k a).view = w₀.view.cleared := by
      simp [World.view, SynapiT.view, World.sendNew, World.built, HandleView.cleared, ha]
    refine ⟨_, List.append_assoc _ _ _, ?_⟩
    rw [hview]
    exact tells_of_marks ((marks_append _ _).trans (marks_sendEvents _ _ _ _ _)) (tells_single rfl)
  | setKey hc ha => exact extends_withApiKey rfl ⟨_, rfl⟩ rfl
  | setUrl hc hb hh tb th =>
    exact ⟨_, rfl, tells_single ⟨_, _, by rw [hb, hh]; rfl⟩⟩
  | write _ hc hm hrun hkey hd ha => exact extends_withApiKey rfl ⟨hd, by rw [← ha]; rfl⟩ rfl
  | complete _ hc hrun => exact ⟨[], (List.append_nil _).symm, recorded_nil⟩
  | @reap env msg rest curl k _ hc hm hk hh =>
    refine ⟨_, List.append_assoc _ _ _ |>.trans (List.append_assoc _ _ _) |>.trans
      (List.append_assoc _ _ _) |>.trans (List.append_assoc _ _ _), tells_of_marks ?_
        (tells_single (e := .multiInfoRead w.multi.messages.head?) trivial)⟩
    rw [hm, marks_append, marks_append, marks_append, marks_append, marks_free]
    rfl

theorem extends_of_effects (h : ReflTransGen (Effect c w₀) w w') (hw : Inv w) : Extends w w' := by
  induction h with
  | refl => exact .refl w
  | tail path he ih => exact ih.trans (he.extends (inv_of_effects path hw))

theorem run_extends {calls : List Call} (hw : Reachable w) (h : run step w calls = .ok w') :
    Extends w w' := by
  refine run_relates (P := Reachable) (R := Extends) Extends.refl (fun _ _ _ => Extends.trans)
    (fun s c t hs => hs.next trivial) (fun s c t hs hstep => ?_) hw h
  obtain ⟨hinv, ha⟩ := reachable_inv hs
  exact extends_of_effects (step_effects hinv ha hstep) hinv

/-- The strings of a handle that can be reached are those of a blank one,
changed as the calls made since tell. -/
theorem reachable_recorded {C : World p → Call → Prop} (h : ReachableBy C w) :
    ∃ base host, Tells ⟨false, [], none, base, host⟩ w.trace w.view := by
  refine reachable_induction
    (P := fun w => ∃ base host, Tells ⟨false, [], none, base, host⟩ w.trace w.view) ?_ ?_ h
  · intro start a i ha
    refine ⟨start.baseUrl.str, start.hostHeader.str, ?_⟩
    rw [blank_view start ha i]
    exact tells_of_marks (marks_blank start a i) recorded_nil
  · rintro c w₀ w w' hw ⟨base, host, hr⟩ he
    obtain ⟨events, ht, hr'⟩ := he.extends hw
    exact ⟨base, host, by rw [ht]; exact hr.append hr'⟩

end Synapi

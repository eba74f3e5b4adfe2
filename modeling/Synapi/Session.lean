import Synapi.Delivery
import Synapi.PlayerProtocol
import Synapi.Restart
import Synapi.PerformSpec

/-!
A session of the plugin, from its `OnPluginStart` on: what the game server
brings about, the hooks that run for it, and the calls these make of the library.
-/

namespace Synapi

open Runs Relation Text FormEncoding Replay

/-- SourceMod's copy of a text into an array of a given size. -/
structure Clip where
  cut : ℕ → CString → CString
  bounded : ∀ size s, 0 < size → (cut size s).val.length < size

-- `StringToLocal` takes as many bytes as there is room for before the NUL.
def Clip.toLocal : Clip where
  cut size s := ⟨s.val.take (size - 1), fun h => s.property (List.mem_of_mem_take h)⟩
  bounded size s hsize := Nat.lt_of_le_of_lt (List.length_take_le _ _) (by omega)

inductive ServerEvent where
  | gameFrame (env : PerformEnv)
  | updateServer (maxClients : Int32) (gameFolder ip port hostname : CString)
  | heartbeat (hostname : CString)
  | mapStart (level : CString)
  | client (e : ClientEvent)

section Hooks

variable (clip : Clip)

-- The timers of ten seconds and of five minutes.
def updateServer (maxClients : Int32) (gameFolder ip port hostname : CString) : Native :=
  .updateServer maxClients (clip.cut 64 gameFolder) (clip.cut 64 ip) (clip.cut 10 port)
    (clip.cut 64 hostname)

def heartbeat (hostname : CString) : Native := .updateServerName (clip.cut 64 hostname)

def onMapStart (level : CString) : Native := .updateServerLevel (clip.cut 64 level)

def ServerEvent.entry : ServerEvent → Option Entry
  | .gameFrame _ => some .gameFrame
  | .updateServer maxClients gameFolder ip port hostname =>
    some (.native (Synapi.updateServer clip maxClients gameFolder ip port hostname))
  | .heartbeat hostname => some (.native (Synapi.heartbeat clip hostname))
  | .mapStart level => some (.native (onMapStart clip level))
  | .client e => (e.hook clip.cut).map .native

end Hooks

def LibraryCall.call (env : PerformEnv) : LibraryCall → Option Call
  | .free => none
  | .url address header => some (.url address header)
  | .queued => some .queued
  | .perform => some (.perform env)
  | .newServer => some (.newServer env.send)
  | .updateServer options => some (.updateServer options)
  | .newPlayer options => some (.newPlayer options)
  | .updatePlayer internalId options => some (.updatePlayer internalId options)
  | .deletePlayer internalId => some (.deletePlayer internalId)
  | .heartbeat => some .heartbeat

def HandleEvent.call (env : PerformEnv) : HandleEvent → Option Call
  | .called _ c => c.call env
  | _ => none

def ServerEvent.env : ServerEvent → PerformEnv
  | .gameFrame env => env
  | _ => .smooth []

structure Session where
  g : SynAPI
  w : World 15

def ServerEvent.enter (clip : Clip) (e : ServerEvent) (g : SynAPI) : SynAPI :=
  match e.entry clip with
  | some entry => entry.enter g
  | none => g

def Session.after (clip : Clip) (s : Session) (e : ServerEvent) : Except Fault Session := do
  let g := e.enter clip s.g
  let w ← run step s.w ((g.events.drop s.g.events.length).filterMap (HandleEvent.call e.env))
  .ok ⟨g, w⟩

/-- `OnPluginStart`, on the extension in any state. -/
def Session.start (g : SynAPI) (start : Start) (env : SendEnv) (file : Option ConfigFile) :
    Except Fault Session := do
  let r ← onPluginStart start env file
  let g := match (findApiKey file 255).1 with
    | some apiKey => (smSynapiInitWithApiKey g apiKey 15).2
    | none => (smSynapiNewServer (smSynapiInit g 15).2).2
  .ok ⟨g, r.1⟩

def Session.Starts (start : Start) (env : SendEnv) (file : Option ConfigFile) (s : Session) : Prop :=
  ∃ g, Session.start g start env file = .ok s

/-- The call that the hook for the event makes; a client that connects has none. -/
def ClientEvent.call (clip : Clip) : ClientEvent → Option Call
  | .connect _ _ => none
  | .postAdminCheck client name networkId =>
    some (.newPlayer [.playerInternalId client, .playerScore 0,
      .playerName (clip.cut 64 name), .playerNetworkId (clip.cut 64 networkId)])
  | .playerScore userid score => some (.updatePlayer userid [.playerScore score])
  | .playerChangename userid newname =>
    some (.updatePlayer userid [.playerName (clip.cut 64 newname)])
  | .disconnect client => some (.deletePlayer client)

def ServerEvent.call (clip : Clip) : ServerEvent → Option Call
  | .gameFrame env => some (.perform env)
  | .updateServer maxClients gameFolder ip port hostname =>
    some (.updateServer [.serverGame (clip.cut 64 gameFolder), .serverIp (clip.cut 64 ip),
      .serverPort (clip.cut 10 port), .serverName (clip.cut 64 hostname), .serverSlots maxClients])
  | .heartbeat hostname => some (.updateServer [.serverName (clip.cut 64 hostname)])
  | .mapStart level => some (.updateServer [.serverLevel (clip.cut 64 level)])
  | .client e => e.call clip

def callsOf (clip : Clip) (es : List ServerEvent) : List Call := es.filterMap (ServerEvent.call clip)

variable {clip : Clip} {s s' s₀ : Session} {e : ServerEvent} {es : List ServerEvent}
  {start : Start} {env : SendEnv} {file : Option ConfigFile} {c : Call}

theorem Session.Starts.handle (h : s.Starts start env file) : s.g.handle.isSome = true := by
  obtain ⟨g, hg⟩ := h
  obtain ⟨r, -, hs⟩ := bind_eq_ok.mp hg
  rw [← Except.ok.inj hs]
  cases (findApiKey file 255).1 <;> rfl

theorem Session.Starts.started (h : s.Starts start env file) :
    ∃ kv, onPluginStart start env file = .ok (s.w, kv) := by
  obtain ⟨g, hg⟩ := h
  obtain ⟨r, hr, hs⟩ := bind_eq_ok.mp hg
  rw [hr, ← Except.ok.inj hs]
  exact ⟨r.2, rfl⟩

/-! One event -/

theorem enter_handle (hs : s.g.handle.isSome = true) :
    (e.enter clip s.g).handle.isSome = true := by
  obtain ⟨handle, hh⟩ := Option.isSome_iff_exists.mp hs
  have frame : (SynAPI.gameFrame s.g).handle = s.g.handle := by
    rw [SynAPI.gameFrame, hh]
    exact hh
  cases e with
  | gameFrame env => exact (congrArg Option.isSome frame).trans hs
  | client e => cases e <;> exact hs
  | _ => exact hs

theorem enter_calls (hs : s.g.handle.isSome = true) :
    ((e.enter clip s.g).events.drop s.g.events.length).filterMap (HandleEvent.call e.env) =
      (e.call clip).toList := by
  obtain ⟨handle, hh⟩ := Option.isSome_iff_exists.mp hs
  have called (call : LibraryCall) :
      ((s.g.call call).events.drop s.g.events.length).filterMap (HandleEvent.call e.env) =
        (call.call e.env).toList := by
    rw [SynAPI.call, List.drop_left]
    cases h : call.call e.env <;> simp [HandleEvent.call, h]
  have frame : SynAPI.gameFrame s.g = s.g.call .perform := by rw [SynAPI.gameFrame, hh]
  cases e with
  | gameFrame env =>
    change ((SynAPI.gameFrame s.g).events.drop _).filterMap _ = _
    rw [frame]
    exact called .perform
  | client e =>
    cases e with
    | connect =>
      change (s.g.events.drop s.g.events.length).filterMap _ = []
      rw [List.drop_length, List.filterMap_nil]
    | _ => exact called _
  | _ => exact called _

theorem after_eq (hs : s.g.handle.isSome = true) :
    s.after clip e = (run step s.w (e.call clip).toList).map (⟨e.enter clip s.g, ·⟩) := by
  rw [Session.after, enter_calls hs]
  cases run step s.w (e.call clip).toList <;> rfl

theorem after_ok (hs : s.g.handle.isSome = true) (h : s.after clip e = .ok s') :
    run step s.w (e.call clip).toList = .ok s'.w ∧ s'.g.handle.isSome = true := by
  rw [after_eq hs] at h
  obtain ⟨w, hw, rfl⟩ := map_eq_ok.mp h
  exact ⟨hw, enter_handle hs⟩

/-- A session is a run of the library. -/
theorem session_run (hs : s.g.handle.isSome = true) (h : run (Session.after clip) s es = .ok s') :
    run step s.w (callsOf clip es) = .ok s'.w := by
  induction es generalizing s with
  | nil => exact congrArg Except.ok (congrArg Session.w (Except.ok.inj h))
  | cons e es ih =>
    obtain ⟨t, ht, h⟩ := run_cons_ok.mp h
    obtain ⟨hw, hg⟩ := after_ok hs ht
    have split : callsOf clip (e :: es) = (e.call clip).toList ++ callsOf clip es := by
      rw [callsOf, List.filterMap_cons]
      cases e.call clip <;> rfl
    rw [split, run_append, hw]
    exact ih hg h

/-! The texts of the hooks are short -/

theorem percentEncode_length (s : Bytes) : (percentEncode s).length ≤ 3 * s.length := by
  induction s with
  | nil => exact Nat.le_refl _
  | cons b s ih =>
    have hb : (encodeByte b).length ≤ 3 := by
      unfold encodeByte
      split_ifs <;> simp
    rw [percentEncode, List.flatMap_cons, List.length_append, List.length_cons]
    change (encodeByte b).length + (percentEncode s).length ≤ 3 * (s.length + 1)
    omega

theorem render_length (options : List SynapiOption) (n : ℕ)
    (h : ∀ option ∈ options, option.text.length ≤ n) :
    (separated (render (optionPairs options))).length ≤ options.length * (n + 65) := by
  induction options using List.reverseRecOn with
  | nil => exact Nat.zero_le _
  | append_singleton options option ih =>
    have before := ih (fun o ho => h o (List.mem_append_left _ ho))
    have last := h option (List.mem_append_right _ List.mem_cons_self)
    have name := (attr_length option).2
    rw [attr_eq, List.length_append, List.length_singleton] at name
    have pairs : optionPairs (options ++ [option]) =
        optionPairs options ++ [(option.name, option.text)] := by
      simp [optionPairs]
    rw [pairs, separated, render_snoc, renderPair, if_neg (by simp)]
    simp only [List.length_append, List.length_cons, List.length_nil]
    rw [Nat.add_mul, Nat.one_mul]
    omega

theorem queryText_length {options : List SynapiOption} {method : SynapiMethod}
    (hl : options.length ≤ 5) (h : ∀ option ∈ options, option.text.length ≤ 189) :
    (queryText options method).length ≤ 2047 := by
  have front := render_length options 189 h
  have back : (trailer method).length ≤ 14 := by cases method <;> decide
  rw [queryText, List.length_append]
  omega

theorem clip_text (clip : Clip) (size : ℕ) (hsize : 0 < size) (hle : size ≤ 64) (s : CString) :
    (curlEscape (clip.cut size s).val).length ≤ 189 := by
  have := clip.bounded size s hsize
  have := percentEncode_length (clip.cut size s).val
  change (percentEncode (clip.cut size s).val).length ≤ 189
  omega

theorem number_text (n : Int32) : (snprintf 63 (decimal n.toInt)).length ≤ 189 := by
  have := decimal_length n.le_toInt n.toInt_lt
  rw [int32_decimal]
  omega

theorem hook_short (h : e.call clip = some c) : c.Short := by
  have text := clip_text clip 64 (by omega) (by omega)
  have port := clip_text clip 10 (by omega) (by omega)
  have number := number_text
  have zero : (snprintf 63 (decimal 0)).length ≤ 189 := number_text 0
  rintro ⟨action, method, userData, options⟩ ha
  cases e with
  | gameFrame env =>
    rw [← Option.some.inj h] at ha
    cases ha
  | client e =>
    cases e with
    | connect => cases h
    | disconnect client =>
      rw [← Option.some.inj h] at ha
      cases ha
      exact queryText_nil_length _
    | _ =>
      rw [← Option.some.inj h] at ha
      cases ha
      apply queryText_length
      · simp
      · simp [SynapiOption.text, text, number, zero]
  | _ =>
    rw [← Option.some.inj h] at ha
    cases ha
    apply queryText_length
    · simp
    · simp [SynapiOption.text, text, port, number]

/-! What can fail -/

theorem keyed_ok {w : World 15} (hw : Inv w) (ha : Addressed w) (hc : c.keyed.isSome = true)
    (hshort : c.Short) : ∃ w', step w c = .ok w' := by
  obtain ⟨⟨action, method, userData, options⟩, hkeyed⟩ := Option.isSome_iff_exists.mp hc
  have requested := (requested_of_keyed hkeyed).trans hkeyed
  have short := hshort _ requested
  have built : ∃ query, synapiBuildQueryString method options = .ok query := by
    cases options with
    | none => exact ⟨_, synapiBuildQueryString_none method⟩
    | some options => exact ⟨_, synapiBuildQueryString_short short⟩
  cases hstep : step w c with
  | ok w' => exact ⟨w', rfl⟩
  | error e =>
    obtain rfl | rfl := step_error hw ha hstep
    · cases step_outOfBounds hw ha hstep with
      | query hc' hq =>
        rw [hkeyed] at hc'
        cases hc'
        obtain ⟨query, hok⟩ := built
        rw [hok] at hq
        cases hq
      | apiKey | chunk => cases hkeyed
    · have sends := ((step_poolExhausted_iff hw ha).mp hstep).1
      cases c <;> first | exact sends.elim | cases hkeyed

theorem hook_keyed (h : e.call clip = some c) (hframe : ∀ env, e ≠ .gameFrame env) :
    c.keyed.isSome = true := by
  cases e with
  | gameFrame env => exact absurd rfl (hframe env)
  | client e =>
    cases e with
    | connect => cases h
    | _ =>
      rw [← Option.some.inj h]
      rfl
  | _ =>
    rw [← Option.some.inj h]
    rfl

/-- A game frame that a session does not survive: there is no place for the
request it sends, or a part of a response is as long as the array for the key. -/
def Session.Breaks (s : Session) : ServerEvent → Prop
  | .gameFrame env =>
    (Sends s.w (.perform env) ∧ s.w.handle.pool.lowestFree = none) ∨ Overfills s.w env
  | _ => False

theorem hook_ok (hs : s.g.handle.isSome = true) (hw : Inv s.w) (ha : Addressed s.w)
    (hframe : ∀ env, e ≠ .gameFrame env) : ∃ s', s.after clip e = .ok s' := by
  have ran : ∃ w, run step s.w (e.call clip).toList = .ok w := by
    cases hc : e.call clip with
    | none => exact ⟨s.w, rfl⟩
    | some c =>
      obtain ⟨w, hstep⟩ := keyed_ok hw ha (hook_keyed hc hframe) (hook_short hc)
      exact ⟨w, run_cons_ok.mpr ⟨w, hstep, rfl⟩⟩
  obtain ⟨w, hw⟩ := ran
  exact ⟨⟨e.enter clip s.g, w⟩, by rw [after_eq hs, hw]; rfl⟩

theorem after_ok_iff (hs : s.g.handle.isSome = true) (hw : Inv s.w) (ha : Addressed s.w) :
    (∃ s', s.after clip e = .ok s') ↔ ¬ s.Breaks e := by
  by_cases hframe : ∃ env, e = .gameFrame env
  · obtain ⟨env, rfl⟩ := hframe
    have frame : s.after clip (.gameFrame env) =
        (synapiPerform env s.w).map (⟨(ServerEvent.gameFrame env).enter clip s.g, ·⟩) := by
      rw [after_eq hs]
      change (run step s.w [.perform env]).map _ = _
      rw [run, step]
      cases synapiPerform env s.w <;> rfl
    rw [frame, Session.Breaks, not_or, ← perform_ok_iff env hw ha]
    constructor
    · rintro ⟨s', h⟩
      obtain ⟨w, hw, -⟩ := map_eq_ok.mp h
      exact ⟨w, hw⟩
    · rintro ⟨w, hw⟩
      exact ⟨_, by rw [hw]; rfl⟩
  · have quiet : ¬ s.Breaks e := by
      cases e with
      | gameFrame env => exact absurd ⟨env, rfl⟩ hframe
      | _ => exact id
    exact iff_of_true (hook_ok hs hw ha (fun env h => hframe ⟨env, h⟩)) quiet

/-! Whole sessions -/

theorem starts_reachable (h : s.Starts start env file) : Reachable s.w := by
  obtain ⟨kv, hstart⟩ := h.started
  exact onPluginStart_reachable hstart

theorem session_reachable (h : s₀.Starts start env file)
    (hrun : run (Session.after clip) s₀ es = .ok s) :
    Reachable s.w ∧ s.g.handle.isSome = true := by
  induction es using List.reverseRecOn generalizing s with
  | nil => exact Except.ok.inj hrun ▸ ⟨starts_reachable h, h.handle⟩
  | append_singleton es e ih =>
    rw [run_append] at hrun
    obtain ⟨t, ht, hrun⟩ := bind_eq_ok.mp hrun
    obtain ⟨u, hu, hrun⟩ := run_cons_ok.mp hrun
    obtain ⟨hreach, hg⟩ := ih ht
    obtain ⟨hw, hg'⟩ := after_ok hg hu
    rw [← Except.ok.inj hrun]
    exact ⟨hreach.run (fun _ _ _ _ _ _ => trivial) hw, hg'⟩

/-- No session fails but in a game frame that breaks it, whatever texts the
server and the players have. -/
theorem session_fails_iff (clip : Clip) (h : s₀.Starts start env file) (es : List ServerEvent) :
    (∃ fault, run (Session.after clip) s₀ es = .error fault) ↔
      ∃ before frame after s, es = before ++ .gameFrame frame :: after ∧
        run (Session.after clip) s₀ before = .ok s ∧ s.Breaks (.gameFrame frame) := by
  constructor
  · rintro ⟨fault, hfail⟩
    obtain ⟨before, e, after, s, hes, hs, he⟩ := run_eq_error.mp hfail
    obtain ⟨hreach, hg⟩ := session_reachable h hs
    obtain ⟨hw, ha⟩ := reachable_inv hreach
    have breaks : s.Breaks e := by
      by_contra hquiet
      obtain ⟨s', hok⟩ := (after_ok_iff hg hw ha).mpr hquiet
      rw [hok] at he
      cases he
    cases e with
    | gameFrame frame => exact ⟨before, frame, after, s, hes, hs, breaks⟩
    | _ => exact breaks.elim
  · rintro ⟨before, frame, after, s, hes, hs, breaks⟩
    obtain ⟨hreach, hg⟩ := session_reachable h hs
    obtain ⟨hw, ha⟩ := reachable_inv hreach
    cases he : s.after clip (.gameFrame frame) with
    | ok s' => exact absurd breaks ((after_ok_iff hg hw ha).mp ⟨s', he⟩)
    | error fault => exact ⟨fault, run_eq_error.mpr ⟨before, _, after, s, hes, hs, he⟩⟩

theorem session_fails_chunk : ∃ s₀ : Session,
    s₀.Starts .zero ⟨true, true⟩ none ∧
    ((∃ fault, run (Session.after .toLocal) s₀ [.mapStart (literal "zm_yar"),
        .gameFrame (.smooth [.chunk 4 (List.replicate 256 97)])] = .error fault) ↔
      ∃ before frame after s, [.mapStart (literal "zm_yar"),
          .gameFrame (.smooth [.chunk 4 (List.replicate 256 97)])] =
        before ++ .gameFrame frame :: after ∧
        run (Session.after .toLocal) s₀ before = .ok s ∧ s.Breaks (.gameFrame frame)) := by
  have started : ∃ s₀ ∈ (Session.start .sdkOnLoad .zero ⟨true, true⟩ none).toOption, True := by
    decide +kernel
  obtain ⟨s₀, hs, -⟩ := started
  exact ⟨s₀, ⟨_, eq_ok_of_toOption hs⟩, session_fails_iff .toLocal ⟨_, eq_ok_of_toOption hs⟩ _⟩

end Synapi

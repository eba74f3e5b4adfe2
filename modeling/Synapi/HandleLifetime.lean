import Synapi.Extension
import Mathlib.Data.List.Induction

/-!
The extension uses a handle only while it lives exactly when its entries come
in order.
-/

namespace Synapi

open Replay

/-- `synapi_init` has returned the handle, and it has not been freed. -/
def Live (events : List HandleEvent) (handle : ℕ) : Prop :=
  (∃ apiKey poolSize, .returned apiKey poolSize handle ∈ events) ∧
    .called (some handle) .free ∉ events

def HandleEvent.Sound (before : List HandleEvent) : HandleEvent → Prop
  | .called handle _ => ∃ h, handle = some h ∧ Live before h
  | .stored old _ => ∀ h, old = some h → ¬ Live before h
  | .returned _ _ _ | .keyRead _ => True

def HandleEvent.frees (handle : ℕ) : HandleEvent → Bool
  | .called (some h) .free => h == handle
  | _ => false

structure HandlesSound (events : List HandleEvent) : Prop where
  each : AtEach HandleEvent.Sound events
  freed_once : ∀ handle, events.countP (HandleEvent.frees handle) ≤ 1

def Entry.opens : Entry → Bool
  | .native (.init _) | .native (.initWithApiKey _ _) => true
  | _ => false

def Entry.closes : Entry → Bool
  | .native .free => true
  | _ => false

def Opened (entries : List Entry) : Prop := ∃ e ∈ entries, e.opens = true

/-- Some `synapi_init` has no `synapi_free` after it. -/
def InUse (entries : List Entry) : Prop :=
  ∃ before e after, entries = before ++ e :: after ∧ e.opens = true ∧
    ∀ x ∈ after, x.closes = false

def Entry.InOrder (before : List Entry) : Entry → Prop
  | .native (.init _) | .native (.initWithApiKey _ _) => ¬ InUse before
  | .gameFrame | .native .free => Opened before → InUse before
  | .native .getApiKey => True
  | .native _ => InUse before

theorem opened_snoc (entries : List Entry) (e : Entry) :
    Opened (entries ++ [e]) ↔ Opened entries ∨ e.opens = true := by
  simp [Opened, or_and_right, exists_or]

theorem inUse_snoc (entries : List Entry) (e : Entry) :
    InUse (entries ++ [e]) ↔ e.opens = true ∨ (InUse entries ∧ e.closes = false) := by
  constructor
  · rintro ⟨before, x, after, heq, hx, hafter⟩
    rcases snoc_eq_split heq with ⟨-, rfl, -⟩ | ⟨between, rfl, hsplit⟩
    · exact .inl hx
    · right
      constructor
      · exact ⟨before, x, between, hsplit, hx, fun z hz => hafter z (List.mem_append_left _ hz)⟩
      · apply hafter
        simp
  · rintro (he | ⟨⟨before, x, after, rfl, hx, hafter⟩, he⟩)
    · exact ⟨entries, e, [], rfl, he, by simp⟩
    · refine ⟨before, x, after ++ [e], by simp, hx, ?_⟩
      intro z hz
      rcases List.mem_append.mp hz with hz | hz
      · exact hafter z hz
      · rw [List.mem_singleton.mp hz]
        exact he

/-! What one entry does to the handles. -/

theorem live_snoc (events : List HandleEvent) (x : HandleEvent) (handle : ℕ) :
    Live (events ++ [x]) handle ↔
      (Live events handle ∨ ((∃ k n, x = .returned k n handle) ∧
        .called (some handle) .free ∉ events)) ∧ x ≠ .called (some handle) .free := by
  simp only [Live, List.mem_append, List.mem_singleton, not_or, exists_or]
  constructor
  · rintro ⟨hreturned | ⟨k, n, hx⟩, hfree, hne⟩
    · exact ⟨.inl ⟨hreturned, hfree⟩, fun h => hne h.symm⟩
    · exact ⟨.inr ⟨⟨k, n, hx.symm⟩, hfree⟩, fun h => hne h.symm⟩
  · rintro ⟨⟨hreturned, hfree⟩ | ⟨⟨k, n, hx⟩, hfree⟩, hne⟩
    · exact ⟨.inl hreturned, hfree, fun h => hne h.symm⟩
    · exact ⟨.inr ⟨k, n, hx.symm⟩, hfree, fun h => hne h.symm⟩

theorem sound_call (g : SynAPI) (c : LibraryCall) :
    AtEach HandleEvent.Sound (g.call c).events ↔
      AtEach HandleEvent.Sound g.events ∧ ∃ h, g.handle = some h ∧ Live g.events h :=
  atEach_snoc

theorem sound_init (g : SynAPI) (apiKey : Option CString) (poolSize : Int32) :
    AtEach HandleEvent.Sound (g.init apiKey poolSize).events ↔
      AtEach HandleEvent.Sound g.events ∧
        ∀ h, g.handle = some h → ¬ Live (g.events ++ [.returned apiKey poolSize g.returned]) h := by
  rw [SynAPI.init, atEach_snoc, atEach_snoc]
  simp only [HandleEvent.Sound, and_true]

structure Linked (entries : List Entry) (g : SynAPI) : Prop where
  opened : (∃ h, g.handle = some h) ↔ Opened entries
  inUse : (∃ h, g.handle = some h ∧ Live g.events h) ↔ InUse entries
  handle_lt : ∀ h, g.handle = some h → h < g.returned
  freed_lt : ∀ h, .called (some h) .free ∈ g.events → h < g.returned

namespace Linked

variable {entries : List Entry} {g : SynAPI} {e : Entry}

theorem onLoad : Linked [] .sdkOnLoad where
  opened := by simp [SynAPI.sdkOnLoad, Opened]
  inUse := by simp [SynAPI.sdkOnLoad, InUse]
  handle_lt := by simp [SynAPI.sdkOnLoad]
  freed_lt := by simp [SynAPI.sdkOnLoad]

theorem idle (hl : Linked entries g) (ho : e.opens = false) (hc : e.closes = false) :
    Linked (entries ++ [e]) g where
  opened := by
    rw [opened_snoc, ho]
    simpa using hl.opened
  inUse := by
    rw [inUse_snoc, ho, hc]
    simpa using hl.inUse
  handle_lt := hl.handle_lt
  freed_lt := hl.freed_lt

theorem ignored (hl : Linked entries g) (hh : g.handle = none) (ho : e.opens = false) :
    Linked (entries ++ [e]) g where
  opened := by
    rw [opened_snoc, ho]
    simpa using hl.opened
  inUse := by
    have unused : ¬ InUse entries := by
      rw [← hl.inUse, hh]
      simp
    rw [inUse_snoc, ho, hh]
    simp [unused]
  handle_lt := hl.handle_lt
  freed_lt := hl.freed_lt

theorem event (hl : Linked entries g) {x : HandleEvent}
    (hx : ∀ h, (∀ k n, x ≠ .returned k n h) ∧ x ≠ .called (some h) .free) :
    Linked entries { g with events := g.events ++ [x] } where
  opened := hl.opened
  inUse := by
    have same (h : ℕ) : Live (g.events ++ [x]) h ↔ Live g.events h := by
      rw [live_snoc, and_iff_left (hx h).2, or_iff_left]
      rintro ⟨⟨k, n, hreturned⟩, -⟩
      exact (hx h).1 k n hreturned
    simp only [same]
    exact hl.inUse
  handle_lt := hl.handle_lt
  freed_lt := by
    intro h hh
    rcases List.mem_append.mp hh with hh | hh
    · exact hl.freed_lt h hh
    · exact absurd (List.mem_singleton.mp hh).symm (hx h).2

theorem call (hl : Linked entries g) {c : LibraryCall} (hc : c ≠ .free) :
    Linked entries (g.call c) := by
  apply hl.event
  intro h
  constructor
  · exact nofun
  · intro heq
    injection heq with hh hfree
    exact hc hfree

theorem free (hl : Linked entries g) (ho : e.opens = false)
    (hc : e.closes = true) : Linked (entries ++ [e]) (g.call .free) where
  opened := by
    rw [opened_snoc, ho]
    simpa [SynAPI.call] using hl.opened
  inUse := by
    rw [inUse_snoc, ho, hc]
    constructor
    · rintro ⟨k, hk, hlive⟩
      apply absurd hlive.2
      rw [not_not, ← show g.handle = some k from hk]
      exact List.mem_append_right _ List.mem_cons_self
    · simp
  handle_lt := hl.handle_lt
  freed_lt := by
    intro k hk
    rcases List.mem_append.mp hk with hk | hk
    · exact hl.freed_lt k hk
    · apply hl.handle_lt
      injection List.mem_singleton.mp hk with heq
      exact heq.symm

theorem init (hl : Linked entries g) (ho : e.opens = true) (apiKey : Option CString)
    (poolSize : Int32) : Linked (entries ++ [e]) (g.init apiKey poolSize) where
  opened := by
    rw [opened_snoc, ho]
    simp [SynAPI.init]
  inUse := by
    rw [inUse_snoc, ho]
    simp only [true_or, iff_true]
    refine ⟨g.returned, rfl, ⟨apiKey, poolSize, by simp [SynAPI.init]⟩, ?_⟩
    intro hfree
    have : .called (some g.returned) .free ∈ g.events := by simpa [SynAPI.init] using hfree
    exact absurd (hl.freed_lt _ this) (Nat.lt_irrefl _)
  handle_lt := by
    intro h hh
    rw [← Option.some.inj hh]
    exact Nat.lt_succ_self _
  freed_lt := by
    intro h hh
    have : .called (some h) .free ∈ g.events := by simpa [SynAPI.init] using hh
    exact Nat.lt_succ_of_lt (hl.freed_lt h this)

end Linked

variable {entries : List Entry} {g : SynAPI}

theorem enter_linked (hl : Linked entries g) (e : Entry) :
    Linked (entries ++ [e]) (e.enter g) := by
  cases e with
  | gameFrame =>
    cases hh : g.handle with
    | none =>
      have skipped : Linked (entries ++ [.gameFrame]) g := hl.ignored hh rfl
      simpa [Entry.enter, SynAPI.gameFrame, hh] using skipped
    | some h =>
      have kept : Linked (entries ++ [.gameFrame]) g := hl.idle rfl rfl
      simpa [Entry.enter, SynAPI.gameFrame, hh] using kept.call (c := .perform) nofun
  | native n =>
    cases n with
    | init poolSize => exact (hl.init rfl none poolSize).call nofun
    | initWithApiKey apiKey poolSize => exact (hl.init rfl (some apiKey) poolSize).call nofun
    | getApiKey =>
      have kept : Linked (entries ++ [.native .getApiKey]) g := hl.idle rfl rfl
      cases hh : g.handle with
      | none => simpa [Entry.enter, Native.invoke, smSynapiGetApiKey, hh] using kept
      | some h =>
        have read := kept.event (x := .keyRead h) (fun _ => ⟨nofun, nofun⟩)
        simpa [Entry.enter, Native.invoke, smSynapiGetApiKey, hh] using read
    | free =>
      cases hh : g.handle with
      | none =>
        have skipped : Linked (entries ++ [.native .free]) g := hl.ignored hh rfl
        simpa [Entry.enter, Native.invoke, smSynapiFree, hh] using skipped
      | some h =>
        have freed : Linked (entries ++ [.native .free]) (g.call .free) := hl.free rfl rfl
        simpa [Entry.enter, Native.invoke, smSynapiFree, hh] using freed
    | _ => exact (hl.idle rfl rfl).call nofun

theorem enter_sound (hl : Linked entries g) (e : Entry) :
    AtEach HandleEvent.Sound (e.enter g).events ↔
      AtEach HandleEvent.Sound g.events ∧ e.InOrder entries := by
  have closed (hh : g.handle = none) : ¬ Opened entries := by
    rw [← hl.opened, hh]
    simp
  have opened {h : ℕ} (hh : g.handle = some h) : Opened entries := hl.opened.mp ⟨h, hh⟩
  have registration (k : Option CString) (n : Int32) :
      AtEach HandleEvent.Sound ((g.init k n).call (.url extensionUrl extensionHostHeader)).events ↔
        AtEach HandleEvent.Sound g.events ∧ ¬ InUse entries := by
    have usable : ∃ h, (g.init k n).handle = some h ∧ Live (g.init k n).events h :=
      (hl.init (e := .native (.init n)) rfl k n).inUse.mpr ((inUse_snoc _ _).mpr (.inl rfl))
    have fresh (h : ℕ) (hh : g.handle = some h) :
        Live (g.events ++ [.returned k n g.returned]) h ↔ Live g.events h := by
      have := hl.handle_lt h hh
      rw [live_snoc, and_iff_left nofun, or_iff_left]
      rintro ⟨⟨k', n', heq⟩, -⟩
      injection heq with _ _ hreturned
      omega
    rw [sound_call, sound_init, and_iff_left usable, ← hl.inUse]
    apply and_congr_right'
    constructor
    · rintro hdead ⟨h, hh, hlive⟩
      exact hdead h hh ((fresh h hh).mpr hlive)
    · intro hdead h hh hlive
      exact hdead ⟨h, hh, (fresh h hh).mp hlive⟩
  have request (c : LibraryCall) : AtEach HandleEvent.Sound (g.call c).events ↔
      AtEach HandleEvent.Sound g.events ∧ InUse entries := by
    rw [sound_call, hl.inUse]
  cases e with
  | gameFrame =>
    cases hh : g.handle with
    | none => simp [Entry.enter, SynAPI.gameFrame, hh, Entry.InOrder, closed hh]
    | some h => simp [Entry.enter, SynAPI.gameFrame, hh, request, Entry.InOrder, opened hh]
  | native n =>
    cases n with
    | init poolSize => exact registration none poolSize
    | initWithApiKey apiKey poolSize => exact registration (some apiKey) poolSize
    | getApiKey =>
      cases hh : g.handle with
      | none => simp [Entry.enter, Native.invoke, smSynapiGetApiKey, hh, Entry.InOrder]
      | some h =>
        simp [Entry.enter, Native.invoke, smSynapiGetApiKey, hh, Entry.InOrder, atEach_snoc,
          HandleEvent.Sound]
    | free =>
      cases hh : g.handle with
      | none => simp [Entry.enter, Native.invoke, smSynapiFree, hh, Entry.InOrder, closed hh]
      | some h =>
        simp [Entry.enter, Native.invoke, smSynapiFree, hh, request, Entry.InOrder, opened hh]
    | _ => exact request _

theorem entered_linked (entries : List Entry) : Linked entries (entered entries) := by
  induction entries using List.reverseRecOn with
  | nil => exact .onLoad
  | append_singleton entries e ih =>
    rw [entered_snoc]
    exact enter_linked ih e

theorem freed_once_of_each {events : List HandleEvent} (h : AtEach HandleEvent.Sound events)
    (handle : ℕ) : events.countP (HandleEvent.frees handle) ≤ 1 := by
  induction events using List.reverseRecOn with
  | nil => simp
  | append_singleton events x ih =>
    obtain ⟨hevents, hx⟩ := atEach_snoc.mp h
    rw [List.countP_append, List.countP_singleton]
    by_cases hfrees : x.frees handle = true
    · have hcalled : x = .called (some handle) .free := by
        unfold HandleEvent.frees at hfrees
        split at hfrees
        · rw [beq_iff_eq.mp hfrees]
        · cases hfrees
      obtain ⟨k, hk, hlive⟩ := (show HandleEvent.Sound events (.called (some handle) .free) from
        hcalled ▸ hx)
      have none : events.countP (HandleEvent.frees handle) = 0 := by
        apply List.countP_eq_zero.mpr
        intro y hy hfreed
        unfold HandleEvent.frees at hfreed
        split at hfreed
        · apply hlive.2
          rw [← Option.some.inj hk, ← beq_iff_eq.mp hfreed]
          exact hy
        · cases hfreed
      rw [if_pos hfrees, none]
    · rw [if_neg hfrees]
      exact ih hevents

theorem handles_sound_iff (entries : List Entry) :
    HandlesSound (entered entries).events ↔ AtEach Entry.InOrder entries := by
  have each : AtEach HandleEvent.Sound (entered entries).events ↔
      AtEach Entry.InOrder entries := by
    induction entries using List.reverseRecOn with
    | nil => exact iff_of_true atEach_nil atEach_nil
    | append_singleton entries e ih =>
      rw [entered_snoc, enter_sound (entered_linked entries), atEach_snoc, ih]
  constructor
  · intro h
    exact each.mp h.each
  · intro h
    exact ⟨each.mpr h, freed_once_of_each (each.mpr h)⟩

theorem frame_after_free :
    ¬ HandlesSound (entered [.native (.init 15), .native .free, .gameFrame]).events := by
  intro h
  obtain ⟨k, hk, hlive⟩ := h.each (entered [.native (.init 15), .native .free]).events
    (.called (some 0) .perform) [] rfl
  apply hlive.2
  rw [← Option.some.inj hk]
  exact List.mem_of_getLast? rfl

end Synapi

import Synapi.Steps

/-!
The handles that can be reached: `synapi_init` is a run of the setters from a
blank handle, and every run after it a sequence of effects.
-/

namespace Synapi

open Runs Relation Text

variable {p : ℤ}

def initCalls : Option CString → List Call
  | some key => [.apiKey (key.val ++ [0]) (toInt key.val.length), .url defaultUrl defaultHostHeader]
  | none => [.url defaultUrl defaultHostHeader]

theorem synapiInit_run (start : Start) (apiKey : Option CString) (poolSize : ℤ) :
    ∃ a, a.str = [] ∧ synapiInit start apiKey poolSize =
      run step ((blank start a poolSize).setI poolSize.toNat) (initCalls apiKey) := by
  obtain ⟨a, ha, hs, -⟩ := CharArray.store_zero (a := start.apiKey) (k := 0) (by omega)
  refine ⟨a, hs.trans List.take_zero, ?_⟩
  have last (w : World poolSize) :
      run step w [.url defaultUrl defaultHostHeader] = synapiUrl w defaultUrl defaultHostHeader := by
    cases hr : synapiUrl w defaultUrl defaultHostHeader <;> simp only [run, step, hr]
  simp only [synapiInit, ha, inBounds, ok_bind, initLoop]
  cases apiKey with
  | none => rw [initCalls, last]
  | some key =>
    rw [initCalls, run, step]
    cases hr : setApiKey ((blank start a poolSize).setI poolSize.toNat) (key.val ++ [0])
        (toInt key.val.length) with
    | error e => simp only [hr, error_bind]
    | ok w => simp only [hr, last, ok_bind]

theorem blank_inv {start : Start} {a : CharArray 256} (ha : a.str = []) (i : ℤ) :
    Inv ((blank start a p).setI i) := by
  refine ⟨ha, ⟨?_, ?_, ?_⟩, ⟨?_, ?_, ?_, ?_, ?_, ?_, ?_⟩⟩ <;>
    simp [blank, World.setI, SlotTable.occupants_empty, transfers]

theorem blank_view (start : Start) {a : CharArray 256} (ha : a.str = []) (i : ℤ) :
    ((blank start a p).setI i).view =
      ⟨false, [], none, start.baseUrl.str, start.hostHeader.str⟩ := by
  simp [World.view, SynapiT.view, blank, World.setI, ha]

theorem marks_blank (start : Start) (a : CharArray 256) (i : ℤ) :
    marks ((blank start a p).setI i).trace = [] := by
  refine List.filter_eq_nil_iff.mpr (fun e he => ?_)
  rcases List.mem_cons.mp he with rfl | he
  · exact Bool.false_ne_true
  · obtain ⟨addr, -, rfl⟩ := List.mem_map.mp he
    exact Bool.false_ne_true

def Call.Sets : Call → Prop
  | .apiKey _ _ | .url _ _ => True
  | _ => False

theorem initCalls_sets {apiKey : Option CString} {c : Call} (h : c ∈ initCalls apiKey) : c.Sets := by
  cases apiKey with
  | none => rw [List.mem_singleton.mp h]; trivial
  | some key =>
    rcases List.mem_cons.mp h with rfl | h
    · trivial
    · rw [List.mem_singleton.mp h]; trivial

theorem setter_effects {w w' : World p} {c : Call} (hc : c.Sets) (h : step w c = .ok w') :
    ReflTransGen (Effect c w) w w' := by
  have acts : Acts c w w (step w c) := by
    cases c with
    | apiKey newApiKey size => exact setKey_acts
    | url url hostHeader => exact setUrl_acts
    | _ => exact hc.elim
  rw [h] at acts
  exact acts

theorem setUrl_addressed {w w' : World p} {url hostHeader : CString}
    (h : synapiUrl w url hostHeader = .ok w') : Addressed w' := by
  obtain ⟨base, host, -, -, tb, th, hr⟩ := synapiUrl_ok w url hostHeader
  rw [hr] at h
  rw [← Except.ok.inj h]
  exact ⟨tb, th⟩

theorem synapiInit_url {start : Start} {apiKey : Option CString} {w : World p}
    (h : synapiInit start apiKey p = .ok w) :
    ∃ u : World p, synapiUrl u defaultUrl defaultHostHeader = .ok w := by
  obtain ⟨a, -, hrun⟩ := synapiInit_run start apiKey p
  rw [hrun] at h
  cases apiKey with
  | none =>
    obtain ⟨w₁, hurl, h⟩ := run_cons_ok.mp h
    rw [← Except.ok.inj h]
    exact ⟨_, hurl⟩
  | some key =>
    obtain ⟨w₁, -, h⟩ := run_cons_ok.mp h
    obtain ⟨w₂, hurl, h⟩ := run_cons_ok.mp h
    rw [← Except.ok.inj h]
    exact ⟨_, hurl⟩

theorem synapiInit_addressed {start : Start} {apiKey : Option CString} {w : World p}
    (h : synapiInit start apiKey p = .ok w) : Addressed w := by
  obtain ⟨u, hurl⟩ := synapiInit_url h
  exact setUrl_addressed hurl

section Induction

variable {C : World p → Call → Prop} {P : World p → Prop}

theorem effects_invariant {c : Call} {w₀ w' : World p}
    (heff : ∀ w w', ReflTransGen (Effect c w₀) w₀ w → P w → Effect c w₀ w w' → P w')
    (h : ReflTransGen (Effect c w₀) w₀ w') (hP : P w₀) : P w' := by
  induction h with
  | refl => exact hP
  | tail path he ih => exact heff _ _ path ih he

theorem synapiInit_invariant (hset : ∀ w c, Call.Sets c → C w c)
    (hblank : ∀ start a i, a.str = [] → P ((blank start a p).setI i))
    (heff : ∀ c w₀ w w', C w₀ c → Inv w₀ → ReflTransGen (Effect c w₀) w₀ w → P w →
      Effect c w₀ w w' → P w')
    {start : Start} {apiKey : Option CString} {w : World p}
    (h : synapiInit start apiKey p = .ok w) : Inv w ∧ P w := by
  obtain ⟨a, ha, hrun⟩ := synapiInit_run start apiKey p
  rw [hrun] at h
  have all : ∀ (calls : List Call) (u : World p), (∀ c ∈ calls, c.Sets) → Inv u ∧ P u →
      run step u calls = .ok w → Inv w ∧ P w := by
    intro calls
    induction calls with
    | nil => intro u _ hu h; exact Except.ok.inj h ▸ hu
    | cons c calls ih =>
      intro u hc hu h
      obtain ⟨v, hv, h⟩ := run_cons_ok.mp h
      have hset' := hc c List.mem_cons_self
      have effects := setter_effects hset' hv
      refine ih v (fun d hd => hc d (List.mem_cons_of_mem c hd)) ⟨inv_of_effects effects hu.1, ?_⟩ h
      exact effects_invariant (fun w w' => heff c u w w' (hset u c hset') hu.1) effects hu.2
  exact all _ _ (fun c => initCalls_sets) ⟨blank_inv ha _, hblank start a _ ha⟩ h

/-- What holds of a blank handle and is kept by every effect of a call that
meets `C` holds of every handle reached by such calls. -/
theorem reachableBy_invariant (hset : ∀ w c, Call.Sets c → C w c)
    (hblank : ∀ start a i, a.str = [] → P ((blank start a p).setI i))
    (heff : ∀ c w₀ w w', C w₀ c → Inv w₀ → ReflTransGen (Effect c w₀) w₀ w → P w →
      Effect c w₀ w w' → P w')
    {w : World p} (h : ReachableBy C w) : P w := by
  have all : (Inv w ∧ P w) ∧ Addressed w := by
    refine h.invariant (P := fun w => (Inv w ∧ P w) ∧ Addressed w) ?_ ?_
    · rintro s ⟨start, apiKey, hinit⟩
      exact ⟨synapiInit_invariant hset hblank heff hinit, synapiInit_addressed hinit⟩
    · rintro s c t ⟨⟨hinv, hP⟩, ha⟩ hc hstep
      have effects := step_effects hinv ha hstep
      exact ⟨⟨inv_of_effects effects hinv, effects_invariant (fun w w' => heff c s w w' hc hinv) effects hP⟩,
        addressed_of_effects effects ha⟩
  exact all.1.2

theorem reachableBy_reachable {w : World p} (h : ReachableBy C w) : Reachable w :=
  h.mono (fun _ _ _ => trivial)

theorem reachable_induction (hblank : ∀ start a i, a.str = [] → P ((blank start a p).setI i))
    (heff : ∀ c w₀ w w', Inv w → P w → Effect c w₀ w w' → P w') {w : World p}
    (h : ReachableBy C w) : P w := by
  refine reachableBy_invariant (C := fun _ _ => True) (fun _ _ _ => trivial) hblank ?_
    (reachableBy_reachable h)
  intro c w₀ w w' _ hinv path hP he
  exact heff c w₀ w w' (inv_of_effects path hinv) hP he

theorem reachable_inv {w : World p} (h : ReachableBy C w) : Inv w ∧ Addressed w := by
  apply (reachableBy_reachable h).invariant (P := fun w => Inv w ∧ Addressed w)
  · rintro s ⟨start, apiKey, hinit⟩
    exact ⟨(synapiInit_invariant (C := fun _ _ => True) (P := fun _ => True) (fun _ _ _ => trivial)
      (fun _ _ _ _ => trivial) (fun _ _ _ _ _ _ _ _ _ => trivial) hinit).1,
      synapiInit_addressed hinit⟩
  · rintro s c t ⟨hinv, ha⟩ - hstep
    have effects := step_effects hinv ha hstep
    exact ⟨inv_of_effects effects hinv, addressed_of_effects effects ha⟩

end Induction

end Synapi

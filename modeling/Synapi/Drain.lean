import Synapi.PerformSpec
import Synapi.PoolBound

/-!
The loop that drains a handle, `while (synapi_queued(handle) != 0)
synapi_perform(handle)`.
-/

namespace Synapi

open Runs Text

variable {p : ℤ} {w w' : World p} {env : PerformEnv} {envs : ℕ → PerformEnv}

def waiting (w : World p) : ℕ := w.handle.requests.occupants.length

def flying (w : World p) : ℕ := w.handle.pool.occupants.length

def backlog (w : World p) : ℕ := 2 * waiting w + flying w

-- `fuel` bounds how often the condition is tested; the passes are counted.
def drain : ℕ → (ℕ → PerformEnv) → World p → Except Fault (ℕ × World p)
  | 0, _, _ => .error .stillRunning
  | fuel + 1, envs, w => do
    let (w, number) ← synapiQueued w
    if number ≠ 0 then
      let w ← synapiPerform (envs 0) w
      let (passes, w) ← drain fuel (fun k => envs (k + 1)) w
      .ok (passes + 1, w)
    else .ok (0, w)

/-- `P` holds of the first `n` calls of `synapi_perform` in the loop. -/
def AtEachPerform (P : World p → PerformEnv → Prop) : ℕ → (ℕ → PerformEnv) → World p → Prop
  | 0, _, _ => True
  | n + 1, envs, w => ∀ u number, synapiQueued w = .ok (u, number) → number ≠ 0 →
      P u (envs 0) ∧ ∀ u', synapiPerform (envs 0) u = .ok u' →
        AtEachPerform P n (fun k => envs (k + 1)) u'

def Reports (w : World p) (env : PerformEnv) : Prop :=
  ∀ w', synapiPerform env w = .ok w' → reads w'.trace ≠ reads w.trace

structure Drainable (w : World p) : Prop where
  keySet : w.handle.apiKeySet = true
  fits : waiting w + flying w ≤ p.toNat

def Lowers (env : PerformEnv) (w : World p) : Prop :=
  ∃ w', synapiPerform env w = .ok w' ∧
    if waiting w = 0 ∧ reads w'.trace = reads w.trace then backlog w' = backlog w
    else backlog w' < backlog w

/-- The loop ends after `n` passes, with both tables empty and each request
that waited sent once. -/
def Drains (n fuel : ℕ) (envs : ℕ → PerformEnv) (w : World p) : Prop :=
  ∃ w' news, drain fuel envs w = .ok (n, w') ∧ waiting w' = 0 ∧ flying w' = 0 ∧
    sents w'.trace = sents w.trace ++ news ∧
      news.map Sent.request = w.handle.requests.occupants

/-! One pass -/

theorem sents_count (h : Reachable w) :
    (sents w.trace).length = (reads w.trace).length + flying w := by
  have books := (reachable_accounts h).transfers.length_eq
  rwa [List.length_append, List.length_map, List.length_map, List.length_map] at books

theorem perform_counts (h : Reachable w) (hset : w.handle.apiKeySet = true)
    (hstep : synapiPerform env w = .ok w') :
    waiting w' = waiting w - 1 ∧ (reads w.trace).length ≤ (reads w'.trace).length ∧
      (reads w'.trace).length ≤ (reads w.trace).length + 1 ∧
        flying w' + (reads w'.trace).length =
          flying w + min 1 (waiting w) + (reads w.trace).length := by
  obtain ⟨hinv, ha⟩ := reachable_inv h
  have performed := perform_spec hinv ha hstep
  obtain ⟨news, hsents, hnews⟩ := performed.sents
  obtain ⟨msg, hreads⟩ := performed.reads
  have count := sents_count h
  have count' := sents_count (h.next (c := .perform env) trivial hstep)
  have sent : news.length = min 1 (waiting w) := by
    rw [← List.length_map Sent.request, hnews, if_pos hset, List.length_take, waiting]
  have read : msg.toList.length ≤ 1 := by cases msg <;> simp
  rw [hsents, hreads, List.length_append, List.length_append, sent] at count'
  refine ⟨?_, ?_, ?_, ?_⟩
  · rw [waiting, performed.requests, if_pos hset, List.length_drop, waiting]
  · rw [hreads, List.length_append]
    omega
  · rw [hreads, List.length_append]
    omega
  · rw [hreads, List.length_append]
    omega

theorem reports_length (h : Reachable w) (hstep : synapiPerform env w = .ok w')
    (hr : reads w'.trace ≠ reads w.trace) :
    (reads w.trace).length < (reads w'.trace).length := by
  obtain ⟨hinv, ha⟩ := reachable_inv h
  obtain ⟨msg, hreads⟩ := (perform_spec hinv ha hstep).reads
  cases msg with
  | none => exact absurd (hreads.trans (List.append_nil _)) hr
  | some msg => simp [hreads]

theorem room_of_drainable (hd : Drainable w) :
    ¬ (Sends w (.perform env) ∧ w.handle.pool.lowestFree = none) := by
  rintro ⟨⟨-, hused⟩, hfull⟩
  have hpool := (SlotTable.lowestFree_eq_none_iff _).mp hfull
  have hempty : waiting w = 0 := by
    have := hd.fits
    rw [flying, hpool] at this
    omega
  obtain ⟨j, hj⟩ := Option.ne_none_iff_exists'.mp hused
  obtain ⟨-, ⟨r, hr⟩, -⟩ := SlotTable.lowestUsed_some hj
  have hmem := SlotTable.mem_occupants.mpr ⟨j, hr⟩
  rw [List.eq_nil_of_length_eq_zero hempty] at hmem
  cases hmem

theorem perform_drainable (h : Reachable w) (hd : Drainable w)
    (hstep : synapiPerform env w = .ok w') : Drainable w' := by
  obtain ⟨hinv, ha⟩ := reachable_inv h
  have counts := perform_counts h hd.keySet hstep
  have fits := hd.fits
  exact ⟨(perform_spec hinv ha hstep).keySet hd.keySet, by omega⟩

theorem lowers_iff (h : Reachable w) (hd : Drainable w) : Lowers env w ↔ ¬ Overfills w env := by
  obtain ⟨hinv, ha⟩ := reachable_inv h
  have ok := perform_ok_iff env hinv ha
  rw [and_iff_right (room_of_drainable hd)] at ok
  rw [← ok]
  constructor
  · rintro ⟨w', hstep, -⟩
    exact ⟨w', hstep⟩
  · rintro ⟨w', hstep⟩
    refine ⟨w', hstep, ?_⟩
    have counts := perform_counts h hd.keySet hstep
    unfold backlog
    split_ifs with hidle
    · rw [hidle.2] at counts
      omega
    · rw [not_and_or] at hidle
      rcases hidle with hwaits | hr
      · omega
      · have := reports_length h hstep hr
        omega

/-! The loop -/

theorem queued_drainable (h : Reachable w) (hd : Drainable w) : ∃ u, Reachable u ∧ Drainable u ∧
    synapiQueued w = .ok (u, (flying w + waiting w : ℤ)) ∧ u.handle = w.handle ∧
      u.trace = w.trace := by
  obtain ⟨i, hi⟩ := synapiQueued_ok w
  rw [if_pos hd.keySet] at hi
  refine ⟨w.setI i, h.next (c := .queued) trivial ?_, ⟨hd.keySet, hd.fits⟩, hi, rfl, rfl⟩
  rw [step, hi]
  rfl

theorem drain_pass {u : World p} {number : ℤ} (fuel : ℕ) (hq : synapiQueued w = .ok (u, number))
    (hn : number ≠ 0) : drain (fuel + 1) envs w = (do
      let w ← synapiPerform (envs 0) u
      let (passes, w) ← drain fuel (fun k => envs (k + 1)) w
      .ok (passes + 1, w)) := by
  rw [drain, hq, ok_bind]
  exact if_pos hn

theorem drain_end {u : World p} (fuel : ℕ) (hq : synapiQueued w = .ok (u, 0)) :
    drain (fuel + 1) envs w = .ok (0, u) := by
  rw [drain, hq, ok_bind]
  exact if_neg (not_not.mpr rfl)

theorem drain_safe (h : Reachable w) (hd : Drainable w) {fuel : ℕ} {result : ℕ × World p}
    (hok : drain fuel envs w = .ok result) (n : ℕ) :
    AtEachPerform (fun u env => ¬ Overfills u env) n envs w := by
  induction n generalizing w envs fuel result with
  | zero => trivial
  | succ n ih =>
    obtain ⟨u, hu, hdu, hq, -, -⟩ := queued_drainable h hd
    rintro v number hv hnumber
    rw [hq] at hv
    obtain ⟨rfl, rfl⟩ := Prod.mk.inj (Except.ok.inj hv)
    cases fuel with
    | zero => cases hok
    | succ fuel =>
      rw [drain_pass fuel hq hnumber] at hok
      obtain ⟨w', hstep, hok⟩ := bind_eq_ok.mp hok
      obtain ⟨later, hlater, -⟩ := bind_eq_ok.mp hok
      obtain ⟨hinv, ha⟩ := reachable_inv hu
      refine ⟨((perform_ok_iff _ hinv ha).mp ⟨w', hstep⟩).2, fun u' hu' => ?_⟩
      rw [hstep] at hu'
      obtain rfl := Except.ok.inj hu'
      exact ih (hu.next (c := .perform _) trivial hstep) (perform_drainable hu hdu hstep) hlater

theorem drains_empty (h : Reachable w) (hd : Drainable w) (hn : waiting w + flying w = 0)
    (fuel : ℕ) : Drains 0 (fuel + 1) envs w := by
  obtain ⟨u, -, -, hq, hhandle, htrace⟩ := queued_drainable h hd
  rw [show (flying w + waiting w : ℤ) = 0 by omega] at hq
  have none : w.handle.requests.occupants = [] := by
    apply List.eq_nil_of_length_eq_zero
    rw [← waiting]
    omega
  refine ⟨u, [], drain_end fuel hq, ?_, ?_, ?_, none.symm⟩
  · rw [waiting, hhandle, ← waiting]
    omega
  · rw [flying, hhandle, ← flying]
    omega
  · rw [htrace, List.append_nil]

theorem drains (h : Reachable w) (hd : Drainable w) {n fuel : ℕ} (hn : waiting w + flying w = n)
    (hfuel : n < fuel) (hr : AtEachPerform Reports n envs w)
    (hs : AtEachPerform (fun u env => ¬ Overfills u env) n envs w) : Drains n fuel envs w := by
  induction n generalizing w envs fuel with
  | zero =>
    obtain ⟨fuel, rfl⟩ : ∃ m, fuel = m + 1 := ⟨fuel - 1, by omega⟩
    exact drains_empty h hd hn fuel
  | succ n ih =>
    obtain ⟨fuel, rfl⟩ : ∃ m, fuel = m + 1 := ⟨fuel - 1, by omega⟩
    obtain ⟨u, hu, hdu, hq, hhandle, htrace⟩ := queued_drainable h hd
    obtain ⟨hinv, ha⟩ := reachable_inv hu
    have hnumber : (flying w + waiting w : ℤ) ≠ 0 := by omega
    obtain ⟨hreports, hr⟩ := hr u _ hq hnumber
    obtain ⟨hsafe, hs⟩ := hs u _ hq hnumber
    obtain ⟨w', hstep⟩ := (perform_ok_iff (envs 0) hinv ha).mpr ⟨room_of_drainable hdu, hsafe⟩
    obtain ⟨hwaiting, hread, hone, hflying⟩ := perform_counts hu hdu.keySet hstep
    have counts : waiting u + flying u = n + 1 := by
      rw [waiting, flying, hhandle]
      exact hn
    have hw' : waiting w' + flying w' = n := by
      have := reports_length hu hstep (hreports w' hstep)
      omega
    obtain ⟨last, later, hlast, hnone, hnone', hsents', hlater⟩ :=
      ih (hu.next (c := .perform _) trivial hstep) (perform_drainable hu hdu hstep) hw'
        (Nat.lt_of_succ_lt_succ hfuel) (hr w' hstep) (hs w' hstep)
    have performed := perform_spec hinv ha hstep
    obtain ⟨news, hsents, hnews⟩ := performed.sents
    refine ⟨last, news ++ later, ?_, hnone, hnone', ?_, ?_⟩
    · rw [drain_pass fuel hq hnumber, hstep, ok_bind, hlast, ok_bind]
    · rw [hsents', hsents, htrace, List.append_assoc]
    · rw [List.map_append, hnews, hlater, performed.requests, if_pos hdu.keySet,
        if_pos hdu.keySet, List.take_append_drop, hhandle]

/-- With room for every request, a call of `synapi_perform` fails only on a part
of a response that fills the key array, and so does the loop. -/
theorem drain_iff (h : Reachable w) (hd : Drainable w) :
    (∀ env, Lowers env w ↔ ¬ Overfills w env) ∧
    ∀ envs fuel, waiting w + flying w < fuel → AtEachPerform Reports (waiting w + flying w) envs w →
      (Drains (waiting w + flying w) fuel envs w ↔
        AtEachPerform (fun u env => ¬ Overfills u env) (waiting w + flying w) envs w) := by
  refine ⟨fun env => lowers_iff h hd, fun envs fuel hfuel hr => ⟨?_, drains h hd rfl hfuel hr⟩⟩
  rintro ⟨w', news, hok, -⟩
  exact drain_safe h hd hok _

theorem drain_heartbeat : ∃ w : World 1, waiting w = 1 ∧ flying w = 0 ∧
    Lowers (.smooth []) w ∧ Drains 1 2 (fun _ => .smooth [.done 8 (.response 200)]) w := by
  have run : ∃ w ∈ trial (p := 1) (fun _ _ => True) (some (literal "SYN:S:1:ab")) [.heartbeat],
      w.handle.apiKeySet = true ∧ waiting w = 1 ∧ flying w = 0 ∧
        ∃ s ∈ (synapiQueued w).toOption,
          ∃ w' ∈ (synapiPerform (.smooth [.done 8 (.response 200)]) s.1).toOption,
            reads w'.trace ≠ reads s.1.trace := by
    decide +kernel
  obtain ⟨w, hw, hset, hwaiting, hflying, ⟨u, number⟩, hu, w', hw', hread⟩ := trial_exists run
  have hd : Drainable w := ⟨hset, by omega⟩
  obtain ⟨lowers, loop⟩ := drain_iff hw hd
  rw [hwaiting, hflying] at loop
  refine ⟨w, hwaiting, hflying, (lowers _).mpr And.right, (loop _ 2 (by omega) ?_).mpr ?_⟩
  · rintro v m hv -
    rw [eq_ok_of_toOption hu] at hv
    obtain ⟨rfl, rfl⟩ := Prod.mk.inj (Except.ok.inj hv)
    refine ⟨fun v' hv' => ?_, fun _ _ => trivial⟩
    rw [eq_ok_of_toOption hw'] at hv'
    rw [← Except.ok.inj hv']
    exact hread
  · exact fun v m _ _ => ⟨And.right, fun _ _ => trivial⟩

theorem drain_overrun : ∃ w : World 1, Reachable w ∧ Drainable w ∧ ∃ env, ¬ Lowers env w := by
  have run : ∃ w ∈ trial (p := 1) (fun _ _ => True) none
      [.newServer ⟨true, true⟩, .apiKey (ascii "a") 1],
      w.handle.apiKeySet = true ∧ waiting w = 0 ∧ flying w = 1 ∧
        (synapiPerform (.smooth [.chunk 7 (List.replicate 256 97)]) w).map (fun _ => ()) =
          .error .outOfBounds := by
    decide +kernel
  obtain ⟨w, hw, hset, hwaiting, hflying, hfault⟩ := trial_exists run
  refine ⟨w, hw, ⟨hset, by omega⟩, .smooth [.chunk 7 (List.replicate 256 97)], ?_⟩
  rintro ⟨w', hstep, -⟩
  rw [map_eq_error hfault] at hstep
  cases hstep

end Synapi

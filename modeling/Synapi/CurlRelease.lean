import Synapi.CurlRun
import Synapi.Ownership

/-!
`synapi_free` in the memory of libcurl: the multi handle goes first, and after
it the easy handles that have been added to it.
-/

namespace Synapi

open Runs Ring

variable {p : ℤ} {w : World p} {m : CurlMulti} {network : ℕ → ℕ → Transfer}

/-- Nothing is left of what libcurl has made. -/
structure CurlMulti.Released (m : CurlMulti) : Prop where
  easy : ∀ k, m.easy.cells k = none
  msglist : ∀ k, m.msglist.memory.cells k = none
  sessions : ∀ x, m.sessions x = none

theorem follow_close {handles : List ℕ} {x : ℕ} (h : m.Owns handles []) (hx : x ∈ handles)
    (walks : ℕ) : CurlSide.follow network ⟨m, walks⟩ (.easyCleanup (some x)) =
      .ok ⟨m.setSession x none, walks⟩ := by
  obtain ⟨data, hdata⟩ := Option.isSome_iff_exists.mp ((h.handles x).mpr hx)
  apply follow_cleanup hdata
  cases hmulti : data.multi with
  | false => rfl
  | true => exact absurd (h.added x data hdata hmulti) List.not_mem_nil

theorem close_all (l : List SynapiCurlHandle)
    (h : m.Owns (l.filterMap SynapiCurlHandle.handle) [])
    (hnodup : (l.filterMap SynapiCurlHandle.handle).Nodup) (walks : ℕ) :
    ∃ m', run (CurlSide.follow network) ⟨m, walks⟩ (l.flatMap SynapiCurlHandle.freeEvents) =
        .ok ⟨m', walks⟩ ∧
      m'.easy = m.easy ∧ m'.msglist = m.msglist ∧ ∀ x, m'.sessions x = none := by
  induction l generalizing m with
  | nil =>
    refine ⟨m, rfl, rfl, rfl, fun x => ?_⟩
    apply Option.not_isSome_iff_eq_none.mp
    exact fun hx => List.not_mem_nil ((h.handles x).mp hx)
  | cons curl l ih =>
    cases hc : curl.handle with
    | none =>
      rw [List.filterMap_cons_none hc] at h hnodup
      obtain ⟨m', hrun, hsame⟩ := ih h hnodup
      refine ⟨m', ?_, hsame⟩
      rw [List.flatMap_cons, SynapiCurlHandle.freeEvents, hc]
      exact hrun
    | some x =>
      rw [List.filterMap_cons_some hc] at h hnodup
      obtain ⟨hx, hnodup⟩ := List.nodup_cons.mp hnodup
      have rest : (m.setSession x none).Owns (l.filterMap SynapiCurlHandle.handle) [] := by
        refine h.close rfl (fun y => ?_) (fun y hy _ => hy)
        rw [List.mem_cons]
        constructor
        · exact fun hy => ⟨.inr hy, fun heq => hx (heq ▸ hy)⟩
        · exact fun hy => hy.1.resolve_left hy.2
      obtain ⟨m', hrun, heasy, hlist, hnone⟩ := ih rest hnodup
      refine ⟨m', ?_, heasy, hlist, hnone⟩
      have close : CurlSide.follow network ⟨m, walks⟩ (.easyCleanup (some x)) =
          .ok ⟨m.setSession x none, walks⟩ := follow_close h List.mem_cons_self walks
      rw [List.flatMap_cons, SynapiCurlHandle.freeEvents, hc, List.cons_append, run, close]
      exact hrun

/-- After every run `synapi_free` goes through in the memory of libcurl, and
leaves nothing there. -/
theorem libcurl_released (hmemory : ∀ d x, (network d x).memory = true)
    (h : ReachableBy (Networked network) w) :
    ∃ w' s, synapiFree w = .ok w' ∧ run (CurlSide.follow network) .start w'.trace = .ok s ∧
      s.multi.Released := by
  obtain ⟨⟨hw, -⟩, s, hrun, hs⟩ := reachable_followed hmemory h
  obtain ⟨ring, queue, shows⟩ := hs.multi
  obtain ⟨m₁, hcleanup, heasy, hlist, owns⟩ := CurlMulti.cleanup_spec shows hs.owns
  obtain ⟨m₂, hclose, heasy₂, hlist₂, hnone⟩ :=
    close_all w.handle.pool.occupants owns hw.flight.transfers_nodup s.walks
  obtain ⟨w', hfree, htrace⟩ := synapiFree_ok w
  refine ⟨w', ⟨m₂, s.walks⟩, hfree, ?_, ?_, ?_, hnone⟩
  · have multi : s.follow network .multiCleanup = .ok ⟨m₁, s.walks⟩ := by
      rw [CurlSide.follow, hcleanup]
      rfl
    rw [htrace, run_append, hrun, ok_bind, run, multi]
    change run _ _ (_ ++ _) = _
    rw [run_append, hclose]
    rfl
  · rw [heasy₂]
    exact heasy
  · intro k
    rw [hlist₂]
    cases hcell : m₁.msglist.memory.cells k with
    | none => rfl
    | some a => exact absurd ((hlist.memory.stored k a).mp hcell) List.not_mem_nil

theorem libcurl_released_registration : ∃ w : World 2, w.multi.added.map Easy.id = [7] ∧
    ∃ w' s, synapiFree w = .ok w' ∧ run (CurlSide.follow twoWalks) .start w'.trace = .ok s ∧
      s.multi.Released := by
  have start : ∃ w ∈ trial (p := 2) (Networked twoWalks) none [.newServer ⟨true, true⟩,
      .perform (.smooth [.chunk 7 (Text.ascii "SYN:S:1:ab")])],
      w.multi.added.map Easy.id = [7] := by
    decide +kernel
  obtain ⟨w, hw, hadded⟩ := trial_exists start
  exact ⟨w, hadded, libcurl_released twoWalks_memory hw⟩

end Synapi

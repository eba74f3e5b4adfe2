import Synapi.CurlMulti
import Mathlib.Data.List.Forall2

/-!
What the functions of the multi handle do: the ring holds the added handles in
the order they were added, each with its state, and the messages point into it.
-/

namespace Synapi

open Runs Ring

/-- The element points to this message, in a node of the ring. -/
def Posted (ring : List (ℕ × CurlOneEasy)) (q : ℕ × ℕ) (msg : CurlMsg) : Prop :=
  ∃ n, (q.2, n) ∈ ring ∧ n.state = .msgSent ∧ n.msg = some msg ∧ n.easyHandle = msg.easyHandle

def nodeHandle (c : ℕ × CurlOneEasy) : ℕ := c.2.easyHandle

def nodeAlive (c : ℕ × CurlOneEasy) : Bool := c.2.state.alive

/-- The memory of libcurl holds these nodes and these messages and no others. -/
structure CurlMulti.Shows (m : CurlMulti) (ring : List (ℕ × CurlOneEasy)) (queue : List (ℕ × ℕ))
    (multi : Multi) : Prop where
  easy : m.easy.Holds ring
  numEasy : m.numEasy = ring.length
  numAlive : m.numAlive = ring.countP nodeAlive
  back : ∀ c ∈ ring, m.sessions (nodeHandle c) = some ⟨true, some c.1⟩
  added : ring.map nodeHandle = multi.added.map Easy.id
  states : ∀ c ∈ ring, c.2.state ≠ .completed ∧
    (c.2.state = .msgSent ↔ nodeHandle c ∈ multi.completed)
  msglist : m.msglist.Holds queue
  messages : List.Forall₂ (Posted ring) queue multi.messages
  once : (queue.map Prod.snd).Nodup
  fresh : (∀ c ∈ ring, c.1 < m.fresh) ∧ ∀ q ∈ queue, q.1 < m.fresh

/-- What a transfer that is given its turn comes to. -/
def Multi.turn (multi : Multi) (x : ℕ) (t : Transfer) : Multi :=
  if t.state = .completed ∧ x ∉ multi.completed then multi.complete x t.result else multi

def Multi.turns (multi : Multi) (transfers : ℕ → Transfer) (handles : List ℕ) : Multi :=
  handles.foldl (fun multi x => multi.turn x (transfers x)) multi

theorem Multi.turn_added (multi : Multi) (x : ℕ) (t : Transfer) :
    (multi.turn x t).added = multi.added := by
  unfold Multi.turn
  split_ifs <;> rfl

namespace CurlMulti

variable {m : CurlMulti} {ring r₁ r₂ : List (ℕ × CurlOneEasy)} {queue q₁ q₂ : List (ℕ × ℕ)}
  {multi : Multi} {a x : ℕ} {n : CurlOneEasy}

theorem init_shows : curlMultiInit.Shows [] [] ⟨[], [], []⟩ where
  easy := Memory.holds_empty
  numEasy := rfl
  numAlive := rfl
  back := List.forall_mem_nil _
  added := rfl
  states := List.forall_mem_nil _
  msglist := CurlLlist.alloc_holds ℕ
  messages := .nil
  once := List.nodup_nil
  fresh := ⟨List.forall_mem_nil _, List.forall_mem_nil _⟩

theorem Shows.same (h : m.Shows ring queue multi) {c d : ℕ × CurlOneEasy} (hc : c ∈ ring)
    (hd : d ∈ ring) (hcd : nodeHandle c = nodeHandle d) : c = d := by
  have first := h.back c hc
  have second := h.back d hd
  rw [hcd, second] at first
  have place : d.1 = c.1 := Option.some.inj (congrArg SessionHandle.multiPos (Option.some.inj first))
  have cell := (h.easy.stored c.1 c.2).mpr hc
  have cell' := (h.easy.stored d.1 d.2).mpr hd
  rw [place, cell] at cell'
  exact Prod.ext place.symm (Option.some.inj cell')

theorem Shows.node (h : m.Shows (r₁ ++ (a, n) :: r₂) queue multi) :
    deref (m.easy.cells a) = .ok n := by
  rw [h.easy.cell]
  rfl

theorem Shows.session (h : m.Shows (r₁ ++ (a, n) :: r₂) queue multi) :
    deref (m.sessions n.easyHandle) = .ok ⟨true, some a⟩ := by
  have back := h.back (a, n) (List.mem_append_right _ List.mem_cons_self)
  rw [nodeHandle] at back
  rw [back]
  rfl

theorem Shows.extmsg (h : m.Shows ring queue multi) {q : ℕ × ℕ} {msg : CurlMsg}
    (hq : Posted ring q msg) : m.extmsg q.2 = .ok (some msg) := by
  obtain ⟨n, hn, -, hmsg, -⟩ := hq
  rw [CurlMulti.extmsg, (h.easy.stored q.2 n).mpr hn]
  exact congrArg Except.ok hmsg

theorem Posted.of_mem {ring' : List (ℕ × CurlOneEasy)} {q : ℕ × ℕ} {msg : CurlMsg}
    (h : Posted ring q msg) (hring : ∀ n, (q.2, n) ∈ ring → (q.2, n) ∈ ring') :
    Posted ring' q msg := by
  obtain ⟨n, hn, hstate⟩ := h
  exact ⟨n, hring n hn, hstate⟩

/-! Messages -/

theorem infoRead_empty (h : m.Shows ring queue multi) (hm : multi.messages = []) :
    m.curlMultiInfoRead = .ok (none, 0, m) := by
  have messages := h.messages
  rw [hm, List.forall₂_nil_right_iff] at messages
  have size := h.msglist.size
  rw [messages] at size
  exact if_pos size

theorem infoRead_shows {msg : CurlMsg} {rest : List CurlMsg} (h : m.Shows ring queue multi)
    (hm : multi.messages = msg :: rest) : ∃ ptr left m' later,
      m.curlMultiInfoRead = .ok (some ptr, left, m') ∧ m'.extmsg ptr = .ok (some msg) ∧
      m'.sessions = m.sessions ∧ m'.Shows ring later { multi with messages := rest } := by
  have messages := h.messages
  rw [hm] at messages
  obtain ⟨⟨e, ptr⟩, later, hq, hlater, rfl⟩ := List.forall₂_cons_right_iff.mp messages
  have whole : m.msglist.Holds ([] ++ (e, ptr) :: later) := h.msglist
  have elements : m.msglist.memory.cells e = some ptr := whole.memory.cell
  obtain ⟨list, hremove, hlist⟩ := CurlLlist.remove_holds whole
  have hsize : m.msglist.size ≠ 0 := by
    rw [h.msglist.size]
    exact Nat.succ_ne_zero _
  refine ⟨ptr, toInt list.size, { m with msglist := list }, later, ?_, ?_, rfl, ?_⟩
  · rw [curlMultiInfoRead, if_neg hsize, h.msglist.head, Memory.first_cons, notNull, ok_bind,
      elements, deref, ok_bind, hremove]
    rfl
  · exact h.extmsg hq
  · exact { h with
      msglist := hlist
      messages := hlater
      once := (List.nodup_cons.mp h.once).2
      fresh := ⟨h.fresh.1, fun q hq => h.fresh.2 q (List.mem_cons_of_mem _ hq)⟩ }

/-! Adding -/

theorem Shows.unused (h : m.Shows ring queue multi) (hx : x ∉ multi.added.map Easy.id)
    (data : Option SessionHandle) : (m.setSession x data).Shows ring queue multi := by
  refine { h with back := fun c hc => ?_ }
  refine (Function.update_of_ne ?_ ..).trans (h.back c hc)
  rintro rfl
  apply hx
  rw [← h.added]
  exact List.mem_map_of_mem hc

theorem addHandle_shows {easy : Easy} (h : m.Shows ring queue multi)
    (hx : m.sessions easy.id = some ⟨false, none⟩) (hcompleted : easy.id ∉ multi.completed) :
    ∃ m', m.curlMultiAddHandle (some easy.id) true = .ok (.ok, m') ∧
      m'.sessions = Function.update m.sessions easy.id (some ⟨true, some m.fresh⟩) ∧
      m'.Shows (ring ++ [(m.fresh, ⟨easy.id, .init, none⟩)]) queue (multi.add (some easy) true) := by
  have free : m.easy.cells m.fresh = none := by
    cases hcell : m.easy.cells m.fresh with
    | none => rfl
    | some e => exact absurd (h.fresh.1 _ ((h.easy.stored _ _).mp hcell)) (Nat.lt_irrefl _)
  have whole := h.easy
  rw [← List.append_nil ring] at whole
  have hlast := Memory.live_store whole.live_last m.fresh ⟨easy.id, .init, none⟩
  have new := m.easy.live_stored m.fresh ⟨easy.id, .init, none⟩
  have anchor := (m.easy.store m.fresh ⟨easy.id, .init, none⟩).live_none
  have order := m.easy.links.join_join (a := Memory.last ring) (b := none)
    (Option.some_ne_none m.fresh).symm
  have hprev : m.easy.links.prev none = Memory.last ring := whole.prev_first
  let node : CurlOneEasy := ⟨easy.id, .init, none⟩
  refine ⟨(CurlMulti.mk ⟨(m.easy.links.join (some m.fresh) none).join (Memory.last ring)
      (some m.fresh), Function.update m.easy.cells m.fresh (some node)⟩ (m.numEasy + 1)
      (m.numAlive + 1) m.msglist m.sessions (m.fresh + 1)).setSession easy.id
        (some ⟨true, some m.fresh⟩), ?_, rfl, ?_⟩
  · have hx : deref (m.sessions easy.id) = .ok ⟨false, none⟩ := by
      rw [hx]
      rfl
    simp only [curlMultiAddHandle, hx, ok_bind, Memory.store, Bool.not_true,
      Bool.false_eq_true, if_false]
    rw [deref_setNext new, ok_bind]
    change (deref (Memory.setPrev _ _ (m.easy.links.prev none)) >>= _) = _
    rw [hprev, deref_setPrev new, ok_bind, deref_setPrev anchor, ok_bind,
      deref_prev new, ok_bind, Links.setPrev_of_ne _ (Option.some_ne_none m.fresh),
      Links.setPrev_self, deref_setNext hlast, ok_bind, order]
  · have later := Memory.holds_insert whole free node
    have added : easy.id ∉ multi.added.map Easy.id := by
      rw [← h.added]
      intro hm
      obtain ⟨c, hc, hid⟩ := List.mem_map.mp hm
      have back := h.back c hc
      rw [hid, hx] at back
      cases back
    have old := h.unused added (some ⟨true, some m.fresh⟩)
    have snoc {P : ℕ × CurlOneEasy → Prop} (hold : ∀ c ∈ ring, P c) (hnew : P (m.fresh, node)) :
        ∀ c ∈ ring ++ [(m.fresh, node)], P c := by
      intro c hc
      rcases List.mem_append.mp hc with hc | hc
      · exact hold c hc
      · rw [List.mem_singleton.mp hc]
        exact hnew
    refine ⟨later, ?_, ?_, snoc old.back (Function.update_self ..), ?_, snoc h.states ?_, h.msglist,
      h.messages.imp ?_, h.once, snoc ?_ (Nat.lt_succ_self _), ?_⟩
    · change m.numEasy + 1 = _
      rw [h.numEasy, List.length_append]
      rfl
    · change m.numAlive + 1 = _
      rw [h.numAlive, List.countP_append]
      rfl
    · rw [List.map_append, h.added, Multi.add, if_pos rfl, List.map_append]
      rfl
    · exact ⟨CurlmState.noConfusion, iff_of_false CurlmState.noConfusion hcompleted⟩
    · exact fun q msg hq => Posted.of_mem hq (fun n hn => List.mem_append_left _ hn)
    · exact fun c hc => Nat.lt_succ_of_lt (h.fresh.1 c hc)
    · exact fun q hq => Nat.lt_succ_of_lt (h.fresh.2 q hq)

/-! Removing -/

theorem forall₂_filter {α β : Type} {R S : α → β → Prop} {p : α → Bool} {q : β → Bool} {l : List α}
    {l' : List β} (h : List.Forall₂ R l l') (hpq : ∀ a b, R a b → p a = q b)
    (hS : ∀ a b, R a b → p a = true → S a b) : List.Forall₂ S (l.filter p) (l'.filter q) := by
  induction h with
  | nil => exact .nil
  | @cons a b l l' hab _ ih =>
    rw [List.filter_cons, List.filter_cons, ← hpq a b hab]
    split_ifs with hp
    · exact .cons (hS a b hab hp) ih
    · exact ih

/-- The loop over the messages takes out the one that points into the node, if
there is one. -/
theorem dropMessage_holds {messages : List CurlMsg} (h : m.msglist.Holds (q₁ ++ q₂))
    (hnodup : (q₂.map Prod.snd).Nodup)
    (hq : List.Forall₂ (fun (q : ℕ × ℕ) msg =>
      m.extmsg q.2 = .ok (some msg) ∧ (msg.easyHandle = x ↔ q.2 = a)) q₂ messages) :
    ∃ list, m.dropMessage x q₂.length (Memory.first q₂) = .ok list ∧
      list.Holds (q₁ ++ q₂.filter (fun q => q.2 ≠ a)) := by
  induction hq generalizing q₁ with
  | nil =>
    refine ⟨m.msglist, rfl, ?_⟩
    rwa [List.filter_nil]
  | @cons q msg q₂ messages hmsg _ ih =>
    obtain ⟨e, ptr⟩ := q
    obtain ⟨hmsg, hiff⟩ := hmsg
    obtain ⟨hne, hrest⟩ := List.nodup_cons.mp hnodup
    have hcell : deref (m.msglist.memory.cells e) = .ok ptr := by
      rw [h.memory.cell]
      rfl
    rw [List.length_cons, Memory.first_cons, dropMessage, hcell, ok_bind, hmsg, ok_bind,
      Option.map_some]
    by_cases hx : msg.easyHandle = x
    · obtain rfl : ptr = a := hiff.mp hx
      obtain ⟨list, hremove, hlist⟩ := CurlLlist.remove_holds h
      have rest : ((e, ptr) :: q₂).filter (fun q => q.2 ≠ ptr) = q₂ := by
        rw [List.filter_cons_of_neg (by simp), List.filter_eq_self]
        intro c hc
        rw [decide_eq_true_eq]
        exact fun heq => hne (List.mem_map.mpr ⟨c, hc, heq⟩)
      rw [if_pos (congrArg some hx), rest]
      exact ⟨list, hremove, hlist⟩
    · have hptr : ptr ≠ a := fun heq => hx (hiff.mpr heq)
      have hlive : m.msglist.memory.live (some e) = true := by
        rw [Memory.live, h.memory.cell]
        rfl
      have later := h
      rw [List.append_cons] at later
      obtain ⟨list, hdrop, hlist⟩ := ih later hrest
      refine ⟨list, ?_, ?_⟩
      · rw [if_neg (fun heq => hx (Option.some.inj heq)), deref_next hlive, ok_bind, h.memory.next_cell]
        exact hdrop
      · rw [List.filter_cons_of_pos (by simpa using hptr), List.append_cons]
        exact hlist

theorem Shows.apart (h : m.Shows (r₁ ++ (a, n) :: r₂) queue multi) :
    ∀ c ∈ r₁ ++ r₂, c.1 ≠ a ∧ nodeHandle c ≠ n.easyHandle := by
  intro c hc
  have here : (a, n) ∈ r₁ ++ (a, n) :: r₂ := List.mem_append_right _ List.mem_cons_self
  have there : c ∈ r₁ ++ (a, n) :: r₂ :=
    List.perm_middle.mem_iff.mpr (List.mem_cons_of_mem _ hc)
  have nodup := h.easy.keys_nodup
  rw [List.map_append, List.map_cons, List.perm_middle.nodup_iff, List.nodup_cons,
    ← List.map_append] at nodup
  have place : c.1 ≠ a := fun heq => nodup.1 (List.mem_map.mpr ⟨c, hc, heq⟩)
  refine ⟨place, fun heq => place ?_⟩
  rw [h.same there here heq]

theorem Shows.posted_iff (h : m.Shows (r₁ ++ (a, n) :: r₂) queue multi) {q : ℕ × ℕ} {msg : CurlMsg}
    (hq : Posted (r₁ ++ (a, n) :: r₂) q msg) : msg.easyHandle = n.easyHandle ↔ q.2 = a := by
  obtain ⟨n', hn', -, -, hid⟩ := hq
  have here : (a, n) ∈ r₁ ++ (a, n) :: r₂ := List.mem_append_right _ List.mem_cons_self
  constructor
  · intro heq
    have same := h.same hn' here (hid.trans heq)
    exact congrArg Prod.fst same
  · intro heq
    rw [heq] at hn'
    have cell := (h.easy.stored a n').mpr hn'
    rw [← hid, Option.some.inj (cell.symm.trans h.easy.cell)]

theorem removeHandle_shows (h : m.Shows (r₁ ++ (a, n) :: r₂) queue multi) :
    ∃ m' later, m.curlMultiRemoveHandle n.easyHandle = .ok (.ok, m') ∧
      m'.sessions = Function.update m.sessions n.easyHandle (some ⟨false, none⟩) ∧
      m'.Shows (r₁ ++ r₂) later (multi.remove n.easyHandle) := by
  have done := Memory.holds_store h.easy { n with state := .completed }
  have hlive : (m.easy.store a { n with state := .completed }).live (some a) = true :=
    m.easy.live_stored a _
  have hlast := done.live_last
  have hfirst : (m.easy.store a { n with state := .completed }).live (Memory.first r₂) = true := by
    rw [List.append_cons] at done
    exact done.live_first
  let numAlive := if n.state.alive then m.numAlive - 1 else m.numAlive
  let marked := { m with numAlive, easy := m.easy.store a { n with state := .completed } }
  have posted : List.Forall₂ (fun (q : ℕ × ℕ) msg => marked.extmsg q.2 = .ok (some msg) ∧
      (msg.easyHandle = n.easyHandle ↔ q.2 = a)) queue multi.messages := by
    apply h.messages.imp
    rintro ⟨e, ptr⟩ msg hq
    refine ⟨?_, h.posted_iff hq⟩
    obtain ⟨n', hn', -, hmsg, -⟩ := hq
    have cell := (h.easy.stored ptr n').mpr hn'
    by_cases hptr : ptr = a
    · subst hptr
      obtain rfl : n = n' := Option.some.inj (h.easy.cell.symm.trans cell)
      rw [CurlMulti.extmsg, Memory.store_self]
      exact congrArg Except.ok hmsg
    · rw [CurlMulti.extmsg, Memory.store_of_ne _ hptr, cell]
      exact congrArg Except.ok hmsg
  have whole : marked.msglist.Holds ([] ++ queue) := h.msglist
  obtain ⟨list, hdrop, hlist⟩ := dropMessage_holds whole h.once posted
  have hdrop : marked.dropMessage n.easyHandle m.msglist.size m.msglist.head = .ok list := by
    rw [h.msglist.size, h.msglist.head]
    exact hdrop
  refine ⟨({ marked with
      easy := ⟨m.easy.links.join (Memory.last r₁) (Memory.first r₂),
        Function.update m.easy.cells a none⟩
      msglist := list
      numEasy := m.numEasy - 1 } : CurlMulti).setSession n.easyHandle (some ⟨false, none⟩),
    queue.filter (fun q => q.2 ≠ a), ?_, rfl, ?_⟩
  · have hnext : (m.easy.store a { n with state := .completed }).links.next (some a) =
        Memory.first r₂ := done.next_cell
    have hprev : (m.easy.store a { n with state := .completed }).links.prev (some a) =
        Memory.last r₁ := done.prev_cell
    simp only [curlMultiRemoveHandle, h.session, ok_bind, h.node]
    rw [hdrop, ok_bind]
    simp only [Memory.store] at hnext hprev ⊢
    rw [deref_next hlive, ok_bind, deref_prev hlive, ok_bind, hnext, hprev, deref_setNext hlast,
      ok_bind, deref_setPrev hfirst, ok_bind]
    simp only [Memory.release, Function.update_idem]
    rfl
  · have apart := h.apart
    have mem {c : ℕ × CurlOneEasy} (hc : c ∈ r₁ ++ r₂) : c ∈ r₁ ++ (a, n) :: r₂ :=
      List.perm_middle.mem_iff.mpr (List.mem_cons_of_mem _ hc)
    refine ⟨Memory.holds_remove h.easy, ?_, ?_, fun c hc => ?_, ?_, fun c hc => ?_, hlist, ?_, ?_,
      fun c hc => h.fresh.1 c (mem hc), fun q hq => h.fresh.2 q (List.mem_of_mem_filter hq)⟩
    · change m.numEasy - 1 = _
      rw [h.numEasy, List.length_append, List.length_append, List.length_cons]
      omega
    · change (if n.state.alive then m.numAlive - 1 else m.numAlive) = _
      rw [h.numAlive, List.countP_append, List.countP_append, List.countP_cons, nodeAlive]
      split_ifs <;> omega
    · exact (Function.update_of_ne (apart c hc).2 ..).trans (h.back c (mem hc))
    · have handles : (multi.remove n.easyHandle).added.map Easy.id =
          (multi.added.map Easy.id).filter (· ≠ n.easyHandle) := by
        rw [List.filter_map]
        rfl
      have kept : ∀ r ⊆ r₁ ++ r₂, (r.map nodeHandle).filter (· ≠ n.easyHandle) = r.map nodeHandle := by
        intro r hr
        rw [List.filter_eq_self]
        intro id hid
        obtain ⟨c, hc, rfl⟩ := List.mem_map.mp hid
        exact decide_eq_true (apart c (hr hc)).2
      rw [handles, ← h.added, List.map_append, List.map_append, List.map_cons, List.filter_append,
        List.filter_cons_of_neg (by simp [nodeHandle]), kept _ (List.subset_append_left _ _),
        kept _ (List.subset_append_right _ _)]
    · obtain ⟨hne, hstate⟩ := h.states c (mem hc)
      refine ⟨hne, hstate.trans ?_⟩
      rw [Multi.remove, List.mem_filter, decide_eq_true_eq]
      exact (and_iff_left (apart c hc).2).symm
    · apply forall₂_filter h.messages
      · intro q msg hq
        exact decide_eq_decide.mpr (not_congr (h.posted_iff hq).symm)
      · rintro q msg hq hptr
        apply Posted.of_mem hq
        intro n' hn'
        rcases List.mem_cons.mp (List.perm_middle.mem_iff.mp hn') with heq | hn'
        · exact absurd (congrArg Prod.fst heq) (of_decide_eq_true hptr)
        · exact hn'
    · exact h.once.sublist (List.filter_sublist.map Prod.snd)

/-! One transfer -/

theorem Shows.alive_ne (h : m.Shows (r₁ ++ (a, n) :: r₂) queue multi) (hn : n.state ≠ .msgSent)
    {q : ℕ × ℕ} {msg : CurlMsg} (hq : Posted (r₁ ++ (a, n) :: r₂) q msg) : q.2 ≠ a := by
  obtain ⟨n', hn', hstate, -, -⟩ := hq
  intro heq
  rw [heq] at hn'
  have cell := (h.easy.stored a n').mpr hn'
  rw [Option.some.inj (cell.symm.trans h.easy.cell)] at hstate
  exact hn hstate

theorem Posted.of_ne {n' : CurlOneEasy} {q : ℕ × ℕ} {msg : CurlMsg}
    (h : Posted (r₁ ++ (a, n) :: r₂) q msg) (hq : q.2 ≠ a) : Posted (r₁ ++ (a, n') :: r₂) q msg := by
  refine Posted.of_mem h ?_
  intro k hk
  rw [List.perm_middle.mem_iff, List.mem_cons] at hk ⊢
  exact .inr (hk.resolve_left (fun heq => hq (congrArg Prod.fst heq)))

theorem middle {P : ℕ × CurlOneEasy → Prop} {n' : CurlOneEasy}
    (hold : ∀ c ∈ r₁ ++ r₂, P c) (hnew : P (a, n')) : ∀ c ∈ r₁ ++ (a, n') :: r₂, P c := by
  intro c hc
  rcases List.mem_cons.mp (List.perm_middle.mem_iff.mp hc) with rfl | hc
  · exact hnew
  · exact hold c hc

theorem Shows.rest {P : ℕ × CurlOneEasy → Prop} (h : ∀ c ∈ r₁ ++ (a, n) :: r₂, P c) :
    (∀ c ∈ r₁ ++ r₂, P c) ∧ P (a, n) :=
  ⟨fun c hc => h c (List.perm_middle.mem_iff.mpr (List.mem_cons_of_mem _ hc)),
    h _ (List.mem_append_right _ List.mem_cons_self)⟩

theorem reap_shows {msg : CurlMsg} {rest : List CurlMsg} (h : m.Shows ring queue multi)
    (hm : multi.messages = msg :: rest) (hadded : msg.easyHandle ∈ multi.added.map Easy.id) :
    ∃ ptr left m₁ m₂ ring' later, m.curlMultiInfoRead = .ok (some ptr, left, m₁) ∧
      m₁.extmsg ptr = .ok (some msg) ∧
      m₁.curlMultiRemoveHandle msg.easyHandle = .ok (.ok, m₂) ∧
      m₂.sessions = Function.update m.sessions msg.easyHandle (some ⟨false, none⟩) ∧
      (m₂.setSession msg.easyHandle none).Shows ring' later
        (({ multi with messages := rest } : Multi).remove msg.easyHandle) := by
  obtain ⟨ptr, left, m₁, later, hread, hmsg, same, shows₁⟩ := infoRead_shows h hm
  rw [← h.added] at hadded
  obtain ⟨⟨a, n⟩, hn, hid⟩ := List.mem_map.mp hadded
  obtain ⟨r₁, r₂, rfl⟩ := List.append_of_mem hn
  obtain ⟨m₂, last, hremove, hsessions, shows₂⟩ := removeHandle_shows shows₁
  have hid : n.easyHandle = msg.easyHandle := hid
  rw [hid] at hremove hsessions shows₂
  rw [same] at hsessions
  have gone : msg.easyHandle ∉
      (({ multi with messages := rest } : Multi).remove msg.easyHandle).added.map Easy.id := by
    intro hx
    obtain ⟨e, he, hid⟩ := List.mem_map.mp hx
    exact of_decide_eq_true (List.mem_filter.mp he).2 hid
  exact ⟨ptr, left, m₁, m₂, r₁ ++ r₂, last, hread, hmsg, hremove, hsessions,
    shows₂.unused gone none⟩

theorem multistate_alive (h : m.Shows (r₁ ++ (a, n) :: r₂) queue multi) {s : CurlmState}
    (hn : n.state ≠ .msgSent) (hs : s ≠ .completed ∧ s ≠ .msgSent) :
    ∃ m', m.multistate a s = .ok m' ∧ m'.sessions = m.sessions ∧
      m'.Shows (r₁ ++ (a, { n with state := s }) :: r₂) queue multi := by
  rw [multistate, h.node, ok_bind]
  by_cases hsame : n.state = s
  · refine ⟨m, if_pos hsame, rfl, ?_⟩
    rw [← hsame]
    exact h
  · refine ⟨m.setEasy a { n with state := s }, ?_, rfl, ?_⟩
    · rw [if_neg hsame]
      exact if_neg hs.1
    · obtain ⟨back, here⟩ := Shows.rest h.back
      obtain ⟨states, ended⟩ := Shows.rest h.states
      obtain ⟨below, place⟩ := Shows.rest h.fresh.1
      have alive : n.state.alive = s.alive :=
        (CurlmState.alive_of_ne ended.1 hn).trans (CurlmState.alive_of_ne hs.1 hs.2).symm
      refine { h with
        easy := Memory.holds_store h.easy { n with state := s }
        numEasy := ?_
        numAlive := ?_
        back := middle back here
        added := ?_
        states := middle states ⟨hs.1, iff_of_false hs.2 (fun hm => hn (ended.2.mpr hm))⟩
        messages := h.messages.imp (fun q msg hq => Posted.of_ne hq (h.alive_ne hn hq))
        fresh := ⟨middle below place, h.fresh.2⟩ }
      · rw [List.length_append, List.length_cons]
        have count := h.numEasy
        rwa [List.length_append, List.length_cons] at count
      · rw [List.countP_append, List.countP_cons]
        have count := h.numAlive
        rwa [List.countP_append, List.countP_cons, nodeAlive, alive] at count
      · rw [← h.added, List.map_append, List.map_append]
        rfl

/-- A transfer that completes posts its message. -/
theorem runsingle_completed (h : m.Shows (r₁ ++ (a, n) :: r₂) queue multi) {t : Transfer}
    (hn : n.state ≠ .msgSent) (ht : t.state = .completed) (hmemory : t.memory = true) :
    ∃ m' n', multiRunsingle t m a = .ok m' ∧ m'.sessions = m.sessions ∧
      n'.easyHandle = n.easyHandle ∧ m'.Shows (r₁ ++ (a, n') :: r₂) (queue ++ [(m.fresh, a)])
        (multi.complete n.easyHandle t.result) := by
  obtain ⟨back, here⟩ := Shows.rest h.back
  obtain ⟨states, ended⟩ := Shows.rest h.states
  obtain ⟨below, place⟩ := Shows.rest h.fresh.1
  have free : m.msglist.memory.cells m.fresh = none := by
    cases hcell : m.msglist.memory.cells m.fresh with
    | none => rfl
    | some e => exact absurd (h.fresh.2 _ ((h.msglist.memory.stored _ _).mp hcell)) (Nat.lt_irrefl _)
  have whole := h.msglist
  rw [← List.append_nil queue] at whole
  obtain ⟨list, hinsert, hlist⟩ := CurlLlist.insertNext_holds whole free a
  have done := Memory.holds_store h.easy { n with state := .completed }
  have filled := Memory.holds_store done ⟨n.easyHandle, .completed, some ⟨n.easyHandle, t.result⟩⟩
  have sent := Memory.holds_store filled ⟨n.easyHandle, .msgSent, some ⟨n.easyHandle, t.result⟩⟩
  refine ⟨{ m with
    easy := ((m.easy.store a { n with state := .completed }).store a
      ⟨n.easyHandle, .completed, some ⟨n.easyHandle, t.result⟩⟩).store a
        ⟨n.easyHandle, .msgSent, some ⟨n.easyHandle, t.result⟩⟩
    numAlive := m.numAlive - 1
    msglist := list
    fresh := m.fresh + 1 }, ⟨n.easyHandle, .msgSent, some ⟨n.easyHandle, t.result⟩⟩, ?_, rfl, rfl, ?_⟩
  · have cell (ring : Memory ℕ CurlOneEasy) (e : CurlOneEasy) :
        deref ((ring.store a e).cells a) = .ok e := by
      rw [Memory.store_self]
      rfl
    have hsession : deref (m.sessions n.easyHandle) = .ok ⟨true, some a⟩ := h.session
    have ended' : n.state ≠ .completed := ended.1
    have htail : m.msglist.tail = Memory.last queue := h.msglist.tail
    simp only [multiRunsingle, multistate, h.node, hsession, ok_bind, hn, ended', ht, setEasy, cell,
      if_true, if_false, multiAddmsg, htail, hmemory, hinsert, reduceCtorEq]
  · have apart := h.apart
    obtain ⟨others, -⟩ := List.forall₂_and_left _ _ |>.mp
      (h.messages.imp (fun q msg hq => And.intro (h.alive_ne hn hq) hq))
    refine ⟨sent, ?_, ?_, middle back here, ?_, middle (fun c hc => ?_) ?_, hlist, ?_, ?_,
      middle (fun c hc => ?_) ?_, ?_⟩
    · change m.numEasy = _
      rw [h.numEasy, List.length_append, List.length_append]
      rfl
    · change m.numAlive - 1 = _
      have alive : nodeAlive (a, n) = true := CurlmState.alive_of_ne ended.1 hn
      rw [h.numAlive, List.countP_append, List.countP_append, List.countP_cons_of_pos alive,
        List.countP_cons_of_neg (fun hm => Bool.false_ne_true hm)]
      omega
    · rw [Multi.complete, ← h.added, List.map_append, List.map_append]
      rfl
    · obtain ⟨hne, hstate⟩ := states c hc
      refine ⟨hne, hstate.trans ?_⟩
      rw [Multi.complete, List.mem_cons]
      exact (or_iff_right (apart c hc).2).symm
    · exact ⟨CurlmState.noConfusion, iff_of_true rfl List.mem_cons_self⟩
    · refine List.rel_append (h.messages.imp ?_) (.cons ?_ .nil)
      · exact fun q msg hq => Posted.of_ne hq (h.alive_ne hn hq)
      · exact ⟨_, List.mem_append_right _ List.mem_cons_self, rfl, rfl, rfl⟩
    · rw [List.map_append, List.nodup_append]
      refine ⟨h.once, List.nodup_singleton a, ?_⟩
      rintro ptr hptr _ hnew rfl
      obtain ⟨q, hq, rfl⟩ := List.mem_map.mp hptr
      exact others q hq (List.mem_singleton.mp hnew)
    · exact Nat.lt_succ_of_lt (below c hc)
    · exact Nat.lt_succ_of_lt place
    · intro q hq
      rcases List.mem_append.mp hq with hq | hq
      · exact Nat.lt_succ_of_lt (h.fresh.2 q hq)
      · rw [List.mem_singleton.mp hq]
        exact Nat.lt_succ_self _

theorem runsingle_shows (h : m.Shows (r₁ ++ (a, n) :: r₂) queue multi) {t : Transfer}
    (hmemory : t.memory = true) : ∃ m' n' later, multiRunsingle t m a = .ok m' ∧
      m'.sessions = m.sessions ∧ n'.easyHandle = n.easyHandle ∧
      m'.Shows (r₁ ++ (a, n') :: r₂) later (multi.turn n.easyHandle t) := by
  obtain ⟨hc, hm⟩ := (Shows.rest h.states).2
  by_cases hn : n.state = .msgSent
  · refine ⟨m, n, queue, ?_, rfl, rfl, ?_⟩
    · simp only [multiRunsingle, h.node, ok_bind, h.session, if_pos hn]
    · rw [Multi.turn, if_neg (fun hand => hand.2 (hm.mp hn))]
      exact h
  · have running : n.easyHandle ∉ multi.completed := fun hmem => hn (hm.mpr hmem)
    by_cases ht : t.state = .completed
    · obtain ⟨m', n', hrun, hsessions, hid, hshows⟩ := runsingle_completed h hn ht hmemory
      refine ⟨m', n', queue ++ [(m.fresh, a)], hrun, hsessions, hid, ?_⟩
      rw [Multi.turn, if_pos ⟨ht, running⟩]
      exact hshows
    · obtain ⟨m', hstate, hsessions, hshows⟩ := multistate_alive h hn ⟨ht, t.reached⟩
      refine ⟨m', { n with state := t.state }, queue, ?_, hsessions, rfl, ?_⟩
      · have hc' : n.state ≠ .completed := hc
        simp only [multiRunsingle, h.node, ok_bind, h.session, if_neg hn, if_neg hc', hstate,
          hshows.node, if_neg ht]
      · rw [Multi.turn, if_neg (fun hand => ht hand.1)]
        exact hshows

/-! The walk along the ring -/

theorem performFrom_shows {transfers : ℕ → Transfer} (hmemory : ∀ x, (transfers x).memory = true)
    (h : m.Shows (r₁ ++ r₂) queue multi) : ∃ m' ring later,
      performFrom transfers m r₂.length (Memory.first r₂) = .ok m' ∧ m'.sessions = m.sessions ∧
      m'.Shows ring later (multi.turns transfers (r₂.map nodeHandle)) := by
  induction r₂ generalizing m r₁ queue multi with
  | nil => exact ⟨m, r₁ ++ [], queue, rfl, rfl, h⟩
  | cons c r₂ ih =>
    obtain ⟨a, n⟩ := c
    obtain ⟨m₁, n', later, hrun, hsessions, hid, hshows⟩ :=
      runsingle_shows h (hmemory n.easyHandle)
    have hlive : m₁.easy.live (some a) = true := by
      rw [Memory.live, hshows.easy.cell]
      rfl
    have rest := hshows
    rw [List.append_cons] at rest
    obtain ⟨m', ring, last, hwalk, hsame, hlast⟩ := ih rest
    refine ⟨m', ring, last, ?_, hsame.trans hsessions, hlast⟩
    rw [List.length_cons, Memory.first_cons, performFrom, h.node, ok_bind, hrun, ok_bind,
      deref_next hlive, ok_bind, hshows.easy.next_cell]
    exact hwalk

theorem perform_shows {transfers : ℕ → Transfer} (hmemory : ∀ x, (transfers x).memory = true)
    (h : m.Shows ring queue multi) : ∃ m' ring' later,
      m.curlMultiPerform transfers = .ok (m'.numAlive, m') ∧ m'.sessions = m.sessions ∧
      m'.Shows ring' later (multi.turns transfers (multi.added.map Easy.id)) := by
  have whole : m.Shows ([] ++ ring) queue multi := h
  obtain ⟨m', ring', later, hwalk, hsessions, hshows⟩ := performFrom_shows hmemory whole
  refine ⟨m', ring', later, ?_, hsessions, ?_⟩
  · have start : m.easy.links.next none = Memory.first ring := whole.easy.next_last
    rw [curlMultiPerform, h.numEasy, Int.toNat_natCast, start, hwalk]
    rfl
  · rw [← h.added]
    exact hshows

theorem turns_added (multi : Multi) (transfers : ℕ → Transfer) (handles : List ℕ) :
    (multi.turns transfers handles).added = multi.added := by
  induction handles generalizing multi with
  | nil => rfl
  | cons x handles ih => exact (ih _).trans (multi.turn_added x _)

/-! Easy handles -/

/-- libcurl has these easy handles; those that refer to the multi handle are
among the added ones. -/
structure Owns (m : CurlMulti) (handles added : List ℕ) : Prop where
  handles : ∀ x, (m.sessions x).isSome = true ↔ x ∈ handles
  added : ∀ x data, m.sessions x = some data → data.multi = true → x ∈ added

section Owns

variable {m' : CurlMulti} {handles handles' added added' : List ℕ}

theorem Owns.same (h : m.Owns handles added) (hm : m'.sessions = m.sessions) :
    m'.Owns handles added := by
  constructor
  · rw [hm]
    exact h.handles
  · rw [hm]
    exact h.added

theorem Owns.set {data : SessionHandle} (h : m.Owns handles added)
    (hm : m'.sessions = Function.update m.sessions x (some data))
    (hx : ∀ y, y ∈ handles' ↔ y = x ∨ y ∈ handles) (hadded : added ⊆ added')
    (hdata : data.multi = true → x ∈ added') : m'.Owns handles' added' := by
  constructor
  · intro y
    rw [hm, hx]
    by_cases hy : y = x
    · rw [hy, Function.update_self]
      simp
    · rw [Function.update_of_ne hy, h.handles, or_iff_right hy]
  · intro y data' hsession hmulti
    rw [hm] at hsession
    by_cases hy : y = x
    · rw [hy, Function.update_self] at hsession
      rw [hy]
      exact hdata (Option.some.inj hsession ▸ hmulti)
    · rw [Function.update_of_ne hy] at hsession
      exact hadded (h.added y data' hsession hmulti)

theorem Owns.close (h : m.Owns handles added)
    (hm : m'.sessions = Function.update m.sessions x none)
    (hx : ∀ y, y ∈ handles' ↔ y ∈ handles ∧ y ≠ x)
    (hadded : ∀ y ∈ added, y ≠ x → y ∈ added') : m'.Owns handles' added' := by
  constructor
  · intro y
    rw [hm, hx]
    by_cases hy : y = x
    · rw [hy, Function.update_self]
      simp
    · rw [Function.update_of_ne hy, h.handles, and_iff_left hy]
  · intro y data hsession hmulti
    rw [hm] at hsession
    by_cases hy : y = x
    · rw [hy, Function.update_self] at hsession
      cases hsession
    · rw [Function.update_of_ne hy] at hsession
      exact hadded y (h.added y data hsession hmulti) hy

end Owns

/-! The end of the multi handle -/

theorem freeRing_spec {cells : ℕ → Option CurlOneEasy}
    (h : (Memory.mk m.easy.links cells).Holds (r₁ ++ r₂))
    (held : ∀ c ∈ r₂, m.easy.cells c.1 = some c.2)
    (freed : ∀ k, k ∉ r₂.map Prod.fst → m.easy.cells k = none)
    (back : ∀ c ∈ r₂, m.sessions (nodeHandle c) = some ⟨true, some c.1⟩)
    (hkeys : (r₂.map Prod.fst).Nodup) (hhandles : (r₂.map nodeHandle).Nodup) :
    ∃ m', m.freeRing r₂.length (Memory.first r₂) = .ok m' ∧ m'.msglist = m.msglist ∧
      (∀ k, m'.easy.cells k = none) ∧ (∀ x, (m'.sessions x).isSome = (m.sessions x).isSome) ∧
      ∀ x data, m'.sessions x = some data → data.multi = true →
        m.sessions x = some data ∧ x ∉ r₂.map nodeHandle := by
  induction r₂ generalizing m r₁ with
  | nil =>
    exact ⟨m, rfl, rfl, fun k => freed k List.not_mem_nil, fun x => rfl,
      fun x data hx _ => ⟨hx, List.not_mem_nil⟩⟩
  | cons c r₂ ih =>
    obtain ⟨a, n⟩ := c
    obtain ⟨hcell, hheld⟩ := List.forall_mem_cons.mp held
    obtain ⟨hback, hrest⟩ := List.forall_mem_cons.mp back
    obtain ⟨ha, hkeys⟩ := List.nodup_cons.mp hkeys
    obtain ⟨hn, hhandles⟩ := List.nodup_cons.mp hhandles
    have hcell : m.easy.cells a = some n := hcell
    have hback : m.sessions n.easyHandle = some ⟨true, some a⟩ := hback
    have hlive : m.easy.live (some a) = true := by
      rw [Memory.live, hcell]
      rfl
    have hnext : m.easy.links.next (some a) = Memory.first r₂ := h.next_cell
    let m₁ : CurlMulti := { m.setSession n.easyHandle (some ⟨false, some a⟩) with
      easy := m.easy.release a }
    have later : (Memory.mk m₁.easy.links cells).Holds ((r₁ ++ [(a, n)]) ++ r₂) := by
      rw [List.append_assoc]
      exact h
    have here : m₁.sessions n.easyHandle = some ⟨false, some a⟩ := Function.update_self ..
    have held' : ∀ c ∈ r₂, m₁.easy.cells c.1 = some c.2 := by
      intro c hc
      have hca : c.1 ≠ a := fun heq => ha (List.mem_map.mpr ⟨c, hc, heq⟩)
      exact (Function.update_of_ne hca ..).trans (hheld c hc)
    have freed' : ∀ k, k ∉ r₂.map Prod.fst → m₁.easy.cells k = none := by
      intro k hk
      by_cases hka : k = a
      · rw [hka]
        exact Function.update_self ..
      · refine (Function.update_of_ne hka ..).trans (freed k ?_)
        rw [List.map_cons, List.mem_cons]
        exact fun hmem => hmem.elim hka hk
    have back' : ∀ c ∈ r₂, m₁.sessions (nodeHandle c) = some ⟨true, some c.1⟩ := by
      intro c hc
      have hcn : nodeHandle c ≠ n.easyHandle := fun heq => hn (List.mem_map.mpr ⟨c, hc, heq⟩)
      exact (Function.update_of_ne hcn ..).trans (hrest c hc)
    obtain ⟨m', hfree, hlist, hempty, hsome, hmulti⟩ := ih later held' freed' back' hkeys hhandles
    refine ⟨m', ?_, hlist, hempty, fun x => (hsome x).trans ?_, fun x data hx hd => ?_⟩
    · rw [List.length_cons, Memory.first_cons, freeRing, deref_next hlive, ok_bind, hcell, deref,
        ok_bind, hback, deref, ok_bind, hnext]
      exact hfree
    · by_cases hx : x = n.easyHandle
      · rw [hx, hback, here]
        rfl
      · exact congrArg Option.isSome (Function.update_of_ne hx ..)
    · obtain ⟨hsession, hmem⟩ := hmulti x data hx hd
      by_cases hxn : x = n.easyHandle
      · rw [hxn, here] at hsession
        rw [← Option.some.inj hsession] at hd
        cases hd
      · refine ⟨(Function.update_of_ne hxn ..).symm.trans hsession, ?_⟩
        rw [List.map_cons, List.mem_cons]
        exact fun hx => hx.elim hxn hmem

theorem cleanup_spec {handles : List ℕ} (h : m.Shows ring queue multi)
    (ho : m.Owns handles (multi.added.map Easy.id)) :
    ∃ m', m.curlMultiCleanup = .ok m' ∧ (∀ k, m'.easy.cells k = none) ∧
      m'.msglist.Holds [] ∧ m'.Owns handles [] := by
  obtain ⟨list, hdestroy, hlist⟩ := CurlLlist.destroy_holds h.msglist
  have whole : (Memory.mk m.easy.links m.easy.cells).Holds ([] ++ ring) := h.easy
  have keys : (ring.map Prod.fst).Nodup := h.easy.keys_nodup
  have handlesNodup : (ring.map nodeHandle).Nodup :=
    keys.of_map.map_on (fun c hc d hd hcd => h.same hc hd hcd)
  have held : ∀ c ∈ ring, m.easy.cells c.1 = some c.2 := fun c hc => (h.easy.stored c.1 c.2).mpr hc
  have freed : ∀ k, k ∉ ring.map Prod.fst → m.easy.cells k = none := by
    intro k hk
    cases hcell : m.easy.cells k with
    | none => rfl
    | some n => exact absurd (List.mem_map.mpr ⟨(k, n), (h.easy.stored k n).mp hcell, rfl⟩) hk
  let m₀ : CurlMulti := { m with msglist := list }
  obtain ⟨m', hfree, hmsglist, hempty, hsome, hmulti⟩ :=
    freeRing_spec (m := m₀) whole held freed h.back keys handlesNodup
  refine ⟨m', ?_, hempty, ?_, fun x => ?_, fun x data hx hd => ?_⟩
  · have start : m.easy.links.next none = Memory.first ring := whole.next_last
    have size : m.numEasy.toNat = ring.length := by
      rw [h.numEasy, Int.toNat_natCast]
    rw [curlMultiCleanup, hdestroy, ok_bind, size, start]
    exact hfree
  · rw [hmsglist]
    exact hlist
  · rw [hsome x]
    exact ho.handles x
  · obtain ⟨hsession, hx⟩ := hmulti x data hx hd
    rw [h.added] at hx
    exact absurd (ho.added x data hsession hd) hx

end CurlMulti

end Synapi

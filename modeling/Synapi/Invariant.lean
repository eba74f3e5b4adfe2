import Synapi.Calls

/-!
What holds of a handle between calls: the key fields agree, the records in the
two tables are distinct, and every transfer libcurl knows of has its record.
-/

namespace Synapi

variable {p : ℤ} {n : ℕ}

def HandleView.KeyOk (v : HandleView) : Prop :=
  if v.apiKeySet then v.encodedApiKey = some (curlEscape v.apiKey) else v.apiKey = []

structure WaitingOk (t : SlotTable SynapiRequest n) (fresh : ℕ) : Prop where
  addr_lt : ∀ r ∈ t.occupants, r.addr < fresh
  nodup : (t.occupants.map SynapiRequest.addr).Nodup
  keyed : ∀ r ∈ t.occupants, r.apiKeyRequest = false ∧ r.action ≠ .serversNew

def transfers (t : SlotTable SynapiCurlHandle n) : List ℕ :=
  t.occupants.filterMap SynapiCurlHandle.handle

structure FlightOk (t : SlotTable SynapiCurlHandle n) (m : Multi) (fresh : ℕ) : Prop where
  addr_lt : ∀ c ∈ t.occupants, c.addr < fresh
  nodup : (t.occupants.map SynapiCurlHandle.addr).Nodup
  transfer_lt : ∀ h ∈ transfers t, h < fresh
  transfers_nodup : (transfers t).Nodup
  added : ∀ e ∈ m.added, e.id ∈ transfers t
  completed : ∀ h ∈ m.completed, h ∈ m.added.map Easy.id
  messages : ∀ msg ∈ m.messages, msg.easyHandle ∈ m.completed

structure Inv (w : World p) : Prop where
  key : w.view.KeyOk
  waiting : WaitingOk w.handle.requests w.fresh
  flight : FlightOk w.handle.pool w.multi w.fresh

/-- `synapi_url` has been called. -/
structure Addressed (w : World p) : Prop where
  baseUrl : w.handle.baseUrl.Terminated
  hostHeader : w.handle.hostHeader.Terminated

/-! The key -/

theorem KeyOk.withKey (v : HandleView) (key : Bytes) : (v.withKey key).KeyOk := by
  simp [HandleView.KeyOk, HandleView.withKey]

theorem KeyOk.cleared (v : HandleView) : v.cleared.KeyOk := by
  simp [HandleView.KeyOk, HandleView.cleared]

theorem KeyOk.withUrl {v : HandleView} (h : v.KeyOk) (url hostHeader : Bytes) :
    (v.withUrl url hostHeader).KeyOk := h

theorem KeyOk.encoded {w : World p} (h : w.view.KeyOk) (hset : w.handle.apiKeySet = true) :
    ∃ key, w.handle.encodedApiKey = some key ∧ key.val = curlEscape w.handle.apiKey.str := by
  have hv : w.view.apiKeySet = true := hset
  rw [HandleView.KeyOk, if_pos hv] at h
  exact Option.map_eq_some_iff.mp h

/-! The waiting requests -/

section Waiting

variable {t : SlotTable SynapiRequest n} {fresh : ℕ}

theorem WaitingOk.mono (h : WaitingOk t fresh) {later : ℕ} (hl : fresh ≤ later) :
    WaitingOk t later :=
  ⟨fun r hr => Nat.lt_of_lt_of_le (h.addr_lt r hr) hl, h.nodup, h.keyed⟩

theorem WaitingOk.put (h : WaitingOk t fresh) {k : ℕ} {request : SynapiRequest}
    (hk : t.slot k = some none) (haddr : request.addr = fresh)
    (hkeyed : request.apiKeyRequest = false ∧ request.action ≠ .serversNew) :
    WaitingOk (t.put k (some request)) (fresh + 3) := by
  have perm := SlotTable.occupants_put_perm hk request
  refine ⟨fun r hr => ?_, ?_, fun r hr => ?_⟩
  · rcases List.mem_cons.mp (perm.mem_iff.mp hr) with rfl | hr
    · omega
    · have := h.addr_lt r hr
      omega
  · rw [(perm.map SynapiRequest.addr).nodup_iff, List.map_cons, List.nodup_cons, haddr]
    refine ⟨fun hm => ?_, h.nodup⟩
    obtain ⟨r, hr, he⟩ := List.mem_map.mp hm
    have := h.addr_lt r hr
    omega
  · rcases List.mem_cons.mp (perm.mem_iff.mp hr) with rfl | hr
    · exact hkeyed
    · exact h.keyed r hr

theorem WaitingOk.clear (h : WaitingOk t fresh) (same : SynapiRequest → Bool) :
    WaitingOk (t.clear same) fresh := by
  have sub : (t.clear same).occupants.Sublist t.occupants := by
    rw [SlotTable.occupants_clear]
    exact List.filter_sublist
  exact ⟨fun r hr => h.addr_lt r (sub.subset hr), h.nodup.sublist (sub.map _),
    fun r hr => h.keyed r (sub.subset hr)⟩

end Waiting

/-! The transfers -/

section Flight

variable {t : SlotTable SynapiCurlHandle n} {m : Multi} {fresh : ℕ}

theorem FlightOk.mono (h : FlightOk t m fresh) {later : ℕ} (hl : fresh ≤ later) :
    FlightOk t m later :=
  { h with
    addr_lt := fun c hc => Nat.lt_of_lt_of_le (h.addr_lt c hc) hl
    transfer_lt := fun x hx => Nat.lt_of_lt_of_le (h.transfer_lt x hx) hl }

theorem transfers_put {k : ℕ} (hk : t.slot k = some none) (c : SynapiCurlHandle) :
    (transfers (t.put k (some c))).Perm (c.handle.toList ++ transfers t) := by
  have perm := (SlotTable.occupants_put_perm hk c).filterMap SynapiCurlHandle.handle
  apply perm.trans
  rw [List.filterMap_cons]
  cases c.handle <;> exact .refl _

theorem mem_transfers_put {k : ℕ} (hk : t.slot k = some none) (c : SynapiCurlHandle) (x : ℕ) :
    x ∈ transfers (t.put k (some c)) ↔ c.handle = some x ∨ x ∈ transfers t := by
  rw [(transfers_put hk c).mem_iff, List.mem_append, Option.mem_toList]

theorem FlightOk.put (h : FlightOk t m fresh) {k : ℕ} {c : SynapiCurlHandle} {easy : Option Easy}
    (succeeds : Bool) (hk : t.slot k = some none) (haddr : c.addr = fresh)
    (hhandle : ∀ x, c.handle = some x → x = fresh + 1) (heasy : easy.map Easy.id = c.handle) :
    FlightOk (t.put k (some c)) (m.add easy succeeds) (fresh + 2) := by
  have perm := SlotTable.occupants_put_perm hk c
  have tperm := transfers_put hk c
  refine ⟨fun d hd => ?_, ?_, fun x hx => ?_, ?_, fun e he => ?_, fun x hx => ?_, ?_⟩
  · rcases List.mem_cons.mp (perm.mem_iff.mp hd) with rfl | hd
    · omega
    · have := h.addr_lt d hd
      omega
  · rw [(perm.map SynapiCurlHandle.addr).nodup_iff, List.map_cons, List.nodup_cons, haddr]
    refine ⟨fun hm => ?_, h.nodup⟩
    obtain ⟨d, hd, he⟩ := List.mem_map.mp hm
    have := h.addr_lt d hd
    omega
  · rcases (mem_transfers_put hk c x).mp hx with hx | hx
    · have := hhandle x hx
      omega
    · have := h.transfer_lt x hx
      omega
  · rw [tperm.nodup_iff]
    cases hc : c.handle with
    | none => exact h.transfers_nodup
    | some x =>
      refine List.nodup_cons.mpr ⟨fun hx => ?_, h.transfers_nodup⟩
      have := h.transfer_lt x hx
      have := hhandle x hc
      omega
  · apply (mem_transfers_put hk c e.id).mpr
    rw [Multi.add] at he
    split_ifs at he
    · rcases List.mem_append.mp he with he | he
      · exact .inr (h.added e he)
      · rw [Option.mem_toList.mp he] at heasy
        exact .inl heasy.symm
    · exact .inr (h.added e he)
  · have hm := h.completed x (by rw [Multi.add] at hx; split_ifs at hx <;> exact hx)
    rw [Multi.add]
    split_ifs
    · rw [List.map_append]
      exact List.mem_append_left _ hm
    · exact hm
  · rw [Multi.add]
    split_ifs <;> exact h.messages

theorem FlightOk.complete (h : FlightOk t m fresh) {x : ℕ} (hx : m.Running x)
    (result : TransferResult) : FlightOk t (m.complete x result) fresh := by
  refine ⟨h.addr_lt, h.nodup, h.transfer_lt, h.transfers_nodup, h.added, fun y hy => ?_,
    fun msg hmsg => ?_⟩
  · rcases List.mem_cons.mp hy with rfl | hy
    · exact hx.1
    · exact h.completed y hy
  · rcases List.mem_append.mp hmsg with hmsg | hmsg
    · exact List.mem_cons_of_mem _ (h.messages msg hmsg)
    · rw [List.mem_singleton.mp hmsg]
      exact List.mem_cons_self

theorem FlightOk.same (h : FlightOk t m fresh) {c d : SynapiCurlHandle} (hc : c ∈ t.occupants)
    (hd : d ∈ t.occupants) (hcd : c.addr = d.addr) : c = d :=
  List.inj_on_of_nodup_map h.nodup hc hd hcd

theorem FlightOk.remove (h : FlightOk t m fresh) {c : SynapiCurlHandle} {x : ℕ}
    (hc : c ∈ t.occupants) (hx : c.handle = some x) :
    FlightOk (t.clear (isCurlHandle c)) (m.remove x) fresh := by
  have sub : (t.clear (isCurlHandle c)).occupants.Sublist t.occupants := by
    rw [SlotTable.occupants_clear]
    exact List.filter_sublist
  have tsub : (transfers (t.clear (isCurlHandle c))).Sublist (transfers t) := sub.filterMap _
  refine ⟨fun d hd => h.addr_lt d (sub.subset hd), h.nodup.sublist (sub.map _),
    fun y hy => h.transfer_lt y (tsub.subset hy), h.transfers_nodup.sublist tsub, fun e he => ?_,
    fun y hy => ?_, fun msg hmsg => ?_⟩
  · obtain ⟨he, hne⟩ := List.mem_filter.mp he
    obtain ⟨d, hd, hde⟩ := List.mem_filterMap.mp (h.added e he)
    refine List.mem_filterMap.mpr ⟨d, ?_, hde⟩
    rw [SlotTable.occupants_clear, List.mem_filter]
    refine ⟨hd, ?_⟩
    simp only [isCurlHandle, Bool.not_eq_true', decide_eq_false_iff_not]
    intro hsame
    rw [h.same hd hc hsame, hx] at hde
    simp only [ne_eq, decide_not, Bool.not_eq_true', decide_eq_false_iff_not] at hne
    exact hne (Option.some.inj hde).symm
  · obtain ⟨hy, hne⟩ := List.mem_filter.mp hy
    obtain ⟨e, he, hid⟩ := List.mem_map.mp (h.completed y hy)
    exact List.mem_map.mpr ⟨e, List.mem_filter.mpr ⟨he, by rw [hid]; exact hne⟩, hid⟩
  · obtain ⟨hmsg, hne⟩ := List.mem_filter.mp hmsg
    exact List.mem_filter.mpr ⟨h.messages msg hmsg, hne⟩

theorem FlightOk.tail (h : FlightOk t m fresh) :
    FlightOk t { m with messages := m.messages.tail } fresh :=
  { h with messages := fun msg hmsg => h.messages msg (List.mem_of_mem_tail hmsg) }

theorem FlightOk.message (h : FlightOk t m fresh) {msg : CurlMsg} (hm : msg ∈ m.messages) :
    ∃ c ∈ t.occupants, c.handle = some msg.easyHandle := by
  obtain ⟨e, he, hid⟩ := List.mem_map.mp (h.completed _ (h.messages msg hm))
  have := h.added e he
  rw [hid] at this
  exact List.mem_filterMap.mp this

theorem FlightOk.transfer_unique (h : FlightOk t m fresh) {j k : ℕ} {c d : SynapiCurlHandle}
    {x : ℕ} (hj : t.slot j = some (some c)) (hk : t.slot k = some (some d))
    (hc : c.handle = some x) (hd : d.handle = some x) : j = k :=
  SlotTable.slot_unique h.transfers_nodup hj hk hc hd

theorem FlightOk.transfers_clear (h : FlightOk t m fresh) {k x : ℕ} {c : SynapiCurlHandle}
    (hk : t.slot k = some (some c)) (hc : c.handle = some x) (y : ℕ) :
    y ∈ transfers (t.clear (isCurlHandle c)) ↔ y ∈ transfers t ∧ y ≠ x := by
  have mem : c ∈ t.occupants := SlotTable.mem_occupants.mpr ⟨k, hk⟩
  simp only [transfers, SlotTable.occupants_clear, List.mem_filterMap, List.mem_filter]
  constructor
  · rintro ⟨d, ⟨hd, hne⟩, hy⟩
    refine ⟨⟨d, hd, hy⟩, ?_⟩
    rintro rfl
    obtain ⟨j, hj⟩ := SlotTable.mem_occupants.mp hd
    obtain rfl := h.transfer_unique hj hk hy hc
    rw [hk] at hj
    rw [← Option.some.inj (Option.some.inj hj)] at hne
    simp [isCurlHandle] at hne
  · rintro ⟨⟨d, hd, hy⟩, hne⟩
    refine ⟨d, ⟨hd, ?_⟩, hy⟩
    simp only [isCurlHandle, Bool.not_eq_true', decide_eq_false_iff_not]
    intro haddr
    rw [h.same hd mem haddr, hc] at hy
    exact hne (Option.some.inj hy).symm

end Flight

end Synapi

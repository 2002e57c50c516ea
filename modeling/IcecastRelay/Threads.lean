import IcecastRelay.SourceRegistry

/-! # Thread handles

Thread ids are never reused and only `check_relay_stream` writes a handle, so a record's handle
names workers of that record alone (`ThreadInv`). -/
namespace IcecastRelay

/-- The thread bookkeeping: ids below `nextTid`, every handle owned by its record, and no handle
in the records a fetch has parsed. -/
structure ThreadInv (s : Sys) : Prop where
  fresh : ∀ w ∈ s.workers, w.tid < s.nextTid
  bound : ∀ a tid, (s.heap.cells a).thread = some tid → tid < s.nextTid
  owner : ∀ a tid, (s.heap.cells a).thread = some tid → ∀ w ∈ s.workers, w.tid = tid → w.relay = a
  news : ∀ f ∈ s.fetches, ∀ r ∈ f.master.newRelays, r.thread = none

namespace Sys

/-- `s'` has no thread handle, id or worker that `s` had not, up to the workers' phases. -/
structure ThreadsOf (s s' : Sys) : Prop where
  nextTid : s.nextTid ≤ s'.nextTid
  threads : ∀ a tid, (s'.heap.cells a).thread = some tid → (s.heap.cells a).thread = some tid
  workers : ∀ w ∈ s'.workers, ∃ w₀ ∈ s.workers, w₀.tid = w.tid ∧ w₀.relay = w.relay
  fetches : s'.fetches = s.fetches

/-- `s'` changed only the records `touched`, and only their runtime fields, and kept every
worker of the others. -/
structure Within (touched : List ℕ) (s s' : Sys) : Prop where
  cells : ∀ a ∉ touched, s'.heap.cells a = s.heap.cells a
  workers : ∀ w ∈ s.workers, w.relay ∉ touched → w ∈ s'.workers
  configured : ∀ a, (s'.heap.cells a).configured = (s.heap.cells a).configured

variable {s s₁ s₂ : Sys} {t t₁ t₂ : List ℕ} {a b tid : ℕ}

theorem ThreadsOf.rfl' : ThreadsOf s s :=
  ⟨le_rfl, fun _ _ h => h, fun w hw => ⟨w, hw, rfl, rfl⟩, rfl⟩

theorem ThreadsOf.trans (h₁ : ThreadsOf s s₁) (h₂ : ThreadsOf s₁ s₂) : ThreadsOf s s₂ where
  nextTid := h₁.nextTid.trans h₂.nextTid
  threads a tid h := h₁.threads a tid (h₂.threads a tid h)
  workers w hw := by
    obtain ⟨w₁, hw₁, ht₁, hr₁⟩ := h₂.workers w hw
    obtain ⟨w₀, hw₀, ht₀, hr₀⟩ := h₁.workers w₁ hw₁
    exact ⟨w₀, hw₀, ht₀.trans ht₁, hr₀.trans hr₁⟩
  fetches := h₂.fetches.trans h₁.fetches

theorem Within.rfl' : Within t s s := ⟨fun _ _ => rfl, fun _ hw _ => hw, fun _ => rfl⟩

theorem Within.trans (h₁ : Within t₁ s s₁) (h₂ : Within t₂ s₁ s₂) : Within (t₁ ++ t₂) s s₂ where
  cells a ha := by
    simp only [List.mem_append, not_or] at ha
    exact (h₂.cells a ha.2).trans (h₁.cells a ha.1)
  workers w hw hr := by
    simp only [List.mem_append, not_or] at hr
    exact h₂.workers w (h₁.workers w hw hr.1) hr.2
  configured a := (h₂.configured a).trans (h₁.configured a)

theorem Within.mono (h : Within t₁ s s₁) (ht : ∀ a ∈ t₁, a ∈ t₂) : Within t₂ s s₁ :=
  ⟨fun a ha => h.cells a fun h₁ => ha (ht a h₁), fun w hw hr => h.workers w hw fun h₁ => hr (ht _ h₁),
    h.configured⟩

theorem threadsOf_of (hh : s₁.heap = s.heap) (hw : s₁.workers = s.workers)
    (hn : s₁.nextTid = s.nextTid) (hf : s₁.fetches = s.fetches) : ThreadsOf s s₁ :=
  ⟨hn.ge, fun _ _ h => hh ▸ h, fun w h => ⟨w, hw ▸ h, rfl, rfl⟩, hf⟩

theorem within_of (hh : s₁.heap = s.heap) (hw : s₁.workers = s.workers) : Within t s s₁ :=
  ⟨fun _ _ => hh ▸ rfl, fun _ h _ => hw ▸ h, fun _ => hh ▸ rfl⟩

theorem threadsOf_modify {f : RelayServer → RelayServer}
    (hf : ∀ r, (f r).thread = r.thread ∨ (f r).thread = none) : ThreadsOf s (s.modify a f) := by
  refine ⟨le_rfl, fun b tid h => ?_, fun w hw => ⟨w, hw, rfl, rfl⟩, rfl⟩
  simp only [modify, Heap.set_cells] at h
  split_ifs at h with hb
  · subst hb
    rcases hf (s.heap.cells b) with he | he <;> rw [he] at h
    · exact h
    · cases h
  · exact h

theorem within_modify {f : RelayServer → RelayServer} (hf : ∀ r, (f r).configured = r.configured) :
    Within [a] s (s.modify a f) :=
  ⟨fun b hb => by simp [modify, List.ne_of_not_mem_cons hb], fun _ hw _ => hw,
    fun b => by by_cases hb : b = a <;> simp [modify, hb, hf]⟩

theorem threadsOf_setPhase {p : Phase} : ThreadsOf s (s.setPhase tid p) := by
  refine ⟨le_rfl, fun _ _ h => h, fun w hw => ?_, rfl⟩
  obtain ⟨w₀, hw₀, rfl⟩ := List.mem_map.1 hw
  exact ⟨w₀, hw₀, by split_ifs <;> rfl, by split_ifs <;> rfl⟩

theorem threadsOf_stopWorker : ThreadsOf s (s.stopWorker a) :=
  (threadsOf_modify (f := ({ · with cleanup := true })) fun _ => .inl rfl).trans
    (threadsOf_of rfl rfl rfl rfl)

theorem within_stopWorker : Within [a] s (s.stopWorker a) :=
  ⟨(within_modify (s := s) (f := ({ · with cleanup := true })) fun _ => rfl).cells, fun _ hw _ => hw,
    (within_modify (s := s) (f := ({ · with cleanup := true })) fun _ => rfl).configured⟩

theorem finishWorker_workers (w : Worker) : (s.finishWorker w).workers = s.workers := by
  unfold finishWorker
  split <;> rfl

theorem finishWorker_spec (w : Worker) :
    ThreadsOf s (s.finishWorker w) ∧ Within [w.relay] s (s.finishWorker w) := by
  unfold finishWorker
  split
  · exact ⟨(threadsOf_modify (f := ({ · with running := true })) fun _ => .inl rfl).trans
      threadsOf_stopWorker, ((within_modify (a := w.relay) (f := ({ · with running := true }))
        fun _ => rfl).trans within_stopWorker).mono (by simp)⟩
  · exact ⟨threadsOf_stopWorker, within_stopWorker⟩
  · exact ⟨ThreadsOf.rfl', Within.rfl'⟩

theorem mem_of_find_tid {w : Worker} (h : s.workers.find? (·.tid = tid) = some w) :
    w ∈ s.workers ∧ w.tid = tid := by
  have hp := List.find?_some h
  exact ⟨List.mem_of_find?_eq_some h, by simpa using hp⟩

theorem threadsOf_join : ThreadsOf s (s.join tid) := by
  unfold join
  split
  · exact ThreadsOf.rfl'
  · next w hw =>
    refine (finishWorker_spec w).1.trans ⟨le_rfl, fun _ _ h => h, fun x hx => ⟨x, ?_, rfl, rfl⟩, rfl⟩
    exact (List.mem_filter.1 hx).1

/-- `thread_join` on a record's handle touches that record only, and ends only that record's
workers. -/
theorem within_join (hi : ThreadInv s) (hb : (s.heap.cells b).thread = some tid) :
    Within [b] s (s.join tid) := by
  unfold join
  split
  · exact Within.rfl'
  · next w hw =>
    obtain ⟨hwm, hwt⟩ := mem_of_find_tid hw
    have hf := (finishWorker_spec (s := s) w).2
    rw [hi.owner b tid hb w hwm hwt] at hf
    refine ⟨hf.cells, fun x hx hxr => List.mem_filter.2 ⟨?_, ?_⟩, hf.configured⟩
    · rw [finishWorker_workers]; exact hx
    · have : x.tid ≠ tid := fun e => hxr (by rw [hi.owner b tid hb x hx e]; exact List.mem_singleton_self b)
      simpa using this

theorem threadsOf_rebuildMounts : ThreadsOf s s.rebuildMounts := threadsOf_of rfl rfl rfl rfl

theorem within_rebuildMounts : Within t s s.rebuildMounts := within_of rfl rfl

theorem joinFinished_spec (hi : ThreadInv s) :
    ThreadsOf s (s.joinFinished a) ∧ Within [a] s (s.joinFinished a) := by
  unfold joinFinished
  dsimp only
  split
  · next tid htid =>
    have hj := (@threadsOf_join s tid).trans (threadsOf_modify (a := a)
      (f := ({ · with thread := none, cleanup := false, running := false })) fun _ => .inr rfl)
    have hw : Within [a] s _ := ((within_join hi htid).trans (within_modify (a := a)
      (f := ({ · with thread := none, cleanup := false, running := false })) fun _ => rfl)).mono
      (by simp)
    split_ifs
    · exact ⟨hj.trans threadsOf_rebuildMounts, (hw.trans (within_rebuildMounts (t := []))).mono (by simp)⟩
    · exact ⟨hj, hw⟩
    · exact ⟨ThreadsOf.rfl', Within.rfl'⟩
  · exact ⟨ThreadsOf.rfl', Within.rfl'⟩

theorem reserveSource_spec : ThreadsOf s (s.reserveSource a) ∧ Within [a] s (s.reserveSource a) := by
  unfold reserveSource
  split
  · exact ⟨(threadsOf_modify (f := ({ · with source := some _ })) fun _ => .inl rfl).trans
      (threadsOf_of rfl rfl rfl rfl),
      ⟨(within_modify (s := s) (f := ({ · with source := some _ })) fun _ => rfl).cells,
        fun _ hw _ => hw,
        (within_modify (s := s) (f := ({ · with source := some _ })) fun _ => rfl).configured⟩⟩
  · exact ⟨ThreadsOf.rfl', Within.rfl'⟩

theorem within_spawn : Within [a] s (s.spawn a) :=
  ⟨(within_modify (s := s) (f := ({ · with thread := some s.nextTid })) fun _ => rfl).cells,
    fun _ hw _ => List.mem_cons_of_mem _ hw,
    (within_modify (s := s) (f := ({ · with thread := some s.nextTid })) fun _ => rfl).configured⟩

end Sys

namespace ThreadInv

variable {s s₁ : Sys} {a : ℕ}

theorem mono (hi : ThreadInv s) (h : Sys.ThreadsOf s s₁) : ThreadInv s₁ where
  fresh w hw := by
    obtain ⟨w₀, hw₀, ht, -⟩ := h.workers w hw
    exact ht ▸ (hi.fresh w₀ hw₀).trans_le h.nextTid
  bound a tid ht := (hi.bound a tid (h.threads a tid ht)).trans_le h.nextTid
  owner a tid ht w hw hwt := by
    obtain ⟨w₀, hw₀, ht₀, hr₀⟩ := h.workers w hw
    exact hr₀ ▸ hi.owner a tid (h.threads a tid ht) w₀ hw₀ (ht₀.trans hwt)
  news := h.fetches ▸ hi.news

/-- `thread_create` hands out a fresh id: the new handle names the new worker only. -/
theorem spawn (hi : ThreadInv s) : ThreadInv (s.spawn a) where
  fresh w hw := by
    rcases List.mem_cons.1 hw with rfl | hw
    · exact Nat.lt_succ_self _
    · exact Nat.lt_succ_of_lt (hi.fresh w hw)
  bound b tid ht := by
    simp only [Sys.spawn, Sys.modify, Heap.set_cells] at ht
    split_ifs at ht
    · cases ht; exact Nat.lt_succ_self _
    · exact Nat.lt_succ_of_lt (hi.bound b tid ht)
  owner b tid ht w hw hwt := by
    simp only [Sys.spawn, Sys.modify, Heap.set_cells] at ht
    split_ifs at ht with hb
    · cases ht
      rcases List.mem_cons.1 hw with rfl | hw
      · exact hb.symm
      · exact absurd hwt (Nat.ne_of_lt (hi.fresh w hw))
    · rcases List.mem_cons.1 hw with rfl | hw
      · exact absurd hwt.symm (Nat.ne_of_lt (hi.bound b tid ht))
      · exact hi.owner b tid ht w hw hwt
  news := hi.news

end ThreadInv

namespace Sys

variable {s : Sys} {a : ℕ}

theorem startRelay_spec (hi : ThreadInv s) :
    ThreadInv (s.startRelay a) ∧ s.nextTid ≤ (s.startRelay a).nextTid ∧
      Within [a] s (s.startRelay a) := by
  have hj : ∀ {s : Sys}, ThreadInv s →
      ThreadInv (s.joinFinished a) ∧ s.nextTid ≤ (s.joinFinished a).nextTid ∧
        Within [a] s (s.joinFinished a) := fun hi =>
    ⟨hi.mono (joinFinished_spec hi).1, (joinFinished_spec hi).1.nextTid, (joinFinished_spec hi).2⟩
  have hs : ∀ {s : Sys}, ThreadInv s →
      ThreadInv (s.spawn a) ∧ s.nextTid ≤ (s.spawn a).nextTid ∧ Within [a] s (s.spawn a) :=
    fun hi => ⟨hi.spawn, Nat.le_succ _, within_spawn⟩
  have hr := hi.mono threadsOf_rebuildMounts
  unfold startRelay
  dsimp only
  split
  · exact hj hi
  · split_ifs
    · exact hj hi
    · obtain ⟨h₁, h₂, h₃⟩ := hs hr
      exact ⟨h₁, h₂, ((within_rebuildMounts (t := [])).trans h₃).mono (by simp)⟩
    · obtain ⟨h₁, h₂, h₃⟩ := hj hr
      exact ⟨h₁, h₂, ((within_rebuildMounts (t := [])).trans h₃).mono (by simp)⟩
    · exact hs hi

theorem checkRelayStream_spec (hi : ThreadInv s) :
    ThreadInv (s.checkRelayStream a) ∧ s.nextTid ≤ (s.checkRelayStream a).nextTid ∧
      Within [a] s (s.checkRelayStream a) := by
  unfold checkRelayStream
  split_ifs
  · exact ⟨hi, le_rfl, Within.rfl'⟩
  · obtain ⟨h₁, h₂, h₃⟩ := startRelay_spec (a := a) (hi.mono reserveSource_spec.1)
    exact ⟨h₁, reserveSource_spec.1.nextTid.trans h₂, (reserveSource_spec.2.trans h₃).mono (by simp)⟩
  · exact startRelay_spec hi

theorem freeRelay_spec (hi : ThreadInv s) :
    ThreadInv (s.freeRelay a) ∧ s.nextTid ≤ (s.freeRelay a).nextTid ∧
      Within [a] s (s.freeRelay a) := by
  have hpre : ThreadsOf s (if (s.heap.cells a).source ≠ none ∧ (s.heap.cells a).running then
        (match (s.heap.cells a).thread with
          | some tid => s.join tid
          | none => s).rebuildMounts
      else s) ∧ Within [a] s (if (s.heap.cells a).source ≠ none ∧ (s.heap.cells a).running then
        (match (s.heap.cells a).thread with
          | some tid => s.join tid
          | none => s).rebuildMounts
      else s) := by
    split_ifs
    · split
      · next tid ht =>
        exact ⟨threadsOf_join.trans threadsOf_rebuildMounts,
          ((within_join hi ht).trans (within_rebuildMounts (t := []))).mono (by simp)⟩
      · exact ⟨threadsOf_rebuildMounts, within_rebuildMounts⟩
    · exact ⟨ThreadsOf.rfl', Within.rfl'⟩
  have hfree : ∀ {s₁ : Sys}, ThreadsOf s₁ (s₁.relayFree a) ∧ Within [a] s₁ (s₁.relayFree a) := by
    intro s₁
    unfold relayFree
    split <;> exact ⟨threadsOf_of rfl rfl rfl rfl, within_of rfl rfl⟩
  have ht := hpre.1.trans hfree.1
  exact ⟨hi.mono ht, ht.nextTid, (hpre.2.trans hfree.2).mono (by simp)⟩

/-- `relay_check_streams (toStart, toFree)` keeps the invariant, hands out ids from `nextTid` on,
and touches only the records of its two lists. -/
theorem relayCheckStreams_threads (hi : ThreadInv s) (toStart toFree : List ℕ) :
    ThreadInv (s.relayCheckStreams toStart toFree) ∧
      s.nextTid ≤ (s.relayCheckStreams toStart toFree).nextTid ∧
      Within (toFree ++ toStart) s (s.relayCheckStreams toStart toFree) := by
  have hfold : ∀ (f : Sys → ℕ → Sys), (∀ {s a}, ThreadInv s →
      ThreadInv (f s a) ∧ s.nextTid ≤ (f s a).nextTid ∧ Within [a] s (f s a)) →
      ∀ (l : List ℕ) {s : Sys}, ThreadInv s →
        ThreadInv (l.foldl f s) ∧ s.nextTid ≤ (l.foldl f s).nextTid ∧ Within l s (l.foldl f s) := by
    intro f hf l
    induction l with
    | nil => exact fun hi => ⟨hi, le_rfl, Within.rfl'⟩
    | cons b rest ih =>
      intro s hi
      obtain ⟨h₁, h₂, h₃⟩ := hf (a := b) hi
      obtain ⟨h₄, h₅, h₆⟩ := ih h₁
      exact ⟨h₄, h₂.trans h₅, h₃.trans h₆⟩
  obtain ⟨h₁, h₂, h₃⟩ := hfold freeRelay freeRelay_spec toFree hi
  obtain ⟨h₄, h₅, h₆⟩ := hfold checkRelayStream checkRelayStream_spec toStart h₁
  exact ⟨h₄, h₂.trans h₅, h₃.trans h₆⟩

end Sys

theorem updateRelays_threads (h : Heap) (C U : List ℕ) {a tid : ℕ}
    (ht : ((updateRelays h C U).heap.cells a).thread = some tid) : (h.cells a).thread = some tid := by
  have hstep : ∀ (st : SetState) d, ((updateRelayStep st d).heap.cells a).thread = some tid →
      (st.heap.cells a).thread = some tid := by
    intro st d h'
    rcases updateRelayStep_cases st d with ⟨pre, e, post, -, -, -, he⟩ | ⟨-, he⟩ <;>
      rw [he] at h'
    · simp only [Heap.set_cells] at h'
      split_ifs at h' with hae
      · exact hae ▸ h'
      · exact h'
    · rw [relayCopy_cells] at h'
      split_ifs at h' with h₁ h₂
      · exact h₁ ▸ h'
      · cases h'
      · exact h'
  have hfold : ∀ (l : List ℕ) st, ((l.foldl updateRelayStep st).heap.cells a).thread = some tid →
      (st.heap.cells a).thread = some tid := by
    intro l
    induction l with
    | nil => exact fun _ h => h
    | cons d rest ih => exact fun st h => hstep st d (ih _ h)
  exact hfold U _ ht

theorem allocRelays_threads {rs : List RelayServer} (hrs : ∀ r ∈ rs, r.thread = none) :
    ∀ {h : Heap} {a tid : ℕ}, ((allocRelays h rs).1.cells a).thread = some tid →
      (h.cells a).thread = some tid := by
  induction rs with
  | nil => exact fun h => h
  | cons r rs ih =>
    intro h a tid ht
    have h' := ih (fun r' hr' => hrs r' (List.mem_cons_of_mem _ hr')) ht
    simp only [Heap.alloc_cells] at h'
    split_ifs at h'
    · rw [hrs r (List.mem_cons_self _ _)] at h'; cases h'
    · exact h'

namespace ThreadInv

variable {s s' : Sys}

theorem withFetches (hi : ThreadInv s) (fs : List Fetch)
    (hfs : ∀ f ∈ fs, ∀ r ∈ f.master.newRelays, r.thread = none) : ThreadInv { s with fetches := fs } :=
  ⟨hi.fresh, hi.bound, hi.owner, hfs⟩

theorem setFetch (hi : ThreadInv s) {tid : ℕ} {f : MasterConnDetails → MasterConnDetails}
    (hf : ∀ m : MasterConnDetails, (∀ r ∈ m.newRelays, r.thread = none) →
      ∀ r ∈ (f m).newRelays, r.thread = none) : ThreadInv (s.setFetch tid f) := by
  refine hi.withFetches _ fun x hx => ?_
  obtain ⟨y, hy, rfl⟩ := List.mem_map.1 hx
  split_ifs
  · exact hf y.master (hi.news y hy)
  · exact hi.news y hy

theorem refreshRelays (hi : ThreadInv s) : ThreadInv s.refreshRelays := by
  have h₁ : ThreadInv { s with
      heap := (updateRelays s.heap s.relays s.config.relay).heap
      relays := (updateRelays s.heap s.relays s.config.relay).active } :=
    hi.mono ⟨le_rfl, fun _ _ h => updateRelays_threads _ _ _ h, fun w hw => ⟨w, hw, rfl, rfl⟩, rfl⟩
  exact (Sys.relayCheckStreams_threads h₁ _ _).1

theorem commit (hi : ThreadInv s) {m : MasterConnDetails} (hm : ∀ r ∈ m.newRelays, r.thread = none) :
    ThreadInv (s.commit m) := by
  have h₁ : ThreadInv { s with
      heap := (updateRelays (allocRelays s.heap m.newRelays).1 s.masterRelays
        (allocRelays s.heap m.newRelays).2).heap
      masterRelays := (updateRelays (allocRelays s.heap m.newRelays).1 s.masterRelays
        (allocRelays s.heap m.newRelays).2).active } :=
    hi.mono ⟨le_rfl, fun _ _ h => allocRelays_threads hm (updateRelays_threads _ _ _ h),
      fun w hw => ⟨w, hw, rfl, rfl⟩, rfl⟩
  exact (Sys.relayCheckStreams_threads (Sys.relayCheckStreams_threads h₁ _ _).1 _ _).1

theorem rescan (hi : ThreadInv s) : ThreadInv s.rescan :=
  (Sys.relayCheckStreams_threads (Sys.relayCheckStreams_threads hi _ _).1 _ _).1

theorem shutdownPass (hi : ThreadInv s) : ThreadInv s.shutdownPass :=
  (Sys.relayCheckStreams_threads (Sys.relayCheckStreams_threads hi _ _).1 _ _).1

theorem refreshMaster (hi : ThreadInv s) : ThreadInv s.refreshMaster := by
  unfold Sys.refreshMaster
  dsimp only
  split
  · next m hm =>
    refine ⟨fun w hw => Nat.lt_succ_of_lt (hi.fresh w hw),
      fun a tid ht => Nat.lt_succ_of_lt (hi.bound a tid ht), hi.owner, fun f hf r hr => ?_⟩
    rcases List.mem_cons.1 hf with rfl | hf
    · simp [SysInv.updateFromMaster_newRelays hm] at hr
    · exact hi.news f hf r hr
  · exact ⟨hi.fresh, hi.bound, hi.owner, hi.news⟩

theorem tick (hi : ThreadInv s) : ThreadInv s.tick := by
  have hint : ∀ n, ThreadInv { s with interval := n } := fun _ => ⟨hi.fresh, hi.bound, hi.owner, hi.news⟩
  have hpc : ∀ {s : Sys} (p : Pc), ThreadInv s → ThreadInv { s with pc := p } :=
    fun _ hi => ⟨hi.fresh, hi.bound, hi.owner, hi.news⟩
  rcases s.tick_cases with ⟨-, he⟩ | ⟨-, -, -, he⟩ | ⟨-, -, he⟩ | ⟨-, -, -, he⟩ <;> rw [he]
  · exact hpc _ hi.shutdownPass
  · exact hint _
  · exact hpc _ (hint _).refreshMaster.refreshRelays
  · exact hpc _ (hint _).rescan

theorem reload (hi : ThreadInv s) (relays : List RelayConfig) (settings : MasterSettings) :
    ThreadInv (s.reload relays settings) :=
  hi.mono ⟨le_rfl, fun _ _ h => allocRelays_threads (fun r hr => by
    obtain ⟨c, -, rfl⟩ := List.mem_map.1 hr; rfl) h, fun w hw => ⟨w, hw, rfl, rfl⟩, rfl⟩

/-- Every step keeps the thread bookkeeping. -/
theorem step (hi : ThreadInv s) {e : Event} (h : s.next e = some s') : ThreadInv s' := by
  cases e with
  | tick =>
    simp only [Sys.next, Option.ite_none_right_eq_some, Option.some.injEq] at h
    exact h.2 ▸ hi.tick
  | clear =>
    simp only [Sys.next, Option.ite_none_right_eq_some, Option.some.injEq] at h
    exact h.2 ▸ ⟨hi.fresh, hi.bound, hi.owner, hi.news⟩
  | start tid =>
    simp only [Sys.next] at h
    split at h
    · split_ifs at h
      cases h
      exact hi.mono ((Sys.threadsOf_modify (f := ({ · with running := true })) fun _ => .inl rfl).trans
        Sys.threadsOf_setPhase)
    · cases h
  | stop tid =>
    simp only [Sys.next] at h
    split at h
    · split_ifs at h
      cases h
      exact hi.mono (Sys.threadsOf_stopWorker.trans Sys.threadsOf_setPhase)
    · cases h
  | header tid =>
    simp only [Sys.next, Option.ite_none_right_eq_some, Option.some.injEq] at h
    exact h.2 ▸ hi.setFetch fun _ hm => hm
  | data tid chunk =>
    simp only [Sys.next, Option.ite_none_right_eq_some, Option.some.injEq] at h
    refine h.2 ▸ hi.setFetch fun m hm r hr => ?_
    obtain ⟨l, hl, ht⟩ := streamlistData_threads m chunk
    rw [hl] at hr
    rcases List.mem_append.1 hr with hr | hr
    · exact ht r hr
    · exact hm r hr
  | done tid =>
    simp only [Sys.next] at h
    split at h
    · next f hf =>
      cases h
      have hc : ThreadInv (if f.master.ok ≠ 0 then s.commit f.master else s) := by
        split_ifs
        · exact hi.commit (hi.news f (List.mem_of_find?_eq_some hf))
        · exact hi
      exact hc.withFetches _ fun x hx => hc.news x (List.mem_filter.1 hx).1
    · cases h
  | reload relays settings =>
    cases h
    exact hi.reload relays settings
  | rescanRequest | recheck | rebuild | demand | slaveRequest | shutdown =>
    cases h
    exact ⟨hi.fresh, hi.bound, hi.owner, hi.news⟩

theorem init : ThreadInv Sys.init :=
  ⟨by simp [Sys.init], fun _ _ h => by simp [Sys.init, blankRelay] at h, by simp [Sys.init],
    by simp [Sys.init]⟩

end ThreadInv

/-- Every reachable state keeps the thread bookkeeping. -/
theorem Reachable.threadInv {s : Sys} (hs : Reachable s) : ThreadInv s := by
  induction hs with
  | init => exact ThreadInv.init
  | step e _ h ih => exact ih.step h

end IcecastRelay

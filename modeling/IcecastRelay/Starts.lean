import IcecastRelay.Refresh

/-! # The workers a pass starts

`check_relay_stream` starts a worker exactly for a startable record, and every step of the
subsystem starts workers only so. -/
namespace IcecastRelay

/-- The records `check_relay_stream` starts once the name is reserved: a source, not running,
enabled, and not on demand unless its source was asked for. -/
def startable (r : RelayServer) (demand : List ℕ) : Bool :=
  match r.source with
  | some hd => !r.running && r.enable ≠ 0 && (r.onDemand = 0 || hd ∈ demand)
  | none => false

theorem startable_of_source_none {r : RelayServer} (d : List ℕ) (h : r.source = none) :
    startable r d = false := by
  simp [startable, h]

theorem running_of_startable {r : RelayServer} {d : List ℕ} (h : startable r d = true) :
    r.running = false := by
  unfold startable at h
  split at h
  · cases hr : r.running <;> simp_all
  · cases h

namespace Sys

variable {s s' s₁ s₂ : Sys} {a b tid : ℕ} {w : Worker}

@[simp] theorem rebuildMounts_demand : s.rebuildMounts.demand = s.demand := rfl

/-- `s'` keeps the counters, the running flag, the demand and the slave table of `s`. -/
structure Schedule (s s' : Sys) : Prop where
  interval : s'.interval = s.interval
  maxInterval : s'.maxInterval = s.maxInterval
  slaveRunning : s'.slaveRunning = s.slaveRunning
  demand : s'.demand = s.demand
  slaves : s'.slaves = s.slaves

theorem Schedule.rfl' : Schedule s s := ⟨rfl, rfl, rfl, rfl, rfl⟩

theorem Schedule.trans (h₁ : Schedule s s₁) (h₂ : Schedule s₁ s₂) : Schedule s s₂ :=
  ⟨h₂.1.trans h₁.1, h₂.2.trans h₁.2, h₂.3.trans h₁.3, h₂.4.trans h₁.4, h₂.5.trans h₁.5⟩

theorem Schedule.foldl {f : Sys → ℕ → Sys} (hf : ∀ s a, Schedule s (f s a)) (l : List ℕ) :
    ∀ s, Schedule s (l.foldl f s) := by
  induction l with
  | nil => exact fun _ => .rfl'
  | cons b rest ih => exact fun s => (hf s b).trans (ih _)

/-- `s'` only joined workers of `s`: it has no worker or id that `s` had not, and keeps the
schedule. -/
structure Joins (s s' : Sys) : Prop where
  workers : ∀ w ∈ s'.workers, w ∈ s.workers
  nextTid : s'.nextTid = s.nextTid
  schedule : Schedule s s'

theorem Joins.rfl' : Joins s s := ⟨fun _ h => h, rfl, .rfl'⟩

theorem Joins.trans (h₁ : Joins s s₁) (h₂ : Joins s₁ s₂) : Joins s s₂ :=
  ⟨fun w h => h₁.workers w (h₂.workers w h), h₂.nextTid.trans h₁.nextTid,
    h₁.schedule.trans h₂.schedule⟩

theorem Joins.foldl {f : Sys → ℕ → Sys} (hf : ∀ s a, Joins s (f s a)) (l : List ℕ) :
    ∀ s, Joins s (l.foldl f s) := by
  induction l with
  | nil => exact fun _ => .rfl'
  | cons b rest ih => exact fun s => (hf s b).trans (ih _)

theorem join_joins : Joins s (s.join tid) := by
  unfold join
  split
  · exact .rfl'
  · unfold finishWorker
    split <;> exact ⟨fun _ h => (List.mem_filter.1 h).1, rfl, ⟨rfl, rfl, rfl, rfl, rfl⟩⟩

theorem joinFinished_joins : Joins s (s.joinFinished a) := by
  unfold joinFinished
  dsimp only
  split
  · split_ifs
    · exact join_joins.trans ⟨fun _ h => h, rfl, ⟨rfl, rfl, rfl, rfl, rfl⟩⟩
    · exact join_joins.trans ⟨fun _ h => h, rfl, ⟨rfl, rfl, rfl, rfl, rfl⟩⟩
    · exact .rfl'
  · exact .rfl'

theorem freeRelay_joins : Joins s (s.freeRelay a) := by
  simp only [freeRelay, relayFree]
  split_ifs
  · split <;> split
    all_goals first
      | exact join_joins.trans ⟨fun _ h => h, rfl, ⟨rfl, rfl, rfl, rfl, rfl⟩⟩
      | exact ⟨fun _ h => h, rfl, ⟨rfl, rfl, rfl, rfl, rfl⟩⟩
  · split <;> exact ⟨fun _ h => h, rfl, ⟨rfl, rfl, rfl, rfl, rfl⟩⟩

theorem reserveSource_frame :
    (s.reserveSource a).workers = s.workers ∧ (s.reserveSource a).nextTid = s.nextTid ∧
      Schedule s (s.reserveSource a) ∧
      ∀ b, ((s.reserveSource a).heap.cells b).running = (s.heap.cells b).running := by
  unfold reserveSource
  split
  · refine ⟨rfl, rfl, ⟨rfl, rfl, rfl, rfl, rfl⟩, fun b => ?_⟩
    by_cases hb : b = a <;> simp [modify, hb]
  · exact ⟨rfl, rfl, .rfl', fun _ => rfl⟩

theorem checkRelayStream_schedule : Schedule s (s.checkRelayStream a) := by
  have hs : ∀ {s : Sys}, Schedule s (s.startRelay a) := by
    intro s
    unfold startRelay
    dsimp only
    split
    · exact joinFinished_joins.schedule
    · split_ifs
      · exact joinFinished_joins.schedule
      · exact ⟨rfl, rfl, rfl, rfl, rfl⟩
      · exact (⟨rfl, rfl, rfl, rfl, rfl⟩ : Schedule s s.rebuildMounts).trans joinFinished_joins.schedule
      · exact ⟨rfl, rfl, rfl, rfl, rfl⟩
  unfold checkRelayStream
  split_ifs
  · exact .rfl'
  · exact reserveSource_frame.2.2.1.trans hs
  · exact hs

theorem relayCheckStreams_schedule (toStart toFree : List ℕ) :
    Schedule s (s.relayCheckStreams toStart toFree) :=
  (Joins.foldl (f := freeRelay) (fun _ _ => freeRelay_joins) toFree s).schedule.trans
    (Schedule.foldl (f := checkRelayStream) (fun _ _ => checkRelayStream_schedule) toStart _)

/-- What a stretch of `relay_check_streams` over the records `l` owes the workers: old ids are old
workers, each new worker was started for a startable record of `l` that names it, one per record,
and every startable record of `l` has one. -/
structure Starts (l : List ℕ) (s s' : Sys) : Prop where
  nextTid : s.nextTid ≤ s'.nextTid
  old : ∀ w ∈ s'.workers, w.tid < s.nextTid → w ∈ s.workers
  new : ∀ w ∈ s'.workers, s.nextTid ≤ w.tid →
    w.relay ∈ l ∧ w.phase = .spawned ∧ w.tid < s'.nextTid ∧
      (s'.heap.cells w.relay).thread = some w.tid ∧ startable (s'.heap.cells w.relay) s.demand ∧
      (s.heap.cells w.relay).running = false
  unique : ∀ w ∈ s'.workers, ∀ w' ∈ s'.workers, s.nextTid ≤ w.tid → s.nextTid ≤ w'.tid →
    w.relay = w'.relay → w = w'
  started : ∀ a ∈ l, startable (s.heap.cells a) s.demand →
    ∃ w ∈ s'.workers, w.relay = a ∧ s.nextTid ≤ w.tid

theorem Starts.of_sub (hi : ThreadInv s) (hw : ∀ w ∈ s'.workers, w ∈ s.workers)
    (hn : s'.nextTid = s.nextTid) (hst : ∀ a ∈ l, startable (s.heap.cells a) s.demand = false) :
    Starts l s s' where
  nextTid := hn.ge
  old w h _ := hw w h
  new w h ht := absurd (hi.fresh w (hw w h)) (Nat.not_lt.2 ht)
  unique w h _ _ ht := absurd (hi.fresh w (hw w h)) (Nat.not_lt.2 ht)
  started a ha h := by simp [hst a ha] at h

theorem Starts.trans {l₁ l₂ t : List ℕ} (h₁ : Starts l₁ s s₁) (h₂ : Starts l₂ s₁ s₂)
    (hd : s₁.demand = s.demand) (hdisj : ∀ a ∈ l₁, a ∉ l₂) (hw : Within t s₁ s₂)
    (ht : ∀ a ∈ l₁, a ∉ t) (hc : ∀ a ∈ l₂, (s₁.heap.cells a).running = (s.heap.cells a).running ∧
      (startable (s.heap.cells a) s.demand → startable (s₁.heap.cells a) s₁.demand)) :
    Starts (l₁ ++ l₂) s s₂ where
  nextTid := h₁.nextTid.trans h₂.nextTid
  old w h hn := h₁.old w (h₂.old w h (hn.trans_le h₁.nextTid)) hn
  new w h hn := by
    by_cases ht₁ : w.tid < s₁.nextTid
    · obtain ⟨hl, hp, hlt, hth, hst, hr⟩ := h₁.new w (h₂.old w h ht₁) hn
      have hcell := hw.cells w.relay (ht _ hl)
      exact ⟨List.mem_append_left _ hl, hp, hlt.trans_le h₂.nextTid, hcell ▸ hth, hcell ▸ hst, hr⟩
    · obtain ⟨hl, hp, hlt, hth, hst, hr⟩ := h₂.new w h (Nat.not_lt.1 ht₁)
      exact ⟨List.mem_append_right _ hl, hp, hlt, hth, hd ▸ hst, (hc _ hl).1 ▸ hr⟩
  unique w h w' h' hn hn' hr := by
    by_cases ht₁ : w.tid < s₁.nextTid <;> by_cases ht₁' : w'.tid < s₁.nextTid
    · exact h₁.unique w (h₂.old w h ht₁) w' (h₂.old w' h' ht₁') hn hn' hr
    · exact absurd (hr ▸ (h₁.new w (h₂.old w h ht₁) hn).1)
        (hdisj _ · (h₂.new w' h' (Nat.not_lt.1 ht₁')).1)
    · exact absurd (hr ▸ (h₂.new w h (Nat.not_lt.1 ht₁)).1)
        fun h₂' => hdisj _ (h₁.new w' (h₂.old w' h' ht₁') hn').1 h₂'
    · exact h₂.unique w h w' h' (Nat.not_lt.1 ht₁) (Nat.not_lt.1 ht₁') hr
  started a ha h := by
    rcases List.mem_append.1 ha with ha | ha
    · obtain ⟨w, hw₁, hr, ht'⟩ := h₁.started a ha h
      exact ⟨w, hw.workers w hw₁ (hr ▸ ht a ha), hr, ht'⟩
    · obtain ⟨w, hw₂, hr, ht'⟩ := h₂.started a ha ((hc a ha).2 h)
      exact ⟨w, hw₂, hr, h₁.nextTid.trans ht'⟩

theorem Starts.of_rebuildMounts {l : List ℕ} (h : Starts l s.rebuildMounts s') : Starts l s s' :=
  ⟨h.nextTid, h.old, h.new, h.unique, h.started⟩

theorem spawn_starts (hi : ThreadInv s) (hst : startable (s.heap.cells a) s.demand = true) :
    Starts [a] s (s.spawn a) where
  nextTid := Nat.le_succ _
  old w h ht := by
    rcases List.mem_cons.1 h with rfl | h
    · exact absurd ht (lt_irrefl _)
    · exact h
  new w h ht := by
    rcases List.mem_cons.1 h with rfl | h
    · exact ⟨List.mem_singleton_self _, rfl, Nat.lt_succ_self _, by simp [spawn, modify],
        by simpa [spawn, modify] using hst, running_of_startable hst⟩
    · exact absurd (hi.fresh w h) (Nat.not_lt.2 ht)
  unique w h w' h' ht ht' _ := by
    rcases List.mem_cons.1 h with rfl | h
    · rcases List.mem_cons.1 h' with rfl | h'
      · rfl
      · exact absurd (hi.fresh w' h') (Nat.not_lt.2 ht')
    · exact absurd (hi.fresh w h) (Nat.not_lt.2 ht)
  started b hb _ := ⟨_, List.mem_cons_self _ _, (List.mem_singleton.1 hb).symm, le_rfl⟩

theorem startRelay_starts (hi : ThreadInv s) : Starts [a] s (s.startRelay a) := by
  have hj : ∀ {s : Sys}, ThreadInv s → startable (s.heap.cells a) s.demand = false →
      Starts [a] s (s.joinFinished a) := fun hi hst =>
    Starts.of_sub hi joinFinished_joins.workers joinFinished_joins.nextTid fun b hb =>
      List.mem_singleton.1 hb ▸ hst
  unfold startRelay
  dsimp only
  split
  · next hsrc => exact hj hi (startable_of_source_none _ hsrc)
  · next hd hsrc =>
    have hr := hi.mono threadsOf_rebuildMounts
    split_ifs with h₁ h₂ h₃
    · exact hj hi (by rcases h₁ with h₁ | h₁ <;> simp [startable, hsrc, h₁])
    all_goals obtain ⟨hrun, hen⟩ := not_or.1 h₁
    · exact (spawn_starts (a := a) hr (by simp [startable, rebuildMounts, hsrc, hrun, hen, h₂, h₃])).of_rebuildMounts
    · exact (hj hr (by simp [startable, rebuildMounts, hsrc, hrun, hen, h₂, h₃])).of_rebuildMounts
    · exact spawn_starts hi (by simp [startable, hsrc, hrun, hen, not_not.1 h₂])

theorem checkRelayStream_starts (hi : ThreadInv s) : Starts [a] s (s.checkRelayStream a) := by
  unfold checkRelayStream
  split_ifs with h₁ h₂
  · exact Starts.of_sub hi (fun w hw => hw) rfl fun b hb =>
      List.mem_singleton.1 hb ▸ startable_of_source_none _ h₁.1
  · obtain ⟨hw, hn, hsch, hr⟩ := reserveSource_frame (s := s) (a := a)
    have h₀ : Starts [] s (s.reserveSource a) :=
      Starts.of_sub hi (fun w h => hw ▸ h) hn (fun _ h => absurd h (List.not_mem_nil _))
    have hi₁ := hi.mono (reserveSource_spec (a := a)).1
    exact h₀.trans (startRelay_starts hi₁) hsch.demand (fun _ h => absurd h (List.not_mem_nil _))
      (startRelay_spec hi₁).2.2 (fun _ h => absurd h (List.not_mem_nil _)) fun b hb => ⟨hr b, fun h => by
        rw [List.mem_singleton.1 hb, startable_of_source_none _ h₂] at h; cases h⟩
  · exact startRelay_starts hi

theorem foldl_checkRelayStream_starts (l : List ℕ) :
    ∀ {s : Sys}, ThreadInv s → l.Nodup → Starts l s (l.foldl checkRelayStream s) := by
  induction l with
  | nil => exact fun hi _ => Starts.of_sub hi (fun w h => h) rfl fun _ h => absurd h (List.not_mem_nil _)
  | cons b rest ih =>
    intro s hi hnd
    obtain ⟨hbr, hnd'⟩ := List.nodup_cons.1 hnd
    obtain ⟨hi₁, -, hw₁⟩ := checkRelayStream_spec (a := b) hi
    have hw : Within rest _ _ := (relayCheckStreams_threads hi₁ rest []).2.2.mono (by simp)
    exact (checkRelayStream_starts hi).trans (ih hi₁ hnd') checkRelayStream_schedule.demand
      (fun a ha => List.mem_singleton.1 ha ▸ hbr) hw (fun a ha => List.mem_singleton.1 ha ▸ hbr)
      fun c hc => by
        have hcb : c ∉ [b] := fun h => hbr (List.mem_singleton.1 h ▸ hc)
        rw [hw₁.cells c hcb, checkRelayStream_schedule.demand]
        exact ⟨rfl, id⟩

/-- `relay_check_streams (to_start, to_free)`, over distinct records to start that are not
freed: the workers it starts are exactly one for each record of `to_start` that is startable
once its name is reserved, and every startable one of them gets one. -/
theorem relayCheckStreams_starts (hi : ThreadInv s) {toStart toFree : List ℕ}
    (hnd : toStart.Nodup) (hdisj : ∀ a ∈ toStart, a ∉ toFree) :
    Starts toStart s (s.relayCheckStreams toStart toFree) := by
  obtain ⟨hw, hn, ⟨-, -, -, hd, -⟩⟩ := Joins.foldl (f := freeRelay) (fun _ _ => freeRelay_joins) toFree s
  obtain ⟨hi₁, -, hw₁⟩ := relayCheckStreams_threads hi [] toFree
  have hw₂ : Within toStart _ _ := (relayCheckStreams_threads hi₁ toStart []).2.2.mono (by simp)
  exact (Starts.of_sub (l := []) hi hw hn fun _ h => absurd h (List.not_mem_nil _)).trans
    (foldl_checkRelayStream_starts toStart hi₁ hnd) hd (fun _ h => absurd h (List.not_mem_nil _)) hw₂
    (fun _ h => absurd h (List.not_mem_nil _)) fun a ha => by
      have hc : (toFree.foldl freeRelay s).heap.cells a = s.heap.cells a :=
        hw₁.cells a (by simpa using hdisj a ha)
      rw [hc, hd]
      exact ⟨rfl, id⟩

theorem updateRelays_active_nodup {h : Heap} {C U O : List ℕ} (hl : Linked h (C ++ U ++ O))
    (hU : ∀ d ∈ U, sourceAt h d = none) :
    (updateRelays h C U).active.Nodup ∧
      ∀ a ∈ (updateRelays h C U).active, a ∉ (updateRelays h C U).cleanup := by
  have hnd := (List.nodup_append.1 (List.nodup_append.1 (List.nodup_append.1
    (updateRelays_linked hl hU).1).1).1)
  exact ⟨hnd.2.1, fun a ha hk => hnd.2.2 hk ha⟩

end Sys

/-- Every worker `s'` has with an id from `s.nextTid` on runs on a live record that is
startable and whose handle names it, and it is the only such worker on its record. -/
def StepStarted (s s' : Sys) : Prop :=
  ∀ w ∈ s'.workers, s.nextTid ≤ w.tid →
    w.relay ∈ s'.live ∧ w.phase = .spawned ∧ (s'.heap.cells w.relay).thread = some w.tid ∧
      startable (s'.heap.cells w.relay) s'.demand = true ∧
      ∀ w' ∈ s'.workers, s.nextTid ≤ w'.tid → w'.relay = w.relay → w' = w

namespace StepStarted

variable {s s' s₀ s₁ : Sys} {l : List ℕ}

theorem of_old (hi : ThreadInv s) (h : ∀ w ∈ s'.workers, ∃ w₀ ∈ s.workers, w₀.tid = w.tid) :
    StepStarted s s' := fun w hw ht => by
  obtain ⟨w₀, hw₀, he⟩ := h w hw
  exact absurd (he ▸ hi.fresh w₀ hw₀) (Nat.not_lt.2 ht)

theorem of_starts (h : Sys.Starts l s₀ s₁) (hi : ThreadInv s) (hw : s₀.workers = s.workers)
    (hl : ∀ a ∈ l, a ∈ s'.live) (hw' : s'.workers = s₁.workers)
    (hh : s'.heap = s₁.heap) (hd : s'.demand = s₀.demand) : StepStarted s s' := by
  have hnew : ∀ w ∈ s'.workers, s.nextTid ≤ w.tid → s₀.nextTid ≤ w.tid := fun w hw₁ ht =>
    Nat.not_lt.1 fun hlt => absurd (hi.fresh w (hw ▸ h.old w (hw' ▸ hw₁) hlt)) (Nat.not_lt.2 ht)
  intro w hw₁ ht
  obtain ⟨hl₁, hp, -, hth, hst, -⟩ := h.new w (hw' ▸ hw₁) (hnew w hw₁ ht)
  exact ⟨hl w.relay hl₁, hp, hh ▸ hth, hh ▸ hd ▸ hst, fun w' hw₂ ht' hr =>
    h.unique w' (hw' ▸ hw₂) w (hw' ▸ hw₁) (hnew w' hw₂ ht') (hnew w hw₁ ht) hr⟩

end StepStarted

namespace Sys

variable {s s' : Sys}

theorem rescan_starts (hsi : SysInv s) (hti : ThreadInv s) :
    Starts (s.masterRelays ++ s.relays) s s.rescan := by
  obtain ⟨hr, hm, hrm⟩ := List.nodup_append.1 (List.nodup_append.1 (List.nodup_append.1 hsi.linked.1).2.1).1
  set s₁ := s.relayCheckStreams s.masterRelays []
  obtain ⟨hti₁, -, hw₁⟩ := relayCheckStreams_threads hti s.masterRelays []
  have hr₁ : s₁.relays = s.relays := (relayCheckStreams_frame s s.masterRelays []).1.relays
  have hw₂ : Within s.relays s₁ s.rescan := by
    rw [← hr₁]; exact (relayCheckStreams_threads hti₁ s₁.relays []).2.2.mono (by simp)
  have hdisj : ∀ a ∈ s.masterRelays, a ∉ s.relays := fun a ha har => hrm har ha
  have h₂ : Starts s.relays s₁ s.rescan := by
    rw [← hr₁]
    exact relayCheckStreams_starts hti₁ (by rw [hr₁]; exact hr) fun _ _ h => absurd h (List.not_mem_nil _)
  exact (relayCheckStreams_starts hti hm (fun _ _ h => absurd h (List.not_mem_nil _))).trans h₂
    ((relayCheckStreams_schedule _ _).demand) hdisj hw₂ hdisj fun a ha => by
      have hc : s₁.heap.cells a = s.heap.cells a :=
        hw₁.cells a (by simpa using fun h => hdisj a h ha)
      rw [hc, (relayCheckStreams_schedule _ _).demand]
      exact ⟨rfl, id⟩

theorem refreshRelays_starts (hsi : SysInv s) (hti : ThreadInv s) :
    let u := updateRelays s.heap s.relays s.config.relay
    Starts u.active { s with heap := u.heap, relays := u.active } s.refreshRelays := by
  intro u
  have hl : Linked s.heap (s.relays ++ s.config.relay ++ s.masterRelays) :=
    (hsi.linked.sublist (List.sublist_append_right _ _)).perm s.live_perm
  obtain ⟨hnd, hdisj⟩ := updateRelays_active_nodup hl hsi.templates
  have hti₁ : ThreadInv { s with heap := u.heap, relays := u.active } :=
    hti.mono ⟨le_rfl, fun _ _ h => updateRelays_threads _ _ _ h, fun w hw => ⟨w, hw, rfl, rfl⟩, rfl⟩
  exact relayCheckStreams_starts hti₁ hnd hdisj

theorem commit_starts (hsi : SysInv s) (hti : ThreadInv s) {m : MasterConnDetails}
    (hm : ∀ r ∈ m.newRelays, r.source = none) (hmt : ∀ r ∈ m.newRelays, r.thread = none) :
    let p := allocRelays s.heap m.newRelays
    let u := updateRelays p.1 s.masterRelays p.2
    Starts (u.active ++ []) { s with heap := u.heap, masterRelays := u.active } (s.commit m) := by
  intro p u
  obtain ⟨hl₀, -, hNs⟩ := hsi.commit_lists hm
  replace hl₀ := hl₀.sublist (List.sublist_append_right _ _)
  obtain ⟨hnd, hdisjK⟩ := updateRelays_active_nodup hl₀ hNs
  have hti₁ : ThreadInv { s with heap := u.heap, masterRelays := u.active } :=
    hti.mono ⟨le_rfl, fun _ _ h => allocRelays_threads hmt (updateRelays_threads _ _ _ h),
      fun w hw => ⟨w, hw, rfl, rfl⟩, rfl⟩
  obtain ⟨hti₂, -, -⟩ := relayCheckStreams_threads hti₁ u.active u.cleanup
  obtain ⟨-, -, hw₃⟩ := relayCheckStreams_threads hti₂ [] p.2
  have hdisjN : ∀ a ∈ u.active, a ∉ p.2 ++ [] := fun a ha hN =>
    (List.nodup_append.1 (List.nodup_append.1 (updateRelays_linked hl₀ hNs).1).1).2.2
      (List.mem_append_right _ ha) (by simpa using hN)
  exact (relayCheckStreams_starts hti₁ hnd hdisjK).trans
    (relayCheckStreams_starts hti₂ List.nodup_nil fun _ h => absurd h (List.not_mem_nil _))
    ((relayCheckStreams_schedule _ _).demand) (fun _ _ h => absurd h (List.not_mem_nil _)) hw₃ hdisjN
    fun _ h => absurd h (List.not_mem_nil _)

end Sys

section Turn

variable {s : Sys} (hsi : SysInv s) (hti : ThreadInv s)
include hti

theorem shutdown_stepStarted : StepStarted s { s.shutdownPass with pc := .exited } :=
  StepStarted.of_old hti fun w hw =>
    ⟨w, (Sys.Joins.foldl (fun _ _ => Sys.freeRelay_joins) _ _).workers w
      ((Sys.Joins.foldl (fun _ _ => Sys.freeRelay_joins) _ _).workers w hw), rfl⟩

include hsi

theorem fullRefresh_stepStarted (i : ℕ) :
    StepStarted s { ({ s with interval := i } : Sys).fullRefresh with pc := .clear } := by
  have hint : ThreadInv { s with interval := i } := ⟨hti.fresh, hti.bound, hti.owner, hti.news⟩
  set t := ({ s with interval := i } : Sys).refreshMaster
  obtain ⟨-, -, -, -, -, htw, -⟩ := Sys.refreshMaster_frame ({ s with interval := i } : Sys)
  have hf := (Sys.relayCheckStreams_frame { t with
    heap := (updateRelays t.heap t.relays t.config.relay).heap
    relays := (updateRelays t.heap t.relays t.config.relay).active }
    (updateRelays t.heap t.relays t.config.relay).active
    (updateRelays t.heap t.relays t.config.relay).cleanup).1
  refine StepStarted.of_starts (Sys.refreshRelays_starts (hsi.with_interval i).refreshMaster
    hint.refreshMaster) hti htw (fun a ha => ?_) rfl rfl ((Sys.relayCheckStreams_schedule _ _).demand)
  have hrel : ({ t.refreshRelays with pc := .clear } : Sys).relays =
      (updateRelays t.heap t.relays t.config.relay).active := hf.relays
  exact List.mem_append.2 (.inl (List.mem_append.2 (.inl (hrel ▸ ha))))

theorem rescan_stepStarted (i : ℕ) :
    StepStarted s { ({ s with interval := i } : Sys).rescan with pc := .clear } := by
  set s₀ : Sys := { s with interval := i }
  have hf₁ := (Sys.relayCheckStreams_frame s₀ s₀.masterRelays []).1
  have hf₂ := (Sys.relayCheckStreams_frame (s₀.relayCheckStreams s₀.masterRelays [])
    (s₀.relayCheckStreams s₀.masterRelays []).relays []).1
  refine StepStarted.of_starts (Sys.rescan_starts (hsi.with_interval i)
    ⟨hti.fresh, hti.bound, hti.owner, hti.news⟩) hti rfl (fun a ha => ?_) rfl rfl
    (((Sys.relayCheckStreams_schedule _ _).demand).trans ((Sys.relayCheckStreams_schedule _ _).demand))
  have hrel : ({ s₀.rescan with pc := .clear } : Sys).relays = s₀.relays := hf₂.relays.trans hf₁.relays
  have hmas : ({ s₀.rescan with pc := .clear } : Sys).masterRelays = s₀.masterRelays :=
    hf₂.masterRelays.trans hf₁.masterRelays
  rcases List.mem_append.1 ha with ha | ha
  · exact List.mem_append.2 (.inl (List.mem_append.2 (.inr (hmas ▸ ha))))
  · exact List.mem_append.2 (.inl (List.mem_append.2 (.inl (hrel ▸ hf₁.relays ▸ ha))))

theorem tick_stepStarted : StepStarted s s.tick := by
  rcases s.tick_cases with ⟨-, he⟩ | ⟨-, -, -, he⟩ | ⟨-, -, he⟩ | ⟨-, -, -, he⟩ <;> rw [he]
  · exact shutdown_stepStarted hti
  · exact StepStarted.of_old hti fun w hw => ⟨w, hw, rfl⟩
  · exact fullRefresh_stepStarted hsi hti _
  · exact rescan_stepStarted hsi hti _

end Turn

theorem done_stepStarted {s s' : Sys} (hsi : SysInv s) (hti : ThreadInv s) {tid : ℕ}
    (h : s.next (.done tid) = some s') : StepStarted s s' := by
  simp only [Sys.next] at h
  split at h
  · next f hf =>
    cases h
    have hfm := List.mem_of_find?_eq_some hf
    split_ifs with hok
    · have hst := Sys.commit_starts hsi hti (hsi.news f hfm) (hti.news f hfm)
      have hA : (s.commit f.master).masterRelays =
          (updateRelays (allocRelays s.heap f.master.newRelays).1 s.masterRelays
            (allocRelays s.heap f.master.newRelays).2).active :=
        (Sys.relayCheckStreams_frame _ [] _).1.masterRelays.trans
          (Sys.relayCheckStreams_frame _ _ _).1.masterRelays
      refine StepStarted.of_starts hst hti rfl (fun a ha => ?_) rfl rfl
        (((Sys.relayCheckStreams_schedule _ _).demand).trans ((Sys.relayCheckStreams_schedule _ _).demand))
      rw [List.append_nil] at ha
      exact List.mem_append.2 (.inl (List.mem_append.2 (.inr (hA ▸ ha))))
    · exact StepStarted.of_old hti fun w hw => ⟨w, hw, rfl⟩
  · cases h

theorem next_stepStarted {s s' : Sys} (hsi : SysInv s) (hti : ThreadInv s) {e : Event}
    (h : s.next e = some s') : StepStarted s s' := by
  have hsame : ∀ {s'}, s'.workers = s.workers → StepStarted s s' := fun hw =>
    StepStarted.of_old hti fun w h => ⟨w, hw ▸ h, rfl⟩
  cases e with
  | tick =>
    simp only [Sys.next, Option.ite_none_right_eq_some, Option.some.injEq] at h
    exact h.2 ▸ tick_stepStarted hsi hti
  | done tid => exact done_stepStarted hsi hti h
  | start tid =>
    simp only [Sys.next] at h
    split at h
    · split_ifs at h
      cases h
      exact StepStarted.of_old hti fun w hw =>
        (((Sys.threadsOf_modify (f := ({ · with running := true })) fun _ => .inl rfl).trans
          Sys.threadsOf_setPhase).workers w hw).imp fun _ h => ⟨h.1, h.2.1⟩
    · cases h
  | stop tid =>
    simp only [Sys.next] at h
    split at h
    · split_ifs at h
      cases h
      exact StepStarted.of_old hti fun w hw =>
        ((Sys.threadsOf_stopWorker.trans Sys.threadsOf_setPhase).workers w hw).imp
          fun _ h => ⟨h.1, h.2.1⟩
    · cases h
  | clear | header tid | data tid chunk =>
    simp only [Sys.next, Option.ite_none_right_eq_some, Option.some.injEq] at h
    exact h.2 ▸ hsame rfl
  | reload relays settings | rescanRequest | recheck | rebuild | demand | slaveRequest | shutdown =>
    cases h
    exact hsame rfl

/-- Every step from every reachable state before the supervisor exits starts workers only for live
startable records, each with a fresh id its record names, and no record gets two. -/
theorem Reachable.stepStarted {s s' : Sys} (hs : Reachable s) (hpc : s.pc ≠ .exited) {e : Event}
    (h : s.next e = some s') : StepStarted s s' :=
  next_stepStarted (hs.sysInv hpc) hs.threadInv h

theorem stepStarted_sample :
    let s := (Sys.init.run [.reload [Sample.relayA] (Sample.standalone 1)]).getD Sys.init
    (s.pc ≠ .exited ∧ s.next .tick = some s.tick) ∧ StepStarted s s.tick ∧
      ∃ w ∈ s.tick.workers, s.nextTid ≤ w.tid :=
  ⟨⟨by decide, rfl⟩, Reachable.stepStarted (e := .tick) (reachable_run_getD _) (by decide) rfl,
    by decide⟩

/-- A rescan turn (`rescan_relays` set, the refresh not due) starts a worker for every startable
record of both lists. -/
theorem Reachable.rescan_startsEvery {s : Sys} (hs : Reachable s) (hpc : s.pc ≠ .exited)
    (hrun : s.slaveRunning = true) (hres : s.rescanRelays = true)
    (hint : s.interval < s.maxInterval) :
    ∀ a ∈ s.relays ++ s.masterRelays, startable (s.heap.cells a) s.demand = true →
      ∃ w ∈ s.tick.workers, w.relay = a ∧ s.nextTid ≤ w.tid := by
  intro a ha hst
  rw [Sys.tick_of_rescan hrun hres hint]
  exact (Sys.rescan_starts (hs.sysInv hpc) hs.threadInv).started a
    (List.mem_append.2 (List.mem_append.1 ha).symm) hst

theorem rescan_startsEvery_sample :
    let s := (Sys.init.run [.reload [Sample.relayA] (Sample.standalone 5), .tick, .clear,
      .rescanRequest]).getD Sys.init
    (s.pc ≠ .exited ∧ s.slaveRunning = true ∧ s.rescanRelays = true ∧
      s.interval < s.maxInterval ∧ 1 ∈ s.relays ++ s.masterRelays ∧
      startable (s.heap.cells 1) s.demand = true) ∧
    ∃ w ∈ s.tick.workers, w.relay = 1 ∧ s.nextTid ≤ w.tid :=
  ⟨by decide, Reachable.rescan_startsEvery (reachable_run_getD _) (by decide) (by decide) (by decide)
    (by decide) 1 (by decide) (by decide)⟩

end IcecastRelay

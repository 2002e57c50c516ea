import IcecastRelay.SourceRegistry

/-! # Lifetimes of records and workers

When a relay record is freed and when its worker is joined, and the runs where the code leaves
that discipline. -/
namespace IcecastRelay

variable {s : Sys}

/-- Before the shutdown pass no record is freed twice, and the lists and the configuration name
only records not freed. -/
theorem Reachable.frees_once (hs : Reachable s) (hpc : s.pc ≠ .exited) :
    s.freed.Nodup ∧ ∀ a ∈ s.live, a ∉ s.freed :=
  (hs.sysInv hpc).freed_nodup_disjoint

theorem frees_once_sample :
    let s := (Sys.init.run [.reload [Sample.relayA] (Sample.standalone 1), .tick, .clear,
      .reload [] (Sample.standalone 1), .tick]).getD Sys.init
    (s.pc ≠ .exited ∧ s.freed ≠ []) ∧ s.freed.Nodup ∧ ∀ a ∈ s.live, a ∉ s.freed :=
  ⟨by decide, Reachable.frees_once (reachable_run_getD _) (by decide)⟩

namespace Sys

variable {a : ℕ}

theorem freeRelay_workers (hr : (s.heap.cells a).running = false) :
    (s.freeRelay a).workers = s.workers := by
  simp only [freeRelay, relayFree, hr, Bool.false_eq_true, and_false, if_false]
  split <;> rfl

theorem checkRelayStream_spawns {hd : ℕ} (hs : (s.heap.cells a).source = some hd)
    (hr : (s.heap.cells a).running = false) (he : (s.heap.cells a).enable ≠ 0)
    (hod : (s.heap.cells a).onDemand = 0) :
    (s.checkRelayStream a).workers = ⟨s.nextTid, a, .spawned⟩ :: s.workers := by
  simp [checkRelayStream, startRelay, hs, hr, he, hod, spawn]

end Sys

/-- A record can have two unjoined workers, and a record can be freed while its worker has not
started: both happen before the worker sets `running`. -/
theorem worker_join_races :
    (∃ s a, Reachable s ∧ 2 ≤ (s.workers.filter (·.relay = a)).length) ∧
      ∃ s, Reachable s ∧ ∃ w ∈ s.workers, w.phase = .spawned ∧ w.relay ∈ s.freed :=
  ⟨⟨_, 1, reachable_run_getD [.reload [Sample.relayA] (Sample.standalone 2), .tick, .clear,
      .rescanRequest, .tick], by decide⟩,
    ⟨_, reachable_run_getD [.reload [Sample.relayA] (Sample.standalone 1), .tick, .clear,
      .reload [] (Sample.standalone 1), .tick], by decide⟩⟩

/-- A completion can be cleared unswept, in `global.relays` by a worker that ends between the
sweep and `rescan_relays = 0`, and in `global.master_relays` by a fetch that does not commit. -/
theorem completion_signal_lost :
    (∃ s, Reachable s ∧ s.pc = .top ∧ s.rescanRelays = false ∧
      ∃ a ∈ s.relays, (s.heap.cells a).cleanup = true ∧ (s.heap.cells a).thread ≠ none) ∧
    ∃ s, Reachable s ∧ s.pc = .top ∧ s.rescanRelays = false ∧
      ∃ a ∈ s.masterRelays, (s.heap.cells a).cleanup = true ∧ (s.heap.cells a).thread ≠ none :=
  ⟨⟨_, reachable_run_getD [.reload [Sample.relayA] (Sample.standalone 2), .tick, .start 0,
      .stop 0, .clear], by decide⟩,
    ⟨_, reachable_run_getD [.reload [] Sample.withMaster, .tick, .header 0, .data 0 [47, 97, 10],
      .done 0, .clear, .start 1, .tick, .stop 1, .done 2, .clear], by decide⟩⟩

namespace Sys

theorem shutdownPass_spec :
    s.shutdownPass.relays = s.relays ∧ s.shutdownPass.masterRelays = s.masterRelays ∧
      s.shutdownPass.freed = s.masterRelays.reverse ++ s.relays.reverse ++ s.freed := by
  unfold shutdownPass
  obtain ⟨hf₁, hd₁⟩ := relayCheckStreams_frame s [] s.relays
  obtain ⟨hf₂, hd₂⟩ := relayCheckStreams_frame (s.relayCheckStreams [] s.relays) []
    (s.relayCheckStreams [] s.relays).masterRelays
  rw [hf₂.relays, hf₂.masterRelays, hd₂, hf₁.relays, hf₁.masterRelays, hd₁, List.append_assoc]
  exact ⟨rfl, rfl, rfl⟩

theorem tick_exit_dangling (hr : s.slaveRunning = false) :
    s.tick.pc = .exited ∧ s.tick.relays = s.relays ∧ s.tick.masterRelays = s.masterRelays ∧
      ∀ a ∈ s.relays ++ s.masterRelays, a ∈ s.tick.freed := by
  obtain ⟨hrel, hmas, hfreed⟩ := shutdownPass_spec (s := s)
  have ht : s.tick = { s.shutdownPass with pc := .exited } := by simp [tick, hr]
  rw [ht]
  refine ⟨rfl, hrel, hmas, fun a ha => ?_⟩
  rcases List.mem_append.1 ha with h | h <;> simp [hfreed, h]

theorem shutdownPass_registry (hi : SysInv s) : s.shutdownPass.registry.entries = [] := by
  have hn := (List.nodup_append.1 hi.linked.1).2.1
  simp only [live, List.append_assoc] at hn
  have hn₀ := (List.nodup_append.1 hn).2.1
  have H₀ : Holds s.heap s.registry (s.relays ++ (s.masterRelays ++ s.config.relay)) := by
    simpa only [live, List.append_assoc] using hi.holds
  set s₁ := s.relayCheckStreams [] s.relays
  have hf₁ := (relayCheckStreams_frame s [] s.relays).1
  have H₁ : Holds s₁.heap s₁.registry (s₁.masterRelays ++ s₁.config.relay) := by
    rw [hf₁.masterRelays, hf₁.config]
    exact relayCheckStreams_holds H₀ hn₀ fun _ h => absurd h (List.not_mem_nil _)
  have hf₂ := (relayCheckStreams_frame s₁ [] s₁.masterRelays).1
  have H₂ : Holds (s₁.relayCheckStreams [] s₁.masterRelays).heap
      (s₁.relayCheckStreams [] s₁.masterRelays).registry s₁.config.relay :=
    relayCheckStreams_holds H₁ (hf₁.config ▸ (List.nodup_append.1 hn₀).2.1)
      fun _ h => absurd h (List.not_mem_nil _)
  refine List.eq_nil_iff_forall_not_mem.2 fun e he => ?_
  obtain ⟨a, ha, hsa⟩ := H₂.holder he
  rw [(hf₁.trans hf₂).sources a (by simp), hi.templates a (hf₁.config ▸ ha)] at hsa
  cases hsa

end Sys

/-- From every reachable state, the turn that leaves the loop leaves no source reservation. -/
theorem Reachable.shutdown_releases (hs : Reachable s) (hpc : s.pc ≠ .exited)
    (hr : s.slaveRunning = false) : s.tick.registry.entries = [] := by
  have ht : s.tick = { s.shutdownPass with pc := .exited } := by simp [Sys.tick, hr]
  rw [ht]
  exact Sys.shutdownPass_registry (hs.sysInv hpc)

theorem shutdown_releases_sample :
    let s := (Sys.init.run [.reload [Sample.relayA] (Sample.standalone 1), .tick, .clear,
      .shutdown]).getD Sys.init
    (s.pc ≠ .exited ∧ s.slaveRunning = false ∧ s.registry.entries ≠ []) ∧ s.tick.registry.entries = [] :=
  ⟨by decide, Reachable.shutdown_releases (reachable_run_getD _) (by decide) (by decide)⟩

/-- A fetch still in flight at shutdown commits into the freed lists and frees a record again. -/
theorem shutdown_double_free :
    ∃ s tid s', Reachable s ∧ s.pc = .exited ∧ s.masterRelays ≠ [] ∧
      (∀ a ∈ s.masterRelays, a ∈ s.freed) ∧ s.next (.done tid) = some s' ∧ ¬ s'.freed.Nodup :=
  ⟨_, 2, _, reachable_run_getD [.reload [] Sample.withMaster, .tick, .header 0,
    .data 0 [47, 97, 10], .done 0, .start 1, .clear, .tick, .clear, .shutdown, .tick, .header 2],
    by decide, by decide, by decide, rfl, by decide⟩

end IcecastRelay

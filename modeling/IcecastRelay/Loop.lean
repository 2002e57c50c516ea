import IcecastRelay.Starts

/-! # Runs of the supervisor loop

Rescan requests that starve the full refresh, quiet turns that lead to it, and the rescan that
reaps a worker's end. -/

namespace IcecastRelay

namespace Sys

variable {s : Sys}

theorem rescan_keeps (s : Sys) :
    Schedule s s.rescan ∧ s.rescan.relays = s.relays ∧ s.rescan.masterRelays = s.masterRelays ∧
      s.rescan.fetches = s.fetches := by
  have hf := (relayCheckStreams_frame s s.masterRelays []).1.trans
    (relayCheckStreams_frame _ (s.relayCheckStreams s.masterRelays []).relays []).1
  exact ⟨(relayCheckStreams_schedule _ _).trans (relayCheckStreams_schedule _ _),
    hf.relays, hf.masterRelays, hf.fetches⟩

/-- Rounds in which `slave_rescan` comes before the turn. -/
def rescanRounds : ℕ → List Event
  | 0 => []
  | k + 1 => .rescanRequest :: .tick :: .clear :: rescanRounds k

def rescanRound (s : Sys) : Sys :=
  ({ ({ s with rescanRelays := true } : Sys).rescan with pc := .clear } : Sys).clear

theorem run_rescanRound (hpc : s.pc = .top) (hrun : s.slaveRunning = true)
    (hint : s.interval < s.maxInterval) (es : List Event) :
    s.run (.rescanRequest :: .tick :: .clear :: es) = s.rescanRound.run es := by
  have h₂ : ({ s with rescanRelays := true } : Sys).next .tick =
      some { ({ s with rescanRelays := true } : Sys).rescan with pc := .clear } := by
    rw [← tick_of_rescan (s := { s with rescanRelays := true }) hrun rfl hint]; exact if_pos hpc
  rw [run, show s.next .rescanRequest = some { s with rescanRelays := true } from rfl,
    Option.some_bind, run, h₂, Option.some_bind, run]
  rfl

theorem rescanRound_keeps (s : Sys) :
    Schedule s s.rescanRound ∧ s.rescanRound.pc = .top ∧ s.rescanRound.relays = s.relays ∧
      s.rescanRound.masterRelays = s.masterRelays ∧ s.rescanRound.fetches = s.fetches := by
  obtain ⟨hs, hr, hm, hf⟩ := rescan_keeps { s with rescanRelays := true }
  have h := (⟨rfl, rfl, rfl, rfl, rfl⟩ : Schedule s { s with rescanRelays := true }).trans hs
  exact ⟨⟨h.1, h.2, h.3, h.4, h.5⟩, rfl, hr, hm, hf⟩

end Sys

/-- Starvation of the full refresh: while a `slave_rescan` comes before every turn, the count,
`max_interval`, the fetches, both lists and the slave table stay as they were. -/
theorem Sys.run_rescanRounds {s : Sys} (hpc : s.pc = .top) (hrun : s.slaveRunning = true)
    (hint : s.interval < s.maxInterval) (k : ℕ) :
    s.run (Sys.rescanRounds k) = some (Sys.rescanRound^[k] s) ∧
      Sys.Schedule s (Sys.rescanRound^[k] s) ∧ (Sys.rescanRound^[k] s).fetches = s.fetches ∧
      (Sys.rescanRound^[k] s).relays = s.relays ∧
      (Sys.rescanRound^[k] s).masterRelays = s.masterRelays := by
  induction k generalizing s with
  | zero => exact ⟨rfl, .rfl', rfl, rfl, rfl⟩
  | succ k ih =>
    obtain ⟨hs, hp, hr, hm, hf⟩ := Sys.rescanRound_keeps s
    obtain ⟨ih₁, ih₂, ih₃, ih₄, ih₅⟩ := ih hp (hs.slaveRunning.trans hrun)
      (hs.interval ▸ hs.maxInterval ▸ hint)
    exact ⟨(Sys.run_rescanRound hpc hrun hint _).trans ih₁, hs.trans ih₂, ih₃.trans hf,
      ih₄.trans hr, ih₅.trans hm⟩

theorem run_rescanRounds_sample :
    let s := (Sys.init.run [.reload [Sample.relayA] (Sample.standalone 5), .tick, .clear]).getD
      Sys.init
    (s.pc = .top ∧ s.slaveRunning = true ∧ s.interval < s.maxInterval) ∧
      s.run (Sys.rescanRounds 3) = some (Sys.rescanRound^[3] s) ∧
      Sys.Schedule s (Sys.rescanRound^[3] s) ∧ (Sys.rescanRound^[3] s).fetches = s.fetches ∧
      (Sys.rescanRound^[3] s).relays = s.relays ∧
      (Sys.rescanRound^[3] s).masterRelays = s.masterRelays :=
  ⟨by decide, Sys.run_rescanRounds (by decide) (by decide) (by decide) 3⟩

namespace Sys

variable {s : Sys}

theorem run_quiet (k : ℕ) : ∀ {s : Sys}, s.pc = .top → s.slaveRunning = true →
    s.rescanRelays = false → s.interval + k < s.maxInterval →
    s.run (List.replicate k .tick) = some { s with interval := s.interval + k } := by
  induction k with
  | zero => intro s _ _ _ _; rfl
  | succ k ih =>
    intro s hpc hrun hres hk
    rw [List.replicate_succ, run, next, if_pos hpc, Option.some_bind, tick_of_quiet hrun hres (by omega),
      ih (s := { s with interval := s.interval + 1 }) hpc hrun hres (by simp only; omega),
      show s.interval + (k + 1) = s.interval + 1 + k by omega]

theorem run_quietTurns_succ (n : ℕ) {s : Sys} (hpc : s.pc = .top) (hrun : s.slaveRunning = true)
    (hres : s.rescanRelays = false) (hn : s.interval + n + 1 = s.maxInterval) :
    s.run (List.replicate (n + 1) .tick) =
      some { ({ s with interval := s.maxInterval } : Sys).fullRefresh with pc := .clear } := by
  rw [List.replicate_succ', run_append, run_quiet n hpc hrun hres (by omega), Option.some_bind,
    run, next, if_pos hpc, Option.some_bind,
    tick_of_due (s := { s with interval := s.interval + n }) hrun hres (by simp only; omega)]
  simp only [hn, run]

end Sys

/-- Without a rescan request the full refresh comes on the turn that brings the count to
`max_interval`, from the state as it was. -/
theorem Sys.run_quietTurns {s : Sys} (hpc : s.pc = .top) (hrun : s.slaveRunning = true)
    (hres : s.rescanRelays = false) (hint : s.interval < s.maxInterval) :
    s.run (List.replicate (s.maxInterval - s.interval) .tick) =
      some { ({ s with interval := s.maxInterval } : Sys).fullRefresh with pc := .clear } := by
  obtain ⟨n, hn⟩ := Nat.exists_eq_add_of_lt hint
  rw [show s.maxInterval - s.interval = n + 1 by omega]
  exact Sys.run_quietTurns_succ n hpc hrun hres (by omega)

theorem run_quietTurns_sample :
    let s := (Sys.init.run [.reload [Sample.relayA] (Sample.standalone 5), .tick, .clear]).getD
      Sys.init
    (s.pc = .top ∧ s.slaveRunning = true ∧ s.rescanRelays = false ∧ s.interval < s.maxInterval) ∧
      s.run (List.replicate (s.maxInterval - s.interval) .tick) =
        some { ({ s with interval := s.maxInterval } : Sys).fullRefresh with pc := .clear } :=
  ⟨by decide, Sys.run_quietTurns (by decide) (by decide) (by decide) (by decide)⟩

namespace Sys

variable {s : Sys} {a tid : ℕ}

theorem rescan_eq_foldl (s : Sys) :
    s.rescan = (s.masterRelays ++ s.relays).foldl checkRelayStream s := by
  have hr := (relayCheckStreams_frame s s.masterRelays []).1.relays
  rw [List.foldl_append]
  unfold rescan
  dsimp only
  rw [hr]
  rfl

theorem mem_setPhase {w : Worker} {p : Phase} (h : w ∈ (s.setPhase tid p).workers) :
    (w.tid = tid ∧ w.phase = p) ∨ (w.tid ≠ tid ∧ w ∈ s.workers) := by
  obtain ⟨x, hx, rfl⟩ := List.mem_map.1 h
  by_cases ht : x.tid = tid
  · exact .inl (by simp [ht])
  · exact .inr (by simp [ht, hx])

theorem checkRelayStream_of_running (hsrc : (s.heap.cells a).source ≠ none)
    (hr : (s.heap.cells a).running = true) : s.checkRelayStream a = s.joinFinished a := by
  obtain ⟨hd, hd'⟩ := Option.ne_none_iff_exists'.1 hsrc
  simp [checkRelayStream, startRelay, hd', hr]

theorem join_of_finished (hf : ∀ w ∈ s.workers, w.tid = tid → w.phase = .finished) :
    s.join tid = { s with workers := s.workers.filter (·.tid ≠ tid) } := by
  unfold join
  split
  · next hn =>
    rw [List.filter_eq_self.2 fun w hw => by simpa using List.find?_eq_none.1 hn w hw]
  · next w hw =>
    obtain ⟨hm, ht⟩ := mem_of_find_tid hw
    simp [finishWorker, hf w hm ht]

theorem joinFinished_of_cleanup (ht : (s.heap.cells a).thread = some tid)
    (hc : (s.heap.cells a).cleanup = true)
    (hf : ∀ w ∈ s.workers, w.tid = tid → w.phase = .finished) :
    (s.joinFinished a).heap.cells a =
        { s.heap.cells a with thread := none, cleanup := false, running := false } ∧
      ∀ w ∈ (s.joinFinished a).workers, w.tid ≠ tid := by
  unfold joinFinished
  simp only [ht, hc, if_true, join_of_finished hf]
  split_ifs <;> simp [modify, rebuildMounts]

theorem foldl_checkRelayStream_reaps {l : List ℕ} (hnd : l.Nodup) (ha : a ∈ l) (hi : ThreadInv s)
    (hsrc : (s.heap.cells a).source ≠ none) (hr : (s.heap.cells a).running = true)
    (hth : (s.heap.cells a).thread = some tid) (hc : (s.heap.cells a).cleanup = true)
    (hf : ∀ w ∈ s.workers, w.tid = tid → w.phase = .finished) :
    (l.foldl checkRelayStream s).heap.cells a =
        { s.heap.cells a with thread := none, cleanup := false, running := false } ∧
      ∀ w ∈ (l.foldl checkRelayStream s).workers, w.tid ≠ tid := by
  obtain ⟨P, Q, rfl⟩ := List.append_of_mem ha
  obtain ⟨hP, hQ', hPQ⟩ := List.nodup_append.1 hnd
  obtain ⟨haQ, hQ⟩ := List.nodup_cons.1 hQ'
  have haP : a ∉ P := fun h => hPQ h (List.mem_cons_self a Q)
  rw [List.foldl_append, List.foldl_cons]
  set s₁ := P.foldl checkRelayStream s
  obtain ⟨hi₁, -, hw₁⟩ := relayCheckStreams_threads hi P []
  have hc₁ : s₁.heap.cells a = s.heap.cells a := hw₁.cells a (by simpa using haP)
  have hsP := foldl_checkRelayStream_starts P hi hP
  have hbound := hi.bound a tid hth
  obtain ⟨hcell, hgone⟩ := joinFinished_of_cleanup (s := s₁) (hc₁ ▸ hth) (hc₁ ▸ hc)
    fun w hw ht => hf w (hsP.old w hw (ht ▸ hbound)) ht
  have hj := checkRelayStream_of_running (hc₁ ▸ hsrc) (hc₁ ▸ hr)
  obtain ⟨hi₂, hn₂, -⟩ := checkRelayStream_spec (a := a) hi₁
  have hc₃ : (Q.foldl checkRelayStream (s₁.checkRelayStream a)).heap.cells a =
      (s₁.checkRelayStream a).heap.cells a :=
    (relayCheckStreams_threads hi₂ Q []).2.2.cells a (by simpa using haQ)
  have hsQ := foldl_checkRelayStream_starts Q hi₂ hQ
  refine ⟨?_, fun w hw ht => ?_⟩
  · rw [hc₃, hj, hcell, hc₁]
  · have hlt : w.tid < (s₁.checkRelayStream a).nextTid :=
      ht ▸ hbound.trans_le (hsP.nextTid.trans hn₂)
    exact hgone w (hj ▸ hsQ.old w hw hlt) ht

/-- A rescan that comes to a record whose worker has ended and cleaned up joins it and does not
start it again. -/
theorem rescan_reaps (hsi : SysInv s) (hti : ThreadInv s) (ha : a ∈ s.masterRelays ++ s.relays)
    (hsrc : (s.heap.cells a).source ≠ none) (hr : (s.heap.cells a).running = true)
    (hth : (s.heap.cells a).thread = some tid) (hc : (s.heap.cells a).cleanup = true)
    (hf : ∀ w ∈ s.workers, w.tid = tid → w.phase = .finished) :
    s.rescan.heap.cells a =
        { s.heap.cells a with thread := none, cleanup := false, running := false } ∧
      ∀ w ∈ s.rescan.workers, w.tid ≠ tid ∧ (w.relay = a → w ∈ s.workers) := by
  obtain ⟨hrr, hm, hrm⟩ := List.nodup_append.1 (List.nodup_append.1
    (List.nodup_append.1 hsi.linked.1).2.1).1
  obtain ⟨hcell, hgone⟩ := foldl_checkRelayStream_reaps
    (List.nodup_append.2 ⟨hm, hrr, fun _ hx hx' => hrm hx' hx⟩) ha hti hsrc hr hth hc hf
  rw [← rescan_eq_foldl] at hcell hgone
  have hst := rescan_starts hsi hti
  refine ⟨hcell, fun w hw => ⟨hgone w hw, fun hwa => ?_⟩⟩
  by_cases hlt : w.tid < s.nextTid
  · exact hst.old w hw hlt
  · have hrun := (hst.new w hw (Nat.le_of_not_lt hlt)).2.2.2.2.2
    rw [hwa, hr] at hrun
    cases hrun

end Sys

/-- When the worker of a running relay ends, the next turn rescans and reaps it, and the relay
stays down through the quiet turns until the refresh. -/
theorem Reachable.stop_reaped {s : Sys} (hs : Reachable s) (hpc : s.pc = .top)
    (hrun : s.slaveRunning = true) (hint : s.interval < s.maxInterval) {a tid : ℕ} {w : Worker}
    (hl : a ∈ s.masterRelays ++ s.relays) (hsrc : (s.heap.cells a).source ≠ none)
    (hr : (s.heap.cells a).running = true) (hth : (s.heap.cells a).thread = some tid)
    (hw : s.workers.find? (·.tid = tid) = some w) (hph : w.phase = .streaming) :
    ∃ s', s.run [.stop tid, .tick, .clear] = some s' ∧
      s'.heap.cells a = { s.heap.cells a with thread := none, cleanup := false, running := false } ∧
      (∀ w' ∈ s'.workers, w'.tid ≠ tid ∧ (w'.relay = a → w' ∈ s.workers)) ∧
      (∀ k < s.maxInterval - s.interval,
        s'.run (List.replicate k .tick) = some { s' with interval := s.interval + k }) ∧
      s'.run (List.replicate (s.maxInterval - s.interval) .tick) =
        some { ({ s' with interval := s.maxInterval } : Sys).fullRefresh with pc := .clear } := by
  obtain ⟨hwm, hwt⟩ := Sys.mem_of_find_tid hw
  have hwa := hs.threadInv.owner a tid hth w hwm hwt
  set s₁ := (s.stopWorker a).setPhase tid .finished
  have h₁ : s.next (.stop tid) = some s₁ := by
    simp only [Sys.next, hw, hph, hwa, if_true, s₁]
  have hs₁ : Reachable s₁ := .step _ hs h₁
  have hpc₁ : s₁.pc = .top := hpc
  have hc₁ : s₁.heap.cells a = { s.heap.cells a with cleanup := true } := by
    simp [s₁, Sys.setPhase, Sys.stopWorker, Sys.modify]
  have h₂ : s₁.next .tick = some { s₁.rescan with pc := .clear } := by
    rw [← Sys.tick_of_rescan (s := s₁) hrun rfl hint]; exact if_pos hpc₁
  obtain ⟨hcell, hgone⟩ := Sys.rescan_reaps (s := s₁) (hs₁.sysInv (by rw [hpc₁]; decide))
    hs₁.threadInv hl (hc₁ ▸ hsrc) (hc₁ ▸ hr) (hc₁ ▸ hth) (by rw [hc₁]) fun w hw ht => ((Sys.mem_setPhase hw).resolve_right fun h => h.1 ht).2
  rw [hc₁] at hcell
  set s' := ({ s₁.rescan with pc := .clear } : Sys).clear
  obtain ⟨hsch, -⟩ := Sys.rescan_keeps s₁
  have hint' : s'.interval = s.interval := hsch.interval
  have hmax' : s'.maxInterval = s.maxInterval := hsch.maxInterval
  have hrun' : s'.slaveRunning = true := hsch.slaveRunning.trans hrun
  refine ⟨s', ?_, hcell, fun w' hw' => ⟨(hgone w' hw').1, fun ha' =>
    ((Sys.mem_setPhase ((hgone w' hw').2 ha')).resolve_left fun h => (hgone w' hw').1 h.1).2⟩,
    fun k hk => ?_, ?_⟩
  · rw [Sys.run, h₁, Option.some_bind, Sys.run, h₂, Option.some_bind]
    rfl
  · rw [← hint']
    exact Sys.run_quiet k rfl hrun' rfl (by omega)
  · obtain ⟨n, hn⟩ := Nat.exists_eq_add_of_lt hint
    rw [show s.maxInterval - s.interval = n + 1 by omega, ← hmax']
    exact Sys.run_quietTurns_succ n rfl hrun' rfl (by omega)

theorem stop_reaped_sample :
    let s := (Sys.init.run [.reload [Sample.relayA] (Sample.standalone 5), .tick, .clear,
      .start 0]).getD Sys.init
    (s.pc = .top ∧ s.slaveRunning = true ∧ s.interval < s.maxInterval ∧
      1 ∈ s.masterRelays ++ s.relays ∧ (s.heap.cells 1).source ≠ none ∧
      (s.heap.cells 1).running = true ∧ (s.heap.cells 1).thread = some 0 ∧
      s.workers.find? (·.tid = 0) = some (⟨0, 1, .streaming⟩ : Worker)) ∧
    ∃ s', s.run [.stop 0, .tick, .clear] = some s' ∧
      s'.heap.cells 1 = { s.heap.cells 1 with thread := none, cleanup := false, running := false } ∧
      (∀ w' ∈ s'.workers, w'.tid ≠ 0 ∧ (w'.relay = 1 → w' ∈ s.workers)) ∧
      (∀ k < s.maxInterval - s.interval,
        s'.run (List.replicate k .tick) = some { s' with interval := s.interval + k }) ∧
      s'.run (List.replicate (s.maxInterval - s.interval) .tick) =
        some { ({ s' with interval := s.maxInterval } : Sys).fullRefresh with pc := .clear } :=
  ⟨by decide, Reachable.stop_reaped (w := ⟨0, 1, .streaming⟩) (reachable_run_getD _) (by decide)
    (by decide) (by decide) (by decide) (by decide) (by decide) (by decide) (by decide) rfl⟩

end IcecastRelay

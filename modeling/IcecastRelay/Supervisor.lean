import IcecastRelay.UpdateRelays
import IcecastRelay.StreamList
import IcecastRelay.SlaveHosts

/-! # The relay supervisor

`_slave_thread`, its workers and its master fetches as one state machine: each section under
`relay_lock` is one step, `thread_join` runs a worker to its end, and freed records stay readable. -/
namespace IcecastRelay

/-- The sources `source_reserve` has handed out, with their mountpoints. -/
structure Registry where
  entries : List (ℕ × CStr)
  fresh : ℕ
  deriving DecidableEq, Repr

namespace Registry

/-- `source_reserve`: a new handle for a name nobody holds. -/
def reserve (g : Registry) (name : CStr) : Option (ℕ × Registry) :=
  if g.entries.any (·.2 = name) then none
  else some (g.fresh, ⟨(g.fresh, name) :: g.entries, g.fresh + 1⟩)

def release (g : Registry) (hd : ℕ) : Registry :=
  { g with entries := g.entries.filter (·.1 ≠ hd) }

end Registry

inductive Phase
  | spawned
  | streaming
  | finished
  deriving DecidableEq, Repr

structure Worker where
  tid : ℕ
  relay : ℕ
  phase : Phase
  deriving DecidableEq, Repr

structure Fetch where
  tid : ℕ
  master : MasterConnDetails

structure MasterSettings where
  masterServer : Option CStr
  masterServerPort : Int
  masterSslPort : Int
  masterRedirectPort : Int
  masterUsername : CStr
  masterPassword : Option CStr
  masterRelayAuth : Int
  onDemand : Int
  masterUpdateInterval : ℕ

def MasterSettings.masterConfig (c : MasterSettings) : MasterConfig :=
  ⟨c.masterServer, c.masterServerPort, c.masterRedirectPort⟩

structure SlaveConfig where
  relay : List ℕ
  settings : MasterSettings

def RelayConfig.toRelay (c : RelayConfig) : RelayServer :=
  ⟨c.server, c.port, c.mount, c.localmount, c.username, c.password, c.mp3metadata, c.onDemand,
    c.enable, none, none, false, false⟩

def allocRelays (h : Heap) : List RelayServer → Heap × List ℕ
  | [] => (h, [])
  | r :: rs =>
    let p := allocRelays (h.alloc r) rs
    (p.1, h.top :: p.2)

section Alloc

variable {h : Heap} {rs : List RelayServer}

theorem allocRelays_top : (allocRelays h rs).1.top = h.top + rs.length := by
  induction rs generalizing h with
  | nil => rfl
  | cons r rs ih => simp only [allocRelays, ih, Heap.alloc_top, List.length_cons]; omega

theorem allocRelays_addrs : (allocRelays h rs).2 = List.range' h.top rs.length := by
  induction rs generalizing h with
  | nil => rfl
  | cons r rs ih => simp [allocRelays, ih, List.range'_succ]

theorem allocRelays_old {a : ℕ} (ha : a < h.top) : (allocRelays h rs).1.cells a = h.cells a := by
  induction rs generalizing h with
  | nil => rfl
  | cons r rs ih =>
    simp only [allocRelays]
    rw [ih (by simp; omega)]
    simp [Nat.ne_of_lt ha]

theorem allocRelays_mem {a : ℕ} (ha : a ∈ (allocRelays h rs).2) : (allocRelays h rs).1.cells a ∈ rs := by
  induction rs generalizing h with
  | nil => simp [allocRelays] at ha
  | cons r rs ih =>
    simp only [allocRelays, List.mem_cons] at ha ⊢
    rcases ha with rfl | ha
    · rw [allocRelays_old (by simp)]; simp
    · exact .inr (ih ha)

end Alloc

inductive Pc
  | top
  | clear
  | exited
  deriving DecidableEq, Repr

/-- The relay subsystem: the globals of slave.c, the configuration, the registry of sources, the
live threads and the slave table. `demand` holds the sources whose `on_demand_req` is set. -/
structure Sys where
  heap : Heap
  relays : List ℕ
  masterRelays : List ℕ
  config : SlaveConfig
  registry : Registry
  workers : List Worker
  fetches : List Fetch
  nextTid : ℕ
  rescanRelays : Bool
  updateSettings : Bool
  maxInterval : ℕ
  interval : ℕ
  slaveRunning : Bool
  pc : Pc
  demand : List ℕ
  slaves : SlaveTable
  freed : List ℕ

namespace Sys

def modify (s : Sys) (a : ℕ) (f : RelayServer → RelayServer) : Sys :=
  { s with heap := s.heap.set a (f (s.heap.cells a)) }

def rebuildMounts (s : Sys) : Sys :=
  { s with updateSettings := true, rescanRelays := true }

/-- `relay->cleanup = 1; rescan_relays = 1;` at the end of `start_relay_stream`. -/
def stopWorker (s : Sys) (a : ℕ) : Sys :=
  { s.modify a ({ · with cleanup := true }) with rescanRelays := true }

def setPhase (s : Sys) (tid : ℕ) (p : Phase) : Sys :=
  { s with workers := s.workers.map fun w => if w.tid = tid then { w with phase := p } else w }

def finishWorker (s : Sys) (w : Worker) : Sys :=
  match w.phase with
  | .spawned => (s.modify w.relay ({ · with running := true })).stopWorker w.relay
  | .streaming => s.stopWorker w.relay
  | .finished => s

/-- `thread_join`: the worker runs to its end and is gone. -/
def join (s : Sys) (tid : ℕ) : Sys :=
  match s.workers.find? (·.tid = tid) with
  | none => s
  | some w =>
    let s := s.finishWorker w
    { s with workers := s.workers.filter (·.tid ≠ tid) }

/-- `relay->thread = thread_create (..., start_relay_stream, relay, THREAD_ATTACHED)`. -/
def spawn (s : Sys) (a : ℕ) : Sys :=
  { s.modify a ({ · with thread := some s.nextTid }) with
    workers := ⟨s.nextTid, a, .spawned⟩ :: s.workers
    nextTid := s.nextTid + 1 }

def joinFinished (s : Sys) (a : ℕ) : Sys :=
  let r := s.heap.cells a
  match r.thread with
  | some tid =>
    if r.cleanup then
      let s := (s.join tid).modify a ({ · with thread := none, cleanup := false, running := false })
      if r.enable = 0 then s.rebuildMounts else s
    else s
  | none => s

def reserveSource (s : Sys) (a : ℕ) : Sys :=
  match s.registry.reserve (s.heap.cells a).localmount with
  | some (hd, g) => { s.modify a ({ · with source := some hd }) with registry := g }
  | none => s

/-- The `do ... while (0)` of `check_relay_stream`: start a worker, or join one that has cleaned
up. -/
def startRelay (s : Sys) (a : ℕ) : Sys :=
  let r := s.heap.cells a
  match r.source with
  | none => s.joinFinished a
  | some hd =>
    if r.running ∨ r.enable = 0 then s.joinFinished a
    else if r.onDemand ≠ 0 then
      if hd ∈ s.demand then s.rebuildMounts.spawn a else s.rebuildMounts.joinFinished a
    else s.spawn a

/-- `check_relay_stream`: reserve the mountpoint of a new relay, then start it. -/
def checkRelayStream (s : Sys) (a : ℕ) : Sys :=
  if (s.heap.cells a).source = none ∧ (s.heap.cells a).localmount.head? ≠ some 47 then s
  else (if (s.heap.cells a).source = none then s.reserveSource a else s).startRelay a

def relayFree (s : Sys) (a : ℕ) : Sys :=
  let s := match (s.heap.cells a).source with
    | some hd => { s with registry := s.registry.release hd }
    | none => s
  { s with freed := a :: s.freed }

/-- One turn of the `to_free` loop of `relay_check_streams`: a running relay is shut down and
joined, then freed. -/
def freeRelay (s : Sys) (a : ℕ) : Sys :=
  let r := s.heap.cells a
  let s := if r.source ≠ none ∧ r.running then
      (match r.thread with
        | some tid => s.join tid
        | none => s).rebuildMounts
    else s
  s.relayFree a

def relayCheckStreams (s : Sys) (toStart toFree : List ℕ) : Sys :=
  toStart.foldl checkRelayStream (toFree.foldl freeRelay s)

end Sys

def updateFromMaster (c : MasterSettings) : Option MasterConnDetails :=
  match c.masterPassword, c.masterServer with
  | some password, some server =>
    if c.masterServerPort = 0 then none
    else some ⟨server, c.masterServerPort, c.masterSslPort, c.masterRelayAuth, c.onDemand, 0, 0,
      [], c.masterUsername, password, []⟩
  | _, _ => none

namespace Sys

def refreshMaster (s : Sys) : Sys :=
  let c := s.config.settings
  let s := { s with
    interval := 0
    maxInterval := c.masterUpdateInterval
    slaves := updateMasterAsSlave s.slaves c.masterConfig }
  match updateFromMaster c with
  | some m => { s with fetches := ⟨s.nextTid, m⟩ :: s.fetches, nextTid := s.nextTid + 1 }
  | none => s

/-- The locked section of a full refresh: `update_relays (&global.relays, config->relay)` and
`relay_check_streams`. -/
def refreshRelays (s : Sys) : Sys :=
  let u := updateRelays s.heap s.relays s.config.relay
  relayCheckStreams { s with heap := u.heap, relays := u.active } u.active u.cleanup

def fullRefresh (s : Sys) : Sys := s.refreshMaster.refreshRelays

def rescan (s : Sys) : Sys :=
  let s := relayCheckStreams s s.masterRelays []
  relayCheckStreams s s.relays []

/-- What `_slave_thread` does after its loop. -/
def shutdownPass (s : Sys) : Sys :=
  let s := relayCheckStreams s [] s.relays
  relayCheckStreams s [] s.masterRelays

/-- The count after the guard `rescan_relays == 0 && max_interval > ++interval`: the
increment runs only when no rescan is pending. -/
def guardInterval (s : Sys) : ℕ := if s.rescanRelays then s.interval else s.interval + 1

theorem guardInterval_of_rescan {s : Sys} (h : s.rescanRelays = true) :
    s.guardInterval = s.interval := if_pos h

theorem guardInterval_of_quiet {s : Sys} (h : s.rescanRelays = false) :
    s.guardInterval = s.interval + 1 := if_neg (by simp [h])

/-- One turn of the loop of `_slave_thread`, up to `rescan_relays = 0`. -/
def tick (s : Sys) : Sys :=
  if ¬ s.slaveRunning then { s.shutdownPass with pc := .exited }
  else
    let interval := s.guardInterval
    if ¬ s.rescanRelays ∧ interval < s.maxInterval then { s with interval := interval }
    else if s.maxInterval ≤ interval then { fullRefresh { s with interval := interval } with pc := .clear }
    else { rescan { s with interval := interval } with pc := .clear }

theorem tick_cases (s : Sys) :
    (s.slaveRunning = false ∧ s.tick = { s.shutdownPass with pc := .exited }) ∨
    (s.slaveRunning = true ∧ s.rescanRelays = false ∧ s.interval + 1 < s.maxInterval ∧
      s.tick = { s with interval := s.interval + 1 }) ∨
    (s.slaveRunning = true ∧ s.maxInterval ≤ s.guardInterval ∧
      s.tick = { ({ s with interval := s.guardInterval } : Sys).fullRefresh with pc := .clear }) ∨
    (s.slaveRunning = true ∧ s.rescanRelays = true ∧ s.interval < s.maxInterval ∧
      s.tick = { s.rescan with pc := .clear }) := by
  unfold tick
  by_cases hr : s.slaveRunning = true
  swap
  · exact .inl ⟨by simpa using hr, if_pos hr⟩
  rw [if_neg (not_not.2 hr)]
  dsimp only
  by_cases hs : s.rescanRelays = true
  · rw [guardInterval_of_rescan hs, if_neg fun h => h.1 hs]
    by_cases hi : s.interval < s.maxInterval
    · rw [if_neg (Nat.not_le.2 hi)]
      exact .inr (.inr (.inr ⟨hr, hs, hi, rfl⟩))
    · rw [if_pos (Nat.le_of_not_lt hi)]
      exact .inr (.inr (.inl ⟨hr, Nat.le_of_not_lt hi, rfl⟩))
  · rw [guardInterval_of_quiet (by simpa using hs)]
    by_cases hi : s.interval + 1 < s.maxInterval
    · rw [if_pos ⟨hs, hi⟩]
      exact .inr (.inl ⟨hr, by simpa using hs, hi, rfl⟩)
    · rw [if_neg fun h => hi h.2, if_pos (Nat.le_of_not_lt hi)]
      exact .inr (.inr (.inl ⟨hr, Nat.le_of_not_lt hi, rfl⟩))

section Turns

variable {s : Sys} (hrun : s.slaveRunning = true)
include hrun

theorem tick_of_rescan (hres : s.rescanRelays = true) (hint : s.interval < s.maxInterval) :
    s.tick = { s.rescan with pc := .clear } := by
  rcases s.tick_cases with ⟨h, -⟩ | ⟨-, h, -⟩ | ⟨-, h, -⟩ | ⟨-, -, -, h⟩
  · cases h.symm.trans hrun
  · cases h.symm.trans hres
  · exact absurd (guardInterval_of_rescan hres ▸ h) (Nat.not_le.2 hint)
  · exact h

theorem tick_of_quiet (hres : s.rescanRelays = false) (hint : s.interval + 1 < s.maxInterval) :
    s.tick = { s with interval := s.interval + 1 } := by
  rcases s.tick_cases with ⟨h, -⟩ | ⟨-, -, -, h⟩ | ⟨-, h, -⟩ | ⟨-, h, -⟩
  · cases h.symm.trans hrun
  · exact h
  · exact absurd (guardInterval_of_quiet hres ▸ h) (Nat.not_le.2 hint)
  · cases h.symm.trans hres

theorem tick_of_due (hres : s.rescanRelays = false) (hint : s.maxInterval ≤ s.interval + 1) :
    s.tick = { ({ s with interval := s.interval + 1 } : Sys).fullRefresh with pc := .clear } := by
  rcases s.tick_cases with ⟨h, -⟩ | ⟨-, -, h, -⟩ | ⟨-, -, h⟩ | ⟨-, h, -⟩
  · cases h.symm.trans hrun
  · exact absurd h (Nat.not_lt.2 hint)
  · rw [h, guardInterval_of_quiet hres]
  · cases h.symm.trans hres

end Turns

def clear (s : Sys) : Sys :=
  { s with rescanRelays := false, updateSettings := false, pc := .top }

/-- The locked section of `streamlist_thread` after a transfer with `ok` set. -/
def commit (s : Sys) (m : MasterConnDetails) : Sys :=
  let p := allocRelays s.heap m.newRelays
  let u := updateRelays p.1 s.masterRelays p.2
  let s := relayCheckStreams { s with heap := u.heap, masterRelays := u.active } u.active u.cleanup
  relayCheckStreams s [] p.2

def reload (s : Sys) (relays : List RelayConfig) (settings : MasterSettings) : Sys :=
  let p := allocRelays s.heap (relays.map RelayConfig.toRelay)
  { s with heap := p.1, config := ⟨p.2, settings⟩ }

def setFetch (s : Sys) (tid : ℕ) (f : MasterConnDetails → MasterConnDetails) : Sys :=
  { s with fetches := s.fetches.map fun x => if x.tid = tid then ⟨x.tid, f x.master⟩ else x }

end Sys

/-- The steps of the subsystem: the supervisor's, a worker's, a fetch's, and those of the rest of
the server. -/
inductive Event
  | tick
  | clear
  | start (tid : ℕ)
  | stop (tid : ℕ)
  | header (tid : ℕ)
  | data (tid : ℕ) (chunk : List UInt8)
  | done (tid : ℕ)
  | reload (relays : List RelayConfig) (settings : MasterSettings)
  | rescanRequest
  | recheck
  | rebuild
  | demand (hd : ℕ) (req : Bool)
  | slaveRequest (q : SlaveRequest)
  | shutdown

namespace Sys

/-- The step an event takes, when it is enabled. A fetch's `header` is a status line of 200. -/
def next (s : Sys) : Event → Option Sys
  | .tick => if s.pc = .top then some s.tick else none
  | .clear => if s.pc = .clear then some s.clear else none
  | .start tid =>
    match s.workers.find? (·.tid = tid) with
    | some w =>
      if w.phase = .spawned then some ((s.modify w.relay ({ · with running := true })).setPhase tid .streaming)
      else none
    | none => none
  | .stop tid =>
    match s.workers.find? (·.tid = tid) with
    | some w => if w.phase = .streaming then some ((s.stopWorker w.relay).setPhase tid .finished) else none
    | none => none
  | .header tid =>
    if s.fetches.any (·.tid = tid) then some (s.setFetch tid ({ · with ok := 1 })) else none
  | .data tid chunk =>
    if s.fetches.any (·.tid = tid) then some (s.setFetch tid (streamlistData · chunk)) else none
  | .done tid =>
    match s.fetches.find? (·.tid = tid) with
    | some f =>
      let s' := if f.master.ok ≠ 0 then s.commit f.master else s
      some { s' with fetches := s'.fetches.filter (·.tid ≠ tid) }
    | none => none
  | .reload relays settings => some (s.reload relays settings)
  | .rescanRequest => some { s with rescanRelays := true }
  | .recheck => some { s with maxInterval := 0, updateSettings := true }
  | .rebuild => some s.rebuildMounts
  | .demand hd req => some { s with demand := if req then hd :: s.demand else s.demand.filter (· ≠ hd) }
  | .slaveRequest q => some { s with slaves := q.apply s.slaves }
  | .shutdown => some { s with slaveRunning := false }

end Sys

def blankRelay : RelayServer := ⟨[], 0, [], [], none, none, 0, 0, 0, none, none, false, false⟩

def Sys.init : Sys where
  heap := ⟨fun _ => blankRelay, 0⟩
  relays := []
  masterRelays := []
  config := ⟨[], ⟨none, 0, 0, 0, [], none, 0, 0, 0⟩⟩
  registry := ⟨[], 0⟩
  workers := []
  fetches := []
  nextTid := 0
  rescanRelays := false
  updateSettings := false
  maxInterval := 0
  interval := 0
  slaveRunning := true
  pc := .top
  demand := []
  slaves := ⟨[], 0⟩
  freed := []

inductive Reachable : Sys → Prop
  | init : Reachable Sys.init
  | step {s s' : Sys} (e : Event) : Reachable s → s.next e = some s' → Reachable s'

def Sys.run (s : Sys) : List Event → Option Sys
  | [] => some s
  | e :: es => (s.next e).bind fun s' => s'.run es

theorem Reachable.run {s s' : Sys} {es : List Event} (hs : Reachable s) (h : s.run es = some s') :
    Reachable s' := by
  induction es generalizing s with
  | nil => cases h; exact hs
  | cons e es ih =>
    obtain ⟨s₁, h₁, h₂⟩ := Option.bind_eq_some.1 h
    exact ih (hs.step e h₁) h₂

theorem Sys.run_append (s : Sys) (es es' : List Event) :
    s.run (es ++ es') = (s.run es).bind (·.run es') := by
  induction es generalizing s with
  | nil => rfl
  | cons e es ih =>
    rw [List.cons_append, Sys.run, Sys.run, Option.bind_assoc]
    exact congrArg _ (funext ih)

theorem reachable_run_getD (es : List Event) : Reachable ((Sys.init.run es).getD Sys.init) := by
  cases hr : Sys.init.run es with
  | none => exact Reachable.init
  | some s => exact Reachable.init.run hr

theorem exists_reachable_of_run {es : List Event} {p : Sys → Bool}
    (h : (Sys.init.run es).map p = some true) : ∃ s, Reachable s ∧ p s = true := by
  cases hr : Sys.init.run es with
  | none => simp [hr] at h
  | some s => exact ⟨s, Reachable.init.run hr, by simpa [hr] using h⟩

namespace Sample

def relayA : RelayConfig := ⟨[47, 97], [104], 8000, [47, 97], none, none, 1, 0, 1⟩

/-- No master, and a full refresh every `n` turns. -/
def standalone (n : ℕ) : MasterSettings := ⟨none, 0, 0, 0, [], none, 0, 0, n⟩

/-- A master `m:8000` with user `u` and password `p`, fetched every turn. -/
def withMaster : MasterSettings := ⟨some [109], 8000, 0, 0, [117], some [112], 0, 0, 1⟩

end Sample

end IcecastRelay

import IcecastRelay.Threads

/-! # A full refresh of a relay list

`update_relays (&L, U)` then `relay_check_streams (L', K)` under `relay_lock`, for `global.relays`
in `_slave_thread` and for `global.master_relays` in `streamlist_thread`. -/
namespace IcecastRelay

namespace Sys

variable {s : Sys} {a b : ℕ}

theorem reserveSource_free (hfree : ∀ e ∈ s.registry.entries, e.2 ≠ (s.heap.cells a).localmount) :
    (s.reserveSource a).heap.cells a = { s.heap.cells a with source := some s.registry.fresh } ∧
      (s.reserveSource a).nextTid = s.nextTid ∧ (s.reserveSource a).workers = s.workers := by
  have hr : s.registry.reserve (s.heap.cells a).localmount = some (s.registry.fresh,
      ⟨(s.registry.fresh, (s.heap.cells a).localmount) :: s.registry.entries, s.registry.fresh + 1⟩) := by
    rw [Registry.reserve, if_neg]
    simpa using fun x hx => hfree (x, _) hx rfl
  simp [reserveSource, hr, modify]

theorem checkRelayStream_registry {e : ℕ × CStr} (he : e ∈ (s.checkRelayStream b).registry.entries) :
    e ∈ s.registry.entries ∨ e.2 = (s.heap.cells b).localmount := by
  have hres : ∀ e ∈ (s.reserveSource b).registry.entries,
      e ∈ s.registry.entries ∨ e.2 = (s.heap.cells b).localmount := by
    unfold reserveSource
    split
    · next hd g hr =>
      simp only [Registry.reserve] at hr
      split_ifs at hr
      cases hr
      intro e he
      rcases List.mem_cons.1 he with rfl | he
      · exact .inr rfl
      · exact .inl he
    · exact fun e he => .inl he
  unfold checkRelayStream at he
  split_ifs at he
  · exact .inl he
  · exact hres e (quiet_startRelay.registry ▸ he)
  · exact .inl (quiet_startRelay.registry ▸ he)

theorem checkRelayStream_self (hname : (s.heap.cells a).localmount.head? = some 47)
    (hfree : (s.heap.cells a).source = none →
      ∀ e ∈ s.registry.entries, e.2 ≠ (s.heap.cells a).localmount) :
    ((s.checkRelayStream a).heap.cells a).source ≠ none ∧
      ((s.heap.cells a).running = false → (s.heap.cells a).enable ≠ 0 →
        (s.heap.cells a).onDemand = 0 → ⟨s.nextTid, a, .spawned⟩ ∈ (s.checkRelayStream a).workers) := by
  have hcheck : s.checkRelayStream a =
      (if (s.heap.cells a).source = none then s.reserveSource a else s).startRelay a := by
    unfold checkRelayStream
    rw [if_neg (by rw [hname]; simp)]
  have hpre : ∃ hd, (if (s.heap.cells a).source = none then s.reserveSource a else s).heap.cells a =
        { s.heap.cells a with source := some hd } ∧
      (if (s.heap.cells a).source = none then s.reserveSource a else s).nextTid = s.nextTid ∧
      (if (s.heap.cells a).source = none then s.reserveSource a else s).workers = s.workers := by
    split_ifs with h0
    · exact ⟨_, reserveSource_free (hfree h0)⟩
    · obtain ⟨hd, hhd⟩ := Option.ne_none_iff_exists'.1 h0
      exact ⟨hd, by rw [← hhd], rfl, rfl⟩
  obtain ⟨hd, hc, hn, hw⟩ := hpre
  rw [hcheck]
  refine ⟨?_, fun hr he hod => ?_⟩
  · have hsrc := (@quiet_startRelay (if (s.heap.cells a).source = none then s.reserveSource a else s)
      a).frame.sources a (List.not_mem_nil a)
    simp only [sourceAt, hc] at hsrc
    rw [hsrc]
    simp
  · rw [startRelay]
    simp only [hc, hr, he, hod, Bool.false_eq_true, false_or, if_false, ne_eq, not_true_eq_false]
    simp [spawn, hn, hw]

theorem foldl_checkRelayStream_started (l : List ℕ) : ∀ {s : Sys}, ThreadInv s → l.Nodup →
    (l.map fun a => (s.heap.cells a).localmount).Nodup →
    (∀ a ∈ l, (s.heap.cells a).source = none →
      ∀ e ∈ s.registry.entries, e.2 ≠ (s.heap.cells a).localmount) →
    ∀ a ∈ l, (s.heap.cells a).localmount.head? = some 47 →
      ((l.foldl checkRelayStream s).heap.cells a).source ≠ none ∧
      ((s.heap.cells a).running = false → (s.heap.cells a).enable ≠ 0 →
        (s.heap.cells a).onDemand = 0 →
        ∃ w ∈ (l.foldl checkRelayStream s).workers, w.relay = a ∧ s.nextTid ≤ w.tid) := by
  induction l with
  | nil => exact fun _ _ _ _ a ha => absurd ha (List.not_mem_nil a)
  | cons b rest ih =>
    intro s hi hnd hnames hfree a ha hname
    obtain ⟨hbr, hnd'⟩ := List.nodup_cons.1 hnd
    obtain ⟨hbn, hnames'⟩ := List.nodup_cons.1 hnames
    obtain ⟨hi₁, hn₁, hw₁⟩ := checkRelayStream_spec (a := b) hi
    have hrest : Within rest (s.checkRelayStream b) (rest.foldl checkRelayStream (s.checkRelayStream b)) :=
      (relayCheckStreams_threads hi₁ rest []).2.2
    have hcell : ∀ c ∈ rest, (s.checkRelayStream b).heap.cells c = s.heap.cells c :=
      fun c hc => hw₁.cells c (by rintro (_ | _); exact hbr hc; contradiction)
    rcases List.mem_cons.1 ha with rfl | ha
    · obtain ⟨hsrc, hwk⟩ := checkRelayStream_self hname (hfree a (List.mem_cons_self _ _))
      refine ⟨by rw [List.foldl_cons, hrest.cells a hbr]; exact hsrc, fun hr he hod => ?_⟩
      exact ⟨_, hrest.workers _ (hwk hr he hod) hbr, rfl, le_rfl⟩
    · have hmap : rest.map (fun c => ((s.checkRelayStream b).heap.cells c).localmount) =
          rest.map fun c => (s.heap.cells c).localmount :=
        List.map_congr_left fun c hc => by rw [hcell c hc]
      have hfree' : ∀ c ∈ rest, ((s.checkRelayStream b).heap.cells c).source = none →
          ∀ e ∈ (s.checkRelayStream b).registry.entries,
            e.2 ≠ ((s.checkRelayStream b).heap.cells c).localmount := by
        intro c hc h0 e he heq
        rw [hcell c hc] at h0 heq
        rcases checkRelayStream_registry he with he | he
        · exact hfree c (List.mem_cons_of_mem _ hc) h0 e he heq
        · exact hbn (List.mem_map.2 ⟨c, hc, heq.symm.trans he⟩)
      obtain ⟨h₁, h₂⟩ := ih hi₁ hnd' (hmap ▸ hnames') hfree' a ha (by rw [hcell a ha]; exact hname)
      rw [hcell a ha] at h₂
      exact ⟨h₁, fun hr he hod => (h₂ hr he hod).imp fun w ⟨hw, hr', ht⟩ => ⟨hw, hr', hn₁.trans ht⟩⟩

/-- A whole `relay_check_streams (A, K)`: `K` is freed, releasing its reservations, then `A` is
started. When every reservation under a name of `A` is held in `K` or `A`, each record of `A` ends
holding a source, and the startable ones get workers. -/
theorem relayCheckStreams_started {K A R : List ℕ} (hi : ThreadInv s)
    (H : Holds s.heap s.registry (K ++ A ++ R)) (hnd : (K ++ A ++ R).Nodup)
    (hnames : (A.map fun a => (s.heap.cells a).localmount).Nodup)
    (hres : ∀ e ∈ s.registry.entries, e.2 ∈ A.map (fun a => (s.heap.cells a).localmount) →
      ∃ b ∈ K ++ A, sourceAt s.heap b = some e.1) :
    ∀ a ∈ A, (s.heap.cells a).localmount.head? = some 47 →
      ((s.relayCheckStreams A K).heap.cells a).source ≠ none ∧
      ((s.heap.cells a).running = false → (s.heap.cells a).enable ≠ 0 →
        (s.heap.cells a).onDemand = 0 →
        ∃ w ∈ (s.relayCheckStreams A K).workers, w.relay = a ∧ s.nextTid ≤ w.tid) := by
  intro a ha hname
  obtain ⟨hif, hnf, hwf⟩ := relayCheckStreams_threads hi [] K
  have hff := (relayCheckStreams_frame s [] K).1
  have hnd' : (K ++ (A ++ R)).Nodup := by rwa [← List.append_assoc]
  have hHf : Holds (s.relayCheckStreams [] K).heap (s.relayCheckStreams [] K).registry (A ++ R) :=
    relayCheckStreams_holds (by rwa [← List.append_assoc]) (List.nodup_append.1 hnd').2.1 (by simp)
  have hcell : ∀ c ∈ A, (s.relayCheckStreams [] K).heap.cells c = s.heap.cells c := fun c hc =>
    hwf.cells c (by simpa using fun hk => List.disjoint_of_nodup_append hnd' hk (List.mem_append_left R hc))
  have hfree : ∀ c ∈ A, ((s.relayCheckStreams [] K).heap.cells c).source = none →
      ∀ e ∈ (s.relayCheckStreams [] K).registry.entries,
        e.2 ≠ ((s.relayCheckStreams [] K).heap.cells c).localmount := by
    intro c hc h0 e he heq
    obtain ⟨b, hb, hsb⟩ := hHf.holder he
    have he2 : e.2 = ((s.relayCheckStreams [] K).heap.cells b).localmount :=
      congrArg Prod.snd (List.inj_on_of_nodup_map hHf.handles_nodup he (hHf.names b hb e.1 hsb) rfl)
    rw [hcell c hc] at h0 heq
    rcases List.mem_append.1 hb with hbA | hbR
    · obtain rfl : b = c := List.inj_on_of_nodup_map hnames hbA hc (by rw [← hcell b hbA, ← he2, heq])
      simp [sourceAt, hcell b hbA, h0] at hsb
    · have hsb₀ : sourceAt s.heap b = some e.1 := (hff.sources b (List.not_mem_nil b)).symm.trans hsb
      obtain ⟨b', hb', hsb'⟩ := hres _ (H.names b (by simp [hbR]) e.1 hsb₀)
        (by rw [← hff.names b, ← he2, heq]; exact List.mem_map_of_mem _ hc)
      obtain rfl : b = b' := H.unique hnd (by simp [hbR])
        (List.mem_append_left R hb') hsb₀ hsb'
      exact List.disjoint_of_nodup_append hnd hb' hbR
  have hmap : A.map (fun c => ((s.relayCheckStreams [] K).heap.cells c).localmount) =
      A.map fun c => (s.heap.cells c).localmount := List.map_congr_left fun c hc => by rw [hcell c hc]
  obtain ⟨h₁, h₂⟩ := foldl_checkRelayStream_started A hif
    (List.nodup_append.1 (List.nodup_append.1 hnd).1).2.1 (hmap ▸ hnames) hfree a ha
    (by rw [hcell a ha]; exact hname)
  rw [hcell a ha] at h₂
  exact ⟨h₁, fun hr he hod => (h₂ hr he hod).imp fun w ⟨hw, hr', ht⟩ => ⟨hw, hr', hnf.trans ht⟩⟩

end Sys

theorem reconcile_started {t s₁ : Sys} {C U O : List ℕ} (hl : Linked t.heap (C ++ U ++ O))
    (H : Holds t.heap t.registry (C ++ U ++ O)) (hU : ∀ d ∈ U, sourceAt t.heap d = none)
    (hi : ThreadInv s₁) (hh : s₁.heap = (updateRelays t.heap C U).heap)
    (hg : s₁.registry = t.registry)
    (hUn : (U.map fun d => (t.heap.cells d).localmount).Nodup)
    (hres : ∀ e ∈ t.registry.entries, e.2 ∈ U.map (fun d => (t.heap.cells d).localmount) →
      ∃ b ∈ C, sourceAt t.heap b = some e.1) :
    let u := updateRelays t.heap C U
    let s₂ := s₁.relayCheckStreams u.active u.cleanup
    ∀ a ∈ u.active, (s₂.heap.cells a).localmount.head? = some 47 →
      (s₂.heap.cells a).source ≠ none ∧
      ((s₂.heap.cells a).enable ≠ 0 → (s₂.heap.cells a).onDemand = 0 →
        (a ∈ C → (t.heap.cells a).running = false) →
        ∃ w ∈ s₂.workers, w.relay = a ∧ s₁.nextTid ≤ w.tid) := by
  intro u s₂ a ha hname
  have hCU : Linked t.heap (C ++ U) := hl.sublist (by simp)
  have hL := updateRelays_linked hl hU
  have hH := updateRelays_holds hl H hU
  have hsf := updateRelays_standsFor hCU
  have hmap : u.active.reverse.map (fun a => (u.heap.cells a).localmount) =
      U.map fun d => (t.heap.cells d).localmount :=
    map_eq_map_of_forall₂ (hsf.imp fun a d hs => congrArg Prod.fst hs.1)
  have hAn : (u.active.map fun a => (s₁.heap.cells a).localmount).Nodup := by
    rw [hh, ← List.nodup_reverse, ← List.map_reverse, hmap]; exact hUn
  have hres' : ∀ e ∈ s₁.registry.entries, e.2 ∈ u.active.map (fun a => (s₁.heap.cells a).localmount) →
      ∃ b ∈ u.cleanup ++ u.active, sourceAt s₁.heap b = some e.1 := by
    intro e he hm
    rw [hh, ← List.mem_reverse, ← List.map_reverse, hmap] at hm
    obtain ⟨b, hb, hsb⟩ := hres e (hg ▸ he) hm
    refine ⟨b, ?_, ?_⟩
    · by_cases hbA : b ∈ u.active
      · exact List.mem_append_right _ hbA
      · exact List.mem_append_left _ ((updateRelays_mem_cleanup hCU hb).2 hbA)
    · rw [hh, (updateRelays_old hCU hU (hl.2 b (by simp [hb]))).1]; exact hsb
  have hconf := (Sys.relayCheckStreams_threads hi u.active u.cleanup).2.2.configured a
  have hlm : (s₂.heap.cells a).localmount = (s₁.heap.cells a).localmount :=
    congrArg RelayConfig.localmount hconf
  obtain ⟨hsrc, hwk⟩ := Sys.relayCheckStreams_started (R := U ++ O) hi
    (by rw [hh, hg]; simpa only [List.append_assoc] using hH)
    (by simpa only [List.append_assoc] using hL.1) hAn hres' a ha (hlm ▸ hname)
  have hen : (s₂.heap.cells a).enable = (s₁.heap.cells a).enable := congrArg RelayConfig.enable hconf
  have hdm : (s₂.heap.cells a).onDemand = (s₁.heap.cells a).onDemand :=
    congrArg RelayConfig.onDemand hconf
  refine ⟨hsrc, fun he hod hrun => hwk ?_ (hen ▸ he) (hdm ▸ hod)⟩
  obtain ⟨d, -, -, -, hcell⟩ := forall₂_exists_of_mem_left hsf (List.mem_reverse.2 ha)
  rw [hh]
  rcases hcell with hcell | ⟨haC, hcell⟩ <;> rw [hcell]
  · rfl
  · exact hrun haC

/-- A record of `C` whose updated record of the same name changed materially goes to the cleanup
list, and the new list holds a record with the updated key. -/
theorem updateRelays_replaced {h : Heap} {C U : List ℕ} {b d : ℕ} (hl : Linked h (C ++ U))
    (hUn : (U.map fun d => (h.cells d).localmount).Nodup) (hb : b ∈ C) (hd : d ∈ U)
    (hname : (h.cells d).localmount = (h.cells b).localmount)
    (hkey : (h.cells d).key ≠ (h.cells b).key) :
    b ∈ (updateRelays h C U).cleanup ∧ ∃ a ∈ (updateRelays h C U).active,
      ((updateRelays h C U).heap.cells a).key = (h.cells d).key ∧ (h.top ≤ a ∨ a ∈ C) := by
  have hi := updateRelaySet_inv hl
  refine ⟨(updateRelays_mem_cleanup hl hb).2 fun hbA => ?_, ?_⟩
  · obtain ⟨d', hd', hout⟩ := forall₂_exists_of_mem_left hi.outcome hbA
    rcases hout with ⟨-, hk, -⟩ | ⟨htop, -⟩
    · have hdd : d' = d := List.inj_on_of_nodup_map hUn (List.mem_reverse.1 hd') hd
        (by rw [hname]; exact (congrArg Prod.fst hk).symm)
      exact hkey (hdd ▸ hk.symm)
    · exact absurd (hl.2 b (List.mem_append_left _ hb)) (Nat.not_lt.2 htop)
  · obtain ⟨a, ha, hout⟩ := forall₂_exists_of_mem_left hi.outcome.flip (List.mem_reverse.2 hd)
    rcases hout with ⟨haC, hk, hcell⟩ | ⟨htop, hcell⟩
    · exact ⟨a, ha, (congrArg RelayServer.key hcell).trans hk, .inr haC⟩
    · exact ⟨a, ha, (congrArg RelayServer.key hcell).trans (RelayServer.copy_key _), .inl htop⟩

theorem allocRelays_map (h : Heap) (rs : List RelayServer) :
    (allocRelays h rs).2.map (allocRelays h rs).1.cells = rs := by
  induction rs generalizing h with
  | nil => rfl
  | cons r rs ih =>
    simp only [allocRelays, List.map_cons, ih]
    rw [allocRelays_old (by simp)]
    simp

theorem Sys.refreshMaster_frame (s : Sys) :
    s.refreshMaster.heap = s.heap ∧ s.refreshMaster.relays = s.relays ∧
      s.refreshMaster.masterRelays = s.masterRelays ∧ s.refreshMaster.config = s.config ∧
      s.refreshMaster.registry = s.registry ∧ s.refreshMaster.workers = s.workers ∧
      s.nextTid ≤ s.refreshMaster.nextTid := by
  unfold Sys.refreshMaster
  dsimp only
  split
  · exact ⟨rfl, rfl, rfl, rfl, rfl, rfl, Nat.le_succ _⟩
  · exact ⟨rfl, rfl, rfl, rfl, rfl, rfl, le_rfl⟩

/-- What a full refresh owes the list `L'` it builds from `L` and the configuration `U`: a
reservation for each `/` record, a worker for each startable one, and a new record for each one
replaced. -/
structure PassOutcome (s s' : Sys) (L : List ℕ) (U : List RelayServer) (L' : List ℕ) : Prop where
  reserved : ∀ a ∈ L', (s'.heap.cells a).localmount.head? = some 47 →
    ∃ hd, (s'.heap.cells a).source = some hd ∧
      (hd, (s'.heap.cells a).localmount) ∈ s'.registry.entries
  started : ∀ a ∈ L', (s'.heap.cells a).localmount.head? = some 47 →
    (s'.heap.cells a).enable ≠ 0 → (s'.heap.cells a).onDemand = 0 →
    (a < s.heap.top → (s.heap.cells a).running = false) →
    ∃ w ∈ s'.workers, w.relay = a ∧ s.nextTid ≤ w.tid
  replaced : ∀ b ∈ L, ∀ d ∈ U, d.localmount = (s.heap.cells b).localmount →
    d.key ≠ (s.heap.cells b).key → b ∈ s'.freed ∧
      ∃ a ∈ L', (s'.heap.cells a).key = d.key ∧ (s.heap.top ≤ a ∨ a ∈ L)

theorem PassOutcome.of_started {s s' : Sys} {L L' : List ℕ} {U : List RelayServer} (hi : SysInv s')
    (hL : ∀ a ∈ L', a ∈ s'.live)
    (h : ∀ a ∈ L', (s'.heap.cells a).localmount.head? = some 47 →
      (s'.heap.cells a).source ≠ none ∧
      ((s'.heap.cells a).enable ≠ 0 → (s'.heap.cells a).onDemand = 0 →
        (a < s.heap.top → (s.heap.cells a).running = false) →
        ∃ w ∈ s'.workers, w.relay = a ∧ s.nextTid ≤ w.tid))
    (hrep : ∀ b ∈ L, ∀ d ∈ U, d.localmount = (s.heap.cells b).localmount →
      d.key ≠ (s.heap.cells b).key → b ∈ s'.freed ∧
        ∃ a ∈ L', (s'.heap.cells a).key = d.key ∧ (s.heap.top ≤ a ∨ a ∈ L)) :
    PassOutcome s s' L U L' where
  reserved a ha hname := by
    obtain ⟨hd, hhd⟩ := Option.ne_none_iff_exists'.1 (h a ha hname).1
    exact ⟨hd, hhd, hi.holds.names a (hL a ha) hd hhd⟩
  started a ha hname := (h a ha hname).2
  replaced := hrep

/-- The full-refresh turn of `_slave_thread` over `global.relays`. -/
theorem tick_passOutcome {s : Sys} (hsi : SysInv s) (hti : ThreadInv s)
    (hr : s.slaveRunning = true) (hmax : s.maxInterval ≤ s.guardInterval)
    (hUn : (s.config.relay.map fun d => (s.heap.cells d).localmount).Nodup)
    (hres : ∀ e ∈ s.registry.entries, e.2 ∈ s.config.relay.map (fun d => (s.heap.cells d).localmount) →
      ∃ b ∈ s.relays, (s.heap.cells b).source = some e.1) :
    PassOutcome s s.tick s.relays (s.config.relay.map s.heap.cells) s.tick.relays := by
  set t := ({ s with interval := s.guardInterval } : Sys).refreshMaster with ht
  obtain ⟨hth, htr, -, htc, htg, -, htn⟩ :=
    Sys.refreshMaster_frame ({ s with interval := s.guardInterval } : Sys)
  have htick : s.tick = { t.refreshRelays with pc := .clear } := by
    rcases s.tick_cases with ⟨h, -⟩ | ⟨-, hres, hlt, -⟩ | ⟨-, -, h⟩ | ⟨-, hres, hlt, -⟩
    · cases h.symm.trans hr
    · rw [Sys.guardInterval_of_quiet hres] at hmax; omega
    · exact h
    · rw [Sys.guardInterval_of_rescan hres] at hmax; omega
  have hsi_t : SysInv t := (hsi.with_interval _).refreshMaster
  have hl₀ := (hsi_t.linked.sublist (List.sublist_append_right _ _)).perm t.live_perm
  set u := updateRelays t.heap t.relays t.config.relay with hu
  have hti₁ : ThreadInv { t with heap := u.heap, relays := u.active } :=
    (ThreadInv.refreshMaster ⟨hti.fresh, hti.bound, hti.owner, hti.news⟩).mono
      ⟨le_rfl, fun _ _ h => updateRelays_threads _ _ _ h, fun w hw => ⟨w, hw, rfl, rfl⟩, rfl⟩
  have key := reconcile_started hl₀ (hsi_t.holds.perm t.live_perm) hsi_t.templates hti₁ rfl rfl (by rw [hth, htc]; exact hUn)
    (fun e he hm => by
      rw [hth, htc] at hm
      obtain ⟨b, hb, hsb⟩ := hres e (htg ▸ he) hm
      exact ⟨b, htr ▸ hb, by rw [sourceAt, hth]; exact hsb⟩)
  have hrel : ({ t.refreshRelays with pc := .clear } : Sys).relays = u.active :=
    (Sys.relayCheckStreams_frame { t with heap := u.heap, relays := u.active } u.active u.cleanup).1.relays
  have hfreed : ({ t.refreshRelays with pc := .clear } : Sys).freed = u.cleanup.reverse ++ t.freed :=
    (Sys.relayCheckStreams_frame { t with heap := u.heap, relays := u.active } u.active u.cleanup).2
  have hconf := (Sys.relayCheckStreams_threads hti₁ u.active u.cleanup).2.2.configured
  rw [htick]
  refine PassOutcome.of_started ((hsi_t.refreshRelays).with_pc _)
    (fun a ha => by simp [Sys.live, ha]) (fun a ha hname => ?_) fun b hb d hd hname hkey => ?_
  · rw [hrel] at ha
    obtain ⟨h₁, h₂⟩ := key a ha hname
    refine ⟨h₁, fun he hod hrun => ?_⟩
    obtain ⟨w, hw, hwr, hwt⟩ := h₂ he hod fun haC => by
      have haS : a ∈ s.relays := htr ▸ haC
      rw [hth]; exact hrun (hsi.linked.2 a (by simp [Sys.live, haS]))
    exact ⟨w, hw, hwr, htn.trans hwt⟩
  · obtain ⟨d₀, hd₀, rfl⟩ := List.mem_map.1 hd
    obtain ⟨hK, a, ha, hka, hfresh⟩ := updateRelays_replaced
      (hl₀.sublist (List.sublist_append_left _ _)) (by rw [hth, htc]; exact hUn)
      (htr ▸ hb) (htc ▸ hd₀) (by rw [hth]; exact hname) (by rw [hth]; exact hkey)
    refine ⟨hfreed ▸ List.mem_append_left _ (List.mem_reverse.2 hK), a, hrel ▸ ha,
      (RelayServer.key_congr (hconf a)).trans (hth ▸ hka), ?_⟩
    rwa [hth, htr] at hfresh

/-- The locked section of a master fetch with `ok` set, over `global.master_relays`. -/
theorem done_passOutcome {s s' : Sys} {tid : ℕ} {f : Fetch} (hsi : SysInv s) (hti : ThreadInv s)
    (hf : s.fetches.find? (·.tid = tid) = some f) (hok : f.master.ok ≠ 0)
    (hUn : (f.master.newRelays.map (·.localmount)).Nodup)
    (hres : ∀ e ∈ s.registry.entries, e.2 ∈ f.master.newRelays.map (·.localmount) →
      ∃ b ∈ s.masterRelays, (s.heap.cells b).source = some e.1)
    (h : s.next (.done tid) = some s') :
    PassOutcome s s' s.masterRelays f.master.newRelays s'.masterRelays := by
  simp only [Sys.next, hf, if_pos hok, Option.some.injEq] at h
  subst h
  have hfm := List.mem_of_find?_eq_some hf
  obtain ⟨hl₀, H₀, hNs⟩ := hsi.commit_lists (hsi.news f hfm)
  replace hl₀ := hl₀.sublist (List.sublist_append_right _ _)
  set p := allocRelays s.heap f.master.newRelays with hp
  set u := updateRelays p.1 s.masterRelays p.2 with hu
  have hold : ∀ a < s.heap.top, p.1.cells a = s.heap.cells a := fun a ha => allocRelays_old ha
  have hmap : p.2.map (fun d => (p.1.cells d).localmount) = f.master.newRelays.map (·.localmount) := by
    have := congrArg (List.map RelayServer.localmount) (allocRelays_map s.heap f.master.newRelays)
    rwa [List.map_map] at this
  have hti₁ : ThreadInv { s with heap := u.heap, masterRelays := u.active } :=
    hti.mono ⟨le_rfl, fun _ _ h => allocRelays_threads (hti.news f hfm) (updateRelays_threads _ _ _ h),
      fun w hw => ⟨w, hw, rfl, rfl⟩, rfl⟩
  have key := reconcile_started (t := { s with heap := p.1 }) hl₀ H₀ hNs hti₁ rfl rfl (hmap ▸ hUn)
    fun e he hm => by
      obtain ⟨b, hb, hsb⟩ := hres e he (hmap ▸ hm)
      exact ⟨b, hb, by rw [sourceAt, hold b (hsi.linked.2 b (by simp [Sys.live, hb]))]; exact hsb⟩
  set s₂ := Sys.relayCheckStreams { s with heap := u.heap, masterRelays := u.active } u.active u.cleanup
  obtain ⟨-, -, hw₃⟩ := Sys.relayCheckStreams_threads (Sys.relayCheckStreams_threads hti₁ u.active u.cleanup).1 [] p.2
  have hA : (s.commit f.master).masterRelays = u.active :=
    (Sys.relayCheckStreams_frame s₂ [] p.2).1.masterRelays.trans
      (Sys.relayCheckStreams_frame _ u.active u.cleanup).1.masterRelays
  have hdisj : ∀ a ∈ u.active, a ∉ p.2 := fun a ha hN =>
    (List.nodup_append.1 (List.nodup_append.1 (updateRelays_linked hl₀ hNs).1).1).2.2
      (List.mem_append_right _ ha) hN
  have hsi' := hsi.commit (hsi.news f hfm)
  have hc : ∀ a ∈ u.active, (s.commit f.master).heap.cells a = s₂.heap.cells a := fun a ha =>
    hw₃.cells a (by simpa using hdisj a ha)
  refine PassOutcome.of_started (hsi'.withFetches _ fun x hx => hsi'.news x (List.mem_filter.1 hx).1)
    (fun a ha => by simp [Sys.live, ha]) (fun a ha hname => ?_) fun b hb d hd hname hkey => ?_
  · replace ha : a ∈ u.active := hA ▸ ha
    have hna : a ∉ p.2 ++ [] := by simpa using hdisj a ha
    rw [hc a ha] at hname ⊢
    obtain ⟨h₁, h₂⟩ := key a ha hname
    refine ⟨h₁, fun he hod hrun => ?_⟩
    obtain ⟨w, hw, hwr, hwt⟩ := h₂ he hod fun haC => by
      have htop : a < s.heap.top := hsi.linked.2 a (by simp [Sys.live, haC])
      rw [hold a htop]; exact hrun htop
    exact ⟨w, hw₃.workers w hw (hwr ▸ hna), hwr, hwt⟩
  · obtain ⟨d₀, hd₀, rfl⟩ := List.mem_map.1 ((allocRelays_map s.heap f.master.newRelays).symm ▸ hd)
    have hb' : p.1.cells b = s.heap.cells b := hold b (hsi.linked.2 b (by simp [Sys.live, hb]))
    obtain ⟨hK, a, ha, hka, hfresh⟩ := updateRelays_replaced (hl₀.sublist (List.sublist_append_left _ _))
      (hmap ▸ hUn) hb hd₀ (by rw [hb']; exact hname) (by rw [hb']; exact hkey)
    have hfreed : (s.commit f.master).freed = p.2.reverse ++ (u.cleanup.reverse ++ s.freed) :=
      ((Sys.relayCheckStreams_frame s₂ [] p.2).2).trans
        (congrArg _ (Sys.relayCheckStreams_frame _ u.active u.cleanup).2)
    refine ⟨show b ∈ (s.commit f.master).freed by simp [hfreed, hK], a, hA ▸ ha,
      (congrArg RelayServer.key (hc a ha)).trans ((RelayServer.key_congr
        ((Sys.relayCheckStreams_threads hti₁ u.active u.cleanup).2.2.configured a)).trans hka), ?_⟩
    exact hfresh.imp_left fun h => le_trans (by rw [allocRelays_top]; omega) h

/-- Every full refresh of a relay list from a reachable state, when the new local mounts are
distinct and reserved by no record outside the old list, meets `PassOutcome`. -/
theorem refreshPass_outcome {s : Sys} (hs : Reachable s) (hpc : s.pc ≠ .exited) :
    (s.slaveRunning = true → s.maxInterval ≤ s.guardInterval →
      (s.config.relay.map fun d => (s.heap.cells d).localmount).Nodup →
      (∀ e ∈ s.registry.entries, e.2 ∈ s.config.relay.map (fun d => (s.heap.cells d).localmount) →
        ∃ b ∈ s.relays, (s.heap.cells b).source = some e.1) →
      PassOutcome s s.tick s.relays (s.config.relay.map s.heap.cells) s.tick.relays) ∧
    ∀ tid f s', s.fetches.find? (·.tid = tid) = some f → f.master.ok ≠ 0 →
      (f.master.newRelays.map (·.localmount)).Nodup →
      (∀ e ∈ s.registry.entries, e.2 ∈ f.master.newRelays.map (·.localmount) →
        ∃ b ∈ s.masterRelays, (s.heap.cells b).source = some e.1) →
      s.next (.done tid) = some s' → PassOutcome s s' s.masterRelays f.master.newRelays s'.masterRelays :=
  ⟨tick_passOutcome (hs.sysInv hpc) hs.threadInv,
    fun _ _ _ hf hok hUn hres h => done_passOutcome (hs.sysInv hpc) hs.threadInv hf hok hUn hres h⟩

/-- Both passes replace a record: `/a` moves to port 8001 in the configuration, and the
master moves to port 8001 before a fetch lists `/a` again. -/
theorem refreshPass_outcome_sample :
    let s := (Sys.init.run [.reload [Sample.relayA] (Sample.standalone 1), .tick, .clear,
      .reload [{ Sample.relayA with port := 8001 }] (Sample.standalone 1)]).getD Sys.init
    let s₁ := (Sys.init.run [.reload [] Sample.withMaster, .tick, .header 0, .data 0 [47, 97, 10],
      .done 0, .clear, .reload [] { Sample.withMaster with masterServerPort := 8001 }, .tick,
      .header 2, .data 2 [47, 97, 10]]).getD Sys.init
    (s.relays.map (fun b => (s.heap.cells b).port) = [8000] ∧
      s.config.relay.map (fun d => (s.heap.cells d).port) = [8001] ∧
      s₁.masterRelays.map (fun b => (s₁.heap.cells b).port) = [8000]) ∧
    PassOutcome s s.tick s.relays (s.config.relay.map s.heap.cells) s.tick.relays ∧
      ∃ f s', s₁.fetches.find? (·.tid = 2) = some f ∧ f.master.newRelays.map (·.port) = [8001] ∧
        s₁.next (.done 2) = some s' ∧
        PassOutcome s₁ s' s₁.masterRelays f.master.newRelays s'.masterRelays :=
  ⟨by decide, (refreshPass_outcome (reachable_run_getD _) (by decide)).1 rfl (by decide) (by decide)
    (by decide), _, _, rfl, by decide, rfl,
    (refreshPass_outcome (reachable_run_getD _) (by decide)).2 2 _ _ rfl (by decide) (by decide)
      (by decide) rfl⟩

end IcecastRelay

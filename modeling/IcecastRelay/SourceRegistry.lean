import IcecastRelay.Supervisor

/-! # Source reservations

`Holds`: the records of a list hold exactly the handles of the `source_reserve` registry, each
once and under its mountpoint. `SysInv` carries it over every step before shutdown. -/
namespace IcecastRelay

/-- The records `L` hold the handles of `g`: each once, under their own mountpoint. -/
structure Holds (h : Heap) (g : Registry) (L : List ℕ) : Prop where
  handles : List.Perm (L.filterMap (sourceAt h)) (g.entries.map Prod.fst)
  handles_nodup : (g.entries.map Prod.fst).Nodup
  names : ∀ a ∈ L, ∀ hd, sourceAt h a = some hd → (hd, (h.cells a).localmount) ∈ g.entries
  fresh : ∀ e ∈ g.entries, e.1 < g.fresh

theorem eq_of_filterMap_nodup {α β : Type*} {f : α → Option β} {L : List α} {a b : α} {x : β}
    (hL : L.Nodup) (hf : (L.filterMap f).Nodup) (ha : a ∈ L) (hb : b ∈ L) (hfa : f a = some x)
    (hfb : f b = some x) : a = b := by
  induction L with
  | nil => simp at ha
  | cons c L ih =>
    obtain ⟨hcL, hL⟩ := List.nodup_cons.1 hL
    have hx : ∀ d ∈ L, f d = some x → f c ≠ some x := fun d hd hfd hfc => by
      rw [List.filterMap_cons_some hfc] at hf
      exact (List.nodup_cons.1 hf).1 (List.mem_filterMap.2 ⟨d, hd, hfd⟩)
    have hf' : (L.filterMap f).Nodup := by
      cases hfc : f c with
      | none => rwa [List.filterMap_cons_none hfc] at hf
      | some y => rw [List.filterMap_cons_some hfc] at hf; exact (List.nodup_cons.1 hf).2
    rcases List.mem_cons.1 ha with rfl | ha' <;> rcases List.mem_cons.1 hb with rfl | hb'
    · rfl
    · exact absurd hfa (hx b hb' hfb)
    · exact absurd hfb (hx a ha' hfa)
    · exact ih hL hf' ha' hb'

section Holds

variable {h h' : Heap} {g : Registry} {L L' N : List ℕ}

theorem Holds.unique (H : Holds h g L) (hL : L.Nodup) {a b hd : ℕ} (ha : a ∈ L) (hb : b ∈ L)
    (hsa : sourceAt h a = some hd) (hsb : sourceAt h b = some hd) : a = b :=
  eq_of_filterMap_nodup hL (H.handles.nodup_iff.2 H.handles_nodup) ha hb hsa hsb

theorem Holds.holder (H : Holds h g L) {e : ℕ × CStr} (he : e ∈ g.entries) :
    ∃ a ∈ L, sourceAt h a = some e.1 :=
  List.mem_filterMap.1 (H.handles.mem_iff.2 (List.mem_map_of_mem _ he))

theorem Holds.perm (H : Holds h g L) (hp : List.Perm L L') : Holds h g L' where
  handles := (hp.filterMap _).symm.trans H.handles
  handles_nodup := H.handles_nodup
  names a ha := H.names a (hp.mem_iff.2 ha)
  fresh := H.fresh

theorem Holds.congr (H : Holds h g L) (hs : ∀ a ∈ L, sourceAt h' a = sourceAt h a)
    (hn : ∀ a ∈ L, (h'.cells a).localmount = (h.cells a).localmount) : Holds h' g L where
  handles := by rw [List.filterMap_congr hs]; exact H.handles
  handles_nodup := H.handles_nodup
  names a ha hd hsa := hn a ha ▸ H.names a ha hd (hs a ha ▸ hsa)
  fresh := H.fresh

theorem filterMap_eq_nil_of_none {N : List ℕ} (hN : ∀ a ∈ N, sourceAt h a = none) :
    N.filterMap (sourceAt h) = [] :=
  List.filterMap_eq_nil_iff.2 hN

theorem Holds.append_none (H : Holds h g L) (hN : ∀ a ∈ N, sourceAt h a = none) :
    Holds h g (N ++ L) where
  handles := by rw [List.filterMap_append, filterMap_eq_nil_of_none hN]; exact H.handles
  handles_nodup := H.handles_nodup
  names a ha hd hsa := by
    rcases List.mem_append.1 ha with ha | ha
    · simp [hN a ha] at hsa
    · exact H.names a ha hd hsa
  fresh := H.fresh

theorem Holds.of_append_none (H : Holds h g (N ++ L)) (hN : ∀ a ∈ N, sourceAt h a = none) :
    Holds h g L where
  handles := by simpa [List.filterMap_append, filterMap_eq_nil_of_none hN] using H.handles
  handles_nodup := H.handles_nodup
  names a ha := H.names a (List.mem_append_right _ ha)
  fresh := H.fresh

/-- `relay_free` of the head record: its handle, if any, is released. -/
theorem Holds.free (H : Holds h g (a :: L)) :
    Holds h (match sourceAt h a with
      | some hd => g.release hd
      | none => g) L := by
  cases hsa : sourceAt h a with
  | none =>
    exact ⟨by simpa [List.filterMap_cons_none hsa] using H.handles, H.handles_nodup,
      fun b hb => H.names b (List.mem_cons_of_mem _ hb), H.fresh⟩
  | some hd =>
    have hp := H.handles
    rw [List.filterMap_cons_some hsa] at hp
    have hnot : hd ∉ L.filterMap (sourceAt h) :=
      (List.nodup_cons.1 (hp.nodup_iff.2 H.handles_nodup)).1
    have hmap : (g.release hd).entries.map Prod.fst = (g.entries.map Prod.fst).filter (· ≠ hd) := by
      simp [Registry.release, List.filter_map, Function.comp_def]
    refine ⟨?_, ?_, fun b hb hd' hsb => ?_, fun e he => H.fresh e (List.mem_filter.1 he).1⟩
    · have hf := hp.filter (· ≠ hd)
      rw [List.filter_cons_of_neg (by simp), List.filter_eq_self.2] at hf
      · rw [hmap]; exact hf
      · intro x hx
        simpa using fun e : x = hd => hnot (e ▸ hx)
    · rw [hmap]; exact H.handles_nodup.filter _
    · have hne : hd' ≠ hd := fun e => hnot (e ▸ List.mem_filterMap.2 ⟨b, hb, hsb⟩)
      exact List.mem_filter.2 ⟨H.names b (List.mem_cons_of_mem _ hb) hd' hsb, by simpa using hne⟩

/-- `source_reserve` for a record of the list that holds nothing. -/
theorem Holds.reserve (H : Holds h g L) (hL : L.Nodup) {a hd : ℕ} {g' : Registry}
    (ha : a ∈ L) (hs : sourceAt h a = none)
    (hr : g.reserve (h.cells a).localmount = some (hd, g')) :
    Holds (h.set a { h.cells a with source := some hd }) g' L := by
  simp only [Registry.reserve] at hr
  split_ifs at hr
  obtain ⟨rfl, rfl⟩ := Option.some.inj hr
  have hsrc : ∀ b, sourceAt (h.set a { h.cells a with source := some g.fresh }) b =
      if b = a then some g.fresh else sourceAt h b := by
    intro b; by_cases hb : b = a <;> simp [sourceAt, hb]
  have hL' : List.Perm L (a :: L.erase a) := List.perm_cons_erase ha
  have hna : a ∉ L.erase a := hL.not_mem_erase
  have herase : ∀ f : ℕ → Option ℕ, (∀ b ∈ L.erase a, f b = sourceAt h b) →
      (L.erase a).filterMap f = (L.erase a).filterMap (sourceAt h) :=
    fun f hf => List.filterMap_congr hf
  have hfresh : g.fresh ∉ g.entries.map Prod.fst := fun hm => by
    obtain ⟨e, he, hfe⟩ := List.mem_map.1 hm
    exact lt_irrefl _ (hfe ▸ H.fresh e he)
  refine ⟨?_, ?_, fun b hb hd' hsb => ?_, fun e he => ?_⟩
  · have hsa : sourceAt (h.set a { h.cells a with source := some g.fresh }) a = some g.fresh := by
      rw [hsrc, if_pos rfl]
    have hrest : ∀ b ∈ L.erase a,
        sourceAt (h.set a { h.cells a with source := some g.fresh }) b = sourceAt h b :=
      fun b hb => by rw [hsrc, if_neg (fun e : b = a => hna (e ▸ hb))]
    have h₁ := hL'.filterMap (sourceAt (h.set a { h.cells a with source := some g.fresh }))
    have h₂ := hL'.filterMap (sourceAt h)
    rw [List.filterMap_cons_some hsa, herase _ hrest] at h₁
    rw [List.filterMap_cons_none hs] at h₂
    exact h₁.trans (List.Perm.cons _ (h₂.symm.trans H.handles))
  · exact List.nodup_cons.2 ⟨hfresh, H.handles_nodup⟩
  · rw [hsrc] at hsb
    by_cases hba : b = a
    · subst hba; simp only [if_true, Option.some.injEq] at hsb; subst hsb
      simp
    · rw [if_neg hba] at hsb
      exact List.mem_cons_of_mem _ (by simpa [hba] using H.names b hb hd' hsb)
  · rcases List.mem_cons.1 he with rfl | he
    · exact Nat.lt_succ_self _
    · exact Nat.lt_succ_of_lt (H.fresh e he)

theorem Linked.allocRelays {rs : List RelayServer} (hl : Linked h L) :
    Linked (allocRelays h rs).1 (L ++ (allocRelays h rs).2) := by
  rw [Linked, allocRelays_addrs, allocRelays_top]
  refine ⟨List.nodup_append.2 ⟨hl.1, List.nodup_range' _ _, fun a ha hb => ?_⟩, fun a ha => ?_⟩
  · have := hl.2 a ha
    rw [List.mem_range'_1] at hb; omega
  · rcases List.mem_append.1 ha with ha | ha
    · have := hl.2 a ha; omega
    · rw [List.mem_range'_1] at ha; omega

theorem Holds.allocRelays {rs : List RelayServer} (H : Holds h g L) (hl : ∀ a ∈ L, a < h.top)
    (hrs : ∀ r ∈ rs, r.source = none) : Holds (allocRelays h rs).1 g ((allocRelays h rs).2 ++ L) :=
  (H.congr (fun a ha => by simp only [sourceAt, allocRelays_old (hl a ha)])
    fun a ha => by rw [allocRelays_old (hl a ha)]).append_none fun _ ha => hrs _ (allocRelays_mem ha)

end Holds

section Reconcile

variable {h : Heap} {g : Registry} {C U O : List ℕ}

theorem updateRelays_old (hl : Linked h (C ++ U)) (hU : ∀ d ∈ U, sourceAt h d = none) {a : ℕ}
    (ha : a < h.top) :
    sourceAt (updateRelays h C U).heap a = sourceAt h a ∧
      ((updateRelays h C U).heap.cells a).localmount = (h.cells a).localmount := by
  have hi := updateRelaySet_inv hl
  by_cases hA : a ∈ (updateRelays h C U).active
  · obtain ⟨d, -, hout⟩ := forall₂_exists_of_mem_left hi.outcome hA
    rcases hout with ⟨-, -, hcell⟩ | ⟨htop, -⟩
    · simp [updateRelays, sourceAt, hcell]
    · omega
  · by_cases hUa : a ∈ U
    · have hs := hU a hUa
      simp only [sourceAt] at hs
      rcases hi.done_cells a hUa with hc | hc <;> simp [updateRelays, sourceAt, hc, hs]
    · simp [updateRelays, sourceAt, hi.frame a ha hA hUa]

theorem updateRelays_new (hl : Linked h (C ++ U)) (hU : ∀ d ∈ U, sourceAt h d = none) {a : ℕ}
    (ha : a ∈ (updateRelays h C U).active) :
    a < (updateRelays h C U).heap.top ∧
      (a ∈ C ∨ (h.top ≤ a ∧ sourceAt (updateRelays h C U).heap a = none)) := by
  have hi := updateRelaySet_inv hl
  refine ⟨hi.below_top a ha, ?_⟩
  obtain ⟨d, hd, hout⟩ := forall₂_exists_of_mem_left hi.outcome ha
  rcases hout with ⟨haC, -⟩ | ⟨htop, hcell⟩
  · exact .inl haC
  · exact .inr ⟨htop, by simpa [updateRelays, sourceAt, hcell] using hU d (List.mem_reverse.1 hd)⟩

theorem updateRelays_linked (hl : Linked h (C ++ U ++ O)) (hU : ∀ d ∈ U, sourceAt h d = none) :
    Linked (updateRelays h C U).heap
      ((updateRelays h C U).cleanup ++ (updateRelays h C U).active ++ U ++ O) := by
  have hl' : Linked h (C ++ U) :=
    ⟨(List.nodup_append.1 hl.1).1, fun a ha => hl.2 a (List.mem_append_left _ ha)⟩
  have hi := updateRelaySet_inv hl'
  have hCUO := List.nodup_append.1 (show (C ++ (U ++ O)).Nodup by simpa using hl.1)
  have hK : ∀ a ∈ (updateRelays h C U).cleanup, a ∈ C := fun a ha => hi.current_sublist.subset ha
  have htop : h.top ≤ (updateRelays h C U).heap.top := hi.top_le
  refine ⟨?_, fun a ha => ?_⟩
  · rw [List.append_assoc _ U O]
    refine List.nodup_append.2 ⟨hi.nodup, hCUO.2.1, fun a ha hb => ?_⟩
    rcases List.mem_append.1 ha with haK | haA
    · exact hCUO.2.2 (hK a haK) hb
    · rcases (updateRelays_new hl' hU haA).2 with haC | ⟨hle, -⟩
      · exact hCUO.2.2 haC hb
      · exact absurd (hl.2 a (by rw [List.append_assoc]; exact List.mem_append_right _ hb)) (by omega)
  · simp only [List.mem_append] at ha
    rcases ha with ((haK | haA) | haU) | haO
    · exact lt_of_lt_of_le (hl.2 a (by simp [hK a haK])) htop
    · exact (updateRelays_new hl' hU haA).1
    · exact lt_of_lt_of_le (hl.2 a (by simp [haU])) htop
    · exact lt_of_lt_of_le (hl.2 a (by simp [haO])) htop

/-- After `update_relays`, the cleanup list, the new list, the updated records and the other
records `O` hold the registry's handles. -/
theorem updateRelays_holds (hl : Linked h (C ++ U ++ O)) (H : Holds h g (C ++ U ++ O))
    (hU : ∀ d ∈ U, sourceAt h d = none) :
    Holds (updateRelays h C U).heap g
      ((updateRelays h C U).cleanup ++ (updateRelays h C U).active ++ U ++ O) := by
  have hl' : Linked h (C ++ U) :=
    ⟨(List.nodup_append.1 hl.1).1, fun a ha => hl.2 a (List.mem_append_left _ ha)⟩
  have hi := updateRelaySet_inv hl'
  set u := updateRelays h C U with hu
  have hF : ∀ a ∈ u.active.filter (fun a => h.top ≤ a), sourceAt u.heap a = none := by
    intro a ha
    obtain ⟨ha, hle⟩ := List.mem_filter.1 ha
    rcases (updateRelays_new hl' hU ha).2 with haC | ⟨-, hs⟩
    · exact absurd (hl.2 a (by simp [haC])) (by simpa using hle)
    · exact hs
  have hperm : List.Perm (u.cleanup ++ u.active) (C ++ u.active.filter (fun a => h.top ≤ a)) := by
    have hsplit := List.filter_append_perm (fun a => decide (a < h.top)) u.active
    have hfilt : u.active.filter (fun a => !decide (a < h.top)) =
        u.active.filter (fun a => h.top ≤ a) :=
      List.filter_congr (fun a _ => by by_cases ha : a < h.top <;> simp [ha]; omega)
    rw [hfilt] at hsplit
    calc List.Perm (u.cleanup ++ u.active)
          ((u.cleanup ++ u.active.filter (fun a => decide (a < h.top))) ++
            u.active.filter (fun a => h.top ≤ a)) := by
          simpa only [List.append_assoc] using hsplit.symm.append_left u.cleanup
      List.Perm _ (C ++ u.active.filter (fun a => h.top ≤ a)) := hi.perm.symm.append_right _
  have H₁ : Holds u.heap g (C ++ U ++ O) :=
    H.congr (fun a ha => (updateRelays_old hl' hU (hl.2 a ha)).1)
      (fun a ha => (updateRelays_old hl' hU (hl.2 a ha)).2)
  have hFC : List.Perm (u.active.filter (fun a => h.top ≤ a) ++ C)
      (C ++ u.active.filter (fun a => h.top ≤ a)) := List.perm_append_comm
  refine (H₁.append_none hF).perm ?_
  calc List.Perm (u.active.filter (fun a => h.top ≤ a) ++ (C ++ U ++ O))
        ((C ++ u.active.filter (fun a => h.top ≤ a)) ++ (U ++ O)) := by
        simpa only [List.append_assoc] using hFC.append_right (U ++ O)
    List.Perm _ ((u.cleanup ++ u.active) ++ (U ++ O)) := hperm.symm.append_right _
    _ = u.cleanup ++ u.active ++ U ++ O := by simp

end Reconcile

namespace Sys

/-- `s'` keeps the lists, the configuration, the fetches, the heap's extent and every mountpoint
of `s`, and the sources of every record outside `touched`. -/
structure Frame (touched : List ℕ) (s s' : Sys) : Prop where
  top : s'.heap.top = s.heap.top
  relays : s'.relays = s.relays
  masterRelays : s'.masterRelays = s.masterRelays
  config : s'.config = s.config
  fetches : s'.fetches = s.fetches
  pc : s'.pc = s.pc
  names : ∀ a, (s'.heap.cells a).localmount = (s.heap.cells a).localmount
  sources : ∀ a ∉ touched, sourceAt s'.heap a = sourceAt s.heap a

/-- A step of thread bookkeeping only: workers, thread handles, `running`, `cleanup` and
the rescan flags. -/
structure Quiet (s s' : Sys) : Prop where
  frame : Frame [] s s'
  registry : s'.registry = s.registry
  freed : s'.freed = s.freed

variable {s s₁ s₂ : Sys} {t t₁ t₂ : List ℕ} {a : ℕ}

theorem Frame.rfl' : Frame t s s :=
  ⟨rfl, rfl, rfl, rfl, rfl, rfl, fun _ => rfl, fun _ _ => rfl⟩

theorem Frame.trans (h₁ : Frame t₁ s s₁) (h₂ : Frame t₂ s₁ s₂) : Frame (t₁ ++ t₂) s s₂ where
  top := h₂.top.trans h₁.top
  relays := h₂.relays.trans h₁.relays
  masterRelays := h₂.masterRelays.trans h₁.masterRelays
  config := h₂.config.trans h₁.config
  fetches := h₂.fetches.trans h₁.fetches
  pc := h₂.pc.trans h₁.pc
  names a := (h₂.names a).trans (h₁.names a)
  sources a ha := by
    simp only [List.mem_append, not_or] at ha
    exact (h₂.sources a ha.2).trans (h₁.sources a ha.1)

theorem Frame.mono (h : Frame t₁ s s₁) (ht : ∀ a ∈ t₁, a ∈ t₂) : Frame t₂ s s₁ :=
  { h with sources := fun a ha => h.sources a fun h₁ => ha (ht a h₁) }

theorem Quiet.rfl' : Quiet s s := ⟨Frame.rfl', rfl, rfl⟩

theorem Quiet.trans (h₁ : Quiet s s₁) (h₂ : Quiet s₁ s₂) : Quiet s s₂ :=
  ⟨h₁.frame.trans h₂.frame, h₂.registry.trans h₁.registry, h₂.freed.trans h₁.freed⟩

theorem Quiet.holds {L : List ℕ} (hq : Quiet s s₁) (H : Holds s.heap s.registry L) :
    Holds s₁.heap s₁.registry L :=
  hq.registry ▸ H.congr (fun a _ => hq.frame.sources a (List.not_mem_nil a))
    (fun a _ => hq.frame.names a)

theorem quiet_modify {f : RelayServer → RelayServer}
    (hf : ∀ r, (f r).source = r.source ∧ (f r).localmount = r.localmount) :
    Quiet s (s.modify a f) where
  frame :=
    { top := rfl, relays := rfl, masterRelays := rfl, config := rfl, fetches := rfl, pc := rfl
      names := fun b => by by_cases hb : b = a <;> simp [modify, hb, hf]
      sources := fun b _ => by by_cases hb : b = a <;> simp [modify, sourceAt, hb, hf] }
  registry := rfl
  freed := rfl

theorem quiet_of (hh : s₁.heap = s.heap) (hr : s₁.relays = s.relays)
    (hm : s₁.masterRelays = s.masterRelays) (hc : s₁.config = s.config)
    (hf : s₁.fetches = s.fetches) (hp : s₁.pc = s.pc) (hg : s₁.registry = s.registry)
    (hd : s₁.freed = s.freed) : Quiet s s₁ :=
  ⟨⟨hh ▸ rfl, hr, hm, hc, hf, hp, fun _ => hh ▸ rfl, fun _ _ => hh ▸ rfl⟩, hg, hd⟩

theorem quiet_rebuildMounts : Quiet s s.rebuildMounts := quiet_of rfl rfl rfl rfl rfl rfl rfl rfl

theorem quiet_stopWorker : Quiet s (s.stopWorker a) :=
  (quiet_modify (f := ({ · with cleanup := true })) fun _ => ⟨rfl, rfl⟩).trans
    (quiet_of rfl rfl rfl rfl rfl rfl rfl rfl)

theorem quiet_setPhase {tid : ℕ} {p : Phase} : Quiet s (s.setPhase tid p) :=
  quiet_of rfl rfl rfl rfl rfl rfl rfl rfl

theorem quiet_finishWorker {w : Worker} : Quiet s (s.finishWorker w) := by
  rcases w with ⟨tid, r, _ | _ | _⟩ <;> dsimp only [finishWorker]
  · exact (quiet_modify (f := ({ · with running := true })) fun _ => ⟨rfl, rfl⟩).trans quiet_stopWorker
  · exact quiet_stopWorker
  · exact Quiet.rfl'

theorem quiet_join {tid : ℕ} : Quiet s (s.join tid) := by
  unfold join
  split
  · exact Quiet.rfl'
  · exact quiet_finishWorker.trans (quiet_of rfl rfl rfl rfl rfl rfl rfl rfl)

theorem quiet_spawn : Quiet s (s.spawn a) :=
  (quiet_modify (f := ({ · with thread := some s.nextTid })) fun _ => ⟨rfl, rfl⟩).trans
    (quiet_of rfl rfl rfl rfl rfl rfl rfl rfl)

theorem quiet_joinFinished : Quiet s (s.joinFinished a) := by
  unfold joinFinished
  dsimp only
  split
  · split_ifs
    · exact (quiet_join.trans (quiet_modify
        (f := ({ · with thread := none, cleanup := false, running := false })) fun _ => ⟨rfl, rfl⟩)).trans
        quiet_rebuildMounts
    · exact quiet_join.trans (quiet_modify
        (f := ({ · with thread := none, cleanup := false, running := false })) fun _ => ⟨rfl, rfl⟩)
    · exact Quiet.rfl'
  · exact Quiet.rfl'

theorem quiet_startRelay : Quiet s (s.startRelay a) := by
  unfold startRelay
  dsimp only
  split
  · exact quiet_joinFinished
  · split_ifs
    · exact quiet_joinFinished
    · exact quiet_rebuildMounts.trans quiet_spawn
    · exact quiet_rebuildMounts.trans quiet_joinFinished
    · exact quiet_spawn

theorem frame_modify {f : RelayServer → RelayServer} (hf : ∀ r, (f r).localmount = r.localmount) :
    Frame [a] s (s.modify a f) where
  top := rfl
  relays := rfl
  masterRelays := rfl
  config := rfl
  fetches := rfl
  pc := rfl
  names b := by by_cases hb : b = a <;> simp [modify, hb, hf]
  sources b hb := by
    have hba : b ≠ a := fun e => hb (e ▸ List.mem_singleton_self a)
    simp [modify, sourceAt, hba]

theorem frame_reserveSource : Frame [a] s (s.reserveSource a) ∧ (s.reserveSource a).freed = s.freed := by
  unfold reserveSource
  split
  · exact ⟨⟨rfl, rfl, rfl, rfl, rfl, rfl, (frame_modify (s := s) (a := a)
      (f := ({ · with source := some _ })) fun _ => rfl).names,
      (frame_modify (f := ({ · with source := some _ })) fun _ => rfl).sources⟩, rfl⟩
  · exact ⟨Frame.rfl', rfl⟩

theorem holds_reserveSource {L : List ℕ} (H : Holds s.heap s.registry L) (hL : L.Nodup) (ha : a ∈ L)
    (hs : sourceAt s.heap a = none) : Holds (s.reserveSource a).heap (s.reserveSource a).registry L := by
  unfold reserveSource
  split
  · next hd g hr => exact H.reserve hL ha hs hr
  · exact H

theorem frame_checkRelayStream :
    Frame [a] s (s.checkRelayStream a) ∧ (s.checkRelayStream a).freed = s.freed := by
  unfold checkRelayStream
  split_ifs
  · exact ⟨Frame.rfl', rfl⟩
  · obtain ⟨hf, hd⟩ := frame_reserveSource (s := s) (a := a)
    exact ⟨(hf.trans quiet_startRelay.frame).mono (by simp), quiet_startRelay.freed.trans hd⟩
  · exact ⟨quiet_startRelay.frame.mono (by simp), quiet_startRelay.freed⟩

theorem holds_checkRelayStream {L : List ℕ} (H : Holds s.heap s.registry L) (hL : L.Nodup)
    (ha : a ∈ L) : Holds (s.checkRelayStream a).heap (s.checkRelayStream a).registry L := by
  unfold checkRelayStream
  split_ifs with h₁ h₂
  · exact H
  · exact quiet_startRelay.holds (holds_reserveSource H hL ha h₂)
  · exact quiet_startRelay.holds H

theorem holds_relayFree {L : List ℕ} (H : Holds s.heap s.registry (a :: L)) :
    Holds (s.relayFree a).heap (s.relayFree a).registry L := by
  have := H.free
  unfold relayFree
  unfold sourceAt at this
  split <;> simp_all

theorem frame_relayFree : Frame [] s (s.relayFree a) ∧ (s.relayFree a).freed = a :: s.freed := by
  unfold relayFree
  split <;> exact ⟨⟨rfl, rfl, rfl, rfl, rfl, rfl, fun _ => rfl, fun _ _ => rfl⟩, rfl⟩

theorem quiet_freeRelay_pre :
    Quiet s (if (s.heap.cells a).source ≠ none ∧ (s.heap.cells a).running then
      (match (s.heap.cells a).thread with
        | some tid => s.join tid
        | none => s).rebuildMounts
    else s) := by
  split_ifs
  · split
    · exact quiet_join.trans quiet_rebuildMounts
    · exact quiet_rebuildMounts
  · exact Quiet.rfl'

theorem freeRelay_frame : Frame [] s (s.freeRelay a) ∧ (s.freeRelay a).freed = a :: s.freed := by
  have hq := quiet_freeRelay_pre (s := s) (a := a)
  obtain ⟨hf, hd⟩ := frame_relayFree (s := _) (a := a)
  exact ⟨hq.frame.trans hf, hd.trans (by rw [hq.freed])⟩

theorem holds_freeRelay {L : List ℕ} (H : Holds s.heap s.registry (a :: L)) :
    Holds (s.freeRelay a).heap (s.freeRelay a).registry L :=
  holds_relayFree (quiet_freeRelay_pre.holds H)

theorem relayCheckStreams_frame (s : Sys) (toStart toFree : List ℕ) :
    Frame toStart s (s.relayCheckStreams toStart toFree) ∧
      (s.relayCheckStreams toStart toFree).freed = toFree.reverse ++ s.freed := by
  have hfree : ∀ (l : List ℕ) (s : Sys), Frame [] s (l.foldl freeRelay s) ∧
      (l.foldl freeRelay s).freed = l.reverse ++ s.freed := by
    intro l
    induction l with
    | nil => exact fun _ => ⟨Frame.rfl', rfl⟩
    | cons a rest ih =>
      intro s
      obtain ⟨hf₁, hd₁⟩ := freeRelay_frame (s := s) (a := a)
      obtain ⟨hf₂, hd₂⟩ := ih (s.freeRelay a)
      exact ⟨hf₁.trans hf₂, by simp [hd₂, hd₁]⟩
  have hcheck : ∀ (l : List ℕ) (s : Sys), Frame l s (l.foldl checkRelayStream s) ∧
      (l.foldl checkRelayStream s).freed = s.freed := by
    intro l
    induction l with
    | nil => exact fun _ => ⟨Frame.rfl', rfl⟩
    | cons a rest ih =>
      intro s
      obtain ⟨hf₁, hd₁⟩ := frame_checkRelayStream (s := s) (a := a)
      obtain ⟨hf₂, hd₂⟩ := ih (s.checkRelayStream a)
      exact ⟨hf₁.trans hf₂, hd₂.trans hd₁⟩
  obtain ⟨hf₁, hd₁⟩ := hfree toFree s
  obtain ⟨hf₂, hd₂⟩ := hcheck toStart (toFree.foldl freeRelay s)
  exact ⟨hf₁.trans hf₂, hd₂.trans hd₁⟩

/-- `relay_check_streams` frees `toFree`, releasing their sources, and keeps the registry in
agreement with the other records. -/
theorem relayCheckStreams_holds {toStart toFree L : List ℕ} (H : Holds s.heap s.registry (toFree ++ L))
    (hL : L.Nodup) (hsub : ∀ a ∈ toStart, a ∈ L) :
    Holds (s.relayCheckStreams toStart toFree).heap (s.relayCheckStreams toStart toFree).registry L := by
  have hfree : ∀ (l : List ℕ) (s : Sys), Holds s.heap s.registry (l ++ L) →
      Holds (l.foldl freeRelay s).heap (l.foldl freeRelay s).registry L := by
    intro l
    induction l with
    | nil => exact fun _ H => H
    | cons a rest ih => exact fun s H => ih _ (holds_freeRelay H)
  have hcheck : ∀ (l : List ℕ) (s : Sys), Holds s.heap s.registry L → (∀ a ∈ l, a ∈ L) →
      Holds (l.foldl checkRelayStream s).heap (l.foldl checkRelayStream s).registry L := by
    intro l
    induction l with
    | nil => exact fun _ H _ => H
    | cons a rest ih =>
      exact fun s H hs => ih _ (holds_checkRelayStream H hL (hs a (List.mem_cons_self a rest)))
        fun b hb => hs b (List.mem_cons_of_mem a hb)
  exact hcheck toStart _ (hfree toFree s H) hsub

theorem relayCheckStreams_spec {toStart toFree L : List ℕ} (H : Holds s.heap s.registry (toFree ++ L))
    (hL : L.Nodup) (hsub : ∀ a ∈ toStart, a ∈ L) :
    Holds (s.relayCheckStreams toStart toFree).heap (s.relayCheckStreams toStart toFree).registry L ∧
      Frame toStart s (s.relayCheckStreams toStart toFree) ∧
      (s.relayCheckStreams toStart toFree).freed = toFree.reverse ++ s.freed :=
  ⟨relayCheckStreams_holds H hL hsub, relayCheckStreams_frame s toStart toFree⟩

/-- The records that can hold a source: `global.relays`, `global.master_relays` and the
configuration's `<relay>` records. -/
def live (s : Sys) : List ℕ := s.relays ++ s.masterRelays ++ s.config.relay

theorem live_perm (s : Sys) : List.Perm s.live (s.relays ++ s.config.relay ++ s.masterRelays) := by
  simpa only [Sys.live, List.append_assoc] using List.perm_append_comm.append_left s.relays

/-- What one event can do: a supervisor turn, the end of a turn, thread bookkeeping, a fetch's
parse, a fetch's completion, or a reload. -/
theorem next_cases {s s' : Sys} {e : Event} (h : s.next e = some s') :
    (s.pc = .top ∧ s' = s.tick) ∨ (s.pc = .clear ∧ s' = s.clear) ∨ Quiet s s' ∨
    (∃ tid f, (∀ m : MasterConnDetails, (∀ r ∈ m.newRelays, r.source = none) →
        ∀ r ∈ (f m).newRelays, r.source = none) ∧ s' = s.setFetch tid f) ∨
    (∃ tid, ∃ f ∈ s.fetches, s' =
      let s₁ := if f.master.ok ≠ 0 then s.commit f.master else s
      { s₁ with fetches := s₁.fetches.filter (·.tid ≠ tid) }) ∨
    (∃ relays settings, s' = s.reload relays settings) := by
  cases e with
  | tick =>
    simp only [next, Option.ite_none_right_eq_some, Option.some.injEq] at h
    exact .inl ⟨h.1, h.2.symm⟩
  | clear =>
    simp only [next, Option.ite_none_right_eq_some, Option.some.injEq] at h
    exact .inr (.inl ⟨h.1, h.2.symm⟩)
  | start tid =>
    simp only [next] at h
    split at h
    · split_ifs at h
      cases h
      exact .inr (.inr (.inl ((quiet_modify (f := ({ · with running := true }))
        fun _ => ⟨rfl, rfl⟩).trans quiet_setPhase)))
    · cases h
  | stop tid =>
    simp only [next] at h
    split at h
    · split_ifs at h
      cases h
      exact .inr (.inr (.inl (quiet_stopWorker.trans quiet_setPhase)))
    · cases h
  | header tid =>
    simp only [next, Option.ite_none_right_eq_some, Option.some.injEq] at h
    exact .inr (.inr (.inr (.inl ⟨tid, ({ · with ok := 1 }), fun _ hm => hm, h.2.symm⟩)))
  | data tid chunk =>
    simp only [next, Option.ite_none_right_eq_some, Option.some.injEq] at h
    refine .inr (.inr (.inr (.inl ⟨tid, _, fun m hm r hr => ?_, h.2.symm⟩)))
    obtain ⟨l, hl, hs⟩ := streamlistData_newRelays m chunk
    rw [hl] at hr
    rcases List.mem_append.1 hr with hr | hr
    · exact hs r hr
    · exact hm r hr
  | done tid =>
    simp only [next] at h
    split at h
    · next f hf =>
      exact .inr (.inr (.inr (.inr (.inl ⟨tid, f, List.mem_of_find?_eq_some hf,
        (Option.some.inj h).symm⟩))))
    · cases h
  | reload relays settings =>
    exact .inr (.inr (.inr (.inr (.inr ⟨relays, settings, (Option.some.inj h).symm⟩))))
  | rescanRequest | recheck | rebuild | demand | slaveRequest | shutdown =>
    cases h
    exact .inr (.inr (.inl (quiet_of rfl rfl rfl rfl rfl rfl rfl rfl)))

end Sys

/-- What holds until the shutdown pass: freed and live records are distinct allocated records, and
the live ones hold exactly the registry's handles. -/
structure SysInv (s : Sys) : Prop where
  linked : Linked s.heap (s.freed ++ s.live)
  holds : Holds s.heap s.registry s.live
  templates : ∀ a ∈ s.config.relay, sourceAt s.heap a = none
  news : ∀ f ∈ s.fetches, ∀ r ∈ f.master.newRelays, r.source = none

namespace SysInv

variable {s s' : Sys}

theorem init : SysInv Sys.init where
  linked := ⟨List.nodup_nil, by simp [Sys.init, Sys.live]⟩
  holds := ⟨by simp [Sys.init, Sys.live], List.nodup_nil, by simp [Sys.init, Sys.live],
    by simp [Sys.init]⟩
  templates := by simp [Sys.init]
  news := by simp [Sys.init]

theorem live_eq {t : List ℕ} (hf : Sys.Frame t s s') : s'.live = s.live := by
  simp only [Sys.live, hf.relays, hf.masterRelays, hf.config]

theorem of_frame (hi : SysInv s) {t : List ℕ} (hf : Sys.Frame t s s')
    (ht : ∀ a ∈ t, a ∈ s.relays ++ s.masterRelays) (H : Holds s'.heap s'.registry s.live)
    (hd : s'.freed = s.freed) : SysInv s' where
  linked := by rw [live_eq hf, hd]; exact hi.linked.mono hf.top.ge
  holds := by rw [live_eq hf]; exact H
  templates a ha := by
    rw [hf.config] at ha
    have hnot : a ∉ t := fun hat => by
      have hn := (List.nodup_append.1 hi.linked.1).2.1
      exact List.disjoint_of_nodup_append hn (ht a hat) (by simpa [Sys.live] using ha)
    rw [hf.sources a hnot]; exact hi.templates a ha
  news := by rw [hf.fetches]; exact hi.news

theorem quiet (hi : SysInv s) (hq : Sys.Quiet s s') : SysInv s' :=
  hi.of_frame hq.frame (by simp) (hq.holds hi.holds) hq.freed

theorem rescan (hi : SysInv s) : SysInv s.rescan := by
  have hL := (List.nodup_append.1 hi.linked.1).2.1
  obtain ⟨H₁, hf₁, hd₁⟩ := @Sys.relayCheckStreams_spec s s.masterRelays [] s.live hi.holds hL
    (fun a ha => by simp [Sys.live, ha])
  set s₁ := s.relayCheckStreams s.masterRelays []
  have hl₁ : s₁.live = s.live := live_eq hf₁
  obtain ⟨H₂, hf₂, hd₂⟩ := @Sys.relayCheckStreams_spec s₁ s₁.relays [] s₁.live
    (by show Holds _ _ s₁.live; rw [hl₁]; exact H₁) (hl₁ ▸ hL) (fun a ha => by simp [Sys.live, ha])
  show SysInv (s₁.relayCheckStreams s₁.relays [])
  refine hi.of_frame (hf₁.trans hf₂) (fun a ha => ?_) (by rw [← hl₁]; exact H₂) ?_
  · rcases List.mem_append.1 ha with ha | ha
    · simp [ha]
    · simp [← hf₁.relays, ha]
  · rw [hd₂, hd₁]; rfl

/-- `update_relays (&C, U)` then `relay_check_streams (new list, cleanup list)`: the new list, `U`
and the other records `O` are live, and the cleanup list is freed. -/
theorem reconcile {s s₁ : Sys} {C U O : List ℕ} (hl : Linked s.heap (s.freed ++ (C ++ U ++ O)))
    (H : Holds s.heap s.registry (C ++ U ++ O)) (hU : ∀ d ∈ U, sourceAt s.heap d = none)
    (hh : s₁.heap = (updateRelays s.heap C U).heap) (hg : s₁.registry = s.registry)
    (hd : s₁.freed = s.freed) :
    let u := updateRelays s.heap C U
    let s₂ := s₁.relayCheckStreams u.active u.cleanup
    Linked s₂.heap (s₂.freed ++ (u.active ++ U ++ O)) ∧ Holds s₂.heap s₂.registry (u.active ++ U ++ O) ∧
      Sys.Frame u.active s₁ s₂ ∧ ∀ a ∈ U ++ O, sourceAt s₂.heap a = sourceAt s.heap a := by
  intro u s₂
  have hl₀ : Linked s.heap (C ++ U ++ (O ++ s.freed)) :=
    hl.perm (List.perm_append_comm.trans (.of_eq (by simp)))
  have hCU : Linked s.heap (C ++ U) := hl₀.sublist (by simp)
  have hL := updateRelays_linked hl₀ hU
  have hH := updateRelays_holds (hl₀.sublist (by simp)) H hU
  have hnd : (u.active ++ U ++ O).Nodup :=
    hL.1.sublist (by simpa only [List.append_assoc] using
      (List.sublist_append_right u.cleanup _).trans (by simp))
  obtain ⟨H₂, hf, hfd⟩ := @Sys.relayCheckStreams_spec s₁ u.active u.cleanup (u.active ++ U ++ O)
    (by rw [hh, hg]; simpa only [List.append_assoc] using hH) hnd (fun a ha => by simp [ha])
  refine ⟨?_, H₂, hf, fun a ha => ?_⟩
  · rw [hfd, hd]
    refine (hL.mono (by rw [hf.top, hh])).perm ?_
    calc List.Perm (u.cleanup ++ u.active ++ U ++ (O ++ s.freed))
          (u.cleanup ++ ((u.active ++ U ++ O) ++ s.freed)) := .of_eq (by simp)
      List.Perm _ (u.cleanup ++ (s.freed ++ (u.active ++ U ++ O))) :=
          List.perm_append_comm.append_left _
      List.Perm _ (u.cleanup.reverse ++ (s.freed ++ (u.active ++ U ++ O))) :=
          (List.reverse_perm _).symm.append_right _
      _ = _ := by simp
  · have hnA : a ∉ u.active := fun hA =>
      List.disjoint_of_nodup_append (by simpa only [List.append_assoc] using hnd) hA ha
    rw [hf.sources a hnA, hh]
    exact (updateRelays_old hCU hU (hl.2 a (List.mem_append_right _ (by rw [List.append_assoc]; exact List.mem_append_right _ ha)))).1

theorem updateFromMaster_newRelays {c : MasterSettings} {m : MasterConnDetails}
    (h : updateFromMaster c = some m) : m.newRelays = [] := by
  unfold updateFromMaster at h
  split at h
  · split_ifs at h; cases h; rfl
  · cases h

theorem refreshMaster (hi : SysInv s) : SysInv s.refreshMaster := by
  unfold Sys.refreshMaster
  dsimp only
  split
  · next m hm =>
    exact ⟨hi.linked, hi.holds, hi.templates, fun f hf r hr => by
      rcases List.mem_cons.1 hf with rfl | hf
      · simp [updateFromMaster_newRelays hm] at hr
      · exact hi.news f hf r hr⟩
  · exact ⟨hi.linked, hi.holds, hi.templates, hi.news⟩

theorem refreshRelays (hi : SysInv s) : SysInv s.refreshRelays := by
  have hperm := s.live_perm
  obtain ⟨hL, H, hf, hsrc⟩ := @reconcile s { s with
      heap := (updateRelays s.heap s.relays s.config.relay).heap
      relays := (updateRelays s.heap s.relays s.config.relay).active }
    s.relays s.config.relay s.masterRelays
    (hi.linked.perm (hperm.append_left _)) (hi.holds.perm hperm) hi.templates rfl rfl rfl
  have hperm' : List.Perm ((updateRelays s.heap s.relays s.config.relay).active ++ s.config.relay ++
      s.masterRelays) (Sys.live (Sys.refreshRelays s)) := by
    simpa only [Sys.live, Sys.refreshRelays, hf.relays, hf.masterRelays, hf.config, List.append_assoc]
      using List.perm_append_comm.append_left _
  exact ⟨hL.perm (hperm'.append_left _), H.perm hperm',
    fun a ha => by
      rw [show (Sys.refreshRelays s).config = s.config from hf.config] at ha
      rw [Sys.refreshRelays, hsrc a (by simp [ha])]; exact hi.templates a ha,
    by rw [Sys.refreshRelays, hf.fetches]; exact hi.news⟩

theorem fullRefresh (hi : SysInv s) : SysInv s.fullRefresh := hi.refreshMaster.refreshRelays

theorem commit_lists (hi : SysInv s) {m : MasterConnDetails} (hm : ∀ r ∈ m.newRelays, r.source = none) :
    let p := allocRelays s.heap m.newRelays
    Linked p.1 (s.freed ++ (s.masterRelays ++ p.2 ++ (s.relays ++ s.config.relay))) ∧
      Holds p.1 s.registry (s.masterRelays ++ p.2 ++ (s.relays ++ s.config.relay)) ∧
      ∀ a ∈ p.2, sourceAt p.1 a = none := by
  intro p
  have hperm₀ : List.Perm (p.2 ++ s.live) (s.masterRelays ++ p.2 ++ (s.relays ++ s.config.relay)) :=
    List.perm_iff_count.2 fun x => by simp only [Sys.live, List.count_append]; omega
  exact ⟨hi.linked.allocRelays.perm (by simpa only [List.append_assoc] using
      (List.perm_append_comm.trans hperm₀).append_left s.freed),
    (hi.holds.allocRelays (fun a ha => hi.linked.2 a (List.mem_append_right _ ha)) hm).perm hperm₀,
    fun a ha => hm _ (allocRelays_mem ha)⟩

theorem commit (hi : SysInv s) {m : MasterConnDetails} (hm : ∀ r ∈ m.newRelays, r.source = none) :
    SysInv (s.commit m) := by
  obtain ⟨hl₀, H₀, hNs⟩ := hi.commit_lists hm
  set N := (allocRelays s.heap m.newRelays).2
  set h₁ := (allocRelays s.heap m.newRelays).1
  have hold : ∀ a < s.heap.top, h₁.cells a = s.heap.cells a := fun a ha => allocRelays_old ha
  obtain ⟨hL, H, hf, hsrc⟩ := @reconcile { s with heap := h₁ } { s with
      heap := (updateRelays h₁ s.masterRelays N).heap
      masterRelays := (updateRelays h₁ s.masterRelays N).active }
    s.masterRelays N (s.relays ++ s.config.relay) hl₀ H₀ hNs rfl rfl rfl
  set A := (updateRelays h₁ s.masterRelays N).active
  set s₂ := Sys.relayCheckStreams { s with
      heap := (updateRelays h₁ s.masterRelays N).heap
      masterRelays := A } A (updateRelays h₁ s.masterRelays N).cleanup
  have hperm₁ : List.Perm (A ++ N ++ (s.relays ++ s.config.relay)) (N ++ (s.relays ++ A ++ s.config.relay)) :=
    List.perm_iff_count.2 fun x => by simp only [List.count_append]; omega
  have hnd : (s.relays ++ A ++ s.config.relay).Nodup :=
    ((List.nodup_append.1 (hL.1.perm (hperm₁.append_left _))).2.1.sublist (by simp))
  obtain ⟨H₃, hf₃, hd₃⟩ := @Sys.relayCheckStreams_spec s₂ [] N (s.relays ++ A ++ s.config.relay)
    (H.perm hperm₁) hnd (by simp)
  have hlive : (s.commit m).live = s.relays ++ A ++ s.config.relay := by
    simp only [Sys.live, Sys.commit, hf₃.relays, hf₃.masterRelays, hf₃.config, hf.relays,
      hf.masterRelays, hf.config]
  refine ⟨?_, ?_, fun a ha => ?_, ?_⟩
  · rw [hlive, show (s.commit m).freed = _ from hd₃]
    refine (hL.mono (by rw [← hf₃.top]; rfl)).perm
      (List.perm_iff_count.2 fun x => by simp only [List.count_append, List.count_reverse]; omega)
  · rw [hlive]; exact H₃
  · have hT : (s.commit m).config = s.config := by
      rw [show (s.commit m).config = s₂.config from hf₃.config, hf.config]
    rw [hT] at ha
    rw [show sourceAt (s.commit m).heap a = sourceAt s₂.heap a from hf₃.sources a (by simp),
      hsrc a (by simp [ha])]
    simp only [sourceAt, hold a (hi.linked.2 a (by simp [Sys.live, ha]))]
    exact hi.templates a ha
  · rw [show (s.commit m).fetches = s₂.fetches from hf₃.fetches, hf.fetches]; exact hi.news

theorem reload (hi : SysInv s) (relays : List RelayConfig) (settings : MasterSettings) :
    SysInv (s.reload relays settings) := by
  have hrs : ∀ r ∈ relays.map RelayConfig.toRelay, r.source = none := by
    intro r hr
    obtain ⟨c, -, rfl⟩ := List.mem_map.1 hr
    rfl
  have hl : Linked s.heap (s.freed ++ (s.relays ++ s.masterRelays)) :=
    hi.linked.sublist (by simp [Sys.live])
  have H : Holds s.heap s.registry (s.relays ++ s.masterRelays) :=
    (hi.holds.perm List.perm_append_comm).of_append_none hi.templates
  refine ⟨?_, ?_, fun a ha => hrs _ (allocRelays_mem ha), hi.news⟩
  · simpa only [Sys.reload, Sys.live, List.append_assoc] using
      @Linked.allocRelays _ _ (relays.map RelayConfig.toRelay) hl
  · exact (H.allocRelays (fun a ha => hl.2 a (List.mem_append_right _ ha)) hrs).perm
      List.perm_append_comm

theorem withFetches (hi : SysInv s) (fs : List Fetch)
    (hfs : ∀ f ∈ fs, ∀ r ∈ f.master.newRelays, r.source = none) : SysInv { s with fetches := fs } :=
  ⟨hi.linked, hi.holds, hi.templates, hfs⟩

theorem setFetch (hi : SysInv s) {tid : ℕ} {f : MasterConnDetails → MasterConnDetails}
    (hf : ∀ m : MasterConnDetails, (∀ r ∈ m.newRelays, r.source = none) →
      ∀ r ∈ (f m).newRelays, r.source = none) : SysInv (s.setFetch tid f) := by
  refine hi.withFetches _ fun x hx => ?_
  obtain ⟨y, hy, rfl⟩ := List.mem_map.1 hx
  split_ifs
  · exact hf y.master (hi.news y hy)
  · exact hi.news y hy

theorem with_pc (hi : SysInv s) (p : Pc) : SysInv { s with pc := p } :=
  ⟨hi.linked, hi.holds, hi.templates, hi.news⟩

theorem with_interval (hi : SysInv s) (n : ℕ) : SysInv { s with interval := n } :=
  ⟨hi.linked, hi.holds, hi.templates, hi.news⟩

/-- Every step that does not end the supervisor keeps the invariant. -/
theorem step (hi : SysInv s) {e : Event} (h : s.next e = some s') (hpc : s'.pc ≠ .exited) :
    SysInv s' := by
  rcases Sys.next_cases h with ⟨-, rfl⟩ | ⟨-, rfl⟩ | hq | ⟨tid, f, hf, rfl⟩ | ⟨tid, f, hf, rfl⟩ |
    ⟨relays, settings, rfl⟩
  · rcases s.tick_cases with ⟨-, he⟩ | ⟨-, -, -, he⟩ | ⟨-, -, he⟩ | ⟨-, -, -, he⟩ <;> rw [he] at hpc ⊢
    · exact absurd rfl hpc
    · exact hi.with_interval _
    · exact ((hi.with_interval _).fullRefresh).with_pc _
    · exact hi.rescan.with_pc _
  · exact ⟨hi.linked, hi.holds, hi.templates, hi.news⟩
  · exact hi.quiet hq
  · exact hi.setFetch hf
  · have hc : SysInv (if f.master.ok ≠ 0 then s.commit f.master else s) := by
      split_ifs
      · exact hi.commit (hi.news f hf)
      · exact hi
    exact hc.withFetches _ fun x hx => hc.news x (List.mem_filter.1 hx).1
  · exact hi.reload relays settings

end SysInv

namespace Sys

variable {s s' : Sys}

theorem commit_pc (m : MasterConnDetails) : (s.commit m).pc = s.pc := by
  unfold commit
  rw [(relayCheckStreams_frame _ _ _).1.pc, (relayCheckStreams_frame _ _ _).1.pc]

theorem next_exited (hpc : s.pc = .exited) {e : Event} (h : s.next e = some s') :
    s'.pc = .exited := by
  rcases next_cases h with ⟨h', -⟩ | ⟨h', -⟩ | hq | ⟨-, -, -, rfl⟩ | ⟨-, f, -, rfl⟩ | ⟨-, -, rfl⟩
  · cases hpc.symm.trans h'
  · cases hpc.symm.trans h'
  · exact hq.frame.pc.trans hpc
  · exact hpc
  · dsimp only
    split_ifs <;> simp only [commit_pc, hpc]
  · exact hpc

end Sys

/-- Every state reachable before the shutdown pass satisfies the invariant. -/
theorem Reachable.sysInv {s : Sys} (hs : Reachable s) (hpc : s.pc ≠ .exited) : SysInv s := by
  induction hs with
  | init => exact SysInv.init
  | step e _ h ih => exact (ih fun hx => hpc (Sys.next_exited hx h)).step h hpc

/-- Source-reservation integrity: no two records hold one handle, every held handle is reserved
under its holder's mountpoint, every reservation has exactly one holder, and parsed records hold
nothing. -/
structure SourceIntegrity (s : Sys) : Prop where
  unique : ∀ a ∈ s.live, ∀ b ∈ s.live, ∀ hd,
    sourceAt s.heap a = some hd → sourceAt s.heap b = some hd → a = b
  reserved : ∀ a ∈ s.live, ∀ hd,
    sourceAt s.heap a = some hd → (hd, (s.heap.cells a).localmount) ∈ s.registry.entries
  held : ∀ e ∈ s.registry.entries, ∃! a, a ∈ s.live ∧ sourceAt s.heap a = some e.1
  fetched : ∀ f ∈ s.fetches, ∀ r ∈ f.master.newRelays, r.source = none

theorem SysInv.sourceIntegrity {s : Sys} (hi : SysInv s) : SourceIntegrity s where
  unique a ha b hb _ hsa hsb :=
    hi.holds.unique (List.nodup_append.1 hi.linked.1).2.1 ha hb hsa hsb
  reserved := hi.holds.names
  held e he := by
    obtain ⟨a, ha, hsa⟩ := hi.holds.holder he
    exact ⟨a, ⟨ha, hsa⟩, fun b ⟨hb, hsb⟩ =>
      hi.holds.unique (List.nodup_append.1 hi.linked.1).2.1 hb ha hsb hsa⟩
  fetched := hi.news

theorem SysInv.freed_nodup_disjoint {s : Sys} (hi : SysInv s) :
    s.freed.Nodup ∧ ∀ a ∈ s.live, a ∉ s.freed :=
  ⟨(List.nodup_append.1 hi.linked.1).1, fun _ ha hf => List.disjoint_of_nodup_append hi.linked.1 hf ha⟩

theorem source_reservations {s : Sys} (hs : Reachable s) (hpc : s.pc ≠ .exited) :
    SourceIntegrity s :=
  (hs.sysInv hpc).sourceIntegrity

theorem source_reservations_sample :
    ((Sys.init.run [.reload [Sample.relayA] (Sample.standalone 2), .tick]).getD Sys.init).pc ≠ .exited ∧
      SourceIntegrity ((Sys.init.run [.reload [Sample.relayA] (Sample.standalone 2), .tick]).getD Sys.init) :=
  ⟨by decide, source_reservations (reachable_run_getD _) (by decide)⟩

end IcecastRelay

import IcecastRelay.UpdateRelays

/-! # Reload laws of the reconciler

Which records a configuration reload keeps, stops and starts afresh, and that reconciling twice
against the same list changes nothing more. -/
namespace IcecastRelay

section Keep

variable {h₀ : Heap} {C done todo : List ℕ} {d : ℕ} {s : SetState}

/-- With distinct local mounts in `C`, a record of `C` stays current until an updated record with
its key comes, and the first such record gives it its `on_demand`. -/
structure KeepInv (h₀ : Heap) (C done : List ℕ) (s : SetState) : Prop where
  mem_current : ∀ e ∈ C, e ∈ s.current ↔ ∀ d ∈ done, (h₀.cells d).key ≠ (h₀.cells e).key
  kept_cell : ∀ e ∈ C, e ∉ s.current → ∃ d,
    done.find? (fun d => (h₀.cells d).key = (h₀.cells e).key) = some d ∧
      s.heap.cells e = { h₀.cells e with onDemand := (h₀.cells d).onDemand }

theorem eq_of_key_eq {l : List ℕ} (hn : (l.map fun e => (h₀.cells e).localmount).Nodup)
    {a b : ℕ} (ha : a ∈ l) (hb : b ∈ l) (hk : (h₀.cells a).key = (h₀.cells b).key) : a = b :=
  List.inj_on_of_nodup_map hn ha hb (congrArg Prod.fst hk)

theorem find?_append_of_eq_some {l : List ℕ} {p : ℕ → Bool} {x : ℕ} (hx : l.find? p = some x)
    (d : ℕ) : (l ++ [d]).find? p = some x := by
  rw [List.find?_append, hx]; rfl

theorem keepInv_step (hl : Linked h₀ (C ++ (done ++ d :: todo)))
    (hC : (C.map fun e => (h₀.cells e).localmount).Nodup)
    (hp : PassInv h₀ C done s) (hk : KeepInv h₀ C done s) :
    KeepInv h₀ C (done ++ [d]) (updateRelayStep s d) := by
  obtain ⟨hd_top, hdC, -, -, hCU, hd_cells⟩ := linked_turn hl hp
  have hcur : ∀ x ∈ s.current, s.heap.cells x = h₀.cells x ∧ x ∈ C := fun x hx =>
    have hxC := hp.current_sublist.subset hx
    ⟨hp.frame x (hl.2 x (List.mem_append_left _ hxC))
      (List.disjoint_of_nodup_append hp.nodup hx) (hCU x hxC).1, hxC⟩
  rcases updateRelayStep_cases s d with ⟨pre, e₀, post, hc, -, hkey, heq⟩ | ⟨hnone, heq⟩
  · rw [heq]
    have he₀ := hcur e₀ (by simp [hc])
    rw [he₀.1, hd_cells] at hkey
    have hnd : (pre ++ e₀ :: post).Nodup := hc ▸ hp.nodup.of_append_left
    have he₀pp : e₀ ∉ pre ++ post := (List.nodup_cons.1 (List.nodup_middle.1 hnd)).1
    have hmem : ∀ e, e ∈ pre ++ post ↔ e ∈ s.current ∧ e ≠ e₀ := fun e => by
      rw [hc]
      refine ⟨fun h => ⟨((List.sublist_cons_self e₀ post).append_left pre).subset h,
        by rintro rfl; exact he₀pp h⟩, fun ⟨h, hne⟩ => ?_⟩
      rcases List.mem_append.1 h with h | h
      · exact List.mem_append_left _ h
      · exact List.mem_append_right _ ((List.mem_cons.1 h).resolve_left hne)
    have hfind : done.find? (fun d => (h₀.cells d).key = (h₀.cells e₀).key) = none :=
      List.find?_eq_none.2 fun x hx => by simpa using (hk.mem_current e₀ he₀.2).1 (by simp [hc]) x hx
    constructor
    · intro e he
      rw [hmem, hk.mem_current e he]
      simp only [List.mem_append, List.mem_singleton, forall_eq_or_imp, or_imp, forall_and,
        forall_eq]
      exact and_congr_right fun _ => ⟨fun hne hk' => hne (eq_of_key_eq hC he₀.2 he
        (hkey.trans hk')).symm, fun hne h => by subst h; exact hne hkey.symm⟩
    · intro e he hne
      by_cases hee : e = e₀
      · subst hee
        refine ⟨d, ?_, by simp [he₀.1, hd_cells]⟩
        rw [List.find?_append, hfind]; simp [hkey]
      · have hnc : e ∉ s.current := fun h => hne ((hmem e).2 ⟨h, hee⟩)
        obtain ⟨d', hd', hcell⟩ := hk.kept_cell e he hnc
        exact ⟨d', find?_append_of_eq_some hd' d, by simp [hee, hcell]⟩
  · rw [heq]
    constructor
    · intro e he
      rw [hk.mem_current e he]
      simp only [List.mem_append, List.mem_singleton, or_imp, forall_and, forall_eq]
      refine ⟨fun h => ⟨h, fun hkd => ?_⟩, fun h => h.1⟩
      have hec : e ∈ s.current := (hk.mem_current e he).2 h
      exact hnone e hec (by rw [(hcur e hec).1, hd_cells, hkd])
    · intro e he hne
      obtain ⟨d', hd', hcell⟩ := hk.kept_cell e he hne
      have hed : e ≠ d := by rintro rfl; exact hdC he
      have het : e ≠ s.heap.top := by
        have := hl.2 e (List.mem_append_left _ he); have := hp.top_le; omega
      exact ⟨d', find?_append_of_eq_some hd' d, by simp [relayCopy_cells, hed, het, hcell]⟩

def CopyInv (h₀ : Heap) (C done : List ℕ) (s : SetState) : Prop :=
  ∀ d ∈ done, (∃ a ∈ s.newList, h₀.top ≤ a ∧ s.heap.cells a = (h₀.cells d).copy) →
    ∀ e ∈ C, (h₀.cells e).key ≠ (h₀.cells d).key

theorem PassInv.fresh_copy (hp : PassInv h₀ C done s) (hC : ∀ e ∈ C, e < h₀.top) {a : ℕ}
    (ha : a ∈ s.newList) (hat : h₀.top ≤ a) : ∃ d ∈ done, s.heap.cells a = (h₀.cells d).copy := by
  obtain ⟨d, hd, hout⟩ := forall₂_exists_of_mem_left hp.outcome ha
  rcases hout with ⟨haC, -⟩ | ⟨-, hcell⟩
  · exact absurd (hC a haC) (Nat.not_lt.2 hat)
  · exact ⟨d, List.mem_reverse.1 hd, hcell⟩

theorem copyInv_step (hl : Linked h₀ (C ++ (done ++ d :: todo)))
    (hU : ((done ++ d :: todo).map fun d => (h₀.cells d).localmount).Nodup)
    (hp : PassInv h₀ C done s) (hk : KeepInv h₀ C done s) (hci : CopyInv h₀ C done s) :
    CopyInv h₀ C (done ++ [d]) (updateRelayStep s d) := by
  obtain ⟨hd_top, -, hd_done, hdN, hCU, hd_cells⟩ := linked_turn hl hp
  have hC : ∀ e ∈ C, e < h₀.top := fun e he => hl.2 e (List.mem_append_left _ he)
  -- an earlier updated record has another local mount, hence another copy and key
  have hd_ne : ∀ d' ∈ done, (h₀.cells d').localmount ≠ (h₀.cells d).localmount := fun d' hd' heq =>
    hd_done (List.inj_on_of_nodup_map hU (by simp [hd']) (by simp) heq ▸ hd')
  rcases updateRelayStep_cases s d with ⟨pre, e₀, post, hc, -, -, heq⟩ | ⟨hnone, heq⟩
  · rw [heq]
    have he₀ : e₀ < h₀.top := hC e₀ (hp.current_sublist.subset (by simp [hc]))
    rintro d' hd' ⟨a, ha, hat, hcell⟩
    have hae : a ≠ e₀ := by omega
    have haN : a ∈ s.newList := by simpa [hae] using ha
    simp only [Heap.set_cells, hae, if_false] at hcell
    rcases List.mem_append.1 hd' with hd' | hd'
    · exact hci d' hd' ⟨a, haN, hat, hcell⟩
    · obtain rfl := List.mem_singleton.1 hd'
      obtain ⟨d'', hd'', hcell'⟩ := hp.fresh_copy hC haN hat
      exact absurd (congrArg RelayServer.localmount (hcell'.symm.trans hcell)) (hd_ne d'' hd'')
  · rw [heq]
    rintro d' hd' ⟨a, ha, hat, hcell⟩ e he hkey
    rcases List.mem_append.1 hd' with hd' | hd'
    · rcases List.mem_cons.1 ha with rfl | haN
      · have := hp.top_le
        rw [relayCopy_cells, if_neg (by omega), if_pos rfl, hd_cells] at hcell
        exact hd_ne d' hd' (congrArg RelayServer.localmount hcell).symm
      · have had : a ≠ d := fun h => hdN (h ▸ haN)
        have hat' : a ≠ s.heap.top := fun h => lt_irrefl s.heap.top (hp.below_top _ (h ▸ haN))
        rw [relayCopy_cells, if_neg had, if_neg hat'] at hcell
        exact hci d' hd' ⟨a, haN, hat, hcell⟩ e he hkey
    · obtain rfl := List.mem_singleton.1 hd'
      by_cases hec : e ∈ s.current
      · have he_cells : s.heap.cells e = h₀.cells e :=
          hp.frame e (hC e he) (List.disjoint_of_nodup_append hp.nodup hec) (hCU e he).1
        exact hnone e hec (by rw [he_cells, hd_cells, hkey])
      · obtain ⟨x, hx, hxk⟩ : ∃ x ∈ done, (h₀.cells x).key = (h₀.cells e).key := by
          by_contra hno
          push_neg at hno
          exact hec ((hk.mem_current e he).2 hno)
        exact hd_ne x hx (congrArg Prod.fst (hxk.trans hkey))

theorem keepInv_init : KeepInv h₀ C [] ⟨h₀, C, []⟩ :=
  ⟨fun e he => by simpa using he, fun e he hne => absurd he hne⟩

theorem keepInv_run (hl : Linked h₀ (C ++ (done ++ todo)))
    (hC : (C.map fun e => (h₀.cells e).localmount).Nodup)
    (hp : PassInv h₀ C done s) (hk : KeepInv h₀ C done s) :
    KeepInv h₀ C (done ++ todo) (todo.foldl updateRelayStep s) := by
  induction todo generalizing done s with
  | nil => simpa using hk
  | cons d todo ih =>
    simpa using ih (by simpa using hl) (passInv_step hl hp) (keepInv_step hl hC hp hk)

theorem copyInv_run (hl : Linked h₀ (C ++ (done ++ todo)))
    (hC : (C.map fun e => (h₀.cells e).localmount).Nodup)
    (hU : ((done ++ todo).map fun d => (h₀.cells d).localmount).Nodup)
    (hp : PassInv h₀ C done s) (hk : KeepInv h₀ C done s) (hci : CopyInv h₀ C done s) :
    CopyInv h₀ C (done ++ todo) (todo.foldl updateRelayStep s) := by
  induction todo generalizing done s with
  | nil => simpa using hci
  | cons d todo ih =>
    simpa using ih (by simpa using hl) (by simpa using hU) (passInv_step hl hp)
      (keepInv_step hl hC hp hk) (copyInv_step hl hU hp hk hci)

end Keep

/-- With distinct current names, a record is stopped exactly when no updated record has its key,
and one that stays changes only its `on_demand`; with distinct updated names too, an updated
record is copied exactly when no current record has its key. -/
theorem updateRelays_keep_iff (h : Heap) (C U : List ℕ) (hl : Linked h (C ++ U))
    (hC : (C.map fun e => (h.cells e).localmount).Nodup) :
    let r := updateRelays h C U
    (∀ e ∈ C, e ∈ r.cleanup ↔ ∀ d ∈ U, (h.cells d).key ≠ (h.cells e).key) ∧
    (∀ e ∈ C, e ∉ r.cleanup → e ∈ r.active ∧ ∃ d,
      U.find? (fun d => (h.cells d).key = (h.cells e).key) = some d ∧
        r.heap.cells e = { h.cells e with onDemand := (h.cells d).onDemand }) ∧
    ((U.map fun d => (h.cells d).localmount).Nodup → ∀ d ∈ U,
      (∃ a ∈ r.active, h.top ≤ a ∧ r.heap.cells a = (h.cells d).copy) ↔
        ∀ e ∈ C, (h.cells e).key ≠ (h.cells d).key) := by
  intro r
  have hl' : Linked h (C ++ ([] ++ U)) := by simpa using hl
  have hp₀ : PassInv h C [] ⟨h, C, []⟩ := passInv_init hl.1.of_append_left
  have hk := keepInv_run hl' hC hp₀ keepInv_init
  have hp := updateRelaySet_inv hl
  simp only [List.nil_append] at hk
  refine ⟨hk.mem_current, fun e he hne => ⟨not_not.1 fun hA =>
    hne ((updateRelays_mem_cleanup hl he).2 hA), hk.kept_cell e he hne⟩,
    fun hU d hd => ⟨fun hfresh => ?_, fun hno => ?_⟩⟩
  · have hci := copyInv_run hl' hC (by simpa using hU) hp₀ keepInv_init (by simp [CopyInv])
    simp only [List.nil_append] at hci
    exact hci d hd hfresh
  · obtain ⟨a, ha, hout⟩ := forall₂_exists_of_mem_left hp.outcome.flip (List.mem_reverse.2 hd)
    rcases hout with ⟨haC, hkey, -⟩ | ⟨hat, hcell⟩
    · exact absurd hkey (hno a haC)
    · exact ⟨a, ha, hat, hcell⟩

theorem updateRelays_keep_iff_sample :
    Linked sampleHeap ([0, 1] ++ [2, 3]) ∧ ([0, 1].map fun e => (sampleHeap.cells e).localmount).Nodup ∧
    let r := updateRelays sampleHeap [0, 1] [2, 3]
    (∀ e ∈ [0, 1], e ∈ r.cleanup ↔ ∀ d ∈ [2, 3], (sampleHeap.cells d).key ≠ (sampleHeap.cells e).key) ∧
    (∀ e ∈ [0, 1], e ∉ r.cleanup → e ∈ r.active ∧ ∃ d,
      [2, 3].find? (fun d => (sampleHeap.cells d).key = (sampleHeap.cells e).key) = some d ∧
        r.heap.cells e = { sampleHeap.cells e with onDemand := (sampleHeap.cells d).onDemand }) ∧
    (([2, 3].map fun d => (sampleHeap.cells d).localmount).Nodup → ∀ d ∈ [2, 3],
      (∃ a ∈ r.active, sampleHeap.top ≤ a ∧ r.heap.cells a = (sampleHeap.cells d).copy) ↔
        ∀ e ∈ [0, 1], (sampleHeap.cells e).key ≠ (sampleHeap.cells d).key) :=
  ⟨by decide, by decide, updateRelays_keep_iff sampleHeap [0, 1] [2, 3] (by decide) (by decide)⟩

section Twice

variable {h₁ : Heap} {A done todo : List ℕ} {d : ℕ} {s : SetState}

def MatchInv (h₁ : Heap) (todo : List ℕ) (s : SetState) : Prop :=
  List.Perm (s.current.map fun x => (h₁.cells x).key) (todo.map fun x => (h₁.cells x).key) ∧
    s.heap.top = h₁.top

theorem matchInv_step (hl : Linked h₁ (A ++ (done ++ d :: todo))) (hp : PassInv h₁ A done s)
    (hm : MatchInv h₁ (d :: todo) s) : MatchInv h₁ todo (updateRelayStep s d) := by
  obtain ⟨-, -, -, -, hCU, hd_cells⟩ := linked_turn hl hp
  have hcur : ∀ x ∈ s.current, s.heap.cells x = h₁.cells x := fun x hx =>
    have hxA := hp.current_sublist.subset hx
    hp.frame x (hl.2 x (List.mem_append_left _ hxA))
      (List.disjoint_of_nodup_append hp.nodup hx) (hCU x hxA).1
  rcases updateRelayStep_cases s d with ⟨pre, e, post, hc, -, hkey, heq⟩ | ⟨hnone, -⟩
  · rw [heq]
    rw [hcur e (by simp [hc]), hd_cells] at hkey
    refine ⟨List.Perm.cons_inv (a := (h₁.cells e).key) ?_, hm.2⟩
    have h1 := hm.1
    rw [hc] at h1
    simp only [List.map_append, List.map_cons] at h1
    simpa [hkey] using List.perm_middle.symm.trans h1
  · obtain ⟨x, hx, hxk⟩ := List.mem_map.1 (hm.1.symm.subset (List.mem_cons_self _ _))
    exact absurd (by rw [hcur x hx, hd_cells, hxk]) (hnone x hx)

theorem matchInv_run (hl : Linked h₁ (A ++ (done ++ todo))) (hp : PassInv h₁ A done s)
    (hm : MatchInv h₁ todo s) : MatchInv h₁ [] (todo.foldl updateRelayStep s) := by
  induction todo generalizing done s with
  | nil => exact hm
  | cons d todo ih =>
    exact ih (by simpa using hl) (passInv_step hl hp) (matchInv_step hl hp hm)

end Twice

theorem eq_of_forall₂_forall₂ {α β : Type*} {R S : α → β → Prop} {l₁ l₂ : List α} {l₃ : List β}
    (h₁ : List.Forall₂ R l₁ l₃) (h₂ : List.Forall₂ S l₂ l₃)
    (H : ∀ a b c, R a c → S b c → a = b) : l₁ = l₂ := by
  induction h₁ generalizing l₂ with
  | nil => cases h₂; rfl
  | cons hr _ ih => cases h₂ with | cons hs h₂ => rw [H _ _ _ hr hs, ih h₂]

/-- Reconciling the new list again against the same updated list keeps every record and copies
none. -/
theorem updateRelays_idempotent (h : Heap) (C U : List ℕ) (hl : Linked h (C ++ U)) :
    let r := updateRelays h C U
    let r' := updateRelays r.heap r.active U
    r'.cleanup = [] ∧ r'.heap.top = r.heap.top ∧ List.Perm r'.active r.active ∧
      ((U.map fun d => (h.cells d).localmount).Nodup → r'.active = r.active) := by
  intro r r'
  have hp := updateRelaySet_inv hl
  have hf := updateRelays_standsFor hl
  -- the first pass leaves the keys of the updated records alone
  have hUkey : ∀ d ∈ U, (r.heap.cells d).key = (h.cells d).key := fun d hd => by
    rcases hp.done_cells d hd with hc | hc <;> exact (congrArg RelayServer.key hc :)
  have hl₁ : Linked r.heap (r.active ++ U) := by
    refine ⟨List.Nodup.append hp.nodup.of_append_right hl.1.of_append_right
      fun a ha haU => updateRelays_active_not_mem hl ha haU, fun a ha => ?_⟩
    rcases List.mem_append.1 ha with ha | ha
    · exact hp.below_top a ha
    · exact lt_of_lt_of_le (hl.2 a (List.mem_append_right _ ha)) hp.top_le
  -- the new list has, in reverse, the keys of the updated list
  have hkeyrel : List.Forall₂ (fun a d => (r.heap.cells a).key = (r.heap.cells d).key)
      r.active.reverse U :=
    (forall₂_imp_of_mem hf.flip fun d hd a hs => (hUkey d hd).trans hs.1.symm).flip.imp
      fun _ _ h => h.symm
  have hkeys := map_eq_map_of_forall₂ hkeyrel
  have hl₁' : Linked r.heap (r.active ++ ([] ++ U)) := by simpa using hl₁
  have hp₁ : PassInv r.heap r.active [] ⟨r.heap, r.active, []⟩ :=
    passInv_init hl₁.1.of_append_left
  have hm₀ : MatchInv r.heap U ⟨r.heap, r.active, []⟩ :=
    ⟨by rw [← hkeys]; exact (List.reverse_perm _).symm.map _, rfl⟩
  have hm := matchInv_run hl₁' hp₁ hm₀
  have hp₂ := updateRelaySet_inv hl₁
  have hcur : r'.cleanup = [] := by simpa using hm.1
  have htop : r'.heap.top = r.heap.top := hm.2
  have hbelow : ∀ a ∈ r'.active, a < r.heap.top := fun a ha => htop ▸ hp₂.below_top a ha
  have hperm : List.Perm r'.active r.active := by
    have := hp₂.perm
    rw [show (updateRelaySet r.heap r.active U).current = [] from hcur, List.nil_append,
      List.filter_eq_self.2 fun a ha => by simpa using hbelow a ha] at this
    exact this.symm
  refine ⟨hcur, htop, hperm, fun hU => ?_⟩
  -- with distinct local mounts each key names one record of the new list
  have hlm : (r.active.map fun a => (r.heap.cells a).localmount).Nodup := by
    have h₂ := congrArg (List.map Prod.fst) hkeys
    simp only [List.map_map] at h₂
    rw [← List.nodup_reverse, ← List.map_reverse]
    refine (congrArg List.Nodup h₂).mpr ?_
    convert hU using 1
    exact List.map_congr_left fun d hd => congrArg Prod.fst (hUkey d hd)
  have h₁ : List.Forall₂ (fun a d => a ∈ r.active ∧ (r.heap.cells a).key = (r.heap.cells d).key)
      r'.active.reverse U := by
    have h : List.Forall₂ (fun a d => a ∈ r.active ∧ (r.heap.cells a).key = (r.heap.cells d).key)
        r'.active U.reverse := forall₂_imp_of_mem hp₂.outcome fun a ha d hout => by
      rcases hout with ⟨haA, hk, -⟩ | ⟨hat, -⟩
      · exact ⟨haA, hk⟩
      · exact absurd (hbelow a ha) (Nat.not_lt.2 hat)
    simpa using List.forall₂_reverse_iff.2 h
  have h₂ : List.Forall₂ (fun a d => a ∈ r.active ∧ (r.heap.cells a).key = (r.heap.cells d).key)
      r.active.reverse U :=
    forall₂_imp_of_mem hkeyrel fun a ha d hk => ⟨List.mem_reverse.1 ha, hk⟩
  have := eq_of_forall₂_forall₂ h₁ h₂ fun a b c ha hb =>
    eq_of_key_eq hlm ha.1 hb.1 (ha.2.trans hb.2.symm)
  exact List.reverse_injective this

theorem updateRelays_idempotent_sample :
    Linked sampleHeap ([0, 1] ++ [2, 3]) ∧
    let r := updateRelays sampleHeap [0, 1] [2, 3]
    let r' := updateRelays r.heap r.active [2, 3]
    r'.cleanup = [] ∧ r'.heap.top = r.heap.top ∧ List.Perm r'.active r.active ∧
      (([2, 3].map fun d => (sampleHeap.cells d).localmount).Nodup → r'.active = r.active) :=
  ⟨by decide, updateRelays_idempotent sampleHeap [0, 1] [2, 3] (by decide)⟩

end IcecastRelay

import IcecastRelay.Relay
import Mathlib.Data.List.Basic
import Mathlib.Data.List.Forall2
import Mathlib.Data.List.Nodup

/-! # The reconciler

`relay_has_changed`, `update_relay_set` and `update_relays`: for each updated record the inner
loop keeps a current record with its key, or else the outer loop pushes a `relay_copy`. -/
namespace IcecastRelay

/-- `relay_has_changed`: whether `new` calls for a restart of `old`, and `old` as the call leaves
it. -/
def relayHasChanged (new old : RelayServer) : Bool × RelayServer :=
  if new.mount ≠ old.mount then (true, old)
  else if new.server ≠ old.server then (true, old)
  else if new.port ≠ old.port then (true, old)
  else if new.mp3metadata ≠ old.mp3metadata then (true, old)
  else (false, if new.onDemand ≠ old.onDemand then { old with onDemand := new.onDemand } else old)

theorem relayHasChanged_eq (new old : RelayServer) :
    relayHasChanged new old =
      if new.mount = old.mount ∧ new.server = old.server ∧ new.port = old.port ∧
        new.mp3metadata = old.mp3metadata
      then (false, { old with onDemand := new.onDemand }) else (true, old) := by
  have hod : (if new.onDemand ≠ old.onDemand then { old with onDemand := new.onDemand } else old) =
      { old with onDemand := new.onDemand } := by
    by_cases h : new.onDemand = old.onDemand
    · rw [if_neg (not_not.2 h), h]
    · rw [if_pos h]
  rw [relayHasChanged, hod]
  by_cases h₁ : new.mount = old.mount <;> by_cases h₂ : new.server = old.server <;>
    by_cases h₃ : new.port = old.port <;> by_cases h₄ : new.mp3metadata = old.mp3metadata <;>
    simp only [h₁, h₂, h₃, h₄, ne_eq, not_true_eq_false, not_false_eq_true, if_true, if_false,
      and_self, and_false, false_and]

theorem kept_iff_key_eq (new old : RelayServer) :
    (new.localmount = old.localmount ∧ (relayHasChanged new old).1 = false) ↔
      old.key = new.key := by
  rw [relayHasChanged_eq]
  simp only [RelayServer.key, Prod.mk.injEq]
  split_ifs with h <;> simp_all [eq_comm]

theorem relayHasChanged_kept {new old : RelayServer} (h : (relayHasChanged new old).1 = false) :
    (relayHasChanged new old).2 = { old with onDemand := new.onDemand } := by
  rw [relayHasChanged_eq] at h ⊢
  split_ifs at h ⊢
  rfl

/-- The inner loop of `update_relay_set`: the first record of `current` with the localmount of
`relay` for which `relay_has_changed` is 0, unlinked, and that record as the call leaves it. -/
def findExisting (h : Heap) (relay : RelayServer) :
    List ℕ → Option (List ℕ × ℕ × RelayServer × List ℕ)
  | [] => none
  | e :: rest =>
    if relay.localmount = (h.cells e).localmount ∧
        (relayHasChanged relay (h.cells e)).1 = false then
      some ([], e, (relayHasChanged relay (h.cells e)).2, rest)
    else (findExisting h relay rest).map fun (pre, x, r, post) => (e :: pre, x, r, post)

theorem findExisting_eq_none {h : Heap} {relay : RelayServer} {cur : List ℕ} :
    findExisting h relay cur = none ↔ ∀ x ∈ cur, (h.cells x).key ≠ relay.key := by
  induction cur with
  | nil => simp [findExisting]
  | cons e rest ih =>
    simp only [findExisting, kept_iff_key_eq, List.mem_cons, forall_eq_or_imp]
    split_ifs with hk <;> simp [hk, ih]

theorem findExisting_eq_some {h : Heap} {relay : RelayServer} {cur pre post : List ℕ}
    {e : ℕ} {r : RelayServer} (hf : findExisting h relay cur = some (pre, e, r, post)) :
    cur = pre ++ e :: post ∧ (∀ x ∈ pre, (h.cells x).key ≠ relay.key) ∧
      (h.cells e).key = relay.key ∧ r = { h.cells e with onDemand := relay.onDemand } := by
  induction cur generalizing pre with
  | nil => simp [findExisting] at hf
  | cons x rest ih =>
    simp only [findExisting] at hf
    split_ifs at hf with hk
    · obtain ⟨rfl, rfl, rfl, rfl⟩ := by simpa using hf
      exact ⟨rfl, by simp, (kept_iff_key_eq _ _).1 hk, relayHasChanged_kept hk.2⟩
    · obtain ⟨⟨pre', e', r', post'⟩, hr, he⟩ := Option.map_eq_some'.1 hf
      obtain ⟨rfl, rfl, rfl, rfl⟩ := by simpa using he
      obtain ⟨rfl, hpre, hkey, rfl⟩ := ih hr
      refine ⟨rfl, ?_, hkey, rfl⟩
      simp only [List.mem_cons, forall_eq_or_imp]
      exact ⟨fun heq => hk ((kept_iff_key_eq _ _).2 heq), hpre⟩

structure SetState where
  heap : Heap
  current : List ℕ
  newList : List ℕ

/-- One turn of the outer loop of `update_relay_set`, for the updated record `relay`. -/
def updateRelayStep (s : SetState) (relay : ℕ) : SetState :=
  match findExisting s.heap (s.heap.cells relay) s.current with
  | some (pre, e, kept, post) => ⟨s.heap.set e kept, pre ++ post, e :: s.newList⟩
  | none => ⟨relayCopy s.heap relay, s.current, s.heap.top :: s.newList⟩

def updateRelaySet (h : Heap) (current updated : List ℕ) : SetState :=
  updated.foldl updateRelayStep ⟨h, current, []⟩

structure Update where
  heap : Heap
  active : List ℕ
  cleanup : List ℕ

/-- `update_relays`: the new list of `update_relay_set`, and what is left of the current list for
cleanup. -/
def updateRelays (h : Heap) (relayList newRelayList : List ℕ) : Update :=
  let s := updateRelaySet h relayList newRelayList
  ⟨s.heap, s.newList, s.current⟩

theorem updateRelayStep_cases (s : SetState) (d : ℕ) :
    (∃ pre e post, s.current = pre ++ e :: post ∧
      (∀ x ∈ pre, (s.heap.cells x).key ≠ (s.heap.cells d).key) ∧
      (s.heap.cells e).key = (s.heap.cells d).key ∧
      updateRelayStep s d = ⟨s.heap.set e { s.heap.cells e with onDemand := (s.heap.cells d).onDemand },
        pre ++ post, e :: s.newList⟩) ∨
    ((∀ x ∈ s.current, (s.heap.cells x).key ≠ (s.heap.cells d).key) ∧
      updateRelayStep s d = ⟨relayCopy s.heap d, s.current, s.heap.top :: s.newList⟩) := by
  unfold updateRelayStep
  split
  · next pre e kept post hf =>
    obtain ⟨hc, hpre, hkey, rfl⟩ := findExisting_eq_some hf
    exact .inl ⟨pre, e, post, hc, hpre, hkey, rfl⟩
  · next hf => exact .inr ⟨findExisting_eq_none.1 hf, rfl⟩

def sourceAt (h : Heap) (a : ℕ) : Option ℕ := (h.cells a).source

def Outcome (h₀ : Heap) (C : List ℕ) (h : Heap) (a d : ℕ) : Prop :=
  (a ∈ C ∧ (h₀.cells a).key = (h₀.cells d).key ∧
      h.cells a = { h₀.cells a with onDemand := (h₀.cells d).onDemand }) ∨
    (h₀.top ≤ a ∧ h.cells a = (h₀.cells d).copy)

/-- What the outer loop keeps once it has handled the records `done` of the updated list. -/
structure PassInv (h₀ : Heap) (C done : List ℕ) (s : SetState) : Prop where
  top_le : h₀.top ≤ s.heap.top
  current_sublist : List.Sublist s.current C
  perm : List.Perm C (s.current ++ s.newList.filter (· < h₀.top))
  nodup : (s.current ++ s.newList).Nodup
  below_top : ∀ a ∈ s.newList, a < s.heap.top
  new_mem : ∀ a ∈ s.newList, a ∈ C ∨ h₀.top ≤ a
  outcome : List.Forall₂ (Outcome h₀ C s.heap) s.newList done.reverse
  frame : ∀ a < h₀.top, a ∉ s.newList → a ∉ done → s.heap.cells a = h₀.cells a
  done_cells : ∀ d ∈ done,
    s.heap.cells d = h₀.cells d ∨ s.heap.cells d = { h₀.cells d with source := none }
  sources : List.Perm ((C ++ done).filterMap (sourceAt h₀))
    ((s.newList ++ s.current ++ done).filterMap (sourceAt s.heap))

theorem forall₂_imp_of_mem {α β : Type*} {R S : α → β → Prop} {l₁ : List α} {l₂ : List β}
    (h : List.Forall₂ R l₁ l₂) (H : ∀ a ∈ l₁, ∀ b, R a b → S a b) : List.Forall₂ S l₁ l₂ := by
  induction h with
  | nil => exact .nil
  | cons hr _ ih =>
    exact .cons (H _ (by simp) _ hr) (ih fun a ha => H a (List.mem_cons_of_mem _ ha))

section Pass

variable {h₀ : Heap} {C done todo : List ℕ} {d : ℕ} {s : SetState}

theorem passInv_init (hC : C.Nodup) : PassInv h₀ C [] ⟨h₀, C, []⟩ where
  top_le := le_rfl
  current_sublist := List.Sublist.refl C
  perm := by simp
  nodup := by simpa using hC
  below_top := by simp
  new_mem := by simp
  outcome := .nil
  frame _ _ _ _ := rfl
  done_cells := by simp
  sources := by simp

theorem linked_turn (hl : Linked h₀ (C ++ (done ++ d :: todo))) (hi : PassInv h₀ C done s) :
    d < h₀.top ∧ d ∉ C ∧ d ∉ done ∧ d ∉ s.newList ∧ (∀ e ∈ C, e ∉ done ∧ e ≠ d) ∧
      s.heap.cells d = h₀.cells d := by
  obtain ⟨hn, hlt⟩ := hl
  have hdC : d ∉ C := fun h => List.disjoint_of_nodup_append hn h (by simp)
  have hd_done : d ∉ done := fun h =>
    List.disjoint_of_nodup_append hn.of_append_right h (List.mem_cons_self d todo)
  have hd_top : d < h₀.top := hlt d (by simp)
  have hdN : d ∉ s.newList := fun h => (hi.new_mem d h).elim hdC (by omega)
  refine ⟨hd_top, hdC, hd_done, hdN, fun e he =>
    ⟨fun h => List.disjoint_of_nodup_append hn he (by simp [h]), ?_⟩,
    hi.frame d hd_top hdN hd_done⟩
  rintro rfl; exact hdC he

theorem passInv_keep (hl : Linked h₀ (C ++ (done ++ d :: todo))) (hi : PassInv h₀ C done s)
    {pre post : List ℕ} {e : ℕ} (hc : s.current = pre ++ e :: post)
    (hkey : (s.heap.cells e).key = (s.heap.cells d).key) :
    PassInv h₀ C (done ++ [d])
      ⟨s.heap.set e { s.heap.cells e with onDemand := (s.heap.cells d).onDemand },
        pre ++ post, e :: s.newList⟩ := by
  obtain ⟨-, -, -, -, hCU, hd_cells⟩ := linked_turn hl hi
  have heC : e ∈ C := hi.current_sublist.subset (by simp [hc])
  have he_top : e < h₀.top := hl.2 e (by simp [heC])
  have hnd := hi.nodup
  rw [hc] at hnd
  have heN : e ∉ s.newList := fun h => List.disjoint_of_nodup_append hnd (by simp) h
  have he_cells : s.heap.cells e = h₀.cells e := hi.frame e he_top heN (hCU e heC).1
  -- unlinking `e` and pushing it on the new list permutes the nodes
  have hmove : ∀ rest, List.Perm (pre ++ e :: post ++ rest) (pre ++ post ++ e :: rest) :=
    fun rest => by simpa using (@List.perm_middle _ e post rest).symm.append_left pre
  constructor
  · exact hi.top_le
  · exact ((List.sublist_cons_self e post).append_left pre).trans (hc ▸ hi.current_sublist)
  · have hp := hi.perm
    rw [hc] at hp
    simpa [List.filter_cons, he_top] using hp.trans (hmove _)
  · exact (hmove _).nodup_iff.1 hnd
  · simpa using ⟨lt_of_lt_of_le he_top hi.top_le, hi.below_top⟩
  · simpa [heC] using hi.new_mem
  · simp only [List.reverse_append, List.reverse_singleton, List.singleton_append]
    refine .cons (.inl ⟨heC, by rw [← he_cells, ← hd_cells, hkey], by simp [he_cells, hd_cells]⟩)
      (forall₂_imp_of_mem hi.outcome fun a ha b hab => ?_)
    have hae : a ≠ e := by rintro rfl; exact heN ha
    simpa [Outcome, hae] using hab
  · intro a ha haN had
    simp only [List.mem_cons, not_or, List.mem_append, List.mem_singleton] at haN had
    simpa [haN.1] using hi.frame a ha haN.2 had.1
  · intro x hx
    have hxe : x ≠ e := by
      rcases List.mem_append.1 hx with hx' | hx'
      · rintro rfl; exact (hCU x heC).1 hx'
      · rintro rfl; exact (hCU x heC).2 (List.mem_singleton.1 hx')
    rcases List.mem_append.1 hx with hx' | hx'
    · simpa [hxe] using hi.done_cells x hx'
    · obtain rfl := List.mem_singleton.1 hx'; simp [hxe, hd_cells]
  · have hsrc : sourceAt (s.heap.set e { s.heap.cells e with onDemand := (s.heap.cells d).onDemand })
        = sourceAt s.heap := funext fun a => by by_cases ha : a = e <;> simp [sourceAt, ha]
    have hd_src : [d].filterMap (sourceAt h₀) = [d].filterMap (sourceAt s.heap) := by
      simp only [List.filterMap_cons, List.filterMap_nil, sourceAt, hd_cells]
    have hp : List.Perm (s.newList ++ (pre ++ e :: post) ++ done ++ [d])
        (e :: s.newList ++ (pre ++ post) ++ (done ++ [d])) :=
      List.perm_iff_count.2 fun x => by simp [List.count_cons]; omega
    have hs := hi.sources
    rw [hc] at hs
    rw [hsrc, ← List.append_assoc, List.filterMap_append, hd_src]
    refine (hs.append_right _).trans ?_
    rw [← List.filterMap_append]
    exact hp.filterMap _

theorem passInv_copy (hl : Linked h₀ (C ++ (done ++ d :: todo))) (hi : PassInv h₀ C done s) :
    PassInv h₀ C (done ++ [d]) ⟨relayCopy s.heap d, s.current, s.heap.top :: s.newList⟩ := by
  obtain ⟨hd_top, hdC, hd_done, hdN, -, hd_cells⟩ := linked_turn hl hi
  have hcur : ∀ a ∈ s.current, a < h₀.top ∧ a ≠ d := fun a ha =>
    have haC := hi.current_sublist.subset ha
    ⟨hl.2 a (List.mem_append_left _ haC), by rintro rfl; exact hdC haC⟩
  have hdone_lt : ∀ a ∈ done, a < h₀.top := fun a ha => hl.2 a (by simp [ha])
  have htd : s.heap.top ≠ d := by have := hi.top_le; omega
  have htN : s.heap.top ∉ s.newList := fun h => lt_irrefl _ (hi.below_top _ h)
  have htcur : s.heap.top ∉ s.current := fun h => by
    have := (hcur _ h).1; have := hi.top_le; omega
  have hcells : ∀ a, a ≠ d → a ≠ s.heap.top → (relayCopy s.heap d).cells a = s.heap.cells a :=
    fun a h₁ h₂ => by simp [relayCopy_cells, h₁, h₂]
  constructor
  · simp only [relayCopy_top]; have := hi.top_le; omega
  · exact hi.current_sublist
  · simpa [List.filter_cons, Nat.not_lt.2 hi.top_le] using hi.perm
  · exact List.nodup_middle.2 (List.nodup_cons.2 ⟨by simp [htcur, htN], hi.nodup⟩)
  · simp only [List.mem_cons, relayCopy_top, forall_eq_or_imp]
    exact ⟨Nat.lt_succ_self _, fun a ha => Nat.lt_succ_of_lt (hi.below_top a ha)⟩
  · simpa [hi.top_le] using hi.new_mem
  · simp only [List.reverse_append, List.reverse_singleton, List.singleton_append]
    refine .cons (.inr ⟨hi.top_le, by simp [relayCopy_cells, htd, hd_cells]⟩)
      (forall₂_imp_of_mem hi.outcome fun a ha b hab => ?_)
    have had : a ≠ d := by rintro rfl; exact hdN ha
    have hat : a ≠ s.heap.top := by rintro rfl; exact htN ha
    simpa [Outcome, hcells a had hat] using hab
  · intro a ha haN had
    simp only [List.mem_cons, not_or, List.mem_append, List.mem_singleton] at haN had
    rw [hcells a had.2.1 haN.1]; exact hi.frame a ha haN.2 had.1
  · intro x hx
    rcases List.mem_append.1 hx with hx' | hx'
    · have hxd : x ≠ d := by rintro rfl; exact hd_done hx'
      have hxt : x ≠ s.heap.top := by have := hdone_lt x hx'; have := hi.top_le; omega
      rw [hcells x hxd hxt]; exact hi.done_cells x hx'
    · obtain rfl := List.mem_singleton.1 hx'; simp [relayCopy_cells, hd_cells]
  · have hsrc : ∀ a ∈ s.newList ++ s.current ++ done,
        sourceAt (relayCopy s.heap d) a = sourceAt s.heap a := fun a ha => by
      simp only [List.mem_append] at ha
      have hne : a ≠ d ∧ a ≠ s.heap.top := by
        rcases ha with (h | h) | h
        · exact ⟨fun h' => hdN (h' ▸ h), fun h' => htN (h' ▸ h)⟩
        · exact ⟨(hcur a h).2, fun h' => htcur (h' ▸ h)⟩
        · have := hdone_lt a h; have := hi.top_le
          exact ⟨fun h' => hd_done (h' ▸ h), by omega⟩
      simp [sourceAt, hcells a hne.1 hne.2]
    have htop : sourceAt (relayCopy s.heap d) s.heap.top = sourceAt h₀ d := by
      simp [sourceAt, relayCopy_cells, htd, hd_cells]
    have hdd : sourceAt (relayCopy s.heap d) d = none := by simp [sourceAt, relayCopy_cells]
    have hrest : (s.newList ++ s.current ++ (done ++ [d])).filterMap (sourceAt (relayCopy s.heap d))
        = (s.newList ++ s.current ++ done).filterMap (sourceAt s.heap) := by
      rw [← List.append_assoc, List.filterMap_append, List.filterMap_congr hsrc]; simp [hdd]
    rw [List.cons_append, List.cons_append, List.filterMap_cons, htop, hrest,
      ← List.append_assoc, List.filterMap_append]
    cases hs : sourceAt h₀ d with
    | none => simpa [hs] using hi.sources
    | some x =>
      simpa [hs] using (hi.sources.append_right [x]).trans (List.perm_append_singleton x _)

theorem passInv_step (hl : Linked h₀ (C ++ (done ++ d :: todo))) (hi : PassInv h₀ C done s) :
    PassInv h₀ C (done ++ [d]) (updateRelayStep s d) := by
  rcases updateRelayStep_cases s d with ⟨pre, e, post, hc, -, hkey, heq⟩ | ⟨-, heq⟩
  · rw [heq]; exact passInv_keep hl hi hc hkey
  · rw [heq]; exact passInv_copy hl hi

theorem passInv_run (hl : Linked h₀ (C ++ (done ++ todo))) (hi : PassInv h₀ C done s) :
    PassInv h₀ C (done ++ todo) (todo.foldl updateRelayStep s) := by
  induction todo generalizing done s with
  | nil => simpa using hi
  | cons d todo ih => simpa using ih (by simpa using hl) (passInv_step hl hi)

theorem updateRelaySet_inv {U : List ℕ} (hl : Linked h₀ (C ++ U)) :
    PassInv h₀ C U (updateRelaySet h₀ C U) := by
  simpa using passInv_run (show Linked h₀ (C ++ ([] ++ U)) by simpa using hl)
    (passInv_init hl.1.of_append_left)

end Pass

theorem forall₂_exists_of_mem_left {α β : Type*} {R : α → β → Prop} {l₁ : List α}
    {l₂ : List β} (h : List.Forall₂ R l₁ l₂) {a : α} (ha : a ∈ l₁) : ∃ b ∈ l₂, R a b := by
  induction h with
  | nil => simp at ha
  | cons hr _ ih =>
    rcases List.mem_cons.1 ha with rfl | ha
    · exact ⟨_, List.mem_cons_self _ _, hr⟩
    · obtain ⟨b, hb, hab⟩ := ih ha
      exact ⟨b, List.mem_cons_of_mem _ hb, hab⟩

section Partition

variable {h : Heap} {C U : List ℕ}

theorem updateRelays_active_mem (hl : Linked h (C ++ U)) {a : ℕ}
    (ha : a ∈ (updateRelays h C U).active) :
    a ∈ C ∨ (h.top ≤ a ∧ ∃ d ∈ U, (updateRelays h C U).heap.cells a = (h.cells d).copy) := by
  obtain ⟨d, hd, hout⟩ := forall₂_exists_of_mem_left (updateRelaySet_inv hl).outcome ha
  rcases hout with ⟨haC, -⟩ | ⟨htop, hcell⟩
  · exact .inl haC
  · exact .inr ⟨htop, d, List.mem_reverse.1 hd, hcell⟩

theorem updateRelays_active_not_mem (hl : Linked h (C ++ U)) {a : ℕ}
    (ha : a ∈ (updateRelays h C U).active) : a ∉ U := by
  intro haU
  rcases updateRelays_active_mem hl ha with haC | ⟨htop, -⟩
  · exact List.disjoint_of_nodup_append hl.1 haC haU
  · exact absurd (hl.2 a (List.mem_append_right _ haU)) (Nat.not_lt.2 htop)

theorem updateRelays_count (hl : Linked h (C ++ U)) {e : ℕ} (he : e ∈ C) :
    (updateRelays h C U).active.count e + (updateRelays h C U).cleanup.count e = 1 := by
  have hi := updateRelaySet_inv hl
  have hc := hi.perm.count_eq e
  rw [List.count_eq_one_of_mem hl.1.of_append_left he, List.count_append,
    List.count_filter (by simpa using hl.2 e (List.mem_append_left _ he))] at hc
  simp only [updateRelays]; omega

theorem updateRelays_mem_cleanup (hl : Linked h (C ++ U)) {e : ℕ} (he : e ∈ C) :
    e ∈ (updateRelays h C U).cleanup ↔ e ∉ (updateRelays h C U).active := by
  have := updateRelays_count hl he
  rw [← List.count_pos_iff, ← List.count_pos_iff]; omega

/-- What `update_relays` does with the current list `C` and the updated list `U`: `C` is split
between the new list and the cleanup list, and source handles are moved, never duplicated or
dropped. -/
structure Partition (h : Heap) (C U : List ℕ) (r : Update) : Prop where
  once : ∀ e ∈ C, r.active.count e + r.cleanup.count e = 1
  cleanup_sublist : List.Sublist r.cleanup C
  mem_cleanup : ∀ e ∈ C, e ∈ r.cleanup ↔ e ∉ r.active
  cleanup_cells : ∀ e ∈ r.cleanup, r.heap.cells e = h.cells e
  active_length : r.active.length = U.length
  active_mem : ∀ a ∈ r.active, a ∈ C ∨ (h.top ≤ a ∧ ∃ d ∈ U, r.heap.cells a = (h.cells d).copy)
  active_not_mem : ∀ a ∈ r.active, a ∉ U
  updated_cells : ∀ d ∈ U,
    r.heap.cells d = h.cells d ∨ r.heap.cells d = { h.cells d with source := none }
  sources : List.Perm ((C ++ U).filterMap (sourceAt h))
    ((r.active ++ r.cleanup ++ U).filterMap (sourceAt r.heap))

theorem updateRelays_partition (h : Heap) (C U : List ℕ) (hl : Linked h (C ++ U)) :
    Partition h C U (updateRelays h C U) := by
  have hi := updateRelaySet_inv hl
  refine ⟨fun e he => updateRelays_count hl he, hi.current_sublist,
    fun e he => updateRelays_mem_cleanup hl he, fun e he => ?_,
    by simpa using hi.outcome.length_eq, fun a ha => updateRelays_active_mem hl ha,
    fun a ha => updateRelays_active_not_mem hl ha, hi.done_cells, hi.sources⟩
  have heC := hi.current_sublist.subset he
  exact hi.frame e (hl.2 e (List.mem_append_left _ heC)) ((updateRelays_mem_cleanup hl heC).1 he)
    (fun heU => List.disjoint_of_nodup_append hl.1 heC heU)

/-- The record `a` of the new list stands for the updated record `d`: it has `d`'s key and
`on_demand`, and is a full copy of `d` or a record of `C` changed only in `on_demand`. -/
def StandsFor (h : Heap) (C : List ℕ) (h' : Heap) (a d : ℕ) : Prop :=
  (h'.cells a).key = (h.cells d).key ∧ (h'.cells a).onDemand = (h.cells d).onDemand ∧
    (h'.cells a = (h.cells d).copy ∨
      a ∈ C ∧ h'.cells a = { h.cells a with onDemand := (h.cells d).onDemand })

theorem map_eq_map_of_forall₂ {α β γ : Type*} {f : α → γ} {g : β → γ} {l₁ : List α}
    {l₂ : List β} (h : List.Forall₂ (fun a b => f a = g b) l₁ l₂) : l₁.map f = l₂.map g := by
  induction h with
  | nil => rfl
  | cons hab _ ih => simp [hab, ih]

theorem find?_eq_some_of_nodup_map {α β : Type*} [DecidableEq β] {f : α → β} {l : List α}
    (hn : (l.map f).Nodup) {a : α} (ha : a ∈ l) : l.find? (fun x => f x = f a) = some a := by
  cases hf : l.find? (fun x => f x = f a) with
  | none => exact absurd (List.find?_eq_none.1 hf a ha) (by simp)
  | some b =>
    have hb := List.mem_of_find?_eq_some hf
    have hfb : f b = f a := by simpa using List.find?_some hf
    rw [List.inj_on_of_nodup_map hn hb ha hfb]

theorem updateRelays_standsFor (hl : Linked h (C ++ U)) :
    List.Forall₂ (StandsFor h C (updateRelays h C U).heap) (updateRelays h C U).active.reverse U := by
  have hstep : ∀ a d, Outcome h C (updateRelays h C U).heap a d →
      StandsFor h C (updateRelays h C U).heap a d := by
    rintro a d (⟨haC, hkey, hcell⟩ | ⟨-, hcell⟩)
    · exact ⟨by rw [hcell]; exact hkey, by simp [hcell], .inr ⟨haC, hcell⟩⟩
    · exact ⟨by simp [hcell], by simp [hcell, RelayServer.copy], .inl hcell⟩
  simpa using List.forall₂_reverse_iff.2 ((updateRelaySet_inv hl).outcome.imp hstep)

/-- The new list stands for the updated list in reverse order, and with distinct updated names
`slave_find_relay` finds each name's record. -/
theorem updateRelays_active_fields (h : Heap) (C U : List ℕ) (hl : Linked h (C ++ U)) :
    let r := updateRelays h C U
    List.Forall₂ (StandsFor h C r.heap) r.active.reverse U ∧
    ((U.map fun d => (h.cells d).localmount).Nodup → ∀ d ∈ U, ∃ a,
      slaveFindRelay r.heap r.active (h.cells d).localmount = some a ∧ StandsFor h C r.heap a d) := by
  intro r
  have hf : List.Forall₂ (StandsFor h C r.heap) r.active.reverse U := updateRelays_standsFor hl
  refine ⟨hf, fun hn d hd => ?_⟩
  obtain ⟨a, ha, hsf⟩ := forall₂_exists_of_mem_left hf.flip hd
  have hmap : r.active.reverse.map (fun a => (r.heap.cells a).localmount) =
      U.map fun d => (h.cells d).localmount :=
    map_eq_map_of_forall₂ (hf.imp fun a d hs => congrArg Prod.fst hs.1)
  have hn' : (r.active.map fun a => (r.heap.cells a).localmount).Nodup := by
    rw [← List.nodup_reverse, ← List.map_reverse, hmap]; exact hn
  refine ⟨a, ?_, hsf⟩
  have hlm : (r.heap.cells a).localmount = (h.cells d).localmount := congrArg Prod.fst hsf.1
  rw [← hlm]
  exact find?_eq_some_of_nodup_map hn' (List.mem_reverse.1 ha)

end Partition

def sampleRelay : RelayServer where
  server := [104]
  port := 8000
  mount := [47, 109]
  localmount := [47, 109]
  username := none
  password := none
  mp3metadata := 0
  onDemand := 0
  enable := 1
  source := some 7
  thread := none
  running := false
  cleanup := false

/-- The current list: the running record on `/m` at 0 and a relay on `/x` at 1. The new
configuration: `/m` with `enable` switched off at 2 and a relay on `/y` at 3. -/
def sampleHeap : Heap :=
  ⟨fun a => if a = 0 then sampleRelay
    else if a = 1 then { sampleRelay with mount := [47, 120], localmount := [47, 120] }
    else if a = 2 then { sampleRelay with enable := 0, source := none }
    else { sampleRelay with mount := [47, 121], localmount := [47, 121], source := none }, 4⟩

theorem updateRelays_partition_sample :
    Linked sampleHeap ([0, 1] ++ [2, 3]) ∧ Partition sampleHeap [0, 1] [2, 3] (updateRelays sampleHeap [0, 1] [2, 3]) :=
  ⟨by decide, updateRelays_partition sampleHeap [0, 1] [2, 3] (by decide)⟩

theorem updateRelays_active_fields_sample :
    Linked sampleHeap ([0, 1] ++ [2, 3]) ∧
    let r := updateRelays sampleHeap [0, 1] [2, 3]
    List.Forall₂ (StandsFor sampleHeap [0, 1] r.heap) r.active.reverse [2, 3] ∧
    (([2, 3].map fun d => (sampleHeap.cells d).localmount).Nodup → ∀ d ∈ [2, 3], ∃ a,
      slaveFindRelay r.heap r.active (sampleHeap.cells d).localmount = some a ∧
        StandsFor sampleHeap [0, 1] r.heap a d) :=
  ⟨by decide, updateRelays_active_fields sampleHeap [0, 1] [2, 3] (by decide)⟩

/-- A kept record is not brought in line with its new configuration: with `enable` switched off,
the running record stays enabled. -/
theorem updateRelays_keeps_stale_enable :
    ¬ ∀ (h : Heap) (C U : List ℕ), Linked h (C ++ U) →
      List.Forall₂ (fun a d => ((updateRelays h C U).heap.cells a).configured = (h.cells d).configured)
        (updateRelays h C U).active.reverse U := fun hall => by
  have := hall sampleHeap [0] [2] (by decide)
  revert this
  decide

end IcecastRelay

import IcecastRelay.Relay
import Mathlib.Data.List.Nodup

/-! # Slave hosts

`slave_host_add`, `slave_host_remove` and `update_master_as_slave` on the table of peers keyed by
`server:port`. Counts are integers: C's overflow would need 2^31 outstanding adds of one key. -/
namespace IcecastRelay

structure SlaveHost where
  server : CStr
  port : Int
  count : Int
  deriving DecidableEq, Repr

/-- `global.slaves`, head first, and `global.slave_count`. -/
structure SlaveTable where
  slaves : List SlaveHost
  slaveCount : Int
  deriving DecidableEq, Repr

def SlaveHost.key (s : SlaveHost) : CStr × Int := (s.server, s.port)

@[simp] theorem SlaveHost.key_count (s : SlaveHost) (c : Int) : { s with count := c }.key = s.key := rfl

def isSpace (b : UInt8) : Bool := b = 32 || (9 ≤ b && b ≤ 13)

/-- The digits at the head of a string, read in base 10 onto `n`. -/
def atoiDigits : List UInt8 → ℕ → ℕ
  | [], n => n
  | b :: s, n => if 48 ≤ b ∧ b ≤ 57 then atoiDigits s (10 * n + (b - 48).toNat) else n

/-- The `int` a `long` from `strtol` becomes: saturated at `LONG_MIN` and `LONG_MAX`, then
cut to its low 32 bits. -/
def strtolInt (v : Int) : Int :=
  (max (-9223372036854775808) (min v 9223372036854775807) + 2147483648) % 4294967296 - 2147483648

/-- glibc's `atoi`, `(int) strtol (s, NULL, 10)`: blanks, an optional sign, digits. -/
def atoi (s : List UInt8) : Int :=
  strtolInt <| match s.dropWhile isSpace with
  | 45 :: t => -(atoiDigits t 0 : Int)
  | 43 :: t => atoiDigits t 0
  | t => atoiDigits t 0

/-- The key of an `ice-redirect` value: the text before the first `:` and `atoi` of the rest. -/
def redirectKey (header : CStr) : Option (CStr × Int) :=
  match strchr header 58 with
  | none => none
  | some i => some (header.take i, atoi (header.drop (i + 1)))

def findSlaveHost (t : SlaveTable) (server : CStr) (port : Int) : Option SlaveHost :=
  t.slaves.find? fun s => s.server = server ∧ s.port = port

def addSlaveHost (t : SlaveTable) (server : CStr) (port : Int) : SlaveTable :=
  ⟨⟨server, port, 1⟩ :: t.slaves, t.slaveCount + 1⟩

def bumpSlave (server : CStr) (port : Int) : List SlaveHost → List SlaveHost
  | [] => []
  | s :: rest =>
    if s.server = server ∧ s.port = port then { s with count := s.count + 1 } :: rest
    else s :: bumpSlave server port rest

/-- `slave_host_add`; the client matters only when NULL. -/
def slaveHostAdd (t : SlaveTable) (client : Option ℕ) (header : Option CStr) : SlaveTable :=
  match client, header with
  | some _, some header =>
    match redirectKey header with
    | none => t
    | some (server, port) =>
      match findSlaveHost t server port with
      | some _ => { t with slaves := bumpSlave server port t.slaves }
      | none => addSlaveHost t server port
  | _, _ => t

/-- The loop of `slave_host_remove`: decrement the first entry with the key and unlink it at 0. -/
def dropSlave (server : CStr) (port : Int) : List SlaveHost → List SlaveHost × Bool
  | [] => ([], false)
  | s :: rest =>
    if s.server = server ∧ s.port = port then
      if s.count - 1 = 0 then (rest, true) else ({ s with count := s.count - 1 } :: rest, false)
    else
      let r := dropSlave server port rest
      (s :: r.1, r.2)

def slaveHostRemove (t : SlaveTable) (redirect : Option CStr) : SlaveTable :=
  match redirect with
  | none => t
  | some var =>
    match redirectKey var with
    | none => t
    | some (server, port) =>
      let r := dropSlave server port t.slaves
      ⟨r.1, if r.2 then t.slaveCount - 1 else t.slaveCount⟩

structure MasterConfig where
  masterServer : Option CStr
  masterServerPort : Int
  masterRedirectPort : Int
  deriving DecidableEq, Repr

def updateMasterAsSlave (t : SlaveTable) (config : MasterConfig) : SlaveTable :=
  match config.masterServer with
  | none => t
  | some server =>
    if config.masterRedirectPort = 0 then t
    else if findSlaveHost t server config.masterServerPort = none then
      addSlaveHost t server config.masterServerPort
    else t

def lookup (l : List SlaveHost) (k : CStr × Int) : ℕ :=
  ((l.find? fun s => s.key = k).map fun s => s.count.toNat).getD 0

/-- `slave_count` counts the entries, no two share a key and every count is at least 1. -/
structure TableInv (t : SlaveTable) : Prop where
  count_eq : t.slaveCount = t.slaves.length
  nodup : (t.slaves.map SlaveHost.key).Nodup
  pos : ∀ s ∈ t.slaves, 1 ≤ s.count

section Entries

variable {server : CStr} {port : Int} {l : List SlaveHost} {k : CStr × Int}

theorem match_iff_key (s : SlaveHost) : (s.server = server ∧ s.port = port) ↔ s.key = (server, port) := by
  simp [SlaveHost.key]

theorem findSlaveHost_eq_none {t : SlaveTable} :
    findSlaveHost t server port = none ↔ (server, port) ∉ t.slaves.map SlaveHost.key := by
  simp [findSlaveHost, List.find?_eq_none, match_iff_key]

theorem mem_keys_of_findSlaveHost {t : SlaveTable} {s : SlaveHost}
    (h : findSlaveHost t server port = some s) : (server, port) ∈ t.slaves.map SlaveHost.key :=
  not_not.1 fun hn => by rw [findSlaveHost_eq_none.2 hn] at h; cases h

@[simp] theorem lookup_cons (s : SlaveHost) :
    lookup (s :: l) k = if s.key = k then s.count.toNat else lookup l k := by
  by_cases h : s.key = k <;> simp [lookup, h]

theorem lookup_of_not_mem (h : k ∉ l.map SlaveHost.key) : lookup l k = 0 := by
  induction l with
  | nil => rfl
  | cons s l ih =>
    simp only [List.map_cons, List.mem_cons, not_or] at h
    simp [Ne.symm h.1, ih h.2]

theorem bumpSlave_keys : (bumpSlave server port l).map SlaveHost.key = l.map SlaveHost.key := by
  induction l with
  | nil => rfl
  | cons s l ih => by_cases h : s.server = server ∧ s.port = port <;> simp [bumpSlave, h, ih, SlaveHost.key]

theorem bumpSlave_pos (hp : ∀ s ∈ l, 1 ≤ s.count) : ∀ s ∈ bumpSlave server port l, 1 ≤ s.count := by
  induction l with
  | nil => simp [bumpSlave]
  | cons s l ih =>
    simp only [List.mem_cons, forall_eq_or_imp] at hp
    by_cases h : s.server = server ∧ s.port = port
    · simp only [bumpSlave, h, and_self, if_true, List.mem_cons, forall_eq_or_imp]
      exact ⟨by omega, hp.2⟩
    · simp only [bumpSlave, h, if_false, List.mem_cons, forall_eq_or_imp]
      exact ⟨hp.1, ih hp.2⟩

theorem lookup_bumpSlave (hp : ∀ s ∈ l, 1 ≤ s.count) (hk : (server, port) ∈ l.map SlaveHost.key) :
    lookup (bumpSlave server port l) k =
      lookup l k + if k = (server, port) then 1 else 0 := by
  induction l with
  | nil => simp at hk
  | cons s l ih =>
    simp only [List.mem_cons, forall_eq_or_imp] at hp
    by_cases h : s.key = (server, port)
    · rw [bumpSlave, if_pos ((match_iff_key s).2 h), lookup_cons, lookup_cons, SlaveHost.key_count]
      by_cases hsk : s.key = k
      · rw [if_pos hsk, if_pos hsk, if_pos (hsk.symm.trans h)]; dsimp only; omega
      · rw [if_neg hsk, if_neg hsk, if_neg fun e => hsk (h.trans e.symm), Nat.add_zero]
    · have hk' : (server, port) ∈ l.map SlaveHost.key := by
        simp only [List.map_cons, List.mem_cons] at hk; exact hk.resolve_left (Ne.symm h)
      rw [bumpSlave, if_neg (mt (match_iff_key s).1 h), lookup_cons, lookup_cons, ih hp.2 hk']
      by_cases hsk : s.key = k
      · rw [if_pos hsk, if_pos hsk, if_neg fun e => h (hsk.trans e), Nat.add_zero]
      · rw [if_neg hsk, if_neg hsk]

theorem dropSlave_sublist :
    List.Sublist ((dropSlave server port l).1.map SlaveHost.key) (l.map SlaveHost.key) := by
  induction l with
  | nil => simp [dropSlave]
  | cons s l ih =>
    by_cases h : s.server = server ∧ s.port = port
    · by_cases h1 : s.count - 1 = 0
      · rw [dropSlave, if_pos h, if_pos h1]; exact List.sublist_cons_self _ _
      · rw [dropSlave, if_pos h, if_neg h1]; simp
    · simpa [dropSlave, h] using ih

theorem dropSlave_length :
    (dropSlave server port l).1.length + (if (dropSlave server port l).2 then 1 else 0) = l.length := by
  induction l with
  | nil => rfl
  | cons s l ih =>
    by_cases h : s.server = server ∧ s.port = port
    · by_cases h1 : s.count - 1 = 0 <;> simp [dropSlave, h, h1]
    · simp only [dropSlave, h, if_false, List.length_cons]; omega

theorem dropSlave_pos (hp : ∀ s ∈ l, 1 ≤ s.count) : ∀ s ∈ (dropSlave server port l).1, 1 ≤ s.count := by
  induction l with
  | nil => simp [dropSlave]
  | cons s l ih =>
    simp only [List.mem_cons, forall_eq_or_imp] at hp
    by_cases h : s.server = server ∧ s.port = port
    · by_cases h1 : s.count - 1 = 0
      · rw [dropSlave, if_pos h, if_pos h1]; exact hp.2
      · rw [dropSlave, if_pos h, if_neg h1]
        simp only [List.mem_cons, forall_eq_or_imp]
        exact ⟨by omega, hp.2⟩
    · simp only [dropSlave, h, if_false, List.mem_cons, forall_eq_or_imp]
      exact ⟨hp.1, ih hp.2⟩

theorem lookup_dropSlave (hn : (l.map SlaveHost.key).Nodup) (hp : ∀ s ∈ l, 1 ≤ s.count) :
    lookup (dropSlave server port l).1 k = lookup l k - if k = (server, port) then 1 else 0 := by
  induction l with
  | nil => simp [dropSlave, lookup]
  | cons s l ih =>
    simp only [List.map_cons, List.nodup_cons] at hn
    simp only [List.mem_cons, forall_eq_or_imp] at hp
    by_cases h : s.key = (server, port)
    · have hs : s.server = server ∧ s.port = port := (match_iff_key s).2 h
      by_cases hsk : s.key = k
      · subst hsk
        have hl : lookup l s.key = 0 := lookup_of_not_mem hn.1
        by_cases h1 : s.count - 1 = 0
        · rw [dropSlave, if_pos hs, if_pos h1, lookup_cons, if_pos rfl, hl, if_pos h]; omega
        · rw [dropSlave, if_pos hs, if_neg h1, lookup_cons, lookup_cons, SlaveHost.key_count,
            if_pos rfl, if_pos rfl, if_pos h]; dsimp only; omega
      · have hk : ¬ k = (server, port) := fun e => hsk (h.trans e.symm)
        by_cases h1 : s.count - 1 = 0
        · rw [dropSlave, if_pos hs, if_pos h1, lookup_cons, if_neg hsk, if_neg hk, Nat.sub_zero]
        · rw [dropSlave, if_pos hs, if_neg h1, lookup_cons, lookup_cons, SlaveHost.key_count,
            if_neg hsk, if_neg hsk, if_neg hk, Nat.sub_zero]
    · rw [dropSlave, if_neg (mt (match_iff_key s).1 h), lookup_cons, lookup_cons, ih hn.2 hp.2]
      by_cases hsk : s.key = k
      · rw [if_pos hsk, if_pos hsk, if_neg fun e => h (hsk.trans e), Nat.sub_zero]
      · rw [if_neg hsk, if_neg hsk]

theorem lookup_pos (hp : ∀ s ∈ l, 1 ≤ s.count) (hk : k ∈ l.map SlaveHost.key) : 0 < lookup l k := by
  induction l with
  | nil => simp at hk
  | cons s l ih =>
    simp only [List.mem_cons, forall_eq_or_imp] at hp
    simp only [List.map_cons, List.mem_cons] at hk
    rw [lookup_cons]
    by_cases hsk : s.key = k
    · rw [if_pos hsk]; omega
    · rw [if_neg hsk]; exact ih hp.2 (hk.resolve_left (Ne.symm hsk))

theorem dropSlave_bumpSlave (hp : ∀ s ∈ l, 1 ≤ s.count) :
    dropSlave server port (bumpSlave server port l) = (l, false) := by
  induction l with
  | nil => rfl
  | cons s rest ih =>
    simp only [List.mem_cons, forall_eq_or_imp] at hp
    by_cases h : s.server = server ∧ s.port = port
    · obtain ⟨sv, pt, n⟩ := s
      obtain ⟨rfl, rfl⟩ := h
      have hn : n ≠ 0 := by simp only at hp; omega
      simp [bumpSlave, dropSlave, hn]
    · simp [bumpSlave, dropSlave, h, ih hp.2]

end Entries

section Table

variable {t : SlaveTable} {server : CStr} {port : Int}

theorem tableInv_empty : TableInv ⟨[], 0⟩ := ⟨rfl, List.nodup_nil, by simp⟩

theorem addSlaveHost_spec (ht : TableInv t) (hk : findSlaveHost t server port = none) :
    TableInv (addSlaveHost t server port) ∧
      lookup (addSlaveHost t server port).slaves = Function.update (lookup t.slaves) (server, port) 1 := by
  refine ⟨⟨by simp [addSlaveHost, ht.count_eq], ?_, by simpa [addSlaveHost] using ht.pos⟩, ?_⟩
  · exact List.nodup_cons.2 ⟨findSlaveHost_eq_none.1 hk, ht.nodup⟩
  · funext k
    by_cases e : k = (server, port)
    · subst e; simp [addSlaveHost, SlaveHost.key]
    · simp [addSlaveHost, SlaveHost.key, Function.update_noteq e, Ne.symm e]

theorem bumpSlave_spec (ht : TableInv t) (hk : (server, port) ∈ t.slaves.map SlaveHost.key) :
    TableInv { t with slaves := bumpSlave server port t.slaves } ∧
      lookup (bumpSlave server port t.slaves) =
        Function.update (lookup t.slaves) (server, port) (lookup t.slaves (server, port) + 1) := by
  have hkeys : (bumpSlave server port t.slaves).map SlaveHost.key = t.slaves.map SlaveHost.key :=
    bumpSlave_keys
  refine ⟨⟨?_, hkeys ▸ ht.nodup, bumpSlave_pos ht.pos⟩, ?_⟩
  · have hlen := congrArg List.length hkeys
    simp only [List.length_map] at hlen
    exact ht.count_eq.trans (congrArg Nat.cast hlen.symm)
  · funext k
    rw [lookup_bumpSlave ht.pos hk, Function.update_apply]
    by_cases e : k = (server, port)
    · subst e; simp
    · simp [e]

theorem dropSlave_spec (ht : TableInv t) :
    let r := dropSlave server port t.slaves
    TableInv ⟨r.1, if r.2 then t.slaveCount - 1 else t.slaveCount⟩ ∧
      lookup r.1 = Function.update (lookup t.slaves) (server, port) (lookup t.slaves (server, port) - 1) := by
  have hlen : (dropSlave server port t.slaves).1.length +
      (if (dropSlave server port t.slaves).2 then 1 else 0) = t.slaves.length := dropSlave_length
  refine ⟨⟨?_, (dropSlave_sublist.nodup ht.nodup), dropSlave_pos ht.pos⟩, ?_⟩
  · have := ht.count_eq
    dsimp only
    cases h2 : (dropSlave server port t.slaves).2 <;>
      simp only [h2, Bool.false_eq_true, if_true, if_false] at hlen ⊢ <;> omega
  · funext k
    rw [lookup_dropSlave ht.nodup ht.pos, Function.update_apply]
    by_cases e : k = (server, port)
    · subst e; simp
    · simp [e]

/-- A `slave_host_remove` with the header a `slave_host_add` was given restores the table exactly,
whether the add linked a new entry or bumped an old one. -/
theorem slaveHostRemove_slaveHostAdd (client : ℕ) (header : CStr) (hp : ∀ s ∈ t.slaves, 1 ≤ s.count) :
    slaveHostRemove (slaveHostAdd t (some client) (some header)) (some header) = t := by
  cases hk : redirectKey header with
  | none => simp [slaveHostAdd, slaveHostRemove, hk]
  | some k =>
    obtain ⟨server, port⟩ := k
    cases hf : findSlaveHost t server port with
    | none => simp [slaveHostAdd, slaveHostRemove, hk, hf, addSlaveHost, dropSlave]
    | some _ => simp [slaveHostAdd, slaveHostRemove, hk, hf, dropSlave_bumpSlave hp]

theorem slaveHostRemove_slaveHostAdd_sample :
    (∀ s ∈ ([⟨[97], 1, 2⟩] : List SlaveHost), 1 ≤ s.count) ∧
      slaveHostRemove (slaveHostAdd ⟨[⟨[97], 1, 2⟩], 1⟩ (some 0) (some [97, 58, 49]))
        (some [97, 58, 49]) = ⟨[⟨[97], 1, 2⟩], 1⟩ :=
  ⟨by decide, slaveHostRemove_slaveHostAdd (t := ⟨[⟨[97], 1, 2⟩], 1⟩) 0 _ (by decide)⟩

end Table

inductive SlaveRequest
  | add (client : Option ℕ) (header : Option CStr)
  | remove (redirect : Option CStr)
  | masterAsSlave (config : MasterConfig)
  deriving DecidableEq, Repr

def SlaveRequest.apply (t : SlaveTable) : SlaveRequest → SlaveTable
  | .add client header => slaveHostAdd t client header
  | .remove redirect => slaveHostRemove t redirect
  | .masterAsSlave config => updateMasterAsSlave t config

def slaveTableRun (reqs : List SlaveRequest) : SlaveTable :=
  reqs.foldl SlaveRequest.apply ⟨[], 0⟩

/-- The reference: a multiset of keys as a count per key; a remove never goes below 0, and the
master is inserted with 1 when absent. -/
def SlaveRequest.spec (m : CStr × Int → ℕ) : SlaveRequest → CStr × Int → ℕ
  | .add (some _) (some header) =>
    match redirectKey header with
    | some k => Function.update m k (m k + 1)
    | none => m
  | .add _ _ => m
  | .remove (some var) =>
    match redirectKey var with
    | some k => Function.update m k (m k - 1)
    | none => m
  | .remove none => m
  | .masterAsSlave config =>
    match config.masterServer with
    | some server =>
      let k := (server, config.masterServerPort)
      if config.masterRedirectPort ≠ 0 ∧ m k = 0 then Function.update m k 1 else m
    | none => m

/-- One request keeps the invariant and moves the table's counts as the reference moves. -/
theorem tableInv_apply {t : SlaveTable} (ht : TableInv t) :
    ∀ q : SlaveRequest, TableInv (q.apply t) ∧ lookup (q.apply t).slaves = q.spec (lookup t.slaves)
  | .add (some _) (some header) => by
    simp only [SlaveRequest.apply, SlaveRequest.spec, slaveHostAdd]
    cases redirectKey header with
    | none => exact ⟨ht, rfl⟩
    | some k =>
      obtain ⟨server, port⟩ := k
      cases hf : findSlaveHost t server port with
      | none =>
        simp only [hf, lookup_of_not_mem (findSlaveHost_eq_none.1 hf)]
        exact addSlaveHost_spec ht hf
      | some _ =>
        simp only [hf]
        exact bumpSlave_spec ht (mem_keys_of_findSlaveHost hf)
  | .add none _ | .add (some _) none | .remove none => ⟨ht, rfl⟩
  | .remove (some var) => by
    simp only [SlaveRequest.apply, SlaveRequest.spec, slaveHostRemove]
    cases redirectKey var with
    | none => exact ⟨ht, rfl⟩
    | some k => obtain ⟨server, port⟩ := k; exact dropSlave_spec ht
  | .masterAsSlave config => by
    simp only [SlaveRequest.apply, SlaveRequest.spec, updateMasterAsSlave]
    cases config.masterServer with
    | none => exact ⟨ht, rfl⟩
    | some server =>
      by_cases hr : config.masterRedirectPort = 0
      · simp only [hr, if_true, ne_eq, not_true_eq_false, false_and, if_false, and_true]
        exact ht
      · cases hf : findSlaveHost t server config.masterServerPort with
        | none =>
          simp only [hr, hf, if_true, if_false, ne_eq, not_false_eq_true, true_and,
            lookup_of_not_mem (findSlaveHost_eq_none.1 hf)]
          exact addSlaveHost_spec ht hf
        | some _ =>
          have hpos := lookup_pos ht.pos (mem_keys_of_findSlaveHost hf)
          simp only [hr, hf, if_false, ne_eq, not_false_eq_true, true_and, Nat.pos_iff_ne_zero.1 hpos,
            reduceCtorEq, and_true]
          exact ht

theorem slaveTable_foldl {t : SlaveTable} (ht : TableInv t) (reqs : List SlaveRequest) :
    TableInv (reqs.foldl SlaveRequest.apply t) ∧
      lookup (reqs.foldl SlaveRequest.apply t).slaves = reqs.foldl SlaveRequest.spec (lookup t.slaves) := by
  induction reqs generalizing t with
  | nil => exact ⟨ht, rfl⟩
  | cons q reqs ih =>
    obtain ⟨hq, hl⟩ := tableInv_apply ht q
    simpa only [List.foldl_cons, hl] using ih hq

/-- Every table the requests build from the empty one keeps the invariant, and its counts
are those of the reference multiset. -/
theorem slaveTableRun_refines (reqs : List SlaveRequest) :
    TableInv (slaveTableRun reqs) ∧
      lookup (slaveTableRun reqs).slaves = reqs.foldl SlaveRequest.spec fun _ => 0 :=
  slaveTable_foldl tableInv_empty reqs

example : slaveTableRun [.add (some 0) (some [97, 58, 49]), .add (some 1) (some [97, 58, 48, 49]),
    .remove (some [97, 58, 49])] = ⟨[⟨[97], 1, 1⟩], 1⟩ := by decide

end IcecastRelay

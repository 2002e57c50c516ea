import IcecastRelay.Relay
import Mathlib.Data.List.Basic

/-! # The master stream list

`streamlist_data` receives `/admin/streamlist.txt` in chunks, keeps the incomplete last line in
`buffer[0, previous)` and prepends a relay per non-empty line to `new_relays`. -/
namespace IcecastRelay

/-- The fields of `struct master_conn_details`; `buffer` holds the bytes of the allocation that
are read again, its first `previous`. -/
structure MasterConnDetails where
  server : CStr
  port : Int
  sslPort : Int
  sendAuth : Int
  onDemand : Int
  previous : ℕ
  ok : Int
  buffer : List UInt8
  username : CStr
  password : CStr
  newRelays : List RelayServer

/-- The relay `streamlist_data` callocs for the mountpoint `text`. -/
def masterRelay (master : MasterConnDetails) (text : CStr) : RelayServer where
  server := master.server
  port := master.port
  mount := text
  localmount := text
  username := if master.sendAuth ≠ 0 then some master.username else none
  password := if master.sendAuth ≠ 0 then some master.password else none
  mp3metadata := 1
  onDemand := master.onDemand
  enable := 1
  source := none
  thread := none
  running := false
  cleanup := false

/-- `eol = strchr (buf, '\r'); if (eol) *eol = '\0';` -/
def cutCR (b : List UInt8) : List UInt8 :=
  match strchr b 13 with
  | some j => b.set j 0
  | none => b

/-- The `while (len)` loop of `streamlist_data`, `buf` being the allocation from `buf` on; each
turn consumes a byte, so `len` turns are enough. -/
def streamlistScan : ℕ → MasterConnDetails → List UInt8 → ℕ → MasterConnDetails
  | 0, master, _, _ => master
  | fuel + 1, master, buf, len =>
    if len = 0 then master
    else
      match strchr buf 10 with
      | none =>
        -- incomplete line, the rest may be in the next read
        let rest := strlen buf
        { master with previous := rest, buffer := buf.take rest }
      | some i =>
        let b₁ := buf.set i 0
        let b₂ := cutCR b₁
        let master' := if strlen b₂ ≠ 0 then
            { master with newRelays := masterRelay master (b₂.take (strlen b₂)) :: master.newRelays }
          else master
        streamlistScan fuel master' (b₁.drop (i + 1)) (len - (i + 1))

def streamlistLoop (master : MasterConnDetails) (buf : List UInt8) (len : ℕ) :
    MasterConnDetails :=
  streamlistScan len master buf len

/-- The allocation after `realloc`, `memcpy` and `buffer [len-1] = 0`: the kept bytes, the chunk,
and the NUL. -/
def chunkBuffer (master : MasterConnDetails) (ptr : List UInt8) : List UInt8 :=
  master.buffer.take master.previous ++ ptr ++ [0]

/-- `streamlist_data` for one chunk `ptr`: append it to the kept bytes, terminate, scan. -/
def streamlistData (master : MasterConnDetails) (ptr : List UInt8) : MasterConnDetails :=
  let len := ptr.length + master.previous + 1
  streamlistLoop { master with buffer := chunkBuffer master ptr } (chunkBuffer master ptr) len

def streamlistRun (master : MasterConnDetails) (chunks : List (List UInt8)) :
    MasterConnDetails :=
  chunks.foldl streamlistData master

section Loop

variable {master : MasterConnDetails} {buf : List UInt8} {len i : ℕ}

theorem streamlistScan_succ {fuel : ℕ} (h : len ≤ fuel) :
    streamlistScan (fuel + 1) master buf len = streamlistScan fuel master buf len := by
  induction fuel generalizing master buf len with
  | zero => obtain rfl : len = 0 := by omega
            simp [streamlistScan]
  | succ k ih =>
    by_cases h0 : len = 0
    · simp [streamlistScan, h0]
    rw [streamlistScan, if_neg h0, streamlistScan, if_neg h0]
    split
    · rfl
    · exact ih (by omega)

theorem streamlistScan_eq {fuel : ℕ} (h : len ≤ fuel) :
    streamlistScan fuel master buf len = streamlistLoop master buf len := by
  induction fuel, h using Nat.le_induction with
  | base => rfl
  | succ k hk ih => rw [streamlistScan_succ hk, ih]

theorem streamlistLoop_none (hlen : len ≠ 0) (h : strchr buf 10 = none) :
    streamlistLoop master buf len =
      { master with previous := strlen buf, buffer := buf.take (strlen buf) } := by
  obtain ⟨k, rfl⟩ := Nat.exists_eq_succ_of_ne_zero hlen
  rw [streamlistLoop, streamlistScan, if_neg hlen, h]

theorem streamlistLoop_some (hlen : len ≠ 0) (h : strchr buf 10 = some i) :
    streamlistLoop master buf len =
      let b₁ := buf.set i 0
      let b₂ := cutCR b₁
      streamlistLoop (if strlen b₂ ≠ 0 then
          { master with newRelays := masterRelay master (b₂.take (strlen b₂)) :: master.newRelays }
        else master) (b₁.drop (i + 1)) (len - (i + 1)) := by
  obtain ⟨k, rfl⟩ := Nat.exists_eq_succ_of_ne_zero hlen
  rw [streamlistLoop, streamlistScan, if_neg hlen, h]
  exact streamlistScan_eq (by omega)

end Loop

theorem streamlistScan_made (fuel : ℕ) (master : MasterConnDetails) (buf : List UInt8)
    (len : ℕ) : ∃ l, (streamlistScan fuel master buf len).newRelays = l ++ master.newRelays ∧
      ∀ r ∈ l, ∃ text, r = masterRelay master text := by
  induction fuel generalizing master buf len with
  | zero => exact ⟨[], rfl, by simp⟩
  | succ k ih =>
    rw [streamlistScan]
    split_ifs
    · exact ⟨[], rfl, by simp⟩
    split
    · exact ⟨[], rfl, by simp⟩
    · dsimp only
      split_ifs
      · obtain ⟨l, hl, hs⟩ := ih ({ master with newRelays := _ :: master.newRelays }) _ _
        refine ⟨l ++ [_], by simpa using hl, fun r hr => ?_⟩
        rcases List.mem_append.1 hr with hr | hr
        · exact hs r hr
        · exact ⟨_, List.mem_singleton.1 hr⟩
      · exact ih master _ _

theorem streamlistScan_newRelays (fuel : ℕ) (master : MasterConnDetails) (buf : List UInt8)
    (len : ℕ) : ∃ l, (streamlistScan fuel master buf len).newRelays = l ++ master.newRelays ∧
      ∀ r ∈ l, r.source = none := by
  obtain ⟨l, hl, hm⟩ := streamlistScan_made fuel master buf len
  exact ⟨l, hl, fun r hr => by obtain ⟨_, rfl⟩ := hm r hr; rfl⟩

theorem streamlistScan_fields (fuel : ℕ) (master : MasterConnDetails) (buf : List UInt8)
    (len : ℕ) : ∃ p b l, streamlistScan fuel master buf len =
      { master with previous := p, buffer := b, newRelays := l } := by
  induction fuel generalizing master buf len with
  | zero => exact ⟨_, _, _, rfl⟩
  | succ k ih =>
    rw [streamlistScan]
    split_ifs
    · exact ⟨_, _, _, rfl⟩
    split
    · exact ⟨_, _, _, rfl⟩
    · dsimp only
      split_ifs
      · exact ih _ _ _
      · exact ih _ _ _

@[simp] theorem streamlistData_ok (master : MasterConnDetails) (ptr : List UInt8) :
    (streamlistData master ptr).ok = master.ok := by
  obtain ⟨p, b, l, h⟩ := streamlistScan_fields (ptr.length + master.previous + 1)
    { master with buffer := chunkBuffer master ptr } (chunkBuffer master ptr) (ptr.length + master.previous + 1)
  simp only [streamlistData, streamlistLoop, h]

theorem streamlistData_threads (master : MasterConnDetails) (ptr : List UInt8) :
    ∃ l, (streamlistData master ptr).newRelays = l ++ master.newRelays ∧ ∀ r ∈ l, r.thread = none := by
  obtain ⟨l, hl, hm⟩ := streamlistScan_made (ptr.length + master.previous + 1)
    { master with buffer := chunkBuffer master ptr } (chunkBuffer master ptr) (ptr.length + master.previous + 1)
  exact ⟨l, hl, fun r hr => by obtain ⟨_, rfl⟩ := hm r hr; rfl⟩

theorem streamlistData_newRelays (master : MasterConnDetails) (ptr : List UInt8) :
    ∃ l, (streamlistData master ptr).newRelays = l ++ master.newRelays ∧ ∀ r ∈ l, r.source = none :=
  streamlistScan_newRelays _ _ _ _


section Scan

variable {x z : List UInt8} {c : UInt8}

theorem strchr_append_cons_self (h0 : 0 ∉ x) (hcx : c ∉ x) :
    strchr (x ++ c :: z) c = some x.length := by
  induction x with
  | nil => simp [strchr]
  | cons b x ih =>
    simp only [List.mem_cons, not_or] at h0 hcx
    simp [strchr, Ne.symm hcx.1, Ne.symm h0.1, ih h0.2 hcx.2]

theorem strchr_append_nul (hc : c ≠ 0) (h0 : 0 ∉ x) (hcx : c ∉ x) :
    strchr (x ++ 0 :: z) c = none := by
  induction x with
  | nil => simp [strchr, Ne.symm hc]
  | cons b x ih =>
    simp only [List.mem_cons, not_or] at h0 hcx
    simp [strchr, Ne.symm hcx.1, Ne.symm h0.1, ih h0.2 hcx.2]

theorem strlen_append_nul (h0 : 0 ∉ x) : strlen (x ++ 0 :: z) = x.length := by
  induction x with
  | nil => simp [strlen]
  | cons b x ih =>
    simp only [List.mem_cons, not_or] at h0
    simp [strlen, Ne.symm h0.1, ih h0.2]

theorem set_length_append (x z : List UInt8) (a v : UInt8) :
    (x ++ a :: z).set x.length v = x ++ v :: z := by
  induction x <;> simp_all

theorem exists_first {c : UInt8} {x : List UInt8} (h : c ∈ x) :
    ∃ pre post, x = pre ++ c :: post ∧ c ∉ pre := by
  induction x with
  | nil => simp at h
  | cons b x ih =>
    by_cases hb : b = c
    · exact ⟨[], x, by simp [hb], by simp⟩
    · obtain ⟨pre, post, rfl, hpre⟩ := ih (by simpa [Ne.symm hb] using h)
      exact ⟨b :: pre, post, rfl, by simp [hpre, Ne.symm hb]⟩

theorem lineText (h0 : 0 ∉ x) :
    strlen (cutCR (x ++ 0 :: z)) = (x.takeWhile (· ≠ 13)).length ∧
      (cutCR (x ++ 0 :: z)).take (strlen (cutCR (x ++ 0 :: z))) = x.takeWhile (· ≠ 13) := by
  by_cases h13 : (13 : UInt8) ∈ x
  · obtain ⟨pre, post, rfl, hpre⟩ := exists_first h13
    have h0' : (0 : UInt8) ∉ pre := fun h => h0 (by simp [h])
    have htw : (pre ++ 13 :: post).takeWhile (· ≠ 13) = pre := by
      rw [List.takeWhile_append_of_pos (by simpa using fun a (ha : a ∈ pre) (h : a = 13) => hpre (h ▸ ha))]
      simp
    simp only [cutCR, List.append_assoc, List.cons_append, strchr_append_cons_self h0' hpre,
      set_length_append, strlen_append_nul h0', htw]
    simp
  · have htw : x.takeWhile (· ≠ 13) = x :=
      List.takeWhile_eq_self_iff.2 (by simpa using fun a (ha : a ∈ x) (h : a = 13) => h13 (h ▸ ha))
    simp only [cutCR, strchr_append_nul (by decide) h0 h13, strlen_append_nul h0, htw]
    simp

end Scan

/-- The spec's reading of a stream-list body: its `\n`-terminated lines, the first starting with
`cur`, and the bytes after the last `\n`. -/
def splitLines (cur : List UInt8) : List UInt8 → List (List UInt8) × List UInt8
  | [] => ([], cur)
  | b :: s =>
    if b = 10 then
      let r := splitLines [] s
      (cur :: r.1, r.2)
    else splitLines (cur ++ [b]) s

/-- The relay the spec asks for a line: its text before the first `\r`, when not empty. -/
def lineRelay (master : MasterConnDetails) (line : List UInt8) : Option RelayServer :=
  let text := line.takeWhile (· ≠ 13)
  if text = [] then none else some (masterRelay master text)

theorem splitLines_of_not_mem {cur x : List UInt8} (h : (10 : UInt8) ∉ x) :
    splitLines cur x = ([], cur ++ x) := by
  induction x generalizing cur with
  | nil => simp [splitLines]
  | cons b x ih =>
    simp only [List.mem_cons, not_or] at h
    simp [splitLines, Ne.symm h.1, ih h.2]

theorem splitLines_line {cur line rest : List UInt8} (h : (10 : UInt8) ∉ line) :
    splitLines cur (line ++ 10 :: rest) =
      ((cur ++ line) :: (splitLines [] rest).1, (splitLines [] rest).2) := by
  induction line generalizing cur with
  | nil => simp [splitLines]
  | cons b line ih =>
    simp only [List.mem_cons, not_or] at h
    simp [splitLines, Ne.symm h.1, ih h.2]

theorem splitLines_append (cur a b : List UInt8) :
    splitLines cur (a ++ b) =
      ((splitLines cur a).1 ++ (splitLines (splitLines cur a).2 b).1,
        (splitLines (splitLines cur a).2 b).2) := by
  induction a generalizing cur with
  | nil => simp [splitLines]
  | cons x a ih => by_cases hx : x = 10 <;> simp [splitLines, hx, ih]

theorem splitLines_snd {cur x : List UInt8} (h : (10 : UInt8) ∉ cur) :
    (10 : UInt8) ∉ (splitLines cur x).2 ∧ ∀ b ∈ (splitLines cur x).2, b ∈ cur ∨ b ∈ x := by
  induction x generalizing cur with
  | nil => simpa [splitLines] using h
  | cons b x ih =>
    by_cases hb : b = 10
    · have := @ih [] (by simp)
      simp only [splitLines, hb, if_true]
      exact ⟨this.1, fun a ha => by simpa using .inr (Or.inr ((this.2 a ha).resolve_left (by simp)))⟩
    · have := @ih (cur ++ [b]) (by simp [h, Ne.symm hb])
      simp only [splitLines, hb, if_false]
      refine ⟨this.1, fun a ha => ?_⟩
      rcases this.2 a ha with h' | h'
      · rcases List.mem_append.1 h' with h' | h'
        · exact .inl h'
        · exact .inr (List.mem_cons.2 (.inl (List.mem_singleton.1 h')))
      · simp [h']

@[simp] theorem lineRelay_buffer (master : MasterConnDetails) (l : List UInt8) :
    lineRelay { master with buffer := l } = lineRelay master := rfl

@[simp] theorem lineRelay_newRelays (master : MasterConnDetails) (l : List RelayServer) :
    lineRelay { master with newRelays := l } = lineRelay master := rfl

@[simp] theorem lineRelay_scanned (master : MasterConnDetails) (p : ℕ) (b : List UInt8)
    (l : List RelayServer) :
    lineRelay { master with previous := p, buffer := b, newRelays := l } = lineRelay master := rfl

theorem streamlistLoop_scan (master : MasterConnDetails) {x : List UInt8} (h0 : 0 ∉ x) :
    streamlistLoop master (x ++ [0]) (x.length + 1) =
      { master with
        previous := (splitLines [] x).2.length
        buffer := (splitLines [] x).2
        newRelays := ((splitLines [] x).1.filterMap (lineRelay master)).reverse ++
          master.newRelays } := by
  induction' hn : x.length using Nat.strong_induction_on with n ih generalizing x master
  by_cases h10 : (10 : UInt8) ∈ x
  · obtain ⟨line, rest, rfl, hline⟩ := exists_first h10
    have h0l : (0 : UInt8) ∉ line := fun h => h0 (by simp [h])
    have h0r : (0 : UInt8) ∉ rest := fun h => h0 (by simp [h])
    have hbuf : line ++ 10 :: rest ++ [0] = line ++ 10 :: (rest ++ [0]) := by simp
    obtain ⟨hlen, htext⟩ := lineText (z := rest ++ [0]) h0l
    rw [hbuf, streamlistLoop_some (by omega) (strchr_append_cons_self h0l hline)]
    simp only [set_length_append]
    rw [htext, hlen]
    have hdrop : (line ++ 0 :: (rest ++ [0])).drop (line.length + 1) = rest ++ [0] := by simp
    have hn' : n + 1 - (line.length + 1) = rest.length + 1 := by simp at hn; omega
    have hih := ih rest.length (by simp at hn; omega)
    by_cases ht : line.takeWhile (· ≠ 13) = []
    · have hl : lineRelay master line = none := by simp only [lineRelay, ht, if_true]
      rw [if_neg (by rw [ht]; simp), hdrop, hn', hih _ h0r rfl, splitLines_line hline]
      simp [List.filterMap_cons, hl]
    · have hl : lineRelay master line = some (masterRelay master (line.takeWhile (· ≠ 13))) := by
        simp only [lineRelay, ht, if_false]
      rw [if_pos fun h => ht (List.length_eq_zero.1 h), hdrop, hn', hih _ h0r rfl,
        splitLines_line hline]
      simp [List.filterMap_cons, hl]
  · rw [streamlistLoop_none (by omega) (by simpa using strchr_append_nul (z := []) (by decide) h0 h10),
      splitLines_of_not_mem h10]
    simp [strlen_append_nul (z := []) h0]

theorem streamlistData_eq (master : MasterConnDetails) {c : List UInt8} (hc : (0 : UInt8) ∉ c)
    (hlen : master.buffer.length = master.previous) (h0 : (0 : UInt8) ∉ master.buffer)
    (h10 : (10 : UInt8) ∉ master.buffer) :
    streamlistData master c =
      { master with
        previous := (splitLines master.buffer c).2.length
        buffer := (splitLines master.buffer c).2
        newRelays := ((splitLines master.buffer c).1.filterMap (lineRelay master)).reverse ++
          master.newRelays } := by
  have hx : (0 : UInt8) ∉ master.buffer ++ c := by simp [h0, hc]
  have hsplit : splitLines [] (master.buffer ++ c) = splitLines master.buffer c := by
    rw [splitLines_append, splitLines_of_not_mem h10]; simp
  unfold streamlistData chunkBuffer
  rw [← hlen, List.take_length, show c.length + master.buffer.length + 1 =
    (master.buffer ++ c).length + 1 by simp; omega, streamlistLoop_scan _ hx, hsplit]
  simp only [lineRelay_scanned]

theorem streamlistRun_eq (master : MasterConnDetails) (chunks : List (List UInt8))
    (hc : ∀ c ∈ chunks, (0 : UInt8) ∉ c) (hlen : master.buffer.length = master.previous)
    (h0 : (0 : UInt8) ∉ master.buffer) (h10 : (10 : UInt8) ∉ master.buffer) :
    streamlistRun master chunks =
      { master with
        previous := (splitLines master.buffer chunks.flatten).2.length
        buffer := (splitLines master.buffer chunks.flatten).2
        newRelays := ((splitLines master.buffer chunks.flatten).1.filterMap (lineRelay master)).reverse ++
          master.newRelays } := by
  induction chunks generalizing master with
  | nil => cases master; simp_all [streamlistRun, splitLines]
  | cons c cs ih =>
    have hc' : ∀ c ∈ cs, (0 : UInt8) ∉ c := fun c' h => hc c' (List.mem_cons_of_mem _ h)
    obtain ⟨hr10, hrmem⟩ := splitLines_snd (x := c) h10
    have hr0 : (0 : UInt8) ∉ (splitLines master.buffer c).2 := fun h =>
      (hrmem 0 h).elim h0 (hc c (List.mem_cons_self _ _))
    have hrun : streamlistRun master (c :: cs) = streamlistRun (streamlistData master c) cs := rfl
    rw [hrun, streamlistData_eq master (hc c (List.mem_cons_self _ _)) hlen h0 h10,
      ih _ hc' rfl hr0 hr10, List.flatten_cons, splitLines_append]
    simp only [lineRelay_scanned, List.filterMap_append, List.reverse_append, List.append_assoc]

/-- For a body without NUL bytes, cut into chunks in any way, `streamlist_data` prepends one relay
per `\n`-terminated line with non-empty text, in line order, and keeps the bytes after the last
`\n`. -/
theorem streamlistRun_lines (master : MasterConnDetails) (chunks : List (List UInt8))
    (hprev : master.previous = 0) (hbuf : master.buffer = [])
    (hnul : ∀ c ∈ chunks, (0 : UInt8) ∉ c) :
    let m := streamlistRun master chunks
    m.newRelays = ((splitLines [] chunks.flatten).1.filterMap (lineRelay master)).reverse ++
      master.newRelays ∧
    m.buffer.take m.previous = (splitLines [] chunks.flatten).2 ∧
    ∀ chunks' : List (List UInt8), (∀ c ∈ chunks', (0 : UInt8) ∉ c) →
      chunks'.flatten = chunks.flatten → streamlistRun master chunks' = m := by
  have hrun := fun chunks hnul =>
    streamlistRun_eq master chunks hnul (by simp [hbuf, hprev]) (by simp [hbuf]) (by simp [hbuf])
  refine ⟨by rw [hrun _ hnul, hbuf], by rw [hrun _ hnul, hbuf]; simp, fun chunks' hnul' hj => ?_⟩
  rw [hrun _ hnul, hrun _ hnul', hj]

theorem streamlistRun_lines_sample :
    let master : MasterConnDetails := ⟨[104], 8000, 0, 0, 0, 0, 0, [], [], [], []⟩
    let chunks : List (List UInt8) := [[47, 97, 10, 47], [98, 13, 10, 10, 47, 99]]
    (master.previous = 0 ∧ master.buffer = [] ∧ ∀ c ∈ chunks, (0 : UInt8) ∉ c) ∧
    let m := streamlistRun master chunks
    (m.newRelays = ((splitLines [] chunks.flatten).1.filterMap (lineRelay master)).reverse ++
      master.newRelays ∧
    m.buffer.take m.previous = (splitLines [] chunks.flatten).2 ∧
    ∀ chunks' : List (List UInt8), (∀ c ∈ chunks', (0 : UInt8) ∉ c) →
      chunks'.flatten = chunks.flatten → streamlistRun master chunks' = m) :=
  ⟨⟨rfl, rfl, by decide⟩, streamlistRun_lines _ _ rfl rfl (by decide)⟩

section Turns

variable {buffer buf : List UInt8} {len i : ℕ}

theorem strchr_some {l : List UInt8} {c : UInt8} (hc : c ≠ 0) (h : strchr l c = some i) :
    i < strlen l ∧ c ∈ l.take (i + 1) := by
  induction l generalizing i with
  | nil => cases h
  | cons b s ih =>
    by_cases hb : b = c
    · subst hb
      obtain rfl : i = 0 := by simpa [strchr] using h.symm
      simp [strlen, hc]
    · rw [strchr, if_neg hb] at h
      by_cases h0 : b = 0
      · rw [if_pos h0] at h; cases h
      · rw [if_neg h0] at h
        obtain ⟨j, hj, rfl⟩ := Option.map_eq_some'.1 h
        obtain ⟨h₁, h₂⟩ := ih hj
        simp [strlen, h0, h₁, h₂]

theorem strlen_lt_length {l : List UInt8} (h : l.getLast? = some 0) : strlen l < l.length := by
  induction l with
  | nil => cases h
  | cons b s ih =>
    by_cases h0 : b = 0
    · simp [strlen, h0]
    · cases s with
      | nil => simp at h; exact absurd h h0
      | cons b' s =>
        have := ih (by simpa using h)
        simp only [strlen, h0, if_false, List.length_cons] at this ⊢
        omega

/-- `streamlistScan` with the `(buf, len)` at the head of each turn of its loop recorded. -/
def streamlistTurns : ℕ → MasterConnDetails → List UInt8 → ℕ →
    MasterConnDetails × List (List UInt8 × ℕ)
  | 0, master, _, _ => (master, [])
  | fuel + 1, master, buf, len =>
    if len = 0 then (master, [])
    else
      match strchr buf 10 with
      | none => ({ master with previous := strlen buf, buffer := buf.take (strlen buf) }, [(buf, len)])
      | some i =>
        let b₁ := buf.set i 0
        let b₂ := cutCR b₁
        let t := streamlistTurns fuel (if strlen b₂ ≠ 0 then
            { master with newRelays := masterRelay master (b₂.take (strlen b₂)) :: master.newRelays }
          else master) (b₁.drop (i + 1)) (len - (i + 1))
        (t.1, (buf, len) :: t.2)

theorem streamlistTurns_fst (fuel : ℕ) (master : MasterConnDetails) (buf : List UInt8) (len : ℕ) :
    (streamlistTurns fuel master buf len).1 = streamlistScan fuel master buf len := by
  induction fuel generalizing master buf len with
  | zero => rfl
  | succ k ih =>
    rw [streamlistTurns, streamlistScan]
    split_ifs
    · rfl
    split
    · rfl
    · exact ih _ _ _

/-- A turn over the allocation `buffer`: `buf` is its last `len` bytes
(`buf + len = buffer + total`), and `len ≥ 1`. -/
structure Turn (buffer buf : List UInt8) (len : ℕ) : Prop where
  offset : buf = buffer.drop (buffer.length - len)
  pos : 1 ≤ len
  le : len ≤ buffer.length

theorem Turn.length (ht : Turn buffer buf len) : buf.length = len := by
  rw [ht.offset, List.length_drop]
  have := ht.le
  omega

variable (hnul : buffer.getLast? = some 0)
include hnul

theorem Turn.strlen_lt (ht : Turn buffer buf len) : strlen buf < len := by
  have hlast : buf.getLast? = some 0 := by
    rw [ht.offset, List.getLast?_drop, if_neg (by have := ht.pos; have := ht.le; omega), hnul]
  exact ht.length ▸ strlen_lt_length hlast

theorem Turn.step (ht : Turn buffer buf len) (h : strchr buf 10 = some i) :
    i + 1 ≤ len - 1 ∧ Turn buffer ((buf.set i 0).drop (i + 1)) (len - (i + 1)) ∧
      ((buf.set i 0).drop (i + 1)).count 10 + 1 ≤ buf.count 10 := by
  obtain ⟨hi, hmem⟩ := strchr_some (by decide) h
  have hs := ht.strlen_lt hnul
  have hle := ht.le
  rw [List.drop_set_of_lt _ _ (Nat.lt_add_one i)]
  refine ⟨by omega, ⟨?_, by omega, by omega⟩, ?_⟩
  · rw [ht.offset, List.drop_drop]
    congr 1
    omega
  · have hc := List.count_pos_iff.2 hmem
    have hsplit : buf.count 10 = (buf.take (i + 1)).count 10 + (buf.drop (i + 1)).count 10 := by
      rw [← List.count_append, List.take_append_drop]
    omega

theorem streamlistTurns_spec : ∀ {fuel : ℕ} (master : MasterConnDetails) {buf : List UInt8} {len : ℕ},
    Turn buffer buf len → len ≤ fuel →
      (∀ p ∈ (streamlistTurns fuel master buf len).2, Turn buffer p.1 p.2 ∧ strlen p.1 < p.2 ∧
        ∀ i, strchr p.1 10 = some i → 1 ≤ i + 1 ∧ i + 1 ≤ p.2 - 1) ∧
      (∃ p, (streamlistTurns fuel master buf len).2.getLast? = some p ∧ strchr p.1 10 = none ∧
        (streamlistTurns fuel master buf len).1.previous = strlen p.1) ∧
      (streamlistTurns fuel master buf len).2.length ≤ buf.count 10 + 1
  | 0, _, _, _, ht, hf => absurd ht.pos (by omega)
  | fuel + 1, master, buf, len, ht, hf => by
    have hturn : Turn buffer buf len ∧ strlen buf < len ∧
        ∀ i, strchr buf 10 = some i → 1 ≤ i + 1 ∧ i + 1 ≤ len - 1 :=
      ⟨ht, ht.strlen_lt hnul, fun i h => ⟨by omega, (ht.step hnul h).1⟩⟩
    have hlen : len ≠ 0 := by have := ht.pos; omega
    cases hc : strchr buf 10 with
    | none =>
      simp only [streamlistTurns, if_neg hlen, hc]
      exact ⟨fun p hp => by rw [List.mem_singleton.1 hp]; exact hturn, ⟨_, rfl, hc, rfl⟩, by simp⟩
    | some i =>
      simp only [streamlistTurns, if_neg hlen, hc]
      obtain ⟨-, ht', hcount⟩ := ht.step hnul hc
      obtain ⟨h₁, ⟨p, hp, hpc, hprev⟩, h₃⟩ := streamlistTurns_spec _ ht'
        (by omega : len - (i + 1) ≤ fuel)
      refine ⟨fun q hq => ?_, ⟨p, ?_, hpc, hprev⟩, by rw [List.length_cons]; omega⟩
      · rcases List.mem_cons.1 hq with rfl | hq
        · exact hturn
        · exact h₁ q hq
      · rw [List.getLast?_cons, hp]; rfl

end Turns

/-- The turns of the `while (len)` loop of `streamlist_data` itself: each stays within the
allocation it builds, and the loop ends at the incomplete-line `break` after at most one turn per
`\n` and one more. -/
theorem streamlistData_turns (master : MasterConnDetails) (ptr : List UInt8)
    (hprev : master.previous ≤ master.buffer.length) :
    let total := ptr.length + master.previous + 1
    let t := streamlistTurns total { master with buffer := chunkBuffer master ptr }
      (chunkBuffer master ptr) total
    t.1 = streamlistData master ptr ∧
    (chunkBuffer master ptr).length = total ∧ (chunkBuffer master ptr).getLast? = some 0 ∧
    (∀ p ∈ t.2, Turn (chunkBuffer master ptr) p.1 p.2 ∧ strlen p.1 < p.2 ∧
      ∀ i, strchr p.1 10 = some i → 1 ≤ i + 1 ∧ i + 1 ≤ p.2 - 1) ∧
    (∃ p, t.2.getLast? = some p ∧ strchr p.1 10 = none ∧
      (streamlistData master ptr).previous = strlen p.1) ∧
    t.2.length ≤ (chunkBuffer master ptr).count 10 + 1 ∧
    (streamlistData master ptr).previous ≤ total - 1 := by
  intro total t
  have htie : t.1 = streamlistData master ptr := streamlistTurns_fst _ _ _ _
  have hlen : (chunkBuffer master ptr).length = total := by
    simp [chunkBuffer, total, hprev]; omega
  have hnul : (chunkBuffer master ptr).getLast? = some 0 := by simp [chunkBuffer]
  have ht : Turn (chunkBuffer master ptr) (chunkBuffer master ptr) total :=
    ⟨by simp [hlen], by omega, hlen.ge⟩
  obtain ⟨h₁, ⟨p, hp, hpc, hprev'⟩, h₃⟩ := streamlistTurns_spec hnul
    { master with buffer := chunkBuffer master ptr } ht le_rfl
  rw [htie] at hprev'
  obtain ⟨hT, hlt, -⟩ := h₁ p (List.mem_of_getLast?_eq_some hp)
  have hle := hT.le
  exact ⟨htie, hlen, hnul, h₁, ⟨p, hp, hpc, hprev'⟩, h₃, by omega⟩

theorem streamlistData_turns_sample :
    let master : MasterConnDetails := ⟨[104], 8000, 0, 0, 0, 2, 0, [47, 97], [], [], []⟩
    let ptr : List UInt8 := [10, 47, 98, 13, 10, 47]
    master.previous ≤ master.buffer.length ∧
    let total := ptr.length + master.previous + 1
    let t := streamlistTurns total { master with buffer := chunkBuffer master ptr }
      (chunkBuffer master ptr) total
    t.1 = streamlistData master ptr ∧
    (chunkBuffer master ptr).length = total ∧ (chunkBuffer master ptr).getLast? = some 0 ∧
    (∀ p ∈ t.2, Turn (chunkBuffer master ptr) p.1 p.2 ∧ strlen p.1 < p.2 ∧
      ∀ i, strchr p.1 10 = some i → 1 ≤ i + 1 ∧ i + 1 ≤ p.2 - 1) ∧
    (∃ p, t.2.getLast? = some p ∧ strchr p.1 10 = none ∧
      (streamlistData master ptr).previous = strlen p.1) ∧
    t.2.length ≤ (chunkBuffer master ptr).count 10 + 1 ∧
    (streamlistData master ptr).previous ≤ total - 1 :=
  ⟨by decide, streamlistData_turns _ _ (by decide)⟩

/-- A NUL byte ends the C string `strchr` scans: the line `x\0` gets no relay. -/
theorem streamlistRun_nul_drops_line :
    ¬ ∀ (master : MasterConnDetails) (chunks : List (List UInt8)),
      master.previous = 0 → master.buffer = [] →
      (streamlistRun master chunks).newRelays =
        ((splitLines [] chunks.flatten).1.filterMap (lineRelay master)).reverse ++ master.newRelays :=
  fun h => by
    have := h ⟨[], 0, 0, 0, 0, 0, 0, [], [], [], []⟩ [[120, 0, 10]] rfl rfl
    revert this
    decide

end IcecastRelay

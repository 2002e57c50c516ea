import IcecastRelay.SourceRegistry

/-! # A master fetch

`streamlist_thread` with curl's callbacks `streamlist_header` and `streamlist_data`: a callback
that returns -1 aborts the transfer, and the thread commits what it read once `ok` is set. -/
namespace IcecastRelay

def memchr (ptr : List UInt8) (c : UInt8) : Option ℕ := ptr.findIdx? (· = c)

/-- The header line with its end made a NUL: the first `\r`, else the first `\n`; none when
it has neither. -/
def headerLine (ptr : List UInt8) : Option (List UInt8) :=
  match memchr ptr 13 with
  | some i => some (ptr.set i 0)
  | none => (memchr ptr 10).map (ptr.set · 0)

def isDigit (b : UInt8) : Bool := 48 ≤ b && b ≤ 57

/-- `%d` of glibc's `sscanf`: blanks, an optional sign, at least one digit, read by `strtol`
and stored into an `int`. -/
def scanInt (s : List UInt8) : Option Int :=
  Option.map strtolInt <| match s.dropWhile isSpace with
  | 45 :: d :: t => if isDigit d then some (-(atoiDigits (d :: t) 0 : Int)) else none
  | 43 :: d :: t => if isDigit d then some (atoiDigits (d :: t) 0) else none
  | d :: t => if isDigit d then some (atoiDigits (d :: t) 0) else none
  | [] => none

/-- The code `sscanf (ptr, "HTTP%*s %d OK", &respcode)` stores when it returns 1. -/
def scanStatus (ptr : List UInt8) : Option Int :=
  match cstr ptr with
  | 72 :: 84 :: 84 :: 80 :: rest =>
    match rest.dropWhile isSpace with
    | [] => none
    | tok => scanInt (tok.dropWhile fun b => !isSpace b)
  | _ => none

/-- `streamlist_header` for one header line; none is the `-1` on which curl aborts. -/
def streamlistHeader (master : MasterConnDetails) (ptr : List UInt8) :
    Option MasterConnDetails :=
  match headerLine ptr with
  | none => none
  | some line =>
    if line.take 4 = [72, 84, 84, 80] then
      if scanStatus line = some 200 then some { master with ok := 1 } else none
    else some master

def statusOk (ptr : List UInt8) : Bool :=
  match headerLine ptr with
  | some line => line.take 4 = [72, 84, 84, 80] && scanStatus line = some 200
  | none => false

theorem streamlistHeader_cases (master : MasterConnDetails) (ptr : List UInt8) :
    (statusOk ptr = false ∧ streamlistHeader master ptr = none) ∨
      (statusOk ptr = true ∧ streamlistHeader master ptr = some { master with ok := 1 }) ∨
      (statusOk ptr = false ∧ streamlistHeader master ptr = some master) := by
  unfold streamlistHeader statusOk
  cases headerLine ptr with
  | none => exact .inl ⟨rfl, rfl⟩
  | some line =>
    by_cases h₁ : line.take 4 = [72, 84, 84, 80] <;> by_cases h₂ : scanStatus line = some 200 <;>
      simp [h₁, h₂]

section StatusLine

variable {p q : List UInt8} {c : UInt8}

theorem memchr_append_of_not_mem (hc : c ∉ p) : memchr (p ++ q) c = (memchr q c).map (· + p.length) := by
  rw [memchr, memchr, List.findIdx?_append,
    List.findIdx?_eq_none_iff.2 fun b hb => by simpa using fun h : b = c => hc (h ▸ hb)]
  rfl

theorem cstr_append_of_not_mem (h0 : (0 : UInt8) ∉ p) : cstr (p ++ q) = p ++ cstr q :=
  List.takeWhile_append_of_pos fun b hb => by simpa using fun h : b = 0 => h0 (h ▸ hb)

theorem headerLine_append (hp : (13 : UInt8) ∉ p) (hq : (13 : UInt8) ∈ q) :
    ∃ j, headerLine (p ++ q) = some (p ++ q.set j 0) := by
  obtain ⟨j, hj⟩ := Option.isSome_iff_exists.1 (show (memchr q 13).isSome by
    simpa [memchr, List.findIdx?_isSome] using hq)
  refine ⟨j, ?_⟩
  rw [headerLine, memchr_append_of_not_mem hp, hj]
  simp [List.set_append_right _ _ (Nat.le_add_left _ _)]

theorem isSpace_of_isDigit {x : UInt8} (h : isDigit x = true) : isSpace x = false := by
  simp only [isDigit, isSpace, Bool.and_eq_true, decide_eq_true_eq, Bool.or_eq_false_iff,
    decide_eq_false_iff_not, Bool.and_eq_false_imp, UInt8.le_def, UInt8.toBitVec_ofNat] at h ⊢
  refine ⟨fun h' => ?_, fun h₁ => ?_⟩
  · subst h'; exact absurd h.1 (by decide)
  · bv_omega

theorem atoiDigits_append {d t : List UInt8} {b : UInt8} (hb : isDigit b = false) (n : ℕ) :
    atoiDigits (d ++ b :: t) n = atoiDigits d n := by
  induction d generalizing n with
  | nil =>
    simp only [List.nil_append, atoiDigits]
    exact if_neg fun h : 48 ≤ b ∧ b ≤ 57 => by simp [isDigit, h.1, h.2] at hb
  | cons x d ih => simp only [List.cons_append, atoiDigits]; split_ifs <;> simp [ih]

theorem scanInt_digits {d t : List UInt8} {b : UInt8} (hd : d ≠ []) (hdd : ∀ x ∈ d, isDigit x = true)
    (hb : isDigit b = false) : scanInt (d ++ b :: t) = some (strtolInt (atoiDigits d 0)) := by
  obtain ⟨x, d, rfl⟩ := List.exists_cons_of_ne_nil hd
  have hx := hdd x (List.mem_cons_self _ _)
  have key : ∀ s, scanInt (x :: s) = some (strtolInt (atoiDigits (x :: s) 0)) := by
    intro s
    rw [scanInt, List.dropWhile_cons_of_neg (by simp [isSpace_of_isDigit hx])]
    split
    · next h => cases h; exact absurd hx (by decide)
    · next h => cases h; exact absurd hx (by decide)
    · next h => cases h; rw [if_pos hx]; rfl
    · next h => cases h
  rw [List.cons_append, key, ← List.cons_append, atoiDigits_append hb]

theorem isDigit_ne_zero {x : UInt8} (h : isDigit x = true) : x ≠ 0 := by
  rintro rfl; exact absurd h (by decide)

theorem scanInt_cons_space {b : UInt8} (hb : isSpace b = true) (s : List UInt8) :
    scanInt (b :: s) = scanInt s := by
  rw [scanInt, scanInt, List.dropWhile_cons_of_pos hb]

theorem scanStatus_statusLine {v d : List UInt8} (hv : v ≠ []) (hvs : ∀ b ∈ v, isSpace b = false ∧ b ≠ 0)
    (hd : d ≠ []) (hdd : ∀ b ∈ d, isDigit b = true) (w : List UInt8) :
    scanStatus (72 :: 84 :: 84 :: 80 :: (v ++ 32 :: (d ++ 32 :: w))) = some (strtolInt (atoiDigits d 0)) := by
  have hc : cstr (72 :: 84 :: 84 :: 80 :: (v ++ 32 :: (d ++ 32 :: w))) =
      72 :: 84 :: 84 :: 80 :: (v ++ 32 :: (d ++ 32 :: cstr w)) := by
    have h := cstr_append_of_not_mem (p := 72 :: 84 :: 84 :: 80 :: (v ++ 32 :: (d ++ [32]))) (q := w)
      (by simpa using ⟨fun h => (hvs 0 h).2 rfl, fun h => isDigit_ne_zero (hdd 0 h) rfl⟩)
    simpa only [List.cons_append, List.append_assoc, List.singleton_append] using h
  obtain ⟨x, v, rfl⟩ := List.exists_cons_of_ne_nil hv
  rw [scanStatus, hc]
  simp only [List.cons_append]
  rw [List.dropWhile_cons_of_neg (by simp [(hvs x (List.mem_cons_self _ _)).1])]
  simp only
  rw [← List.cons_append, List.dropWhile_append_of_pos (by simpa using fun b hb => (hvs b hb).1),
    List.dropWhile_cons_of_neg (by decide), scanInt_cons_space (by decide),
    scanInt_digits hd hdd (by decide)]

/-- A status line: `HTTP`, a version token, a blank, the code's digits, a blank, a reason
phrase and the line end. `ok` is set when the `int` that `%d` stores is 200. -/
theorem streamlistHeader_statusLine (master : MasterConnDetails) {v d : List UInt8}
    (reason : List UInt8) (hv : v ≠ []) (hvs : ∀ b ∈ v, isSpace b = false ∧ b ≠ 0)
    (hd : d ≠ []) (hdd : ∀ b ∈ d, isDigit b = true) :
    streamlistHeader master (72 :: 84 :: 84 :: 80 :: (v ++ 32 :: (d ++ 32 :: (reason ++ [13, 10])))) =
      if strtolInt (atoiDigits d 0) = 200 then some { master with ok := 1 } else none := by
  have h13 : (13 : UInt8) ∉ 72 :: 84 :: 84 :: 80 :: (v ++ 32 :: (d ++ [32])) := by
    simpa using ⟨fun h => absurd (hvs 13 h).1 (by decide),
      fun h => absurd (hdd 13 h) (by decide)⟩
  obtain ⟨j, hj⟩ := headerLine_append (q := reason ++ [13, 10]) h13 (by simp)
  have hs := scanStatus_statusLine hv hvs hd hdd ((reason ++ [13, 10]).set j 0)
  simp only [List.cons_append, List.append_assoc, List.singleton_append, List.nil_append] at hj
  rw [streamlistHeader, hj]
  simp [hs]

theorem streamlistHeader_statusLine_sample :
    ([47, 49, 46, 48] ≠ ([] : List UInt8) ∧
        (∀ b ∈ ([47, 49, 46, 48] : List UInt8), isSpace b = false ∧ b ≠ 0) ∧
        [50, 48, 48] ≠ ([] : List UInt8) ∧ ∀ b ∈ ([50, 48, 48] : List UInt8), isDigit b = true) ∧
      streamlistHeader ⟨[109], 8000, 0, 0, 0, 0, 0, [], [], [], []⟩
          (72 :: 84 :: 84 :: 80 :: ([47, 49, 46, 48] ++ 32 :: ([50, 48, 48] ++ 32 :: ([79, 75] ++ [13, 10])))) =
        if strtolInt (atoiDigits [50, 48, 48] 0) = 200 then
          some { (⟨[109], 8000, 0, 0, 0, 0, 0, [], [], [], []⟩ : MasterConnDetails) with ok := 1 }
        else none :=
  ⟨by decide, streamlistHeader_statusLine _ _ (by decide) (by decide) (by decide) (by decide)⟩

end StatusLine

inductive Callback
  | header (ptr : List UInt8)
  | data (ptr : List UInt8)
  deriving DecidableEq, Repr

/-- The callbacks of one transfer, in order, until one returns -1. -/
def streamlistTransfer (master : MasterConnDetails) : List Callback → MasterConnDetails
  | [] => master
  | .header ptr :: cbs =>
    match streamlistHeader master ptr with
    | some m => streamlistTransfer m cbs
    | none => master
  | .data ptr :: cbs => streamlistTransfer (streamlistData master ptr) cbs

/-- `streamlist_thread` after the callbacks `cbs`: the result of `curl_easy_perform` is only
logged, and the relays are committed when `ok` is set. -/
def streamlistThread (s : Sys) (master : MasterConnDetails) (cbs : List Callback)
    (_result : Int) : Sys :=
  let master := streamlistTransfer master cbs
  if master.ok ≠ 0 then s.commit master else s

section Transfer

variable {master : MasterConnDetails} {cbs : List Callback}

theorem streamlistTransfer_ok_ne (h : master.ok ≠ 0) : (streamlistTransfer master cbs).ok ≠ 0 := by
  induction cbs generalizing master with
  | nil => exact h
  | cons cb cbs ih =>
    cases cb with
    | header ptr =>
      rcases streamlistHeader_cases master ptr with ⟨-, hs⟩ | ⟨-, hs⟩ | ⟨-, hs⟩ <;>
        simp only [streamlistTransfer, hs]
      · exact h
      · exact ih (by simp)
      · exact ih h
    | data ptr => exact ih (by simpa using h)

theorem streamlistTransfer_ok_eq (h : ∀ ptr, .header ptr ∈ cbs → statusOk ptr = false) :
    (streamlistTransfer master cbs).ok = master.ok := by
  induction cbs generalizing master with
  | nil => rfl
  | cons cb cbs ih =>
    have h' : ∀ ptr, .header ptr ∈ cbs → statusOk ptr = false :=
      fun ptr hp => h ptr (List.mem_cons_of_mem _ hp)
    cases cb with
    | header ptr =>
      rcases streamlistHeader_cases master ptr with ⟨-, hn⟩ | ⟨hk, -⟩ | ⟨-, hs⟩
      · simp only [streamlistTransfer, hn]
      · cases (h ptr (List.mem_cons_self _ _)).symm.trans hk
      · simp only [streamlistTransfer, hs, ih h']
    | data ptr => simp only [streamlistTransfer, ih h', streamlistData_ok]

end Transfer

theorem streamlistThread_status (s : Sys) (master : MasterConnDetails) (cbs : List Callback)
    (result : Int) (h0 : master.ok = 0) :
    ((∀ ptr, .header ptr ∈ cbs → statusOk ptr = false) → streamlistThread s master cbs result = s) ∧
    ∀ ptr, statusOk ptr = true →
      streamlistThread s master (.header ptr :: cbs) result =
        s.commit (streamlistTransfer { master with ok := 1 } cbs) := by
  refine ⟨fun h => by simp [streamlistThread, streamlistTransfer_ok_eq h, h0], fun ptr hp => ?_⟩
  have hs : streamlistHeader master ptr = some { master with ok := 1 } := by
    rcases streamlistHeader_cases master ptr with ⟨hk, -⟩ | ⟨-, hs⟩ | ⟨hk, -⟩
    · cases hp.symm.trans hk
    · exact hs
    · cases hp.symm.trans hk
  have hok : (streamlistTransfer { master with ok := 1 } cbs).ok ≠ 0 :=
    streamlistTransfer_ok_ne (by simp)
  simp only [streamlistThread, streamlistTransfer, hs, if_pos hok]

namespace Sample

def fetch : MasterConnDetails := ⟨[109], 8000, 0, 0, 0, 0, 0, [], [117], [112], []⟩

example : updateFromMaster withMaster = some fetch := rfl

def statusLine : List UInt8 :=
  [72, 84, 84, 80, 47, 49, 46, 48, 32, 50, 48, 48, 32, 79, 75, 13, 10]

end Sample

theorem streamlistThread_status_sample :
    Sample.fetch.ok = 0 ∧
    ((∀ ptr, .header ptr ∈ [Callback.data [47, 97, 10]] → statusOk ptr = false) →
        streamlistThread Sys.init Sample.fetch [.data [47, 97, 10]] 28 = Sys.init) ∧
      ∀ ptr, statusOk ptr = true →
        streamlistThread Sys.init Sample.fetch (.header ptr :: [.data [47, 97, 10]]) 28 =
          Sys.init.commit (streamlistTransfer { Sample.fetch with ok := 1 } [.data [47, 97, 10]]) :=
  ⟨rfl, streamlistThread_status Sys.init Sample.fetch [.data [47, 97, 10]] 28 rfl⟩

/-- A transfer cut off after its status line and the first line of the body: curl fails, yet the
thread commits the relay it read. -/
theorem streamlistThread_commits_failed_transfer :
    let s := (Sys.init.run [.reload [] Sample.withMaster, .tick, .header 0,
      .data 0 [47, 97, 10, 47, 98, 10], .done 0, .clear]).getD Sys.init
    Reachable s ∧ s.masterRelays.length = 2 ∧
      (streamlistThread s Sample.fetch [.header Sample.statusLine, .data [47, 97, 10]] 28).masterRelays.length = 1 :=
  ⟨reachable_run_getD _, by decide, by decide⟩

/-- The events through which the supervisor sees fetch `tid` take the callbacks. -/
def callbackEvents (tid : ℕ) (master : MasterConnDetails) : List Callback → List Event
  | [] => []
  | .header ptr :: cbs =>
    match streamlistHeader master ptr with
    | some m => if statusOk ptr then .header tid :: callbackEvents tid m cbs else callbackEvents tid m cbs
    | none => []
  | .data ptr :: cbs => .data tid ptr :: callbackEvents tid (streamlistData master ptr) cbs

namespace Sys

def fetchMaster (s : Sys) (tid : ℕ) : Option MasterConnDetails :=
  (s.fetches.find? (·.tid = tid)).map Fetch.master

variable {s : Sys} {tid : ℕ} {m : MasterConnDetails}

theorem commit_fetches (m : MasterConnDetails) : (s.commit m).fetches = s.fetches := by
  unfold commit
  rw [(relayCheckStreams_frame _ _ _).1.fetches, (relayCheckStreams_frame _ _ _).1.fetches]

theorem fetchMaster_setFetch (f : MasterConnDetails → MasterConnDetails) :
    (s.setFetch tid f).fetchMaster tid = (s.fetchMaster tid).map f := by
  unfold fetchMaster setFetch
  dsimp only
  generalize s.fetches = l
  induction l with
  | nil => rfl
  | cons x l ih =>
    by_cases hx : x.tid = tid
    · simp [List.find?_cons, hx]
    · simpa [List.find?_cons, hx] using ih

theorem filter_setFetch (f : MasterConnDetails → MasterConnDetails) :
    (s.setFetch tid f).fetches.filter (·.tid ≠ tid) = s.fetches.filter (·.tid ≠ tid) := by
  unfold setFetch
  dsimp only
  generalize s.fetches = l
  induction l with
  | nil => rfl
  | cons x l ih => by_cases hx : x.tid = tid <;> simpa [List.filter_cons, hx] using ih

theorem next_setFetch (h : s.fetchMaster tid = some m) :
    s.next (.header tid) = some (s.setFetch tid ({ · with ok := 1 })) ∧
      ∀ chunk, s.next (.data tid chunk) = some (s.setFetch tid (streamlistData · chunk)) := by
  obtain ⟨f, hf, -⟩ := Option.map_eq_some'.1 h
  have hp := List.find?_some hf
  have hany : s.fetches.any (fun x => decide (x.tid = tid)) = true :=
    List.any_eq_true.2 ⟨f, List.mem_of_find?_eq_some hf, hp⟩
  exact ⟨by simp [next, hany], fun _ => by simp [next, hany]⟩

theorem next_done (h : s.fetchMaster tid = some m) :
    s.next (.done tid) =
      some { (if m.ok ≠ 0 then s.commit m else s) with fetches := s.fetches.filter (·.tid ≠ tid) } := by
  obtain ⟨f, hf, rfl⟩ := Option.map_eq_some'.1 h
  simp only [next, hf]
  split_ifs <;> simp [commit_fetches]

theorem run_callbackEvents (cbs : List Callback) : ∀ {s : Sys} {master : MasterConnDetails},
    s.fetchMaster tid = some master → ∃ fs, fs.filter (·.tid ≠ tid) = s.fetches.filter (·.tid ≠ tid) ∧
      ({ s with fetches := fs } : Sys).fetchMaster tid = some (streamlistTransfer master cbs) ∧
      s.run (callbackEvents tid master cbs) = some { s with fetches := fs } := by
  induction cbs with
  | nil => exact fun h => ⟨_, rfl, h, rfl⟩
  | cons cb cbs ih =>
    intro s master h
    cases cb with
    | header ptr =>
      rcases streamlistHeader_cases master ptr with ⟨-, hs⟩ | ⟨hk, hs⟩ | ⟨hk, hs⟩
      · exact ⟨_, rfl, by simpa [streamlistTransfer, hs] using h, by simp [callbackEvents, hs]; rfl⟩
      · obtain ⟨fs, h₁, h₂, h₃⟩ := ih (s := s.setFetch tid ({ · with ok := 1 }))
          (by rw [fetchMaster_setFetch, h]; rfl)
        refine ⟨fs, h₁.trans (filter_setFetch _), by simpa [streamlistTransfer, hs] using h₂, ?_⟩
        simp only [callbackEvents, hs, hk, if_true, run, (next_setFetch h).1, Option.some_bind, h₃]
        rfl
      · obtain ⟨fs, h₁, h₂, h₃⟩ := ih h
        exact ⟨fs, h₁, by simpa [streamlistTransfer, hs] using h₂,
          by simpa [callbackEvents, hs, hk] using h₃⟩
    | data ptr =>
      obtain ⟨fs, h₁, h₂, h₃⟩ := ih (s := s.setFetch tid (streamlistData · ptr))
        (by rw [fetchMaster_setFetch, h]; rfl)
      refine ⟨fs, h₁.trans (filter_setFetch _), by simpa [streamlistTransfer] using h₂, ?_⟩
      simp only [callbackEvents, run, (next_setFetch h).2, Option.some_bind, h₃]
      rfl

/-- A fetch of the supervisor is the byte-level thread: its callbacks run as `callbackEvents`, and
`done` leaves the state `streamlist_thread` leaves, less the fetch. -/
theorem run_streamlistThread (h : s.fetchMaster tid = some master) (cbs : List Callback)
    (result : Int) : ∃ fs, fs.filter (·.tid ≠ tid) = s.fetches.filter (·.tid ≠ tid) ∧
      s.run (callbackEvents tid master cbs ++ [.done tid]) =
        some { streamlistThread { s with fetches := fs } master cbs result with
          fetches := fs.filter (·.tid ≠ tid) } := by
  obtain ⟨fs, h₁, h₂, h₃⟩ := run_callbackEvents cbs h
  refine ⟨fs, h₁, ?_⟩
  rw [run_append, h₃, Option.some_bind, run, next_done h₂]
  by_cases hok : (streamlistTransfer master cbs).ok = 0 <;>
    simp only [streamlistThread, hok, ne_eq, not_true, not_false_eq_true, if_true, if_false] <;> rfl

end Sys

theorem run_streamlistThread_sample :
    let s := (Sys.init.run [.reload [] Sample.withMaster, .tick]).getD Sys.init
    s.fetchMaster 0 = some Sample.fetch ∧
      ∃ fs, fs.filter (·.tid ≠ 0) = s.fetches.filter (·.tid ≠ 0) ∧
        s.run (callbackEvents 0 Sample.fetch [.header Sample.statusLine, .data [47, 97, 10]] ++ [.done 0]) =
          some { streamlistThread { s with fetches := fs } Sample.fetch
            [.header Sample.statusLine, .data [47, 97, 10]] 0 with fetches := fs.filter (·.tid ≠ 0) } :=
  ⟨rfl, Sys.run_streamlistThread (show ((Sys.init.run [.reload [] Sample.withMaster, .tick]).getD
    Sys.init).fetchMaster 0 = some Sample.fetch from rfl) _ 0⟩

end IcecastRelay

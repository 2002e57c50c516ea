import IcecastRelay.SlaveHosts
import Mathlib.Data.Nat.Digits

/-! # Redirects to slaves

`slave_redirect` draws an index into `global.slaves` with `rand ()`, computed in single precision
(24 significant bits, nearest-even), and sends a 302 to `http://server:port/mountpoint`. -/
namespace IcecastRelay

def randMax : ℕ := 2 ^ 31 - 1

def floatShift : ℕ → ℕ → ℕ
  | 0, _ => 0
  | fuel + 1, x => if x < 2 ^ 24 then 0 else floatShift fuel (x / 2) + 1

/-- A natural number rounded to single precision, to nearest, ties to even. -/
def roundF (x : ℕ) : ℕ :=
  let e := floatShift x x
  let q := x / 2 ^ e
  let rem := x % 2 ^ e
  if 2 ^ e < 2 * rem ∨ (2 * rem = 2 ^ e ∧ q % 2 = 1) then (q + 1) * 2 ^ e else q * 2 ^ e

/-- `which = (int) (((float) global.slave_count) * rand () / (RAND_MAX + 1.0))`: the float
product, divided by 2^31 exactly in double, truncated. -/
def slaveIndex (n : Int) (r : ℕ) : Int :=
  let q : ℕ := roundF (roundF n.natAbs * roundF r) / 2 ^ 31
  if n < 0 then -q else q

/-- `while (slave && which) { slave = slave->next; which--; }`: where the walk stops. -/
def walkSlaves : List SlaveHost → Int → Option SlaveHost
  | [], _ => none
  | s :: rest, which => if which = 0 then some s else walkSlaves rest (which - 1)

def decimal (n : Int) : List UInt8 := (toString n).toList.map fun c => c.toNat.toUInt8

def slaveUrl (server : CStr) (port : Int) (mountpoint : CStr) : List UInt8 :=
  [104, 116, 116, 112, 58, 47, 47] ++ cstr server ++ [58] ++ decimal port ++ cstr mountpoint

/-- What `snprintf (location, len, "http://%s:%d%s", ...)` leaves, with
`len = strlen (mountpoint) + strlen (slave->server) + 13`. -/
def slaveLocation (server : CStr) (port : Int) (mountpoint : CStr) : CStr :=
  (slaveUrl server port mountpoint).take (strlen mountpoint + strlen server + 13 - 1)

/-- What `slave_redirect` does: no redirect, a 302 to `location`, or a read of `slave->server`
through NULL in the `DEBUG2` after the walk. -/
inductive Redirect
  | notRedirected
  | found (location : CStr)
  | nullRead
  deriving DecidableEq, Repr

/-- `slave_redirect` for the draw `r` of `rand ()`; `malloc` succeeds. -/
def slaveRedirect (t : SlaveTable) (r : ℕ) (mountpoint : CStr) : Redirect :=
  if t.slaveCount = 0 then .notRedirected
  else
    match walkSlaves t.slaves (slaveIndex t.slaveCount r) with
    | none => .nullRead
    | some s => .found (slaveLocation s.server s.port mountpoint)

section Round

variable {m x r : ℕ}

theorem floatShift_spec {fuel : ℕ} (h : x < 2 ^ (fuel + 24)) :
    x < 2 ^ (floatShift fuel x + 24) ∧ (floatShift fuel x = 0 ∨ 2 ^ (floatShift fuel x + 23) ≤ x) := by
  induction fuel generalizing x with
  | zero => exact ⟨h, .inl rfl⟩
  | succ k ih =>
    simp only [floatShift]
    split_ifs with hx
    · exact ⟨hx, .inl rfl⟩
    · obtain ⟨h₁, h₂⟩ := ih (x := x / 2) (by rw [Nat.pow_succ] at h; omega)
      refine ⟨by rw [Nat.add_right_comm, Nat.pow_succ]; omega, .inr ?_⟩
      rw [Nat.add_right_comm, Nat.pow_succ]
      rcases h₂ with h₂ | h₂
      · rw [h₂]; omega
      · omega

theorem floatShift_self_spec (x : ℕ) :
    x < 2 ^ (floatShift x x + 24) ∧ (floatShift x x = 0 ∨ 2 ^ (floatShift x x + 23) ≤ x) :=
  floatShift_spec (Nat.lt_of_lt_of_le (Nat.lt_two_pow x) (Nat.pow_le_pow_right (by decide) (by omega)))

theorem roundF_mul_two_pow (hm : m < 2 ^ 24) (k : ℕ) : roundF (m * 2 ^ k) = m * 2 ^ k := by
  have hle : floatShift (m * 2 ^ k) (m * 2 ^ k) ≤ k := by
    rcases (floatShift_self_spec (m * 2 ^ k)).2 with h | h
    · omega
    · have hlt : m * 2 ^ k < 2 ^ (k + 24) := by
        rw [Nat.pow_add, Nat.mul_comm]; exact Nat.mul_lt_mul_of_pos_left hm (Nat.two_pow_pos k)
      have := (Nat.pow_lt_pow_iff_right (by decide)).1 (Nat.lt_of_le_of_lt h hlt)
      omega
  have hdvd : 2 ^ floatShift (m * 2 ^ k) (m * 2 ^ k) ∣ m * 2 ^ k :=
    Nat.dvd_trans (Nat.pow_dvd_pow 2 hle) (Nat.dvd_mul_left _ m)
  have hpos := Nat.two_pow_pos (floatShift (m * 2 ^ k) (m * 2 ^ k))
  simp only [roundF]
  rw [Nat.mod_eq_zero_of_dvd hdvd, if_neg (by omega), Nat.div_mul_cancel hdvd]

theorem roundF_of_lt (hx : x < 2 ^ 24) : roundF x = x := by
  simpa using roundF_mul_two_pow hx 0

theorem roundF_top (h₁ : randMax - 63 ≤ r) (h₂ : r ≤ randMax) : roundF r = 2 ^ 31 := by
  simp only [randMax] at h₁ h₂
  obtain ⟨hlt, hge⟩ := floatShift_self_spec r
  have he : floatShift r r = 7 := by
    have h7 : 30 < floatShift r r + 24 :=
      (Nat.pow_lt_pow_iff_right (by decide)).1 (Nat.lt_of_le_of_lt (show 2 ^ 30 ≤ r by omega) hlt)
    rcases hge with h | h
    · omega
    · have : floatShift r r + 23 < 31 :=
        (Nat.pow_lt_pow_iff_right (by decide)).1 (Nat.lt_of_le_of_lt h (show r < 2 ^ 31 by omega))
      omega
  simp only [roundF, he, Nat.reducePow]
  rw [if_pos (by omega)]
  omega

theorem two_mul_roundF_le (x : ℕ) : 2 * roundF x ≤ 2 * x + 2 ^ floatShift x x := by
  have h := Nat.div_add_mod' x (2 ^ floatShift x x)
  simp only [roundF]
  split_ifs
  · rw [Nat.add_mul, Nat.one_mul]; omega
  · omega

theorem roundF_dvd (x : ℕ) : 2 ^ floatShift x x ∣ roundF x := by
  simp only [roundF]
  split_ifs <;> exact Nat.dvd_mul_left _ _

theorem roundF_le_of_lt_top (hr : r < randMax - 63) : roundF r ≤ 2 ^ 31 - 128 := by
  simp only [randMax] at hr
  obtain ⟨hlt, hge⟩ := floatShift_self_spec r
  have hup := two_mul_roundF_le r
  rcases hge with h0 | h
  · simp only [h0, Nat.pow_zero, Nat.zero_add] at hup hlt; omega
  · have he : floatShift r r + 23 < 31 :=
      (Nat.pow_lt_pow_iff_right (by decide)).1 (Nat.lt_of_le_of_lt h (show r < 2 ^ 31 by omega))
    rcases Nat.lt_or_ge (floatShift r r) 7 with h7 | h7
    · have h64 : 2 ^ floatShift r r ≤ 2 ^ 6 := Nat.pow_le_pow_right (by decide) (by omega)
      have h30 : r < 2 ^ 30 := Nat.lt_of_lt_of_le hlt (Nat.pow_le_pow_right (by decide) (by omega))
      omega
    · obtain ⟨k, hk⟩ := roundF_dvd r
      rw [show floatShift r r = 7 by omega] at hup hk
      omega

end Round

section Index

variable {n : Int} {r : ℕ}

theorem slaveIndex_top (hn : 0 < n) (hn' : n < 2 ^ 24) (h₁ : randMax - 63 ≤ r) (h₂ : r ≤ randMax) :
    slaveIndex n r = n := by
  have hm : n.natAbs < 2 ^ 24 := by omega
  simp only [slaveIndex, roundF_top h₁ h₂, roundF_of_lt hm, roundF_mul_two_pow hm,
    Nat.mul_div_cancel _ (Nat.two_pow_pos 31), if_neg (show ¬ n < 0 by omega)]
  exact Int.natAbs_of_nonneg hn.le

theorem slaveIndex_lt (hn : 0 < n) (hn' : n < 2 ^ 24) (hr : r < randMax - 63) :
    0 ≤ slaveIndex n r ∧ slaveIndex n r < n := by
  have hm : n.natAbs < 2 ^ 24 := by omega
  have habs : (n.natAbs : Int) = n := Int.natAbs_of_nonneg hn.le
  have hP : n.natAbs * roundF r ≤ n.natAbs * (2 ^ 31 - 128) :=
    Nat.mul_le_mul_left _ (roundF_le_of_lt_top hr)
  have hround : roundF (n.natAbs * roundF r) < n.natAbs * 2 ^ 31 := by
    obtain ⟨-, hge⟩ := floatShift_self_spec (n.natAbs * roundF r)
    have hup := two_mul_roundF_le (n.natAbs * roundF r)
    rcases hge with h0 | h
    · rw [h0] at hup; omega
    · rw [Nat.pow_add] at h
      omega
  have hq := (Nat.div_lt_iff_lt_mul (Nat.two_pow_pos 31)).2 hround
  simp only [slaveIndex, roundF_of_lt hm, if_neg (show ¬ n < 0 by omega)]
  omega

end Index

theorem walkSlaves_length (l : List SlaveHost) : walkSlaves l l.length = none := by
  induction l with
  | nil => rfl
  | cons s l ih => simpa [walkSlaves] using ih

theorem walkSlaves_lt : ∀ (l : List SlaveHost) (w : Int), 0 ≤ w → w < l.length →
    ∃ s ∈ l, walkSlaves l w = some s
  | [], _, h0, hw => by simp at hw; omega
  | s :: l, w, h0, hw => by
    by_cases hz : w = 0
    · exact ⟨s, List.mem_cons_self _ _, by simp [walkSlaves, hz]⟩
    · obtain ⟨t, ht, hwalk⟩ := walkSlaves_lt l (w - 1) (by omega) (by simp at hw; omega)
      exact ⟨t, List.mem_cons_of_mem _ ht, by simp [walkSlaves, hz, hwalk]⟩

theorem slaveTableRun_inv (reqs : List SlaveRequest) : TableInv (slaveTableRun reqs) :=
  (slaveTable_foldl tableInv_empty reqs).1

/-- On a table the slave requests build, with a count below 2^24, every draw but the 64 nearest
`RAND_MAX` redirects to an entry of the table. -/
theorem slaveRedirect_found (reqs : List SlaveRequest) (r : ℕ) (mountpoint : CStr)
    (hn : 0 < (slaveTableRun reqs).slaveCount) (hn' : (slaveTableRun reqs).slaveCount < 2 ^ 24)
    (hr : r < randMax - 63) :
    ∃ s ∈ (slaveTableRun reqs).slaves,
      slaveRedirect (slaveTableRun reqs) r mountpoint = .found (slaveLocation s.server s.port mountpoint) := by
  have hc := (slaveTableRun_inv reqs).count_eq
  obtain ⟨h0, hlt⟩ := slaveIndex_lt hn hn' hr
  obtain ⟨s, hs, hwalk⟩ := walkSlaves_lt (slaveTableRun reqs).slaves _ h0 (by rw [← hc]; exact hlt)
  exact ⟨s, hs, by simp only [slaveRedirect, if_neg hn.ne', hwalk]⟩

theorem slaveRedirect_found_sample :
    let reqs : List SlaveRequest := [.add (some 0) (some [104, 58, 56, 48, 48, 48])]
    (0 < (slaveTableRun reqs).slaveCount ∧ (slaveTableRun reqs).slaveCount < 2 ^ 24 ∧
      1000 < randMax - 63) ∧
    ∃ s ∈ (slaveTableRun reqs).slaves,
      slaveRedirect (slaveTableRun reqs) 1000 [47, 109] = .found (slaveLocation s.server s.port [47, 109]) :=
  ⟨⟨by decide, by decide, by decide⟩,
    slaveRedirect_found _ 1000 [47, 109] (by decide) (by decide) (by decide)⟩

/-- The 64 draws nearest `RAND_MAX` give the count itself as the index: the walk runs off the list
and the `DEBUG2` reads through NULL. -/
theorem slaveRedirect_reads_null (reqs : List SlaveRequest) (r : ℕ) (mountpoint : CStr)
    (hn : 0 < (slaveTableRun reqs).slaveCount) (hn' : (slaveTableRun reqs).slaveCount < 2 ^ 24)
    (h₁ : randMax - 63 ≤ r) (h₂ : r ≤ randMax) :
    slaveIndex (slaveTableRun reqs).slaveCount r = (slaveTableRun reqs).slaveCount ∧
      slaveRedirect (slaveTableRun reqs) r mountpoint = .nullRead := by
  have hi := slaveIndex_top hn hn' h₁ h₂
  refine ⟨hi, ?_⟩
  rw [slaveRedirect, if_neg hn.ne', hi, (slaveTableRun_inv reqs).count_eq, walkSlaves_length]

theorem slaveRedirect_reads_null_one :
    let reqs : List SlaveRequest := [.add (some 0) (some [104, 58, 56, 48, 48, 48])]
    (0 < (slaveTableRun reqs).slaveCount ∧ (slaveTableRun reqs).slaveCount < 2 ^ 24 ∧
      randMax - 63 ≤ randMax ∧ randMax ≤ randMax) ∧
    slaveIndex (slaveTableRun reqs).slaveCount randMax = (slaveTableRun reqs).slaveCount ∧
      slaveRedirect (slaveTableRun reqs) randMax [47, 109] = .nullRead :=
  ⟨⟨by decide, by decide, by decide, le_rfl⟩,
    slaveRedirect_reads_null _ randMax [47, 109] (by decide) (by decide) (by decide) le_rfl⟩

section Location

theorem toDigitsCore_length_ge {f n e : ℕ} (hf : n < f) (he : 10 ^ e ≤ n) :
    e + 1 ≤ (Nat.toDigitsCore 10 f n []).length := by
  induction f generalizing n e with
  | zero => omega
  | succ f ih =>
    rw [Nat.toDigitsCore]
    split_ifs with h0
    · cases e with
      | zero => simp
      | succ e =>
        have : 10 ≤ 10 ^ (e + 1) := Nat.le_self_pow (by omega) 10
        omega
    · rw [Nat.toDigitsCore_lens_eq]
      cases e with
      | zero => omega
      | succ e =>
        have he' : 10 ^ e ≤ n / 10 :=
          (Nat.le_div_iff_mul_le (by omega)).2 (by rw [← Nat.pow_succ]; exact he)
        have := ih (n := n / 10) (by omega) he'
        omega

theorem decimal_natCast_length (n : ℕ) : (decimal n).length = (Nat.repr n).length := by
  simp [decimal]
  rfl

theorem decimal_length {p : Int} (h0 : 0 ≤ p) (h : p ≤ 65535) :
    (p < 10000 → (decimal p).length ≤ 4) ∧ (10000 ≤ p → (decimal p).length = 5) := by
  obtain ⟨n, rfl⟩ := Int.eq_ofNat_of_zero_le h0
  rw [decimal_natCast_length]
  refine ⟨fun hp => Nat.repr_length n 4 (by omega) (by omega), fun hp => ?_⟩
  have h₁ := Nat.repr_length n 5 (by omega) (by omega)
  have h₂ : 4 + 1 ≤ (Nat.repr n).length := toDigitsCore_length_ge (Nat.lt_succ_self n) (by omega)
  omega

theorem slaveUrl_length (server : CStr) (port : Int) (mountpoint : CStr) :
    (slaveUrl server port mountpoint).length =
      strlen mountpoint + strlen server + 8 + (decimal port).length := by
  simp [slaveUrl, cstr_length]
  omega

theorem slaveLocation_eq (server : CStr) {port : Int} (mountpoint : CStr) (h0 : 0 ≤ port)
    (h : port ≤ 65535) : slaveLocation server port mountpoint =
      if port < 10000 then slaveUrl server port mountpoint
      else (slaveUrl server port mountpoint).dropLast := by
  have hl := slaveUrl_length server port mountpoint
  obtain ⟨h₄, h₅⟩ := decimal_length h0 h
  unfold slaveLocation
  split_ifs with hp
  · exact List.take_of_length_le (by have := h₄ hp; omega)
  · rw [List.dropLast_eq_take, hl, h₅ (by omega)]

/-- A redirect to a slave whose port has five digits sends the URL less its last byte. -/
theorem slaveRedirect_location_truncated (reqs : List SlaveRequest) (r : ℕ) (mountpoint : CStr)
    (s : SlaveHost)
    (hs : walkSlaves (slaveTableRun reqs).slaves (slaveIndex (slaveTableRun reqs).slaveCount r) = some s)
    (hp : 10000 ≤ s.port) (hp' : s.port ≤ 65535) :
    slaveRedirect (slaveTableRun reqs) r mountpoint =
        .found (slaveUrl s.server s.port mountpoint).dropLast ∧
      (slaveUrl s.server s.port mountpoint).dropLast ≠ slaveUrl s.server s.port mountpoint := by
  have hn : (slaveTableRun reqs).slaveCount ≠ 0 := fun h0 => by
    rw [(slaveTableRun_inv reqs).count_eq, Nat.cast_eq_zero, List.length_eq_zero] at h0
    rw [h0] at hs
    cases hs
  have hne : 0 < (slaveUrl s.server s.port mountpoint).length := by simp [slaveUrl]
  refine ⟨?_, fun h => by have := congrArg List.length h; rw [List.length_dropLast] at this; omega⟩
  simp only [slaveRedirect, if_neg hn, hs, slaveLocation_eq _ _ (by omega) hp',
    if_neg (show ¬ s.port < 10000 by omega)]

theorem slaveRedirect_location_truncated_sample :
    let reqs : List SlaveRequest := [.add (some 0) (some [104, 58, 49, 48, 48, 48, 48])]
    let s : SlaveHost := ⟨[104], 10000, 1⟩
    (walkSlaves (slaveTableRun reqs).slaves (slaveIndex (slaveTableRun reqs).slaveCount 0) = some s ∧
      10000 ≤ s.port ∧ s.port ≤ 65535) ∧
    slaveRedirect (slaveTableRun reqs) 0 [47, 109] =
        .found (slaveUrl s.server s.port [47, 109]).dropLast ∧
      (slaveUrl s.server s.port [47, 109]).dropLast ≠ slaveUrl s.server s.port [47, 109] :=
  ⟨⟨by decide, by decide, by decide⟩,
    slaveRedirect_location_truncated _ 0 [47, 109] _ (by decide) (by decide) (by decide)⟩

end Location

end IcecastRelay

import IcecastRelay.StreamList
import IcecastRelay.Redirect

/-! # The request of a relay worker

`start_relay_stream` formats its headers with `snprintf` into buffers sized from the strings they
hold; the base64 encoder and the version text are parameters. -/
namespace IcecastRelay

/-- `snprintf (buf, size, ...)`: the formatted text cut to `size - 1` bytes, the last byte of
the buffer being its NUL. -/
def snprintf (size : ℕ) (text : List UInt8) : CStr := text.take (size - 1)

theorem snprintf_eq_self_iff {size : ℕ} {text : List UInt8} (hs : 0 < size) :
    snprintf size text = text ↔ text.length < size := by
  rw [snprintf, List.take_eq_self_iff]
  omega

-- "GET "
def httpGet : List UInt8 := [71, 69, 84, 32]

-- " HTTP/1.0\r\n"
def http10 : List UInt8 := [32, 72, 84, 84, 80, 47, 49, 46, 48, 13, 10]

-- "User-Agent: "
def userAgent : List UInt8 := [85, 115, 101, 114, 45, 65, 103, 101, 110, 116, 58, 32]

-- "Icy-MetaData: 1\r\n"
def icyMetaData : List UInt8 := [73, 99, 121, 45, 77, 101, 116, 97, 68, 97, 116, 97, 58, 32, 49, 13, 10]

-- "Authorization: Basic "
def authorizationBasic : List UInt8 :=
  [65, 117, 116, 104, 111, 114, 105, 122, 97, 116, 105, 111, 110, 58, 32, 66, 97, 115, 105, 99, 32]

-- "ice-redirect: "
def iceRedirect : List UInt8 := [105, 99, 101, 45, 114, 101, 100, 105, 114, 101, 99, 116, 58, 32]

def crlf : List UInt8 := [13, 10]

/-- The text of `"ice-redirect: %s:%d\r\n"`. -/
def redirectText (hostname : CStr) (port : Int) : List UInt8 :=
  iceRedirect ++ cstr hostname ++ 58 :: decimal port ++ crlf

/-- The `ice-redirect` and `Authorization` headers of `start_relay_stream`, each formatted by
`snprintf` into a buffer sized from its strings; empty without credentials. -/
def relayHeaders (encode : CStr → CStr) (hostname : CStr) (redirectPort : Int)
    (r : RelayServer) : CStr × CStr :=
  match r.username, r.password with
  | some username, some password =>
    let esc := encode (snprintf (strlen username + strlen password + 2)
      (cstr username ++ 58 :: cstr password))
    let auth := snprintf (strlen esc + 24) (authorizationBasic ++ cstr esc ++ crlf)
    let redirect := if redirectPort ≠ 0 then
        snprintf (13 + strlen hostname + 10) (redirectText hostname redirectPort)
      else []
    (redirect, auth)
  | _, _ => ([], [])

/-- What `sock_write` sends for `relay`: the request line, the user agent, the metadata
request, the two headers, and the blank line. -/
def relayRequest (version : List UInt8) (encode : CStr → CStr) (hostname : CStr)
    (redirectPort : Int) (r : RelayServer) : List UInt8 :=
  let h := relayHeaders encode hostname redirectPort r
  httpGet ++ cstr r.mount ++ http10 ++ userAgent ++ version ++ crlf ++
    (if r.mp3metadata ≠ 0 then icyMetaData else []) ++ cstr h.1 ++ cstr h.2 ++ crlf

/-- The request the format strings describe: each header whole. -/
def intendedRequest (version : List UInt8) (encode : CStr → CStr) (hostname : CStr)
    (redirectPort : Int) (r : RelayServer) : List UInt8 :=
  httpGet ++ cstr r.mount ++ http10 ++ userAgent ++ version ++ crlf ++
    (if r.mp3metadata ≠ 0 then icyMetaData else []) ++
    (match r.username, r.password with
      | some username, some password =>
        (if redirectPort ≠ 0 then redirectText hostname redirectPort else []) ++
          authorizationBasic ++ cstr (encode (cstr username ++ 58 :: cstr password)) ++ crlf
      | _, _ => []) ++ crlf

section Digits

theorem toDigitsCore_mem {f n : ℕ} {l : List Char} {c : Char}
    (h : c ∈ Nat.toDigitsCore 10 f n l) : c ∈ l ∨ ∃ d < 10, c = Nat.digitChar d := by
  induction f generalizing n l with
  | zero => exact .inl h
  | succ f ih =>
    have hd : ∀ {x}, x ∈ Nat.digitChar (n % 10) :: l → x ∈ l ∨ ∃ d < 10, x = Nat.digitChar d := by
      intro x hx
      rcases List.mem_cons.1 hx with rfl | hx
      · exact .inr ⟨_, Nat.mod_lt _ (by decide), rfl⟩
      · exact .inl hx
    simp only [Nat.toDigitsCore] at h
    split at h
    · exact hd h
    · exact (ih h).elim hd .inr

theorem digitChar_byte : ∀ d < 10, 48 ≤ (Nat.digitChar d).toNat.toUInt8 ∧ (Nat.digitChar d).toNat.toUInt8 ≤ 57 := by
  decide

theorem decimal_byte {n : Int} {b : UInt8} (h : b ∈ decimal n) : b = 45 ∨ 48 ≤ b ∧ b ≤ 57 := by
  have hd : ∀ {c : Char} (m : ℕ), c ∈ (Nat.repr m).toList →
      48 ≤ c.toNat.toUInt8 ∧ c.toNat.toUInt8 ≤ 57 := fun m hm => by
    rcases toDigitsCore_mem hm with h | ⟨d, hd, rfl⟩
    · cases h
    · exact digitChar_byte d hd
  obtain ⟨c, hc, rfl⟩ := List.mem_map.1 h
  cases n with
  | ofNat m => exact .inr (hd m hc)
  | negSucc m =>
    rcases List.mem_cons.1 (show c ∈ '-' :: (Nat.repr (m + 1)).toList from hc) with rfl | hc
    · exact .inl rfl
    · exact .inr (hd _ hc)

theorem zero_not_mem_decimal (n : Int) : (0 : UInt8) ∉ decimal n := fun h => by
  rcases decimal_byte h with h | h <;> exact absurd h (by decide)

end Digits

section Headers

variable {s : List UInt8}

theorem zero_not_mem_cstr (s : List UInt8) : (0 : UInt8) ∉ cstr s := fun h => by
  simpa using List.mem_takeWhile_imp h

theorem cstr_of_zero_not_mem (h : (0 : UInt8) ∉ s) : cstr s = s :=
  List.takeWhile_eq_self_iff.2 fun x hx => by simpa using fun e : x = 0 => h (e ▸ hx)

theorem zero_not_mem_snprintf {size : ℕ} (h : (0 : UInt8) ∉ s) : (0 : UInt8) ∉ snprintf size s :=
  fun h' => h (List.mem_of_mem_take h')

theorem zero_not_mem_redirectText (hostname : CStr) (port : Int) :
    (0 : UInt8) ∉ redirectText hostname port := by
  simpa [redirectText, iceRedirect, crlf] using ⟨zero_not_mem_cstr hostname, zero_not_mem_decimal port⟩

theorem redirectText_length (hostname : CStr) (port : Int) :
    (redirectText hostname port).length = strlen hostname + 17 + (decimal port).length := by
  simp [redirectText, iceRedirect, crlf, cstr_length]
  omega

theorem relayHeaders_auth (encode : CStr → CStr) (hostname : CStr) (redirectPort : Int)
    {r : RelayServer} {username password : CStr} (hu : r.username = some username)
    (hp : r.password = some password) :
    relayHeaders encode hostname redirectPort r =
      (if redirectPort ≠ 0 then snprintf (13 + strlen hostname + 10) (redirectText hostname redirectPort)
        else [], authorizationBasic ++ cstr (encode (cstr username ++ 58 :: cstr password)) ++ crlf) := by
  have h₁ : snprintf (strlen username + strlen password + 2) (cstr username ++ 58 :: cstr password) =
      cstr username ++ 58 :: cstr password :=
    (snprintf_eq_self_iff (by omega)).2 (by simp [cstr_length]; omega)
  have h₂ : ∀ esc : CStr, snprintf (strlen esc + 24) (authorizationBasic ++ cstr esc ++ crlf) =
      authorizationBasic ++ cstr esc ++ crlf := fun esc =>
    (snprintf_eq_self_iff (by omega)).2 (by simp [authorizationBasic, crlf, cstr_length])
  simp only [relayHeaders, hu, hp, h₁, h₂]

end Headers

theorem redirectText_take (hostname : CStr) (port : Int) :
    snprintf (13 + strlen hostname + 10) (redirectText hostname port) =
      (iceRedirect ++ cstr hostname ++ [58]) ++ (decimal port ++ crlf).take 7 := by
  have hA : strlen hostname + 22 = (iceRedirect ++ cstr hostname ++ [58]).length + 7 := by
    simp [iceRedirect, cstr_length]
  rw [snprintf, show 13 + strlen hostname + 10 - 1 = strlen hostname + 22 by omega, hA,
    show redirectText hostname port = (iceRedirect ++ cstr hostname ++ [58]) ++ (decimal port ++ crlf) by
      simp [redirectText], List.take_append]

/-- A port text longer than five characters leaves the `ice-redirect` header without its end
of line. -/
theorem redirectHeader_cut (hostname : CStr) {port : Int} (h : 5 < (decimal port).length) :
    ¬ crlf <:+ snprintf (13 + strlen hostname + 10) (redirectText hostname port) := by
  have h10 : (10 : UInt8) ∉ (decimal port ++ crlf).take 7 := by
    rw [List.take_append_eq_append_take, List.mem_append]
    rintro (hm | hm)
    · rcases decimal_byte (List.mem_of_mem_take hm) with h | h <;> exact absurd h (by decide)
    · obtain ⟨k, hk, hk1⟩ : ∃ k, 7 - (decimal port).length = k ∧ k ≤ 1 := ⟨_, rfl, by omega⟩
      rw [hk] at hm
      interval_cases k <;> simp [crlf] at hm
  have hT : ((decimal port ++ crlf).take 7).length = 7 := by simp [crlf]; omega
  rw [redirectText_take, List.suffix_iff_eq_drop, List.length_append, hT,
    show ∀ n, n + 7 - crlf.length = n + 5 from fun _ => rfl, List.drop_append]
  intro he
  exact h10 (List.mem_of_mem_drop (he ▸ show (10 : UInt8) ∈ crlf by decide))

theorem relayRequest_of_credentials (version : List UInt8) (encode : CStr → CStr) (hostname : CStr)
    (redirectPort : Int) {r : RelayServer} {username password : CStr}
    (hu : r.username = some username) (hp : r.password = some password) :
    relayRequest version encode hostname redirectPort r =
      httpGet ++ cstr r.mount ++ http10 ++ userAgent ++ version ++ crlf ++
        (if r.mp3metadata ≠ 0 then icyMetaData else []) ++
        (if redirectPort ≠ 0 then snprintf (13 + strlen hostname + 10) (redirectText hostname redirectPort)
          else []) ++
        (authorizationBasic ++ cstr (encode (cstr username ++ 58 :: cstr password)) ++ crlf) ++ crlf := by
  have hauth : (0 : UInt8) ∉
      authorizationBasic ++ cstr (encode (cstr username ++ 58 :: cstr password)) ++ crlf := by
    simpa [authorizationBasic, crlf] using zero_not_mem_cstr _
  have hred : cstr (if redirectPort ≠ 0 then
      snprintf (13 + strlen hostname + 10) (redirectText hostname redirectPort) else []) =
      if redirectPort ≠ 0 then snprintf (13 + strlen hostname + 10) (redirectText hostname redirectPort)
        else [] := by
    split_ifs
    · exact cstr_of_zero_not_mem (zero_not_mem_snprintf (zero_not_mem_redirectText _ _))
    · rfl
  simp only [relayRequest, relayHeaders_auth encode hostname redirectPort hu hp,
    cstr_of_zero_not_mem hauth, hred]

theorem relayRequest_eq_intended_iff (version : List UInt8) (encode : CStr → CStr) (hostname : CStr)
    (redirectPort : Int) (r : RelayServer) :
    relayRequest version encode hostname redirectPort r =
        intendedRequest version encode hostname redirectPort r ↔
      (r.username.isSome ∧ r.password.isSome → redirectPort ≠ 0 →
        (decimal redirectPort).length ≤ 5) := by
  cases hu : r.username with
  | none => simp [relayRequest, intendedRequest, relayHeaders, hu, cstr]
  | some username =>
    cases hp : r.password with
    | none => simp [relayRequest, intendedRequest, relayHeaders, hu, hp, cstr]
    | some password =>
      rw [relayRequest_of_credentials version encode hostname redirectPort hu hp]
      simp only [intendedRequest, hu, hp, Option.isSome_some, and_self, true_implies]
      by_cases h0 : redirectPort = 0
      · simp [h0]
      · simp only [if_pos h0, List.append_assoc, List.append_cancel_left_eq,
          List.append_cancel_right_eq]
        rw [snprintf_eq_self_iff (by omega), redirectText_length]
        simp only [ne_eq, h0, not_false_eq_true, true_implies]
        omega

/-- What a relay worker sends: the `ice-redirect` header as its buffer cuts it, which loses its
end of line for a port text over five characters, and the credentials whole. -/
theorem relayRequest_spec (version : List UInt8) (encode : CStr → CStr) (hostname : CStr)
    (redirectPort : Int) (r : RelayServer) :
    (∀ username password, r.username = some username → r.password = some password →
      relayRequest version encode hostname redirectPort r =
        httpGet ++ cstr r.mount ++ http10 ++ userAgent ++ version ++ crlf ++
          (if r.mp3metadata ≠ 0 then icyMetaData else []) ++
          (if redirectPort ≠ 0 then snprintf (13 + strlen hostname + 10) (redirectText hostname redirectPort)
            else []) ++
          (authorizationBasic ++ cstr (encode (cstr username ++ 58 :: cstr password)) ++ crlf) ++ crlf) ∧
    (5 < (decimal redirectPort).length →
      ¬ crlf <:+ snprintf (13 + strlen hostname + 10) (redirectText hostname redirectPort)) ∧
    (relayRequest version encode hostname redirectPort r =
        intendedRequest version encode hostname redirectPort r ↔
      (r.username.isSome ∧ r.password.isSome → redirectPort ≠ 0 →
        (decimal redirectPort).length ≤ 5)) :=
  ⟨fun _ _ => relayRequest_of_credentials version encode hostname redirectPort,
    redirectHeader_cut hostname, relayRequest_eq_intended_iff version encode hostname redirectPort r⟩

theorem relayRequest_spec_sample :
    5 < (decimal 100000).length ∧
      ¬ crlf <:+ snprintf (13 + strlen [104] + 10) (redirectText [104] 100000) :=
  ⟨by decide, (relayRequest_spec [73] id [104] 100000
    ⟨[109], 8000, [47, 97], [47, 97], some [117], some [112], 1, 0, 1, none, none, false, false⟩).2.1
      (by decide)⟩

end IcecastRelay

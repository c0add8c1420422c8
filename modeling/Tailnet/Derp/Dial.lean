import Tailnet.Keys

/-! Which certificate a connection to a DERP server is validated against. A node of the DERP map may
pin a certificate by its hash; the pin becomes a validation config, and the dialler skips
the servers that have one. -/
namespace Tailnet.Derp
open List

inductive TlsValidationConfig
  /-- the certificate is self-signed and has this SHA256 signature -/
  | selfSigned (sha256 : Bytes 64)
  | commonName (commonName : String)
  deriving DecidableEq

/-- `char::is_whitespace` -/
def isWhitespace (c : Char) : Bool :=
  let n := c.toNat
  (9 ≤ n && n ≤ 13) || (0x2000 ≤ n && n ≤ 0x200A) ||
    [0x20,0x85,0xA0,0x1680,0x2028,0x2029,0x202F,0x205F,0x3000].contains n

/-- `str::trim` -/
def trim (s : List Char) : List Char := (s.dropWhile isWhitespace).rdropWhile isWhitespace

/-- `hex::decode_to_slice`: the digits have to fill the slice. -/
def decodeToSlice : (n : ℕ) → List Char → Option (Bytes n)
  | 0,[] => some .nil
  | n+1,a::b::s => do
    let high ← Text.hexDigit a
    let low ← Text.hexDigit b
    let rest ← decodeToSlice n s
    return UInt8.ofNat (16*high + low) ::ᵥ rest
  | _,_ => none

namespace TlsValidationConfig

def tlsSelfsignedPrefix : List Char := "sha256-raw:".toList

def fromStr (s hostname : String) : TlsValidationConfig :=
  if s = "" then .commonName hostname
  else
    match s.toList.dropPrefix? tlsSelfsignedPrefix with
    | some rest =>
      match decodeToSlice 64 (trim rest) with
      | some buf => .selfSigned buf
      | none => .commonName hostname
    | none => .commonName s

end TlsValidationConfig

structure DerpServer where
  hostname : String
  certName : Option String
  stunOnly : Bool

structure ServerConnInfo where
  hostname : String
  stunOnly : Bool
  tlsValidationConfig : TlsValidationConfig
  deriving DecidableEq

def server (s : DerpServer) : ServerConnInfo where
  hostname := s.hostname
  stunOnly := s.stunOnly
  tlsValidationConfig := .fromStr (s.certName.getD "") s.hostname

/-- What comes of dialling a server: a connection, whose remote address may be unknown, or none. -/
inductive Dialled
  | connected (peerAddr : Bool)
  | disabled
  | failed

inductive DialError
  | io
  | invalidParam
  deriving DecidableEq

/-- The first server that is connected to, of servers with what comes of dialling them. -/
def dialRegionTcp : List (ServerConnInfo × Dialled) → Option (ServerConnInfo × Bool)
  | [] => none
  | (server,dialled)::servers =>
    if server.stunOnly then dialRegionTcp servers
    else
      match server.tlsValidationConfig,dialled with
      | .selfSigned _,_ => dialRegionTcp servers
      | .commonName _,.connected peerAddr => some (server,peerAddr)
      | .commonName _,_ => dialRegionTcp servers

/-- The name that the certificate of a connection is validated against, and the server. A name
can be one that is no server name. -/
def dialRegionTls (validName : String → Bool) (servers : List (ServerConnInfo × Dialled)) :
    Result (Except DialError (Option (String × ServerConnInfo))) :=
  match dialRegionTcp servers with
  | none => .ok (.ok none)
  | some (server,peerAddr) =>
    if !peerAddr then .ok (.error .io)
    else
      match server.tlsValidationConfig with
      | .commonName name =>
        if validName name then .ok (.ok (some (name,server))) else .ok (.error .invalidParam)
      | .selfSigned _ => .error (.message "self-signed derp server certs are currently unsupported")

/-- The text is the pin of a hash of `n` bytes. -/
def HexDigits (n : ℕ) (s : List Char) : Prop := s.length = 2*n ∧ ∀ c ∈ s, (Text.hexDigit c).isSome

variable {n : ℕ} {s : List Char}

theorem isSome_decodeToSlice : (decodeToSlice n s).isSome ↔ HexDigits n s := by
  induction n,s using decodeToSlice.induct with
  | case1 => simp [decodeToSlice,HexDigits]
  | case2 n a b s ih =>
    have hlen : (a::b::s).length = 2*(n + 1) ↔ s.length = 2*n := by
      rw [length_cons,length_cons]
      omega
    rw [HexDigits,hlen,decodeToSlice]
    rw [HexDigits] at ih
    cases ha : Text.hexDigit a with
    | none => simp [ha]
    | some high =>
      cases hb : Text.hexDigit b with
      | none => simp [hb]
      | some low =>
        simp only [forall_mem_cons,ha,hb,Option.isSome_some,true_and,← ih]
        cases decodeToSlice n s <;> simp
  | case3 n s hzero hpair =>
    rw [decodeToSlice]
    · simp only [Option.isSome_none,Bool.false_eq_true,HexDigits,false_iff,not_and]
      intro hlen
      rcases s with _ | ⟨a,_ | ⟨b,s⟩⟩
      · cases n with
        | zero => exact (hzero rfl rfl).elim
        | succ n => simp at hlen
      · simp at hlen
        omega
      · cases n with
        | zero => simp at hlen
        | succ n => exact (hpair n a b s rfl rfl).elim
    · exact hzero
    · exact hpair

theorem decodeToSlice_hexPair (hash : Bytes n) :
    decodeToSlice n (hash.toList.flatMap Keys.hexPair) = some hash := by
  induction hash using List.Vector.inductionOn with
  | nil => rfl
  | @cons n b hash ih =>
    have hb := b.toNat_lt
    rw [List.Vector.toList_cons,flatMap_cons,Keys.hexPair]
    simp only [cons_append,nil_append]
    rw [decodeToSlice,Keys.hexDigit_digitChar (by omega),Keys.hexDigit_digitChar (by omega),ih]
    change some (UInt8.ofNat (16*(b.toNat/16) + b.toNat%16) ::ᵥ hash) = _
    rw [Nat.div_add_mod,UInt8.ofNat_toNat]

theorem trim_eq_self (h : ∀ c ∈ s, (Text.hexDigit c).isSome) : trim s = s := by
  have hdigit : ∀ c ∈ s, ¬ isWhitespace c = true := by
    intro c hc
    obtain ⟨d,hd⟩ := Option.isSome_iff_exists.mp (h c hc)
    have hcases := Text.hexDigit_cases hd
    simp only [isWhitespace,Bool.or_eq_true,Bool.and_eq_true,decide_eq_true_eq,contains_iff_mem,
      mem_cons,not_mem_nil,or_false]
    omega
  have hfront : s.dropWhile isWhitespace = s :=
    dropWhile_eq_self_iff.mpr fun hl => hdigit _ (getElem_mem hl)
  rw [trim,hfront]
  exact rdropWhile_eq_self_iff.mpr fun hl => hdigit _ (getLast_mem hl)

/-- The name of the certificate is the mark of a pin and some text. -/
def DerpServer.Pins (s : DerpServer) (text : List Char) : Prop :=
  (s.certName.getD "").toList = TlsValidationConfig.tlsSelfsignedPrefix ++ text

variable {s : DerpServer} {text : List Char}

theorem server_pin (h : s.Pins text) : (server s).tlsValidationConfig =
    ((decodeToSlice 64 (trim text)).map TlsValidationConfig.selfSigned).getD (.commonName s.hostname) := by
  have hne : s.certName.getD "" ≠ "" := by
    intro heq
    rw [DerpServer.Pins,heq] at h
    cases h
  have hdrop : (s.certName.getD "").toList.dropPrefix? TlsValidationConfig.tlsSelfsignedPrefix =
      some text := List.dropPrefix?_eq_some_iff.mpr ⟨_,h,beq_self_eq_true _⟩
  rw [server,TlsValidationConfig.fromStr,if_neg hne,hdrop]
  dsimp only
  cases decodeToSlice 64 (trim text) <;> rfl

/-- With too few or too many digits the server is left to its hostname. -/
theorem server_downgraded (h : s.Pins text) (hdigits : ¬ HexDigits 64 (trim text)) :
    (server s).tlsValidationConfig = .commonName s.hostname := by
  rw [← isSome_decodeToSlice,Option.not_isSome_iff_eq_none] at hdigits
  rw [server_pin h,hdigits]
  rfl

theorem dialRegionTcp_named {servers : List (ServerConnInfo × Dialled)} {info : ServerConnInfo}
    {peerAddr : Bool} (h : dialRegionTcp servers = some (info,peerAddr)) :
    ∃ name, info.tlsValidationConfig = .commonName name := by
  induction servers with
  | nil => cases h
  | cons entry servers ih =>
    obtain ⟨first,dialled⟩ := entry
    simp only [dialRegionTcp] at h
    split at h
    · exact ih h
    · split at h
      · exact ih h
      · rename_i name _ hname
        cases h
        exact ⟨name,hname⟩
      · exact ih h

/-- A connection is validated against the name that its server is configured with. -/
theorem dialRegionTls_named {validName : String → Bool} {servers : List (ServerConnInfo × Dialled)}
    {name : String} {info : ServerConnInfo}
    (h : dialRegionTls validName servers = .ok (.ok (some (name,info)))) :
    info.tlsValidationConfig = .commonName name := by
  rw [dialRegionTls] at h
  cases htcp : dialRegionTcp servers with
  | none =>
    rw [htcp] at h
    cases h
  | some r =>
    obtain ⟨first,peerAddr⟩ := r
    obtain ⟨name',hname⟩ := dialRegionTcp_named htcp
    simp only [htcp,hname] at h
    split at h
    · cases h
    · split at h
      · cases h
        exact hname
      · cases h

/-- What the documentation of the map says of the name of a certificate: a hash is kept as it is,
and a server with a hash is never connected to by a name. -/
structure DerpServer.PinHonoured (s : DerpServer) : Prop where
  kept : ∀ text, s.Pins text → ∃ sha256, (server s).tlsValidationConfig = .selfSigned sha256 ∧
    ∀ hash : List UInt8, text = hash.flatMap Keys.hexPair → sha256.toList = hash
  unnamed : ∀ text, s.Pins text → ∀ validName servers name,
    dialRegionTls validName servers ≠ .ok (.ok (some (name,server s)))

theorem pinHonoured_of_digits (h : ∀ text, s.Pins text → HexDigits 64 (trim text)) :
    s.PinHonoured := by
  have hpin : ∀ text, s.Pins text → ∃ sha256, decodeToSlice 64 (trim text) = some sha256 ∧
      (server s).tlsValidationConfig = .selfSigned sha256 := by
    intro text hpins
    obtain ⟨sha256,hdecode⟩ :=
      Option.isSome_iff_exists.mp (isSome_decodeToSlice.mpr (h text hpins))
    exact ⟨sha256,hdecode,by rw [server_pin hpins,hdecode]; rfl⟩
  refine ⟨fun text hpins => ?_,fun text hpins validName servers name hdial => ?_⟩
  · obtain ⟨sha256,hdecode,hconfig⟩ := hpin text hpins
    refine ⟨sha256,hconfig,?_⟩
    rintro hash rfl
    have hlen := (h _ hpins).1
    rw [trim_eq_self fun c => Keys.isSome_hexDigit_of_mem] at hdecode hlen
    rw [Keys.length_flatMap_hexPair] at hlen
    obtain ⟨v,rfl⟩ : ∃ v : Bytes 64, v.toList = hash := ⟨⟨hash,by omega⟩,rfl⟩
    rw [decodeToSlice_hexPair] at hdecode
    cases hdecode
    rfl
  · obtain ⟨sha256,-,hconfig⟩ := hpin text hpins
    have hname := dialRegionTls_named hdial
    rw [hconfig] at hname
    cases hname

/-- A pin is honoured exactly if the text behind the mark, without space around it, is of 128 digits.
That of a SHA-256 hash has 64 digits, so that the server is left to its hostname. -/
theorem pin_honoured_iff (s : DerpServer) :
    (s.PinHonoured ↔ ∀ text, s.Pins text → HexDigits 64 (trim text)) ∧
    ∀ hash : Bytes 32, s.Pins (hash.toList.flatMap Keys.hexPair) →
      ¬ s.PinHonoured ∧ (server s).tlsValidationConfig = .commonName s.hostname := by
  have hiff : s.PinHonoured ↔ ∀ text, s.Pins text → HexDigits 64 (trim text) := by
    refine ⟨fun h text hpins => ?_,pinHonoured_of_digits⟩
    by_contra hdigits
    obtain ⟨sha256,hconfig,-⟩ := h.kept text hpins
    rw [server_downgraded hpins hdigits] at hconfig
    cases hconfig
  refine ⟨hiff,fun hash hpins => ?_⟩
  have hshort : ¬ HexDigits 64 (trim (hash.toList.flatMap Keys.hexPair)) := by
    rw [trim_eq_self fun c => Keys.isSome_hexDigit_of_mem,HexDigits,Keys.length_flatMap_hexPair,
      List.Vector.toList_length]
    omega
  exact ⟨fun h => hshort (hiff.mp h _ hpins),server_downgraded hpins hshort⟩

/-- A server that is pinned by a SHA-256 hash is connected to by its hostname. -/
theorem pinned_server_dialled_by_name :
    let pinned : DerpServer := ⟨"192.0.2.1",
      some "sha256-raw:00112233445566778899aabbccddeeff00112233445566778899aabbccddeeff",false⟩
    dialRegionTls (fun _ => true) [(server pinned,.connected true)] =
      .ok (.ok (some ("192.0.2.1",server pinned))) := by
  decide +kernel

end Tailnet.Derp

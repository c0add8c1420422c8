import Tailnet.Shadowvpn.Obfs

/-! Sealing and opening of datagrams: a salt, from which and from the master key a key is
derived for this datagram only, and the sealed packet with its tag. -/
namespace Tailnet.Shadowvpn
open List Result

def tagLen : ℕ := 16

def maxKeyLen : ℕ := 32

inductive CryptoError
  | unknownCipher (name : String)
  | tooShort (got need : ℕ)
  | hkdf
  | aead
  deriving DecidableEq

inductive Cipher
  | aes128Gcm
  | aes256Gcm
  | chaCha20Poly1305
  deriving DecidableEq

namespace Cipher

def fromName : String → Except CryptoError Cipher
  | "aes-128-gcm" => .ok aes128Gcm
  | "aes-256-gcm" => .ok aes256Gcm
  | "chacha20-poly1305" => .ok chaCha20Poly1305
  | "chacha20-ietf-poly1305" => .ok chaCha20Poly1305
  | other => .error (.unknownCipher other)

def name : Cipher → String
  | aes128Gcm => "aes-128-gcm"
  | aes256Gcm => "aes-256-gcm"
  | chaCha20Poly1305 => "chacha20-poly1305"

def keyLen : Cipher → ℕ
  | aes128Gcm => 16
  | aes256Gcm => 32
  | chaCha20Poly1305 => 32

def saltLen (c : Cipher) : ℕ := c.keyLen

theorem keyLen_le (c : Cipher) : c.keyLen ≤ maxKeyLen := by
  cases c <;> decide

/-- Parsing takes back the names that are printed. -/
theorem fromName_name (c : Cipher) : fromName c.name = .ok c := by
  cases c <;> rfl

end Cipher

def subkeyLen (c : Cipher) : Result ℕ := do
  let (subkey,_) ← Result.splitAt (List.replicate maxKeyLen (0 : UInt8)) c.keyLen
  return subkey.length

theorem subkeyLen_eq (c : Cipher) : subkeyLen c = .ok c.keyLen := by
  cases c <;> rfl

/-- The key derivation and the ciphers of the libraries, with the all-zero nonce and no
associated data. Deriving fails only for keys longer than 255 digests, a cipher takes keys of
its length only, and a sealed packet opens with the key that sealed it. -/
class AeadPrimitives where
  hkdf : (salt ikm info : List UInt8) → (len : ℕ) → Option (List UInt8)
  sealWith : Cipher → (key plaintext : List UInt8) → List UInt8 × Bytes 16
  openWith : Cipher → (key ciphertext : List UInt8) → Bytes 16 → Option (List UInt8)
  hkdf_some : ∀ salt ikm info len, len ≤ 255*20 →
    ∃ key, hkdf salt ikm info len = some key ∧ key.length = len
  open_seal : ∀ c key plaintext, key.length = c.keyLen →
    openWith c key (sealWith c key plaintext).1 (sealWith c key plaintext).2 = some plaintext

variable [AeadPrimitives]

def deriveSubkey (masterKey salt : List UInt8) (len : ℕ) : Except CryptoError (List UInt8) :=
  match AeadPrimitives.hkdf salt masterKey (Bytes.ascii "ss-subkey") len with
  | some key => .ok key
  | none => .error .hkdf

def aeadSeal (c : Cipher) (subkey plaintext : List UInt8) : Except CryptoError (List UInt8 × Bytes 16) :=
  if subkey.length = c.keyLen then .ok (AeadPrimitives.sealWith c subkey plaintext) else .error .aead

def aeadOpen (c : Cipher) (subkey ciphertext : List UInt8) (tag : Bytes 16) :
    Except CryptoError (List UInt8) :=
  if subkey.length = c.keyLen then
    match AeadPrimitives.openWith c subkey ciphertext tag with
    | some plaintext => .ok plaintext
    | none => .error .aead
  else .error .aead

/-- The datagram of a packet under a salt. -/
def encryptWith (c : Cipher) (masterKey salt plaintext : List UInt8) :
    Result (Except CryptoError (List UInt8)) := do
  let len ← subkeyLen c
  match deriveSubkey masterKey salt len with
  | .error e => return .error e
  | .ok subkey =>
    let (salt,body) ← Result.splitAt (salt ++ plaintext) c.saltLen
    match aeadSeal c subkey body with
    | .error e => return .error e
    | .ok (ciphertext,tag) => return .ok (salt ++ ciphertext ++ tag.toList)

def encryptPacket (c : Cipher) (masterKey plaintext : List UInt8) (rng : Rng) :
    Result (Except CryptoError (List UInt8) × Rng) := do
  let (salt,rng) := fill c.saltLen rng
  let datagram ← encryptWith c masterKey salt plaintext
  return (datagram,rng)

def decryptPacket (c : Cipher) (masterKey datagram : List UInt8) :
    Result (Except CryptoError (List UInt8)) := do
  let need := c.saltLen + tagLen
  if datagram.length < need then
    return .error (.tooShort datagram.length need)
  else
    let (salt,rest) ← Result.splitAt datagram c.saltLen
    let len ← subkeyLen c
    match deriveSubkey masterKey salt len with
    | .error e => return .error e
    | .ok subkey =>
      let mid ← Result.sub rest.length tagLen
      let (ciphertext,tag) ← Result.splitAt rest mid
      -- a tag of another length would not fit the array of the cipher
      match Bytes.read 16 tag with
      | some (tag,[]) => return aeadOpen c subkey ciphertext tag
      | _ => .error .assertion

theorem deriveSubkey_ok (c : Cipher) (masterKey salt : List UInt8) :
    ∃ key, deriveSubkey masterKey salt c.keyLen = .ok key ∧ key.length = c.keyLen := by
  obtain ⟨key,hkey,hlen⟩ := AeadPrimitives.hkdf_some salt masterKey (Bytes.ascii "ss-subkey") c.keyLen
    (c.keyLen_le.trans (by decide))
  exact ⟨key,by rw [deriveSubkey,hkey],hlen⟩

theorem encryptWith_ok (c : Cipher) (masterKey plaintext : List UInt8) {salt : List UInt8}
    (hsalt : salt.length = c.saltLen) :
    ∃ key, deriveSubkey masterKey salt c.keyLen = .ok key ∧ key.length = c.keyLen ∧
      encryptWith c masterKey salt plaintext = .ok (.ok (salt ++
        (AeadPrimitives.sealWith c key plaintext).1 ++
        (AeadPrimitives.sealWith c key plaintext).2.toList)) := by
  obtain ⟨key,hkey,hlen⟩ := deriveSubkey_ok c masterKey salt
  have hseal : aeadSeal c key plaintext = .ok (AeadPrimitives.sealWith c key plaintext) := if_pos hlen
  have hsplit : Result.splitAt (salt ++ plaintext) c.saltLen = .ok (salt,plaintext) := by
    rw [← hsalt,splitAt_of_le (by simp),take_left,drop_left]
  refine ⟨key,hkey,hlen,?_⟩
  rw [encryptWith,subkeyLen_eq]
  simp only [bind_of_ok,hkey,hsplit,hseal]
  rfl

/-- A long enough datagram is opened with the key of its salt. -/
theorem decryptPacket_eq (c : Cipher) (masterKey : List UInt8) {salt ciphertext : List UInt8}
    (hsalt : salt.length = c.saltLen) (tag : Bytes 16) {key : List UInt8}
    (hkey : deriveSubkey masterKey salt c.keyLen = .ok key) :
    decryptPacket c masterKey (salt ++ ciphertext ++ tag.toList) =
      .ok (aeadOpen c key ciphertext tag) := by
  have htag : tag.toList.length = tagLen := tag.toList_length
  have hlen : (salt ++ ciphertext ++ tag.toList).length = c.saltLen + ciphertext.length + tagLen := by
    rw [length_append,length_append,hsalt,htag]
  have hsplit : Result.splitAt (salt ++ ciphertext ++ tag.toList) c.saltLen =
      .ok (salt,ciphertext ++ tag.toList) := by
    rw [splitAt_of_le (by omega),append_assoc,← hsalt,take_left,drop_left]
  have hmid : Result.sub (ciphertext ++ tag.toList).length tagLen = .ok ciphertext.length := by
    rw [length_append,htag,sub_of_le (by omega),Nat.add_sub_cancel]
  have hrest : Result.splitAt (ciphertext ++ tag.toList) ciphertext.length =
      .ok (ciphertext,tag.toList) := by
    rw [splitAt_of_le (by simp),take_left,drop_left]
  rw [decryptPacket,if_neg (by omega),hsplit]
  simp only [bind_of_ok,subkeyLen_eq,hkey,hmid,hrest,Bytes.read_toList]
  rfl

theorem decryptPacket_ok (c : Cipher) (masterKey datagram : List UInt8) :
    ∃ r, decryptPacket c masterKey datagram = .ok r := by
  by_cases hlen : datagram.length < c.saltLen + tagLen
  · exact ⟨_,by rw [decryptPacket,if_pos hlen]; rfl⟩
  · -- split the datagram into its parts
    obtain ⟨key,hkey,_⟩ := deriveSubkey_ok c masterKey (datagram.take c.saltLen)
    let rest := datagram.drop c.saltLen
    have hrest : rest.length = datagram.length - c.saltLen := length_drop
    let tag : Bytes 16 := ⟨rest.drop (rest.length - tagLen),by
      rw [length_drop]
      have : tagLen = 16 := rfl
      omega⟩
    have hsplit : datagram = datagram.take c.saltLen ++ rest.take (rest.length - tagLen) ++ tag.toList := by
      rw [append_assoc]
      change _ = _ ++ (rest.take _ ++ rest.drop _)
      rw [take_append_drop,take_append_drop]
    have hsalt : (datagram.take c.saltLen).length = c.saltLen := by
      rw [length_take]
      omega
    rw [hsplit]
    exact ⟨_,decryptPacket_eq c masterKey hsalt tag hkey⟩

/-- Encryption does not fail, and what it seals opens with the same master key. -/
theorem encryptPacket_spec (c : Cipher) (masterKey plaintext : List UInt8) (rng : Rng) :
    ∃ datagram rng', encryptPacket c masterKey plaintext rng = .ok (.ok datagram,rng') ∧
      decryptPacket c masterKey datagram = .ok (.ok plaintext) := by
  have hsalt : (fill c.saltLen rng).1.length = c.saltLen := length_fill c.saltLen rng
  obtain ⟨key,hkey,hlen,henc⟩ := encryptWith_ok c masterKey plaintext hsalt
  refine ⟨_,_,by rw [encryptPacket]; simp only [henc]; rfl,?_⟩
  rw [decryptPacket_eq c masterKey hsalt _ hkey,aeadOpen,if_pos hlen,
    AeadPrimitives.open_seal c key plaintext hlen]

end Tailnet.Shadowvpn

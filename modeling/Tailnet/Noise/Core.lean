import Tailnet.Lib.Bytes
import Tailnet.Lib.Result

/-! The operations of Noise handshakes. The hash, the key derivation, the key exchange
and the cipher are parameters. Both sides of a handshake move through the same
operations, and opening what was sealed in a state leads to the state after sealing. -/
namespace Tailnet

/-- The cipher. It works in place, so that a buffer keeps its length. -/
class Aead where
  /-- `encrypt_in_place_detached`: the ciphertext and the tag. -/
  encrypt {n : ℕ} (key : Bytes 32) (nonce : Bytes 12) (ad : List UInt8) (buffer : Bytes n) :
    Bytes n × Bytes 16
  /-- `decrypt_in_place_detached`: the cleartext, when the tag is right. -/
  decrypt {n : ℕ} (key : Bytes 32) (nonce : Bytes 12) (ad : List UInt8) (buffer : Bytes n)
    (tag : Bytes 16) : Option (Bytes n)
  /-- `encrypt_in_place` on a packet that grows by the tag. -/
  encryptInPlace (key : Bytes 32) (nonce : Bytes 12) (ad packet : List UInt8) : List UInt8
  /-- `decrypt_in_place` on a packet that ends with its tag. -/
  decryptInPlace (key : Bytes 32) (nonce : Bytes 12) (ad packet : List UInt8) :
    Option (List UInt8)

/-- Opening inverts sealing for equal key, nonce and associated data. -/
def Aead.OpensSealed [Aead] : Prop :=
  ∀ {n : ℕ} (key : Bytes 32) (nonce : Bytes 12) (ad : List UInt8) (buffer : Bytes n),
    decrypt key nonce ad (encrypt key nonce ad buffer).1 (encrypt key nonce ad buffer).2 = some buffer

/-- Opening a packet inverts sealing it. -/
def Aead.OpensPackets [Aead] : Prop :=
  ∀ (key : Bytes 32) (nonce : Bytes 12) (ad packet : List UInt8),
    decryptInPlace key nonce ad (encryptInPlace key nonce ad packet) = some packet

/-- The primitives a Noise handshake is built from. -/
class NoisePrimitives extends Aead where
  /-- BLAKE2s with 32 bytes of output. -/
  digest : List UInt8 → Bytes 32
  /-- `must_hkdf`: `n` values of 32 bytes. -/
  hkdf (chainingKey : Bytes 32) (key : List UInt8) (n : ℕ) : Fin n → Bytes 32
  /-- X25519. -/
  publicKey : Bytes 32 → Bytes 32
  diffieHellman : Bytes 32 → Bytes 32 → Bytes 32

/-- Both sides of a key exchange compute the same secret. -/
def NoisePrimitives.DhCommutes [NoisePrimitives] : Prop :=
  ∀ a b : Bytes 32, diffieHellman a (publicKey b) = diffieHellman b (publicKey a)

namespace Noise
open NoisePrimitives

section
variable [NoisePrimitives]

/-- A key pair, whose public half belongs to its secret half. -/
structure X25519KeyPair where
  secret : Bytes 32
  pub : Bytes 32
  pub_eq : pub = publicKey secret

def X25519KeyPair.ofSecret (secret : Bytes 32) : X25519KeyPair := ⟨secret,publicKey secret,rfl⟩

structure Session where
  send : Bytes 32
  recv : Bytes 32
  deriving DecidableEq

structure State where
  hash : Bytes 32
  chainingKey : Bytes 32
  deriving DecidableEq

/-- Noise handshake state when AEAD operations are available. -/
structure StateWithAead where
  state : State
  /-- the key of the cipher -/
  aead : Bytes 32
  deriving DecidableEq

namespace State

def new (protocolName : List UInt8) : State := ⟨digest protocolName,digest protocolName⟩

def mixHashGather (s : State) (data : List (List UInt8)) : State :=
  { s with hash := digest (s.hash.toList ++ data.flatten) }

def mixHash (s : State) (data : List UInt8) : State := s.mixHashGather [data]

/-- For the ephemeral public key in psk handshake variants. -/
def mixHashAndKey (s : State) (pub : Bytes 32) : State :=
  let s := s.mixHash pub.toList
  ⟨s.hash,hkdf s.chainingKey pub.toList 1 0⟩

/-- Perform an X25519 operation, and mix the result into the handshake state. -/
def mixDh (s : State) (secret pub : Bytes 32) : StateWithAead :=
  let out := hkdf s.chainingKey (diffieHellman secret pub).toList 2
  ⟨⟨s.hash,out 0⟩,out 1⟩

def finishAsInitiator (s : State) : Session :=
  let out := hkdf s.chainingKey [] 2
  ⟨out 0,out 1⟩

def finishAsResponder (s : State) : Session :=
  let out := hkdf s.chainingKey [] 2
  ⟨out 1,out 0⟩

end State

abbrev Psk := Bytes 32

def zeroNonce : Bytes 12 := List.Vector.replicate 12 0

omit [NoisePrimitives] in
theorem neZero_outputs : NeZero 3 := ⟨by decide⟩

namespace StateWithAead
attribute [local instance] neZero_outputs
variable {n : ℕ}

def mixDh (s : StateWithAead) (secret pub : Bytes 32) : StateWithAead := s.state.mixDh secret pub

/-- Mix a pre-shared symmetric key into the handshake state. -/
def mixPsk (s : StateWithAead) (psk : Psk) : StateWithAead :=
  let out := hkdf s.state.chainingKey psk.toList 3
  ⟨State.mixHash ⟨s.state.hash,out 0⟩ (out 1).toList,out 2⟩

/-- Seal a cleartext: the ciphertext, the tag and the next state. -/
def sealInPlace (s : StateWithAead) (cleartext : Bytes n) : Bytes n × Bytes 16 × State :=
  let (ciphertext,tag) := Aead.encrypt s.aead zeroNonce s.state.hash.toList cleartext
  (ciphertext,tag,s.state.mixHashGather [ciphertext.toList,tag.toList])

/-- Open a ciphertext: the cleartext and the next state, when the tag is right. -/
def openInPlace (s : StateWithAead) (ciphertext : Bytes n) (tag : Bytes 16) :
    Option (Bytes n × State) := do
  let state := s.state.mixHashGather [ciphertext.toList,tag.toList]
  let cleartext ← Aead.decrypt s.aead zeroNonce s.state.hash.toList ciphertext tag
  return (cleartext,state)

/-- Opening what was sealed in the same state returns it and the same next state. -/
theorem openInPlace_sealInPlace (h : Aead.OpensSealed) (s : StateWithAead) (cleartext : Bytes n) :
    s.openInPlace (s.sealInPlace cleartext).1 (s.sealInPlace cleartext).2.1 =
      some (cleartext,(s.sealInPlace cleartext).2.2) := by
  simp [openInPlace,sealInPlace,h s.aead zeroNonce s.state.hash.toList cleartext]

end StateWithAead

theorem State.mixDh_comm (h : DhCommutes) (s : State) (a b : X25519KeyPair) :
    s.mixDh a.secret b.pub = s.mixDh b.secret a.pub := by
  rw [State.mixDh,State.mixDh,a.pub_eq,b.pub_eq,h]

theorem StateWithAead.mixDh_comm (h : DhCommutes) (s : StateWithAead) (a b : X25519KeyPair) :
    s.mixDh a.secret b.pub = s.mixDh b.secret a.pub :=
  State.mixDh_comm h s.state a b

end
end Noise
end Tailnet

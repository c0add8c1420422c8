import Tailnet.Noise.Core

/-! The IK and IKpsk2 handshakes. The two patterns take the same steps; they differ in
how the ephemeral keys are mixed in and in the pre-shared key of IKpsk2. The responder
goes through the states of the initiator, so that both derive the same session. -/
namespace Tailnet.Noise
open NoisePrimitives

structure Init (n : ℕ) where
  ephemeralPub : Bytes 32
  staticPub : Bytes 32
  staticPubTag : Bytes 16
  payload : Bytes n
  payloadTag : Bytes 16
  deriving DecidableEq

structure Resp where
  ephemeralPub : Bytes 32
  authTag : Bytes 16
  deriving DecidableEq

namespace Init
variable {n : ℕ}

def size (n : ℕ) : ℕ := 32 + 32 + 16 + n + 16

def toBytes (m : Init n) : List UInt8 :=
  m.ephemeralPub.toList ++ (m.staticPub.toList ++ (m.staticPubTag.toList ++
    (m.payload.toList ++ m.payloadTag.toList)))

/-- The message of a buffer that has exactly its size. -/
def fromBytes (n : ℕ) (packet : List UInt8) : Option (Init n) := do
  let (ephemeralPub,packet) ← Bytes.read 32 packet
  let (staticPub,packet) ← Bytes.read 32 packet
  let (staticPubTag,packet) ← Bytes.read 16 packet
  let (payload,packet) ← Bytes.read n packet
  let (payloadTag,packet) ← Bytes.read 16 packet
  if packet = [] then some ⟨ephemeralPub,staticPub,staticPubTag,payload,payloadTag⟩ else none

@[simp] theorem fromBytes_toBytes (m : Init n) : fromBytes n m.toBytes = some m := by
  simp [fromBytes,toBytes]

end Init

namespace Resp

def size : ℕ := 32 + 16

def toBytes (m : Resp) : List UInt8 := m.ephemeralPub.toList ++ m.authTag.toList

def fromBytes (packet : List UInt8) : Option Resp := do
  let (ephemeralPub,packet) ← Bytes.read 32 packet
  let (authTag,packet) ← Bytes.read 16 packet
  if packet = [] then some ⟨ephemeralPub,authTag⟩ else none

@[simp] theorem fromBytes_toBytes (m : Resp) : fromBytes m.toBytes = some m := by
  simp [fromBytes,toBytes]

end Resp

/-- A partially completed handshake, where the peer is the handshake's initiator. -/
structure ReceivedHandshake where
  state : State
  peerEphemeralPub : Bytes 32
  /-- the peer's static identity -/
  peerStaticPub : Bytes 32
  deriving DecidableEq

/-- A partially completed handshake, where the peer is the handshake's responder. -/
structure SentHandshake where
  state : State
  myEphemeral : Bytes 32
  deriving DecidableEq

section
variable [NoisePrimitives]

/-- What sets a handshake pattern apart. -/
structure Pattern where
  protocol : List UInt8
  mixEphemeral : State → Bytes 32 → State

namespace Pattern
variable {n : ℕ}

def receive (pat : Pattern) (n : ℕ) (packet prologue : List UInt8) (myStatic : X25519KeyPair) :
    Option (ReceivedHandshake × Bytes n) := do
  let packet ← Init.fromBytes n packet
  let s := ((State.new pat.protocol).mixHash prologue).mixHash myStatic.pub.toList
  let s := pat.mixEphemeral s packet.ephemeralPub
  let (staticPub,s) ←
    (s.mixDh myStatic.secret packet.ephemeralPub).openInPlace packet.staticPub packet.staticPubTag
  let (payload,s) ←
    (s.mixDh myStatic.secret staticPub).openInPlace packet.payload packet.payloadTag
  return (⟨s,packet.ephemeralPub,staticPub⟩,payload)

/-- Finalize the handshake and generate a response, written to `out`. The pre-shared key,
where there is one, is mixed in before the response is sealed. -/
def respond (pat : Pattern) (mixPsk : StateWithAead → StateWithAead) (hs : ReceivedHandshake)
    (myEphemeral : X25519KeyPair) (out : List UInt8) : Result (Session × List UInt8) := do
  Result.assert (out.length = Resp.size)
  let s := pat.mixEphemeral hs.state myEphemeral.pub
  let s := s.mixDh myEphemeral.secret hs.peerEphemeralPub
  let s := s.mixDh myEphemeral.secret hs.peerStaticPub
  let (_,authTag,s) := (mixPsk s).sealInPlace List.Vector.nil
  return (s.finishAsResponder,Resp.toBytes ⟨myEphemeral.pub,authTag⟩)

/-- Generate an outgoing handshake initiation, written to `out`. -/
def initiate (pat : Pattern) (myStatic myEphemeral : X25519KeyPair) (peerStatic : Bytes 32)
    (prologue : List UInt8) (payload : Bytes n) (out : List UInt8) :
    Result (SentHandshake × List UInt8) := do
  Result.assert (out.length = Init.size n)
  let s := ((State.new pat.protocol).mixHash prologue).mixHash peerStatic.toList
  let s := pat.mixEphemeral s myEphemeral.pub
  let (staticPub,staticPubTag,s) :=
    (s.mixDh myEphemeral.secret peerStatic).sealInPlace myStatic.pub
  let (payload,payloadTag,s) := (s.mixDh myStatic.secret peerStatic).sealInPlace payload
  return (⟨s,myEphemeral.secret⟩,
    Init.toBytes ⟨myEphemeral.pub,staticPub,staticPubTag,payload,payloadTag⟩)

/-- The state in which the tag of a response is checked. -/
def atTagCheck (pat : Pattern) (mixPsk : StateWithAead → StateWithAead) (hs : SentHandshake)
    (peerEphemeralPub : Bytes 32) (myStatic : X25519KeyPair) : StateWithAead :=
  let s := pat.mixEphemeral hs.state peerEphemeralPub
  let s := s.mixDh hs.myEphemeral peerEphemeralPub
  mixPsk (s.mixDh myStatic.secret peerEphemeralPub)

/-- Try to finalize the handshake; an invalid response returns it for another attempt. -/
def tryFinish (pat : Pattern) (mixPsk : StateWithAead → StateWithAead) (hs : SentHandshake)
    (packet : List UInt8) (myStatic : X25519KeyPair) : Except SentHandshake Session :=
  match Resp.fromBytes packet with
  | none => .error hs
  | some packet =>
    match (pat.atTagCheck mixPsk hs packet.ephemeralPub myStatic).openInPlace List.Vector.nil
        packet.authTag with
    | none => .error hs
    | some (_,s) => .ok s.finishAsInitiator

/-- The tag check on a response fails. -/
def TagFails (pat : Pattern) (mixPsk : StateWithAead → StateWithAead) (hs : SentHandshake)
    (packet : List UInt8) (myStatic : X25519KeyPair) : Prop :=
  ∃ resp, Resp.fromBytes packet = some resp ∧
    (pat.atTagCheck mixPsk hs resp.ephemeralPub myStatic).openInPlace List.Vector.nil
      resp.authTag = none

/-- The two sides of a handshake after the initiation. -/
structure Matched (sent : SentHandshake) (recv : ReceivedHandshake)
    (iStatic iEphemeral : X25519KeyPair) : Prop where
  state : recv.state = sent.state
  ephemeral : sent.myEphemeral = iEphemeral.secret
  peerEphemeral : recv.peerEphemeralPub = iEphemeral.pub
  peerStatic : recv.peerStaticPub = iStatic.pub

variable (pat : Pattern) (mixPsk : StateWithAead → StateWithAead) (iStatic iEphemeral rStatic
  rEphemeral : X25519KeyPair) {sent : SentHandshake} {recv : ReceivedHandshake}

/-- The responder opens the initiation in the states in which it was sealed. -/
theorem receive_initiate (hdh : DhCommutes) (haead : Aead.OpensSealed) (prologue : List UInt8)
    (payload : Bytes n) {out : List UInt8} (hout : out.length = Init.size n) :
    ∃ sent init recv,
      pat.initiate iStatic iEphemeral rStatic.pub prologue payload out = .ok (sent,init) ∧
      pat.receive n init prologue rStatic = some (recv,payload) ∧
      Matched sent recv iStatic iEphemeral := by
  let s := pat.mixEphemeral
    (((State.new pat.protocol).mixHash prologue).mixHash rStatic.pub.toList) iEphemeral.pub
  let sealedStatic := (s.mixDh iEphemeral.secret rStatic.pub).sealInPlace iStatic.pub
  let sealedPayload := (sealedStatic.2.2.mixDh iStatic.secret rStatic.pub).sealInPlace payload
  have hs : (s.mixDh rStatic.secret iEphemeral.pub).openInPlace sealedStatic.1 sealedStatic.2.1 =
      some (iStatic.pub,sealedStatic.2.2) := by
    rw [State.mixDh_comm hdh]
    exact StateWithAead.openInPlace_sealInPlace haead _ _
  have hp : (sealedStatic.2.2.mixDh rStatic.secret iStatic.pub).openInPlace sealedPayload.1
      sealedPayload.2.1 = some (payload,sealedPayload.2.2) := by
    rw [State.mixDh_comm hdh]
    exact StateWithAead.openInPlace_sealInPlace haead _ _
  refine ⟨⟨sealedPayload.2.2,iEphemeral.secret⟩,
    Init.toBytes ⟨iEphemeral.pub,sealedStatic.1,sealedStatic.2.1,sealedPayload.1,sealedPayload.2.1⟩,
    ⟨sealedPayload.2.2,iEphemeral.pub,iStatic.pub⟩,?_,?_,rfl,rfl,rfl,rfl⟩
  · simp only [initiate,hout,decide_true,Result.assert_true,Result.bind_of_ok]
    rfl
  · simp only [receive,Init.fromBytes_toBytes,Option.bind_eq_bind,Option.bind_some]
    rw [hs,Option.bind_some,hp]
    rfl

/-- The initiator opens the response in the state in which it was sealed. -/
theorem tryFinish_respond (hdh : DhCommutes) (haead : Aead.OpensSealed)
    (h : Matched sent recv iStatic iEphemeral) {out : List UInt8} (hout : out.length = Resp.size) :
    ∃ rSession resp iSession, pat.respond mixPsk recv rEphemeral out = .ok (rSession,resp) ∧
      pat.tryFinish mixPsk sent resp iStatic = .ok iSession ∧
      iSession.send = rSession.recv ∧ iSession.recv = rSession.send := by
  let s := (pat.mixEphemeral recv.state rEphemeral.pub).mixDh rEphemeral.secret recv.peerEphemeralPub
  let sealedEmpty := (mixPsk (s.mixDh rEphemeral.secret recv.peerStaticPub)).sealInPlace
    List.Vector.nil
  have hcheck : pat.atTagCheck mixPsk sent rEphemeral.pub iStatic =
      mixPsk (s.mixDh rEphemeral.secret recv.peerStaticPub) := by
    simp only [atTagCheck,s,h.state,h.ephemeral,h.peerEphemeral,h.peerStatic,
      State.mixDh_comm hdh _ iEphemeral rEphemeral,StateWithAead.mixDh_comm hdh _ iStatic rEphemeral]
  refine ⟨sealedEmpty.2.2.finishAsResponder,Resp.toBytes ⟨rEphemeral.pub,sealedEmpty.2.1⟩,
    sealedEmpty.2.2.finishAsInitiator,?_,?_,rfl,rfl⟩
  · simp only [respond,hout,decide_true,Result.assert_true,Result.bind_of_ok]
    rfl
  · have hopen : (pat.atTagCheck mixPsk sent rEphemeral.pub iStatic).openInPlace List.Vector.nil
        sealedEmpty.2.1 = some (List.Vector.nil,sealedEmpty.2.2) := by
      rw [hcheck,← StateWithAead.openInPlace_sealInPlace haead]
      exact congrArg (fun b => StateWithAead.openInPlace _ b _) (List.Vector.eq_nil _).symm
    rw [tryFinish,Resp.fromBytes_toBytes]
    simp only [hopen]

/-- A response whose tag check fails leaves the handshake as it was. -/
theorem tryFinish_of_tagFails {packet : List UInt8} (h : pat.TagFails mixPsk sent packet iStatic) :
    pat.tryFinish mixPsk sent packet iStatic = .error sent := by
  obtain ⟨resp,hresp,hopen⟩ := h
  rw [tryFinish,hresp]
  simp only [hopen]

end Pattern

namespace Ik

def protocol : List UInt8 := Bytes.ascii "Noise_IK_25519_ChaChaPoly_BLAKE2s"

def pattern : Pattern := ⟨protocol,fun s e => s.mixHash e.toList⟩

def ReceivedHandshake.new (packet prologue : List UInt8) (myStatic : X25519KeyPair) :
    Option ReceivedHandshake :=
  (pattern.receive 0 packet prologue myStatic).map Prod.fst

def ReceivedHandshake.finishWithEphemeral (hs : ReceivedHandshake) (packet : List UInt8)
    (myEphemeral : X25519KeyPair) : Result (Session × List UInt8) :=
  pattern.respond id hs myEphemeral packet

def SentHandshake.newWithEphemeral (myStatic myEphemeral : X25519KeyPair) (peerStatic : Bytes 32)
    (prologue out : List UInt8) : Result (SentHandshake × List UInt8) :=
  pattern.initiate myStatic myEphemeral peerStatic prologue List.Vector.nil out

def SentHandshake.tryFinish (hs : SentHandshake) (packet : List UInt8) (myStatic : X25519KeyPair) :
    Except SentHandshake Session :=
  pattern.tryFinish id hs packet myStatic

end Ik

namespace Ikpsk2

def protocol : List UInt8 := Bytes.ascii "Noise_IKpsk2_25519_ChaChaPoly_BLAKE2s"

def pattern : Pattern := ⟨protocol,State.mixHashAndKey⟩

def ReceivedHandshake.new (n : ℕ) (packet prologue : List UInt8) (myStatic : X25519KeyPair) :
    Option (ReceivedHandshake × Bytes n) :=
  pattern.receive n packet prologue myStatic

def ReceivedHandshake.finishWithEphemeral (hs : ReceivedHandshake) (psk : Psk)
    (myEphemeral : X25519KeyPair) (out : List UInt8) : Result (Session × List UInt8) :=
  pattern.respond (fun s => s.mixPsk psk) hs myEphemeral out

def SentHandshake.newWithEphemeral {n : ℕ} (myStatic myEphemeral : X25519KeyPair)
    (peerStatic : Bytes 32) (prologue : List UInt8) (payload : Bytes n) (out : List UInt8) :
    Result (SentHandshake × List UInt8) :=
  pattern.initiate myStatic myEphemeral peerStatic prologue payload out

def SentHandshake.tryFinish (hs : SentHandshake) (packet : List UInt8) (myStatic : X25519KeyPair)
    (psk : Psk) : Except SentHandshake Session :=
  pattern.tryFinish (fun s => s.mixPsk psk) hs packet myStatic

end Ikpsk2

/-- Both handshakes reach agreement when the key exchange commutes and opening inverts
sealing: the responder learns the initiator's identity and payload, and both sides end
with the same keys. A response whose tag check fails changes nothing, so that the
genuine one completes the handshake after it. -/
theorem handshakes_agree (hdh : DhCommutes) (haead : Aead.OpensSealed)
    (iStatic iEphemeral rStatic rEphemeral : X25519KeyPair) (prologue respOut : List UInt8)
    (hresp : respOut.length = Resp.size) :
    (∀ initOut : List UInt8, initOut.length = Init.size 0 →
      ∃ sent init recv rSession resp iSession,
        Ik.SentHandshake.newWithEphemeral iStatic iEphemeral rStatic.pub prologue initOut =
          .ok (sent,init) ∧
        Ik.ReceivedHandshake.new init prologue rStatic = some recv ∧
        recv.peerStaticPub = iStatic.pub ∧
        Ik.ReceivedHandshake.finishWithEphemeral recv respOut rEphemeral = .ok (rSession,resp) ∧
        Ik.SentHandshake.tryFinish sent resp iStatic = .ok iSession ∧
        iSession.send = rSession.recv ∧ iSession.recv = rSession.send ∧
        ∀ packet, Ik.pattern.TagFails id sent packet iStatic →
          ∃ sent', Ik.SentHandshake.tryFinish sent packet iStatic = .error sent' ∧ sent' = sent ∧
            Ik.SentHandshake.tryFinish sent' resp iStatic = .ok iSession) ∧
    ∀ (n : ℕ) (payload : Bytes n) (psk : Psk) (initOut : List UInt8), initOut.length = Init.size n →
      ∃ sent init recv rSession resp iSession,
        Ikpsk2.SentHandshake.newWithEphemeral iStatic iEphemeral rStatic.pub prologue payload
          initOut = .ok (sent,init) ∧
        Ikpsk2.ReceivedHandshake.new n init prologue rStatic = some (recv,payload) ∧
        recv.peerStaticPub = iStatic.pub ∧
        Ikpsk2.ReceivedHandshake.finishWithEphemeral recv psk rEphemeral respOut =
          .ok (rSession,resp) ∧
        Ikpsk2.SentHandshake.tryFinish sent resp iStatic psk = .ok iSession ∧
        iSession.send = rSession.recv ∧ iSession.recv = rSession.send ∧
        ∀ packet, Ikpsk2.pattern.TagFails (fun s => s.mixPsk psk) sent packet iStatic →
          ∃ sent', Ikpsk2.SentHandshake.tryFinish sent packet iStatic psk = .error sent' ∧
            sent' = sent ∧ Ikpsk2.SentHandshake.tryFinish sent' resp iStatic psk = .ok iSession := by
  constructor
  · intro initOut hinit
    obtain ⟨sent,init,recv,hi,hr,hm⟩ := Ik.pattern.receive_initiate iStatic iEphemeral rStatic
      hdh haead prologue List.Vector.nil hinit
    obtain ⟨rSession,resp,iSession,hresp,hfin,hsend,hrecv⟩ :=
      Ik.pattern.tryFinish_respond id iStatic iEphemeral rEphemeral hdh haead hm hresp
    refine ⟨sent,init,recv,rSession,resp,iSession,hi,?_,hm.peerStatic,hresp,hfin,hsend,hrecv,?_⟩
    · rw [Ik.ReceivedHandshake.new,hr]
      rfl
    · intro packet hfail
      exact ⟨sent,Ik.pattern.tryFinish_of_tagFails id iStatic hfail,rfl,hfin⟩
  · intro n payload psk initOut hinit
    obtain ⟨sent,init,recv,hi,hr,hm⟩ := Ikpsk2.pattern.receive_initiate iStatic iEphemeral
      rStatic hdh haead prologue payload hinit
    obtain ⟨rSession,resp,iSession,hresp,hfin,hsend,hrecv⟩ :=
      Ikpsk2.pattern.tryFinish_respond (fun s => s.mixPsk psk) iStatic iEphemeral rEphemeral hdh haead
        hm hresp
    refine ⟨sent,init,recv,rSession,resp,iSession,hi,hr,hm.peerStatic,hresp,hfin,hsend,hrecv,?_⟩
    intro packet hfail
    exact ⟨sent,Ikpsk2.pattern.tryFinish_of_tagFails _ iStatic hfail,rfl,hfin⟩

end

/-- Primitives with the two laws: a product as key exchange, and a cipher that masks with
the key and adds up a tag. -/
@[reducible] def sumPrimitives : NoisePrimitives where
  encrypt key nonce ad buffer :=
    let ciphertext := buffer.map (key.head ^^^ ·)
    (ciphertext,List.Vector.replicate 16
      (key.toList ++ nonce.toList ++ ad ++ ciphertext.toList).sum)
  decrypt key nonce ad buffer tag :=
    if tag = List.Vector.replicate 16 (key.toList ++ nonce.toList ++ ad ++ buffer.toList).sum then
      some (buffer.map (key.head ^^^ ·))
    else none
  encryptInPlace key nonce ad packet :=
    let ciphertext := packet.map (key.head ^^^ ·)
    ciphertext ++ List.replicate 16 (key.toList ++ nonce.toList ++ ad ++ ciphertext).sum
  decryptInPlace key nonce ad packet :=
    let ciphertext := packet.take (packet.length - 16)
    if packet = ciphertext ++ List.replicate 16
        (key.toList ++ nonce.toList ++ ad ++ ciphertext).sum then
      some (ciphertext.map (key.head ^^^ ·))
    else none
  digest data := List.Vector.replicate 32 (data.foldl (fun a b => 3*a + b) 1)
  hkdf chainingKey key _ i :=
    List.Vector.replicate 32 ((chainingKey.toList ++ key).foldl (fun a b => 3*a + b) (UInt8.ofNat i))
  publicKey a := a.map (3*·)
  diffieHellman a b := List.Vector.map₂ (·*·) a b

theorem sumPrimitives_dhCommutes : @DhCommutes sumPrimitives := by
  intro a b
  change List.Vector.map₂ (·*·) a (b.map (3*·)) = List.Vector.map₂ (·*·) b (a.map (3*·))
  apply List.Vector.ext
  intro i
  simp only [List.Vector.get_map₂,List.Vector.get_map]
  rw [UInt8.mul_comm (a.get i),UInt8.mul_comm 3 (b.get i),UInt8.mul_assoc]

theorem sumPrimitives_opensSealed : @Aead.OpensSealed sumPrimitives.toAead := by
  intro n key nonce ad buffer
  have hmask : (buffer.map (key.head ^^^ ·)).map (key.head ^^^ ·) = buffer := by
    apply List.Vector.ext
    intro i
    rw [List.Vector.get_map,List.Vector.get_map,← UInt8.xor_assoc,UInt8.xor_self,UInt8.zero_xor]
  change (if _ then some ((buffer.map (key.head ^^^ ·)).map (key.head ^^^ ·)) else none) = _
  rw [hmask]
  exact if_pos rfl

theorem sumPrimitives_opensPackets : @Aead.OpensPackets sumPrimitives.toAead := by
  intro key nonce ad packet
  have hmask : (packet.map (key.head ^^^ ·)).map (key.head ^^^ ·) = packet := by
    rw [List.map_map]
    exact (List.map_congr_left fun b _ => by
      rw [Function.comp_apply,← UInt8.xor_assoc,UInt8.xor_self,UInt8.zero_xor]).trans (List.map_id' packet)
  have htake (tag : List UInt8) (htag : tag.length = 16) :
      ((packet.map (key.head ^^^ ·)) ++ tag).take
        (((packet.map (key.head ^^^ ·)) ++ tag).length - 16) = packet.map (key.head ^^^ ·) := by
    simp [htag]
  simp only [Aead.decryptInPlace,Aead.encryptInPlace]
  rw [htake _ List.length_replicate,if_pos rfl,hmask]

/-- The handshakes at these primitives, with a payload of twelve bytes. -/
theorem handshakes_agree_sum :
    letI := sumPrimitives
    ∃ sent init recv rSession resp iSession,
      Ikpsk2.SentHandshake.newWithEphemeral (.ofSecret (List.Vector.replicate 32 1))
        (.ofSecret (List.Vector.replicate 32 2))
        (X25519KeyPair.ofSecret (List.Vector.replicate 32 3)).pub [] (List.Vector.replicate 12 9)
        (List.replicate 108 0) = .ok (sent,init) ∧
      Ikpsk2.ReceivedHandshake.new 12 init [] (.ofSecret (List.Vector.replicate 32 3)) =
        some (recv,List.Vector.replicate 12 9) ∧
      Ikpsk2.ReceivedHandshake.finishWithEphemeral recv (List.Vector.replicate 32 5)
        (.ofSecret (List.Vector.replicate 32 4)) (List.replicate 48 0) = .ok (rSession,resp) ∧
      Ikpsk2.SentHandshake.tryFinish sent resp (.ofSecret (List.Vector.replicate 32 1))
        (List.Vector.replicate 32 5) = .ok iSession ∧ iSession.send = rSession.recv := by
  obtain ⟨sent,init,recv,rSession,resp,iSession,h1,h2,_,h3,h4,h5,_⟩ :=
    (@handshakes_agree sumPrimitives sumPrimitives_dhCommutes sumPrimitives_opensSealed
      (@X25519KeyPair.ofSecret sumPrimitives (List.Vector.replicate 32 1))
      (@X25519KeyPair.ofSecret sumPrimitives (List.Vector.replicate 32 2))
      (@X25519KeyPair.ofSecret sumPrimitives (List.Vector.replicate 32 3))
      (@X25519KeyPair.ofSecret sumPrimitives (List.Vector.replicate 32 4)) [] (List.replicate 48 0) rfl).2 12
      (List.Vector.replicate 12 9) (List.Vector.replicate 32 5) (List.replicate 108 0) rfl
  exact ⟨sent,init,recv,rSession,resp,iSession,h1,h2,h3,h4,h5⟩

end Tailnet.Noise

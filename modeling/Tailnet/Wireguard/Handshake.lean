import Tailnet.Wireguard.Macs

/-! The handshake with a peer, as initiator or as responder. A handshake ends with a pair
of sessions under the keys of its Noise session. -/
namespace Tailnet.Wireguard
open Prog

def prologue : List UInt8 := Bytes.ascii "WireGuard v1 zx2c4 Jason@zx2c4.com"

abbrev Psk := Noise.Psk

structure ReceivedHandshake where
  sendId : SessionId
  noise : Noise.ReceivedHandshake
  timestamp : TAI64N
  deriving DecidableEq

structure SentHandshake where
  id : SessionId
  noise : Noise.SentHandshake
  deriving DecidableEq

structure SessionPair where
  send : TransmitSession
  recv : ReceiveSession
  deriving DecidableEq

inductive Handshake
  | none
  /-- We are the initiator, awaiting a response until the timeout. -/
  | initiated (sent : SentHandshake) (timeout : Handle) (mac : Mac)
  /-- We are the responder, awaiting a transport message to confirm the session. -/
  | responded (tentative : SessionPair)
  deriving DecidableEq

section
variable [MacPrimitives]

namespace ReceivedHandshake

def new (pkt : HandshakeInitiation) (myStatic : Noise.X25519KeyPair) (macs : MACReceiver) :
    Option ReceivedHandshake :=
  if macs.verifyMacs pkt.toBytes then
    (Noise.Ikpsk2.ReceivedHandshake.new 12 pkt.noise.toList prologue myStatic).map
      fun (noise,timestamp) => ⟨pkt.senderId,noise,TAI64N.ofBytes timestamp⟩
  else none

def peerStatic (h : ReceivedHandshake) : NodePublicKey := h.noise.peerStaticPub

theorem new_some {pkt : HandshakeInitiation} {my : Noise.X25519KeyPair} {macs : MACReceiver}
    {h : ReceivedHandshake} (hnew : new pkt my macs = some h) :
    ∃ timestamp, Noise.Ikpsk2.ReceivedHandshake.new 12 pkt.noise.toList prologue my =
      some (h.noise,timestamp) := by
  rw [new] at hnew
  split at hnew
  · obtain ⟨⟨noise,timestamp⟩,hnoise,rfl⟩ := Option.map_eq_some_iff.mp hnew
    exact ⟨timestamp,hnoise⟩
  · cases hnew

def respond (h : ReceivedHandshake) (sessionId : SessionId) (psk : Psk) (macs : MACSender)
    (now : Instant) : Prog Env (SessionPair × Packet) := do
  let response := { HandshakeResponse.default with senderId := sessionId, receiverId := h.sendId }
  let (keys,noise) ← Prog.lift (Noise.Ikpsk2.ReceivedHandshake.finishWithEphemeral h.noise psk
    (← Env.ephemeral) response.noise.toList)
  let response := { response with noise := response.noise.write noise }
  let send := TransmitSession.new keys.send h.sendId now
  let recv := ReceiveSession.new keys.recv sessionId now
  let (_,pkt) ← macs.writeMacs response.toBytes
  return (⟨send,recv⟩,pkt)

end ReceivedHandshake

def initiateHandshake (endpointStatic : Noise.X25519KeyPair) (peerStatic : NodePublicKey)
    (sessionId : SessionId) (timestamp : TAI64N) :
    Prog Env (SentHandshake × HandshakeInitiation) := do
  let pkt := { HandshakeInitiation.default with senderId := sessionId }
  let (noise,bytes) ← Prog.lift (Noise.Ikpsk2.SentHandshake.newWithEphemeral endpointStatic
    (← Env.ephemeral) peerStatic prologue timestamp.toBytes pkt.noise.toList)
  return (⟨sessionId,noise⟩,{ pkt with noise := pkt.noise.write bytes })

theorem initiateHandshake_ok {my : Noise.X25519KeyPair} {peerStatic : NodePublicKey}
    {id : SessionId} {timestamp : TAI64N} {env env' : Env} {sent : SentHandshake}
    {init : HandshakeInitiation}
    (h : initiateHandshake my peerStatic id timestamp env = .ok ((sent,init),env')) :
    ∃ ephemeral noise bytes, Noise.Ikpsk2.SentHandshake.newWithEphemeral my ephemeral peerStatic
        prologue timestamp.toBytes HandshakeInitiation.default.noise.toList = .ok (noise,bytes) ∧
      sent = ⟨id,noise⟩ := by
  obtain ⟨ephemeral,_,_,h⟩ := bind_eq_ok.mp h
  obtain ⟨⟨noise,bytes⟩,_,hnoise,h⟩ := bind_eq_ok.mp h
  cases h
  exact ⟨ephemeral,noise,bytes,(lift_eq_ok.mp hnoise).1,rfl⟩

theorem ReceivedHandshake.respond_ok {received : ReceivedHandshake} {id : SessionId} {psk : Psk}
    {macs : MACSender} {now : Instant} {env env' : Env} {pair : SessionPair} {packet : Packet}
    (h : received.respond id psk macs now env = .ok ((pair,packet),env')) :
    ∃ ephemeral keys bytes response env1 mac,
      Noise.Ikpsk2.ReceivedHandshake.finishWithEphemeral received.noise psk ephemeral
        HandshakeResponse.default.noise.toList = .ok (keys,bytes) ∧
      pair = ⟨.new keys.send received.sendId now,.new keys.recv id now⟩ ∧
      macs.writeMacs (HandshakeResponse.toBytes response) env1 = .ok ((mac,packet),env') := by
  obtain ⟨ephemeral,_,_,h⟩ := bind_eq_ok.mp h
  obtain ⟨⟨keys,bytes⟩,_,hkeys,h⟩ := bind_eq_ok.mp h
  obtain ⟨⟨mac,pkt⟩,_,hmacs,h⟩ := bind_eq_ok.mp h
  cases h
  exact ⟨ephemeral,keys,bytes,_,_,mac,(lift_eq_ok.mp hkeys).1,rfl,hmacs⟩

/-- A response that carries the right MACs and completes the Noise handshake. -/
def HandshakeResponse.genuine (packet : HandshakeResponse) (sent : SentHandshake)
    (endpointStatic : Noise.X25519KeyPair) (psk : Psk) (cookies : MACReceiver) : Bool :=
  cookies.verifyMacs packet.toBytes &&
    (Noise.Ikpsk2.SentHandshake.tryFinish sent.noise packet.noise.toList endpointStatic psk).isOk

namespace Handshake

def isActive : Handshake → Bool
  | none => false
  | _ => true

omit [MacPrimitives] in
theorem eq_none_of_isActive {h : Handshake} (hactive : ¬ h.isActive = true) : h = none := by
  cases h with
  | none => rfl
  | initiated sent timeout mac => exact absurd rfl hactive
  | responded tentative => exact absurd rfl hactive

def sessionId : Handshake → Option SessionId
  | initiated sent _ _ => some sent.id
  | responded tentative => some tentative.recv.id
  | none => Option.none

/-- The timeout of the handshake, if we are the initiator. -/
def timeout : Handshake → Option Handle
  | initiated _ timeout _ => some timeout
  | _ => Option.none

def takeInitiated : Handshake → Option (SentHandshake × Handle × Mac) × Handshake
  | initiated sent timeout mac => (some (sent,timeout,mac),none)
  | other => (Option.none,other)

/-- Respond to a peer's handshake initiation. This replaces any other handshake. -/
def respond (sessionId : SessionId) (handshake : ReceivedHandshake) (psk : Psk)
    (cookieSender : MACSender) (now : Instant) : Prog Env (Packet × Handshake) := do
  let (session,packet) ← handshake.respond sessionId psk cookieSender now
  return (packet,responded session)

/-- Finish a handshake as the initiator. The handshake is taken before the response is
looked at; on success its timeout is returned, to be cancelled. -/
def finish (h : Handshake) (packet : HandshakeResponse) (endpointStatic : Noise.X25519KeyPair)
    (psk : Psk) (cookies : MACReceiver) (now : Instant) :
    Option (SessionPair × Handle) × Handshake :=
  match h.takeInitiated with
  | (Option.none,h) => (Option.none,h)
  | (some (sent,timeout,_),h) =>
    if cookies.verifyMacs packet.toBytes then
      match Noise.Ikpsk2.SentHandshake.tryFinish sent.noise packet.noise.toList endpointStatic psk with
      | .ok keys =>
        (some (⟨TransmitSession.new keys.send packet.senderId now,
          ReceiveSession.new keys.recv sent.id now⟩,timeout),h)
      | .error _ => (Option.none,h)
    else (Option.none,h)

/-- An initiated handshake finishes by a genuine response, and is dropped by any other. -/
theorem finish_initiated (sent : SentHandshake) (handle : Handle) (mac : Mac)
    (packet : HandshakeResponse) (my : Noise.X25519KeyPair) (psk : Psk) (cookies : MACReceiver)
    (now : Instant) :
    (packet.genuine sent my psk cookies = true ∧
      ((initiated sent handle mac).finish packet my psk cookies now).1.isSome) ∨
    (packet.genuine sent my psk cookies = false ∧
      (initiated sent handle mac).finish packet my psk cookies now = (Option.none,none)) := by
  simp only [finish,takeInitiated,HandshakeResponse.genuine]
  cases cookies.verifyMacs packet.toBytes with
  | false => exact .inr ⟨rfl,rfl⟩
  | true =>
    cases Noise.Ikpsk2.SentHandshake.tryFinish sent.noise packet.noise.toList my psk with
    | ok keys => exact .inl ⟨rfl,rfl⟩
    | error e => exact .inr ⟨rfl,rfl⟩

variable {packet : HandshakeResponse} {my : Noise.X25519KeyPair} {h h' : Handshake} {cookies : MACReceiver} {now : Instant}

/-- A handshake that does not finish is left alone, unless the response to it was not genuine. -/
theorem finish_none {psk : Psk}
    (hf : h.finish packet my psk cookies now = (Option.none,h')) :
    h' = h ∨ h' = none ∧ ∃ sent handle mac, h = initiated sent handle mac ∧
      packet.genuine sent my psk cookies = false := by
  cases h with
  | none =>
    cases hf
    exact .inl rfl
  | responded tentative =>
    cases hf
    exact .inl rfl
  | initiated sent handle mac =>
    rcases finish_initiated sent handle mac packet my psk cookies now with ⟨_,hsome⟩ | ⟨hg,hnone⟩
    · rw [hf] at hsome
      cases hsome
    · rw [hf] at hnone
      cases hnone
      exact .inr ⟨rfl,sent,handle,mac,rfl,hg⟩

theorem finish_some {psk : Psk} {pair : SessionPair} {handle : Handle}
    (hf : h.finish packet my psk cookies now = (some (pair,handle),h')) :
    h' = none ∧ ∃ sent mac, h = initiated sent handle mac := by
  cases h with
  | none => cases hf
  | responded tentative => cases hf
  | initiated sent timeout mac =>
    simp only [finish,takeInitiated] at hf
    split at hf
    · split at hf
      · cases hf
        exact ⟨rfl,sent,mac,rfl⟩
      · cases hf
    · cases hf

theorem finish_ok {sent : SentHandshake} {timeout handle : Handle} {mac : Mac} {psk : Psk} {pair : SessionPair} {h' : Handshake}
    (h : (initiated sent timeout mac).finish packet my psk cookies now =
      (some (pair,handle),h')) :
    ∃ keys, Noise.Ikpsk2.SentHandshake.tryFinish sent.noise packet.noise.toList my psk = .ok keys ∧
      pair = ⟨.new keys.send packet.senderId now,.new keys.recv sent.id now⟩ := by
  simp only [finish,takeInitiated] at h
  split at h
  · split at h
    · rename_i keys hkeys
      cases h
      exact ⟨keys,hkeys,rfl⟩
    · cases h
  · cases h

/-- Confirm a handshake as responder, by the first packet that decrypts. -/
def confirm (h : Handshake) (sessionId : SessionId) (packets : List Packet) :
    Result (Option (SessionPair × List Packet) × Handshake) :=
  match h with
  | responded tentative =>
    if tentative.recv.id = sessionId then do
      let (packets,recv) ← tentative.recv.decrypt packets
      let tentative := { tentative with recv }
      if packets.isEmpty then return (Option.none,responded tentative)
      else return (some (tentative,packets),none)
    else return (Option.none,h)
  | _ => return (Option.none,h)

variable {packets : List Packet} {id : SessionId}

theorem confirm_error {h : Handshake} {p : Panic} (hc : h.confirm id packets = .error p) :
    ∃ tentative, h = responded tentative ∧ tentative.recv.id = id ∧
      tentative.recv.decrypt packets = .error p := by
  cases h with
  | none => cases hc
  | initiated sent timeout mac => cases hc
  | responded tentative =>
    rw [confirm] at hc
    split at hc
    · rename_i hid
      refine ⟨tentative,rfl,hid,?_⟩
      rcases Result.bind_eq_error.mp hc with hc | ⟨⟨opened,recv⟩,_,hc⟩
      · exact hc
      · dsimp only at hc
        split at hc <;> cases hc
    · cases hc

theorem confirm_none (hc : h.confirm id packets = .ok (Option.none,h')) : h' = h := by
  cases h with
  | none =>
    cases hc
    rfl
  | initiated sent timeout mac =>
    cases hc
    rfl
  | responded tentative =>
    rw [confirm] at hc
    split at hc
    · obtain ⟨⟨opened,recv⟩,hopen,hc⟩ := Result.bind_eq_ok.mp hc
      cases opened with
      | nil =>
        cases hc
        rw [(ReceiveSession.decrypt_ok hopen).2.1 rfl]
      | cons packet opened => cases hc
    · cases hc
      rfl

theorem confirm_some
    {done : SessionPair × List Packet} (hc : h.confirm id packets = .ok (some done,h')) :
    ∃ tentative opened recv, h = responded tentative ∧ tentative.recv.id = id ∧
      tentative.recv.decrypt packets = .ok (opened,recv) ∧ opened ≠ [] ∧
      done = ({ tentative with recv },opened) ∧ h' = none := by
  cases h with
  | none => cases hc
  | initiated sent timeout mac => cases hc
  | responded tentative =>
    rw [confirm] at hc
    split at hc
    · rename_i hid
      obtain ⟨⟨opened,recv⟩,hopen,hc⟩ := Result.bind_eq_ok.mp hc
      cases opened with
      | nil => cases hc
      | cons packet opened =>
        cases hc
        exact ⟨tentative,_,recv,rfl,hid,hopen,List.cons_ne_nil _ _,rfl,rfl⟩
    · cases hc

end Handshake
end
end Tailnet.Wireguard

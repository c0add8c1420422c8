import Tailnet.Wireguard.NodeKeys

/-! A peer is its key. All that a peer holds was negotiated with its current key, as long
as no call changes the key of a live peer: then what is delivered from the peer opens under
keys negotiated with its key, what is sent to it is sealed under such keys, and handshake
messages carry a MAC for its key. -/
namespace Tailnet.Wireguard
open MacPrimitives Noise Function List Endpoint

section
variable [MacPrimitives]

/-- The Noise handshakes by which an endpoint agrees on a session with the holder of a key. -/
inductive Negotiated (my : X25519KeyPair) (key : NodePublicKey) : Noise.Session → Prop
  | initiated {ephemeral : X25519KeyPair} {timestamp : TAI64N} {sent : Noise.SentHandshake}
    {init packet : List UInt8} {psk : Psk} {s : Noise.Session}
    (sending : Ikpsk2.SentHandshake.newWithEphemeral my ephemeral key prologue timestamp.toBytes
      HandshakeInitiation.default.noise.toList = .ok (sent,init))
    (finished : Ikpsk2.SentHandshake.tryFinish sent packet my psk = .ok s) : Negotiated my key s
  | responded {init : List UInt8} {received : Noise.ReceivedHandshake} {timestamp : Bytes 12}
    {psk : Psk} {ephemeral : X25519KeyPair} {response : List UInt8} {s : Noise.Session}
    (reception : Ikpsk2.ReceivedHandshake.new 12 init prologue my = some (received,timestamp))
    (initiator : received.peerStaticPub = key)
    (finished : Ikpsk2.ReceivedHandshake.finishWithEphemeral received psk ephemeral
      HandshakeResponse.default.noise.toList = .ok (s,response)) : Negotiated my key s

/-- A key under which packets are sealed for the holder of `key`. -/
def SendKey (my : X25519KeyPair) (key : NodePublicKey) (cipher : Bytes 32) : Prop :=
  ∃ s, Negotiated my key s ∧ s.send = cipher

/-- A key under which packets from the holder of `key` open. -/
def RecvKey (my : X25519KeyPair) (key : NodePublicKey) (cipher : Bytes 32) : Prop :=
  ∃ s, Negotiated my key s ∧ s.recv = cipher

/-- A packet for the holder of a key: transport data under a negotiated key, or a handshake
message with a MAC for it. Without cookies its second MAC is zero. -/
inductive PacketFor (cookieless : Prop) (my : X25519KeyPair) (key : NodePublicKey) (packet : Packet) :
    Prop
  | transport {s : TransmitSession} {counter : UInt64} {plaintext : Packet}
    (negotiated : SendKey my key s.cipher) (sealing : packet = s.sealPacket counter plaintext) :
    PacketFor cookieless my key packet
  | handshake {data : Packet} {mac2 : Mac}
    (trailer : macTrailer packet = some (data,keyedMac (mac1Key key).toList data,mac2))
    (zero : cookieless → mac2 = zeroMac) : PacketFor cookieless my key packet

/-- A plaintext from the holder of a key. -/
def PlaintextFrom (inputs : Packet → Prop) (my : X25519KeyPair) (key : NodePublicKey)
    (plaintext : Packet) : Prop :=
  ∃ datagram cipher, inputs datagram ∧ RecvKey my key cipher ∧
    ReceiveSession.Opens datagram cipher plaintext

/-- What the sessions of a peer were negotiated with. -/
inductive SessionState.Keyed (my : X25519KeyPair) (key : NodePublicKey) : SessionState → Prop
  | none (queue : Queue) : Keyed my key (.none queue)
  | active {recv : ReceiveSession} {recvPrev : Option ReceiveSession} {send : TransmitSession}
    (current : RecvKey my key recv.cipher)
    (previous : ∀ prev, recvPrev = some prev → RecvKey my key prev.cipher)
    (sending : SendKey my key send.cipher) : Keyed my key (.active recv recvPrev send)

/-- What the handshake of a peer is about. -/
inductive Handshake.Keyed (my : X25519KeyPair) (key : NodePublicKey) : Handshake → Prop
  | none : Keyed my key .none
  | initiated {sent : SentHandshake} {timeout : Handle} {mac : Mac} {ephemeral : X25519KeyPair}
    {timestamp : TAI64N} {init : List UInt8}
    (sending : Ikpsk2.SentHandshake.newWithEphemeral my ephemeral key prologue timestamp.toBytes
      HandshakeInitiation.default.noise.toList = .ok (sent.noise,init)) :
    Keyed my key (.initiated sent timeout mac)
  | responded {pair : SessionPair} (sending : SendKey my key pair.send.cipher)
    (receiving : RecvKey my key pair.recv.cipher) : Keyed my key (.responded pair)

/-- All that a peer holds belongs to its key. -/
structure Peer.Keyed (cookieless : Prop) (my : X25519KeyPair) (peer : Peer) : Prop where
  session : peer.session.Keyed my peer.config.key
  handshake : peer.handshake.Keyed my peer.config.key
  mac1Key : peer.cookieSender.mac1Key = mac1Key peer.config.key
  mac2Key : peer.cookieSender.mac2Key = mac2Key peer.config.key
  cookie : cookieless → peer.cookieSender.cookie = none

/-- The packets that a call returns for a peer belong to a key. -/
structure Outbox.Keyed (cookieless : Prop) (inputs : Packet → Prop) (my : X25519KeyPair)
    (key : NodePublicKey) (out : Outbox) (p : PeerId) : Prop where
  toPeer : ∀ packet ∈ (out.toPeers p).getD [], PacketFor cookieless my key packet
  toLocal : ∀ plaintext ∈ (out.toLocal p).getD [], PlaintextFrom inputs my key plaintext

/-- No datagram is a cookie reply that opens under the key of a peer. -/
def NoCookie (inputs : Packet → Prop) (key : NodePublicKey) : Prop :=
  ∀ datagram reply mac, inputs datagram → Message.tryFrom datagram = some (.cookieReply reply) →
    openCookie (mac2Key key) reply.nonce mac reply.cookieSealed = none

variable {cookieless : Prop} {inputs : Packet → Prop} {my : X25519KeyPair} {key : NodePublicKey}

namespace Outbox
variable {out : Outbox} {p : PeerId} {packets : List Packet}

theorem keyed_default : Outbox.default.Keyed cookieless inputs my key p :=
  ⟨(fun _ h => by cases h),(fun _ h => by cases h)⟩

theorem Keyed.queueToPeer (h : out.Keyed cookieless inputs my key p)
    (hpackets : ∀ packet ∈ packets, PacketFor cookieless my key packet) :
    (out.queueToPeer p packets).Keyed cookieless inputs my key p := by
  refine ⟨fun packet hmem => ?_,h.toLocal⟩
  simp only [Outbox.queueToPeer,update_self,Option.getD_some,mem_append] at hmem
  exact hmem.elim (h.toPeer packet) (hpackets packet)

theorem Keyed.queueToLocal (h : out.Keyed cookieless inputs my key p)
    (hpackets : ∀ plaintext ∈ packets, PlaintextFrom inputs my key plaintext) :
    (out.queueToLocal p packets).Keyed cookieless inputs my key p := by
  refine ⟨h.toPeer,fun plaintext hmem => ?_⟩
  simp only [Outbox.queueToLocal,update_self,Option.getD_some,mem_append] at hmem
  exact hmem.elim (h.toLocal plaintext) (hpackets plaintext)

theorem Keyed.pushToPeer (h : out.Keyed cookieless inputs my key p)
    (hpackets : ∀ packet ∈ packets, PacketFor cookieless my key packet) :
    (out.pushToPeer p packets).Keyed cookieless inputs my key p := by
  rw [Outbox.pushToPeer]
  split
  · exact h
  · exact h.queueToPeer hpackets

theorem Keyed.pushToLocal (h : out.Keyed cookieless inputs my key p)
    (hpackets : ∀ plaintext ∈ packets, PlaintextFrom inputs my key plaintext) :
    (out.pushToLocal p packets).Keyed cookieless inputs my key p := by
  rw [Outbox.pushToLocal]
  split
  · exact h
  · exact h.queueToLocal hpackets

end Outbox

/-- What is sealed under a negotiated key is for its holder. -/
theorem packetFor_of_encrypt {s s' : TransmitSession} {packets ret : List Packet}
    (h : s.encrypt packets = .ok (ret,s')) (hkey : SendKey my key s.cipher) :
    ∀ packet ∈ ret, PacketFor cookieless my key packet := by
  intro packet hmem
  obtain ⟨counter,plaintext,rfl⟩ := (TransmitSession.encrypt_ok h).2 packet hmem
  exact .transport hkey rfl

/-- What opens under a negotiated key is from its holder. -/
theorem plaintextFrom_of_decrypt {r r' : ReceiveSession} {packets ret : List Packet}
    (h : r.decrypt packets = .ok (ret,r')) (hin : ∀ p ∈ packets, inputs p)
    (hkey : RecvKey my key r.cipher) : ∀ plaintext ∈ ret, PlaintextFrom inputs my key plaintext := by
  intro plaintext hmem
  obtain ⟨datagram,hdatagram,hopens⟩ := (ReceiveSession.decrypt_ok h).2.2 plaintext hmem
  exact ⟨datagram,r.cipher,hin datagram hdatagram,hkey,hopens⟩

theorem Peer.Keyed.packetFor_of_writeMacs {peer : Peer} (h : peer.Keyed cookieless my)
    {pkt packet : Packet} {mac : Mac} {env env' : Env}
    (hmacs : peer.cookieSender.writeMacs pkt env = .ok ((mac,packet),env')) :
    PacketFor cookieless my peer.config.key packet := by
  obtain ⟨data,mac2,htrailer,hzero⟩ := MACSender.writeMacs_ok hmacs
  rw [h.mac1Key] at htrailer
  exact .handshake htrailer fun hc => hzero (h.cookie hc)

theorem SessionState.Activates.keyed {next : SessionPair} {st st' : SessionState}
    {ret : List Packet} {released : List SessionId} (h : Activates next st ret st' released)
    (hst : st.Keyed my key) (hsend : SendKey my key next.send.cipher)
    (hrecv : RecvKey my key next.recv.cipher) :
    st'.Keyed my key ∧ ∀ packet ∈ ret, PacketFor cookieless my key packet := by
  cases h with
  | fresh sealing =>
    refine ⟨.active hrecv (fun _ h => by cases h) ?_,packetFor_of_encrypt sealing hsend⟩
    rwa [(TransmitSession.encrypt_ok sealing).1]
  | rotate =>
    cases hst with
    | active current previous sending =>
      refine ⟨.active hrecv (fun prev hprev => ?_) hsend,fun _ h => by cases h⟩
      cases hprev
      exact current

section
variable {may : Incident → Prop} {given : Packet → Prop} {peer peer' : Peer} {c c' : Ctx}

/-- A transition of a peer leaves the packets of the others alone. -/
theorem PeerMove.out_others (h : PeerMove may inputs (peer,c) (peer',c')) {q : PeerId}
    (hq : q ≠ peer.id) : c'.out.toPeers q = c.out.toPeers q ∧ c'.out.toLocal q = c.out.toLocal q := by
  have hpush : ∀ (out : Outbox) ret, (out.pushToPeer peer.id ret).toPeers q = out.toPeers q ∧
      (out.pushToPeer peer.id ret).toLocal q = out.toLocal q := by
    intro out ret
    rw [Outbox.pushToPeer]
    split <;> simp [Outbox.queueToPeer,hq]
  have hdeliver : ∀ ret, (c.out.pushToLocal peer.id ret).toPeers q = c.out.toPeers q ∧
      (c.out.pushToLocal peer.id ret).toLocal q = c.out.toLocal q := by
    intro ret
    rw [Outbox.pushToLocal]
    split <;> simp [Outbox.queueToLocal,hq]
  cases h with
  | transmit => simp [Outbox.queueToPeer,hq]
  | receive => exact hdeliver _
  | receivePrev => exact hdeliver _
  | initiate => simp [Outbox.queueToPeer,hq]
  | respond => simp [Outbox.queueToPeer,hq]
  | finish => exact hpush _ _
  | confirm =>
    obtain ⟨hpeers,hlocal⟩ := hpush (c.out.queueToLocal peer.id _) _
    rw [hpeers,hlocal]
    simp [Outbox.queueToLocal,hq]
  | _ => exact ⟨rfl,rfl⟩

variable (cookieless) in
/-- A transition keeps all of a peer bound to its key. The key of an initiator is found in the
index, so that only its own handshakes reach the peer. -/
theorem PeerMove.keyed (h : PeerMove may given (peer,c) (peer',c')) (hin : ∀ p, given p → inputs p)
    (hindex : ∀ k, c.state.ids.nodeKeys k = some peer.id → k = peer.config.key)
    (hcookies : cookieless → NoCookie inputs peer.config.key)
    (hk : peer.Keyed cookieless c.state.myKey)
    (ho : c.out.Keyed cookieless inputs c.state.myKey peer.config.key peer.id) :
    peer'.Keyed cookieless c.state.myKey ∧
      c'.out.Keyed cookieless inputs c.state.myKey peer.config.key peer.id := by
  obtain ⟨hsession,hhandshake,hmac1,hmac2,hcookie⟩ := hk
  cases h with
  | draw => exact ⟨⟨hsession,hhandshake,hmac1,hmac2,hcookie⟩,ho⟩
  | enqueue queue' inactive => exact ⟨⟨.none queue',hhandshake,hmac1,hmac2,hcookie⟩,ho⟩
  | expire queue active incident => exact ⟨⟨.none queue,hhandshake,hmac1,hmac2,hcookie⟩,ho⟩
  | transmit active sealing =>
    rw [active] at hsession
    cases hsession with
    | active current previous sending =>
      have hkey := (TransmitSession.encrypt_ok sealing).1
      exact ⟨⟨.active current previous (hkey ▸ sending),hhandshake,hmac1,hmac2,hcookie⟩,
        ho.queueToPeer (packetFor_of_encrypt sealing sending)⟩
  | receive active given opening =>
    rw [active] at hsession
    cases hsession with
    | active current previous sending =>
      have hkey := (ReceiveSession.decrypt_id opening).2
      exact ⟨⟨.active (hkey ▸ current) previous sending,hhandshake,hmac1,hmac2,hcookie⟩,
        ho.pushToLocal (plaintextFrom_of_decrypt opening (fun p hp => hin p (given p hp)) current)⟩
  | receivePrev active given opening =>
    rw [active] at hsession
    cases hsession with
    | active current previous sending =>
      have hprev := previous _ rfl
      have hkey := (ReceiveSession.decrypt_id opening).2
      refine ⟨⟨.active current (fun prev h => ?_) sending,hhandshake,hmac1,hmac2,hcookie⟩,
        ho.pushToLocal (plaintextFrom_of_decrypt opening (fun p hp => hin p (given p hp)) hprev)⟩
      cases h
      rwa [hkey]
  | initiate when idle free initiation macs =>
    obtain ⟨_,_,_,hsent,rfl⟩ := initiateHandshake_ok initiation
    have hpacket := Peer.Keyed.packetFor_of_writeMacs
      (⟨hsession,hhandshake,hmac1,hmac2,hcookie⟩ : peer.Keyed cookieless c.state.myKey) macs
    exact ⟨⟨hsession,.initiated hsent,hmac1,hmac2,hcookie⟩,
      ho.queueToPeer fun _ hmem => by rwa [mem_singleton.mp hmem]⟩
  | respond incident free reception indexed response =>
    obtain ⟨_,keys,_,_,_,_,hfinish,rfl,hmacs⟩ := ReceivedHandshake.respond_ok response
    have hpacket := Peer.Keyed.packetFor_of_writeMacs
      (⟨hsession,hhandshake,hmac1,hmac2,hcookie⟩ : peer.Keyed cookieless c.state.myKey) hmacs
    have hkeys : Negotiated c.state.myKey peer.config.key keys := by
      obtain ⟨_,hnew⟩ := ReceivedHandshake.new_some reception
      exact .responded hnew (hindex _ indexed) hfinish
    exact ⟨⟨hsession,.responded ⟨keys,hkeys,rfl⟩ ⟨keys,hkeys,rfl⟩,hmac1,hmac2,hcookie⟩,
      ho.queueToPeer fun _ hmem => by rwa [mem_singleton.mp hmem]⟩
  | finish initiated given parsed finished activation =>
    rw [initiated] at finished hhandshake
    obtain ⟨keys,hfinish,rfl⟩ := Handshake.finish_ok finished
    cases hhandshake with
    | initiated sending =>
      have hkeys : Negotiated c.state.myKey peer.config.key keys := .initiated sending hfinish
      obtain ⟨hactive,hret⟩ := activation.keyed hsession ⟨keys,hkeys,rfl⟩ ⟨keys,hkeys,rfl⟩
      exact ⟨⟨hactive,.none,hmac1,hmac2,hcookie⟩,ho.pushToPeer hret⟩
  | abandon initiated incident => exact ⟨⟨hsession,.none,hmac1,hmac2,hcookie⟩,ho⟩
  | confirm responded given opening nonempty activation =>
    rw [responded] at hhandshake
    cases hhandshake with
    | responded sending receiving =>
      have hkey := (ReceiveSession.decrypt_id opening).2
      obtain ⟨hactive,hret⟩ := activation.keyed hsession sending (hkey ▸ receiving)
      exact ⟨⟨hactive,.none,hmac1,hmac2,hcookie⟩,
        (ho.queueToLocal (plaintextFrom_of_decrypt opening (fun p hp => hin p (given p hp)) receiving)).pushToPeer hret⟩
  | cookie expiry initiated given parsed opening =>
    refine ⟨⟨hsession,hhandshake,hmac1,hmac2,fun hc => ?_⟩,ho⟩
    rw [hmac2,hcookies hc _ _ _ (hin _ given) parsed] at opening
    cases opening
  | release incident => exact ⟨⟨hsession,.none,hmac1,hmac2,hcookie⟩,ho⟩
  | deactivate => exact ⟨⟨.none [],hhandshake,hmac1,hmac2,hcookie⟩,ho⟩
  | arm => exact ⟨⟨hsession,hhandshake,hmac1,hmac2,hcookie⟩,ho⟩
  | another => exact ⟨⟨hsession,hhandshake,hmac1,hmac2,hcookie⟩,ho⟩

end

/-- During a call every peer is bound to its key, and so are the packets for it. -/
structure Call.Keyed (cookieless : Prop) (inputs : Packet → Prop) (my : X25519KeyPair) (c : Call) :
    Prop where
  myKey : c.state.myKey = my
  stored : ∀ p peer, c.peers p = some peer → peer.id = p
  index : ∀ k p peer, c.state.ids.nodeKeys k = some p → c.peers p = some peer → k = peer.config.key
  cookies : cookieless → ∀ p peer, c.peers p = some peer → NoCookie inputs peer.config.key
  peers : ∀ p peer, c.peers p = some peer → peer.Keyed cookieless my
  out : ∀ p peer, c.peers p = some peer → c.out.Keyed cookieless inputs my peer.config.key p
  absent : ∀ p, c.peers p = none → c.out.toPeers p = none ∧ c.out.toLocal p = none

variable {c c' : Call}

theorem Outbox.Keyed.congr {out out' : Outbox} {p : PeerId} (h : out.Keyed cookieless inputs my key p)
    (heq : out'.toPeers p = out.toPeers p ∧ out'.toLocal p = out.toLocal p) :
    out'.Keyed cookieless inputs my key p :=
  ⟨by rw [heq.1]; exact h.toPeer,by rw [heq.2]; exact h.toLocal⟩

/-- One peer changes, with the packets for it. -/
theorem Call.Keyed.update (hc : c.Keyed cookieless inputs my) {id : PeerId} {peer peer' : Peer}
    {ctx : Ctx} (live : c.peers id = some peer)
    (hfixed : peer'.id = peer.id ∧ peer'.config = peer.config ∧
      ctx.state.ids.nodeKeys = c.state.ids.nodeKeys ∧ ctx.state.myKey = c.state.myKey)
    (hkeyed : peer'.Keyed cookieless my ∧ ctx.out.Keyed cookieless inputs my peer.config.key id)
    (hout : ∀ q, q ≠ id → ctx.out.toPeers q = c.out.toPeers q ∧ ctx.out.toLocal q = c.out.toLocal q) :
    Call.Keyed cookieless inputs my ⟨ctx,Function.update c.peers id (some peer')⟩ := by
  obtain ⟨hid,hconfig,hkeys,hmy⟩ := hfixed
  -- the peers after the step are this one, with its key, and the others as they were
  have hcases : ∀ q p, Function.update c.peers id (some peer') q = some p →
      (q = id ∧ p = peer') ∨ (q ≠ id ∧ c.peers q = some p) := by
    intro q p hq
    by_cases hne : q = id
    · rw [hne,update_self] at hq
      exact .inl ⟨hne,(Option.some.inj hq).symm⟩
    · rw [update_of_ne hne] at hq
      exact .inr ⟨hne,hq⟩
  refine ⟨hmy.trans hc.myKey,fun q p hq => ?_,fun k q p hk hq => ?_,fun hl q p hq => ?_,
    fun q p hq => ?_,fun q p hq => ?_,fun q hq => ?_⟩
  · rcases hcases q p hq with ⟨rfl,rfl⟩ | ⟨_,hq⟩
    · exact hid.trans (hc.stored q peer live)
    · exact hc.stored q p hq
  · have hold : c.state.ids.nodeKeys k = some q := by rw [← hkeys]; exact hk
    rcases hcases q p hq with ⟨rfl,rfl⟩ | ⟨_,hq⟩
    · rw [hconfig]
      exact hc.index k q peer hold live
    · exact hc.index k q p hold hq
  · rcases hcases q p hq with ⟨rfl,rfl⟩ | ⟨_,hq⟩
    · rw [hconfig]
      exact hc.cookies hl q peer live
    · exact hc.cookies hl q p hq
  · rcases hcases q p hq with ⟨rfl,rfl⟩ | ⟨_,hq⟩
    · exact hkeyed.1
    · exact hc.peers q p hq
  · rcases hcases q p hq with ⟨rfl,rfl⟩ | ⟨hne,hq⟩
    · rw [hconfig]
      exact hkeyed.2
    · exact (hc.out q p hq).congr (hout q hne)
  · change Function.update c.peers id (some peer') q = none at hq
    by_cases hne : q = id
    · rw [hne,update_self] at hq
      cases hq
    · rw [update_of_ne hne] at hq
      obtain ⟨hpeers,hlocal⟩ := hout q hne
      obtain ⟨hnone,hnone'⟩ := hc.absent q hq
      exact ⟨hpeers.trans hnone,hlocal.trans hnone'⟩

variable {may : Incident → Prop}

theorem Call.Keyed.move (hc : c.Keyed cookieless inputs my) {given : Packet → Prop} {id : PeerId}
    {peer peer' : Peer} {ctx : Ctx} (live : c.peers id = some peer)
    (move : PeerMove may given (peer,c.toCtx) (peer',ctx)) (hin : ∀ p, given p → inputs p) :
    Call.Keyed cookieless inputs my ⟨ctx,Function.update c.peers id (some peer')⟩ := by
  obtain ⟨hid,hconfig,hkeys,hmy,_⟩ := move.fixed
  have hpid := hc.stored id peer live
  have hfrom := hc.myKey
  subst hpid hfrom
  refine hc.update live ⟨hid,hconfig,hkeys,hmy⟩ ?_ fun q => move.out_others
  exact move.keyed cookieless hin (fun k hk => hc.index k _ peer hk live)
    (fun hl => hc.cookies hl _ peer live) (hc.peers _ peer live) (hc.out _ peer live)

theorem CallMove.keyed {x y : Dispatch} (h : CallMove may inputs x y)
    (hc : x.2.Keyed cookieless inputs my) : y.2.Keyed cookieless inputs my := by
  cases h with
  | draw => exact ⟨hc.myKey,hc.stored,hc.index,hc.cookies,hc.peers,hc.out,hc.absent⟩
  | take => exact ⟨hc.myKey,hc.stored,hc.index,hc.cookies,hc.peers,hc.out,hc.absent⟩
  | skip => exact hc
  | idle => exact hc
  | lapse => exact hc
  | peer live move => exact hc.move live move fun _ hp => hp.2
  | @abort due c e id peer timeout live =>
    have hrelease : PeerMove (fun _ => True) (fun _ => False) (peer,c.toCtx) _ :=
      .release fun _ _ => trivial
    exact hc.move live hrelease fun _ => False.elim
  | @sent due c e id peer keepalive live =>
    obtain ⟨hsession,hhandshake,hmac1,hmac2,hcookie⟩ := hc.peers id peer live
    exact hc.update live ⟨rfl,rfl,rfl,rfl⟩
      ⟨⟨hsession,hhandshake,hmac1,hmac2,hcookie⟩,hc.out id peer live⟩ fun _ _ => ⟨rfl,rfl⟩

theorem CallMoves.keyed {x y : Dispatch} (h : CallMoves may inputs x y)
    (hc : x.2.Keyed cookieless inputs my) : y.2.Keyed cookieless inputs my := by
  induction h with
  | refl => exact hc
  | tail _ hmove ih => exact hmove.keyed ih

omit [MacPrimitives] in
theorem map_key_update {peers : PeerId → Option Peer} {id : PeerId} {peer peer' : Peer}
    (live : peers id = some peer) (hconfig : peer'.config = peer.config) (p : PeerId) :
    (update peers id (some peer') p).map (fun peer => peer.config.key) =
      (peers p).map fun peer => peer.config.key := by
  by_cases hp : p = id
  · simp [hp,live,hconfig]
  · simp [hp]

/-- The transitions of a call leave the keys and their index alone. -/
theorem CallMove.fixed {x y : Dispatch} (h : CallMove may inputs x y) :
    y.2.state.ids.nodeKeys = x.2.state.ids.nodeKeys ∧
      ∀ p, (y.2.peers p).map (fun peer => peer.config.key) =
        (x.2.peers p).map fun peer => peer.config.key := by
  cases h with
  | peer live move => exact ⟨move.fixed.2.2.1,map_key_update live move.fixed.2.1⟩
  | abort timeout live => exact ⟨rfl,map_key_update live rfl⟩
  | sent keepalive live => exact ⟨rfl,map_key_update live rfl⟩
  | _ => exact ⟨rfl,fun _ => rfl⟩

theorem CallMoves.fixed {x y : Dispatch} (h : CallMoves may inputs x y) :
    y.2.state.ids.nodeKeys = x.2.state.ids.nodeKeys ∧
      ∀ p, (y.2.peers p).map (fun peer => peer.config.key) =
        (x.2.peers p).map fun peer => peer.config.key := by
  induction h with
  | refl => exact ⟨rfl,fun _ => rfl⟩
  | tail _ hmove ih => exact ⟨hmove.fixed.1.trans ih.1,fun p => (hmove.fixed.2 p).trans (ih.2 p)⟩

/-- The call changes the key of a live peer in place. -/
def Endpoint.ChangesKey (e : Endpoint) : Op → Prop
  | .upsertPeer id cfg => ∃ old, e.peerKey id = some old ∧ old ≠ cfg.key
  | _ => False

namespace Machine
variable {m m' : Machine} {op : Op} {reply : Reply}

theorem not_rekeys_of_not_changesKey (h : ¬ m.endpoint.ChangesKey op) : ¬ m.endpoint.Rekeys op := by
  cases op with
  | upsertPeer id cfg => exact fun ⟨old,hold,hne,_⟩ => h ⟨old,hold,hne⟩
  | _ => exact fun hr => hr

/-- The peers of a machine, each bound to its key. -/
structure Keyed (cookieless : Prop) (my : X25519KeyPair) (m : Machine) : Prop where
  sound : m.IdsSound
  exact : m.endpoint.Exact
  myKey : m.endpoint.state.myKey = my
  peers : ∀ p peer, m.endpoint.peers p = some peer → peer.Keyed cookieless my

theorem Keyed.start (h : m.Keyed cookieless my)
    (hcookies : cookieless → ∀ p key, m.endpoint.peerKey p = some key → NoCookie inputs key) :
    m.start.Keyed cookieless inputs my where
  myKey := h.myKey
  stored p peer hp := (h.sound p peer hp).1
  index k p peer hk hp := by
    have hkey := (h.exact k p).mp hk
    rw [peerKey_of_peers hp] at hkey
    exact (Option.some.inj hkey).symm
  cookies hl p peer hp := hcookies hl p _ (peerKey_of_peers hp)
  peers := h.peers
  out _ _ _ := Outbox.keyed_default
  absent _ _ := ⟨rfl,rfl⟩

theorem keyed_peerNew (id : PeerId) (cfg : PeerConfig) : (Peer.new id cfg).Keyed cookieless my :=
  ⟨.none _,.none,rfl,rfl,fun _ => rfl⟩

/-- The index stays exact in every call that does not change a key. -/
theorem Keyed.step_exact (h : m.Keyed cookieless my) (hr : ¬ m.endpoint.ChangesKey op)
    (hstep : step op m = .ok (reply,m')) : m'.endpoint.Exact := by
  have hpeer : ∀ op' : PeerOp, op'.toOp = op → m'.endpoint.Exact := by
    rintro op' rfl
    obtain ⟨hpanic,hreturn⟩ := Machine.step_exact h.sound h.exact op' (not_rekeys_of_not_changesKey hr)
    by_cases hc : m.endpoint.Collides op'.toOp
    · rw [hpanic hc] at hstep
      cases hstep
    · obtain ⟨_,_,hok,hexact⟩ := hreturn hc
      rw [hok] at hstep
      cases hstep
      exact hexact
  cases move_of_step h.sound hstep with
  | upsert upserted => exact hpeer (.upsert _ _) rfl
  | missing absent => exact h.exact
  | remove live incident indexed => exact hpeer (.remove _) rfl
  | packets moves =>
    obtain ⟨hkeys,hpeers⟩ := CallMoves.fixed moves
    intro k p
    rw [show (stop _).endpoint.peerId k = m.endpoint.peerId k from congrFun hkeys k,
      show (stop _).endpoint.peerKey p = m.endpoint.peerKey p from hpeers p]
    exact h.exact k p

/-- A call that does not change the key of a live peer keeps every peer bound to its key. -/
theorem Keyed.step (h : m.Keyed cookieless my) (hr : ¬ m.endpoint.ChangesKey op)
    (hcookies : cookieless → ∀ p key, m.endpoint.peerKey p = some key → NoCookie op.datagrams key)
    (hstep : Machine.step op m = .ok (reply,m')) : m'.Keyed cookieless my := by
  have hmove := move_of_step h.sound hstep
  refine ⟨hmove.sound h.sound,h.step_exact hr hstep,?_,?_⟩
  · cases hmove with
    | upsert upserted =>
      rcases upsertPeer_ok upserted with ⟨_,_,_,_,rfl⟩ | ⟨_,_,rfl⟩
      · exact h.myKey
      · exact h.myKey
    | missing absent => exact h.myKey
    | remove live incident indexed => exact h.myKey
    | packets moves => exact (CallMoves.keyed moves (h.start hcookies)).myKey
  · cases hmove with
    | @upsert id cfg old endpoint upserted =>
      intro p peer hp
      rcases upsertPeer_ok upserted with ⟨peer',ids,hlive,_,rfl⟩ | ⟨hnone,_,rfl⟩
      · have hkey : peer'.config.key = cfg.key := by
          by_contra hne
          exact hr ⟨_,peerKey_of_peers hlive,hne⟩
        by_cases hid : p = id
        · simp only [hid,update_self] at hp
          cases hp
          obtain ⟨hsession,hhandshake,hmac1,hmac2,hcookie⟩ := h.peers id peer' hlive
          rw [hkey] at hsession hhandshake hmac1 hmac2
          exact ⟨hsession,hhandshake,hmac1,hmac2,hcookie⟩
        · simp only [update_of_ne hid] at hp
          exact h.peers p peer hp
      · simp only [Endpoint.insertPeer] at hp
        by_cases hid : p = id
        · simp only [hid,update_self] at hp
          cases hp
          exact keyed_peerNew id cfg
        · simp only [update_of_ne hid] at hp
          exact h.peers p peer hp
    | missing absent => exact h.peers
    | @remove id _ live incident indexed =>
      intro p peer hp
      rw [without] at hp
      by_cases hid : p = id
      · simp [hid] at hp
      · simp only [update_of_ne hid] at hp
        exact h.peers p peer hp
    | packets moves => exact (CallMoves.keyed moves (h.start hcookies)).peers

/-- What a call returns for a peer belongs to the current key of the peer. -/
theorem Keyed.step_packets (h : m.Keyed cookieless my) {out : Outbox}
    (hcookies : cookieless → ∀ p key, m.endpoint.peerKey p = some key → NoCookie op.datagrams key)
    (hstep : Machine.step op m = .ok (.packets out,m')) (p : PeerId) :
    (∃ key, m'.endpoint.peerKey p = some key ∧ out.Keyed cookieless op.datagrams my key p) ∨
      (out.toPeers p = none ∧ out.toLocal p = none) := by
  cases move_of_step h.sound hstep with
  | @packets op c moves =>
    have hcall := CallMoves.keyed moves (h.start hcookies)
    cases hp : c.peers p with
    | some peer => exact .inl ⟨_,peerKey_of_peers hp,hcall.out p peer hp⟩
    | none => exact .inr (hcall.absent p hp)

theorem keyed_new (cookieless : Prop) (myKey : X25519KeyPair) (env : Env) :
    Keyed cookieless myKey ⟨Endpoint.new myKey,env⟩ :=
  ⟨(fun _ _ h => by cases h),exact_new myKey,rfl,(fun _ _ h => by cases h)⟩

/-- Whatever a call delivers from a peer was sealed by the holder of its current key, and what
it sends to a peer is sealed for this key or carries a MAC for it. -/
def ReturnsCurrent (holder : Packet → Option NodePublicKey) (my : X25519KeyPair) (m : Machine)
    (op : Op) : Prop :=
  ∀ out m', step op m = .ok (.packets out,m') → ∀ p,
    (∀ plaintext ∈ (out.toLocal p).getD [], ∃ key datagram cipher,
      m'.endpoint.peerKey p = some key ∧ op.datagrams datagram ∧ holder datagram = some key ∧
      RecvKey my key cipher ∧ ReceiveSession.Opens datagram cipher plaintext) ∧
    ∀ packet ∈ (out.toPeers p).getD [], ∃ key, m'.endpoint.peerKey p = some key ∧
      PacketFor False my key packet

/-- The handshake messages that a call sends to a peer are accepted under its current key. -/
def SendsAccepted (my : X25519KeyPair) (m : Machine) (op : Op) : Prop :=
  ∀ out m', step op m = .ok (.packets out,m') → ∀ p, ∀ packet ∈ (out.toPeers p).getD [],
    ∃ key, m'.endpoint.peerKey p = some key ∧
      ((∃ s counter plaintext, SendKey my key (TransmitSession.cipher s) ∧
        packet = s.sealPacket counter plaintext) ∨ (MACReceiver.new key).verifyMacs packet)

/-- No datagram of the call is a cookie reply that opens for a live peer. -/
def ReceivesNoCookie (m : Machine) (op : Op) : Prop :=
  ∀ p key, m.endpoint.peerKey p = some key → NoCookie op.datagrams key

theorem Keyed.returnsCurrent {holder : Packet → Option NodePublicKey} (h : m.Keyed False my)
    (hideal : ∀ datagram, op.datagrams datagram → ∀ key s plaintext, Negotiated my key s →
      ReceiveSession.Opens datagram s.recv plaintext → holder datagram = some key) :
    ReturnsCurrent holder my m op := by
  intro out m' hstep p
  rcases h.step_packets False.elim hstep p with ⟨key,hkey,hout⟩ | ⟨hpeers,hlocal⟩
  · refine ⟨fun plaintext hmem => ?_,fun packet hmem => ⟨key,hkey,hout.toPeer packet hmem⟩⟩
    obtain ⟨datagram,_,hgiven,⟨s,hs,rfl⟩,hopens⟩ := hout.toLocal plaintext hmem
    exact ⟨key,datagram,s.recv,hkey,hgiven,hideal datagram hgiven key s plaintext hs hopens,
      ⟨s,hs,rfl⟩,hopens⟩
  · rw [hpeers,hlocal]
    exact ⟨(fun _ hmem => by cases hmem),(fun _ hmem => by cases hmem)⟩

theorem Keyed.sendsAccepted (h : m.Keyed True my) (hcookies : ReceivesNoCookie m op) :
    SendsAccepted my m op := by
  intro out m' hstep p packet hmem
  rcases h.step_packets (fun _ => hcookies) hstep p with ⟨key,hkey,hout⟩ | ⟨hpeers,_⟩
  · refine ⟨key,hkey,?_⟩
    have hpacket := hout.toPeer packet hmem
    cases hpacket with
    | @transport s counter plaintext negotiated sealing =>
      exact .inl ⟨s,counter,plaintext,negotiated,sealing⟩
    | handshake trailer zero =>
      rw [zero trivial] at trailer
      exact .inr (MACReceiver.verifyMacs_of_trailer trailer)
  · rw [hpeers] at hmem
    cases hmem

end Machine

end

section
attribute [local instance] sumMacs

end
end Tailnet.Wireguard

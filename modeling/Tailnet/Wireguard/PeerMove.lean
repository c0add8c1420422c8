import Tailnet.Wireguard.HeldIds

/-! The transitions of a peer, as a relation that says what moves and not in which order the
code looks at it, with the incidents that cause them. An incident is what a call may meet with
that loses a session, a handshake or a timer; whether a call meets with one can be told from
the state in which it starts. Transitions keep the ids of a peer its own. -/
namespace Tailnet.Wireguard
open MacPrimitives

/-- What a call on a peer may meet with. -/
inductive Incident
  /-- packets are to be sent on a session that is expired -/
  | expired
  /-- a response to our handshake is not genuine -/
  | forged
  /-- an initiation is answered while there is no handshake -/
  | answered
  /-- an initiation is answered while we have initiated a handshake -/
  | overtaken
  /-- an initiation is answered while an earlier answer is not confirmed -/
  | superseded
  /-- data arrives for a previous or a tentative session that is expired -/
  | outlived
  /-- a keepalive is due and there is no session to send it on -/
  | lapsed
  /-- a handshake that we initiated is given up with its peer -/
  | orphaned
  deriving DecidableEq

/-- The incident of answering an initiation, by the handshake that it replaces. -/
def Handshake.answering : Handshake → Incident
  | none => .answered
  | initiated _ _ _ => .overtaken
  | responded _ => .superseded

section
variable [MacPrimitives]

namespace SessionState

/-- Whether there is a session whose transmit side is not expired. -/
def canTransmit (s : SessionState) (now : Instant) : Bool :=
  match s with
  | none _ => false
  | active _ _ send => !send.expired now

end SessionState

namespace Peer

/-- The incident of `send`, when the clock shows `now`. -/
def sendIncident (peer : Peer) (now : Instant) : Option Incident :=
  match peer.session with
  | .none _ => none
  | .active _ _ send => if send.expired now then some .expired else none

def responseIncident (peer : Peer) (packet : HandshakeResponse) (state : EndpointState) :
    Option Incident :=
  match peer.handshake with
  | .initiated sent _ _ =>
    if packet.genuine sent state.myKey peer.config.psk state.myCookie then none else some .forged
  | _ => none

def initiationIncident (peer : Peer) (received : ReceivedHandshake) : Option Incident :=
  if peer.replayed received.timestamp then none else some peer.handshake.answering

/-- The previous session, and the tentative session of a handshake. -/
def olderSessions (peer : Peer) : List ReceiveSession :=
  (match peer.session with
    | .active _ (some prev) _ => [prev]
    | _ => []) ++
  (match peer.handshake with
    | .responded tentative => [tentative.recv]
    | _ => [])

def transportIncident (peer : Peer) (id : SessionId) (now : Instant) : Option Incident :=
  if peer.olderSessions.any fun s => s.id = id && s.expired now then some .outlived else none

def keepaliveIncident (peer : Peer) (now : Instant) : Option Incident :=
  if peer.session.canTransmit now then none else some .lapsed

def shutdownIncident (peer : Peer) : Option Incident :=
  match peer.handshake with
  | .initiated _ _ _ => some .orphaned
  | _ => none

/-- The incident of one packet of `recv`. -/
def messageIncident (peer : Peer) (packet : Packet) (state : EndpointState) : Option Incident :=
  match Message.tryFrom packet with
  | some (.handshakeResponse resp) => peer.responseIncident resp state
  | _ => none

/-- The incidents of the loop of `recv`. -/
def retainIncidents : List Packet → Peer → Ctx → List Incident
  | [],_,_ => []
  | packet::packets,peer,c => (peer.messageIncident packet c.state).toList ++
    match peer.recvMessage packet c with
    | .ok ((_,peer),c) => retainIncidents packets peer c
    | .error _ => []

/-- The incidents of `recv`. -/
def recvIncidents (peer : Peer) (id : SessionId) (packets : List Packet) (c : Ctx) :
    List Incident :=
  peer.retainIncidents packets c ++
    match peer.retainTransport packets c with
    | .ok ((_,peer),c) => (peer.transportIncident id c.env.instants.head).toList
    | .error _ => []

end Peer

def Ctx.withScheduler (c : Ctx) (scheduler : Scheduler Event) : Ctx :=
  { c with state := { c.state with scheduler } }

/-- The transitions of a peer in its context, on packets from `inputs`, where only the
incidents in `may` happen. -/
inductive PeerMove (may : Incident → Prop) (inputs : Packet → Prop) :
    Peer × Ctx → Peer × Ctx → Prop
  /-- clocks and random numbers -/
  | draw {peer : Peer} {c : Ctx} (env : Env) (timestamps : TAI64NClock) :
    PeerMove may inputs (peer,c) (peer,{ c with env, state := { c.state with timestamps } })
  | enqueue {peer : Peer} {c : Ctx} {queue : Queue} (queue' : Queue)
    (inactive : peer.session = .none queue) :
    PeerMove may inputs (peer,c) ({ peer with session := .none queue' },c)
  /-- the sessions are dropped, their ids are not released -/
  | expire {peer : Peer} {c : Ctx} {recv : ReceiveSession} {recvPrev : Option ReceiveSession}
    {send : TransmitSession} (queue : Queue) (active : peer.session = .active recv recvPrev send)
    (incident : may .expired) :
    PeerMove may inputs (peer,c) ({ peer with session := .none queue },c)
  | transmit {peer : Peer} {c : Ctx} {recv : ReceiveSession} {recvPrev : Option ReceiveSession}
    {send send' : TransmitSession} {packets ret : List Packet}
    (active : peer.session = .active recv recvPrev send)
    (sealing : send.encrypt packets = .ok (ret,send')) :
    PeerMove may inputs (peer,c) ({ peer with session := .active recv recvPrev send' },
      { c with out := c.out.queueToPeer peer.id ret })
  | receive {peer : Peer} {c : Ctx} {recv recv' : ReceiveSession}
    {recvPrev : Option ReceiveSession} {send : TransmitSession} {packets ret : List Packet}
    (active : peer.session = .active recv recvPrev send) (given : ∀ p ∈ packets, inputs p)
    (opening : recv.decrypt packets = .ok (ret,recv')) :
    PeerMove may inputs (peer,c) ({ peer with session := .active recv' recvPrev send },
      { c with out := c.out.pushToLocal peer.id ret })
  | receivePrev {peer : Peer} {c : Ctx} {recv prev prev' : ReceiveSession}
    {send : TransmitSession} {packets ret : List Packet}
    (active : peer.session = .active recv (some prev) send) (given : ∀ p ∈ packets, inputs p)
    (opening : prev.decrypt packets = .ok (ret,prev')) :
    PeerMove may inputs (peer,c) ({ peer with session := .active recv (some prev') send },
      { c with out := c.out.pushToLocal peer.id ret })
  /-- a handshake starts, with a timer -/
  | initiate {peer : Peer} {c : Ctx} {id : SessionId} {timestamp : TAI64N} {sent : SentHandshake}
    {init : HandshakeInitiation} {mac : Mac} {packet : Packet} {env env' env₁ env₁' : Env}
    (when : TimeRange) (idle : peer.handshake = .none) (free : c.state.ids.sessions id = none)
    (initiation : initiateHandshake c.state.myKey peer.config.key id timestamp env =
      .ok ((sent,init),env'))
    (macs : peer.cookieSender.writeMacs init.toBytes env₁ = .ok ((mac,packet),env₁')) :
    PeerMove may inputs (peer,c)
      ({ peer with
          handshake := .initiated sent
            (c.state.scheduler.add when (.handshakeTimeout peer.id)).1 mac },
        { (c.withSessions (Function.update c.state.ids.sessions id (some peer.id))).withScheduler
            (c.state.scheduler.add when (.handshakeTimeout peer.id)).2 with
          out := c.out.queueToPeer peer.id [packet] })
  /-- an initiation is answered; a handshake that there was is overwritten -/
  | respond {peer : Peer} {c : Ctx} {id : SessionId} {init : HandshakeInitiation}
    {received : ReceivedHandshake} {now : Instant} {pair : SessionPair} {packet : Packet}
    {env env' : Env} (incident : may peer.handshake.answering)
    (free : c.state.ids.sessions id = none)
    (reception : ReceivedHandshake.new init c.state.myKey c.state.myCookie = some received)
    (indexed : c.state.ids.nodeKeys received.peerStatic = some peer.id)
    (response : received.respond id peer.config.psk peer.cookieSender now env =
      .ok ((pair,packet),env')) :
    PeerMove may inputs (peer,c)
      ({ peer with lastSeenTimestamp := some received.timestamp, handshake := .responded pair },
        { c.withSessions (Function.update c.state.ids.sessions id (some peer.id)) with
          out := c.out.queueToPeer peer.id [packet] })
  /-- a genuine response arrives, and the timer is cancelled -/
  | finish {peer : Peer} {c : Ctx} {sent : SentHandshake} {timeout : Handle} {mac : Mac}
    {packet : Packet} {response : HandshakeResponse} {now : Instant} {pair : SessionPair}
    {ret : List Packet} {session : SessionState} {released : List SessionId}
    (initiated : peer.handshake = .initiated sent timeout mac) (given : inputs packet)
    (parsed : Message.tryFrom packet = some (.handshakeResponse response))
    (finished : peer.handshake.finish response c.state.myKey peer.config.psk c.state.myCookie now =
      (some (pair,timeout),.none))
    (activation : SessionState.Activates pair peer.session ret session released) :
    PeerMove may inputs (peer,c) ({ peer with handshake := .none, session },
      { (c.withSessions (forget c.state.ids.sessions released)).withScheduler
          (c.state.scheduler.cancel timeout) with
        out := c.out.pushToPeer peer.id ret })
  /-- the handshake is dropped, its id is not released and its timer not cancelled -/
  | abandon {peer : Peer} {c : Ctx} {sent : SentHandshake} {timeout : Handle} {mac : Mac}
    (initiated : peer.handshake = .initiated sent timeout mac) (incident : may .forged) :
    PeerMove may inputs (peer,c) ({ peer with handshake := .none },c)
  | confirm {peer : Peer} {c : Ctx} {pair : SessionPair} {recv : ReceiveSession}
    {packets opened ret : List Packet} {session : SessionState} {released : List SessionId}
    (responded : peer.handshake = .responded pair) (given : ∀ p ∈ packets, inputs p)
    (opening : pair.recv.decrypt packets = .ok (opened,recv)) (nonempty : opened ≠ [])
    (activation : SessionState.Activates { pair with recv } peer.session ret session released) :
    PeerMove may inputs (peer,c) ({ peer with handshake := .none, session },
      { c.withSessions (forget c.state.ids.sessions released) with
        out := (c.out.queueToLocal peer.id opened).pushToPeer peer.id ret })
  | cookie {peer : Peer} {c : Ctx} {sent : SentHandshake} {timeout : Handle} {mac : Mac}
    {packet : Packet} {reply : CookieReply} {key : Bytes 16} (expiry : Instant)
    (initiated : peer.handshake = .initiated sent timeout mac) (given : inputs packet)
    (parsed : Message.tryFrom packet = some (.cookieReply reply))
    (opening : openCookie peer.cookieSender.mac2Key reply.nonce mac reply.cookieSealed = some key) :
    PeerMove may inputs (peer,c)
      ({ peer with cookieSender := { peer.cookieSender with cookie := some ⟨key,expiry⟩ } },c)
  /-- the handshake is given up, its timer is not cancelled -/
  | release {peer : Peer} {c : Ctx} (incident : ∀ i ∈ peer.shutdownIncident, may i) :
    PeerMove may inputs (peer,c) ({ peer with handshake := .none },
      c.withSessions (forget c.state.ids.sessions peer.handshake.sessionId.toList))
  | deactivate {peer : Peer} {c : Ctx} :
    PeerMove may inputs (peer,c) ({ peer with session := .none [] },
      c.withSessions (forget c.state.ids.sessions peer.session.ids))
  /-- a keepalive is scheduled -/
  | arm {peer : Peer} {c : Ctx} (when : TimeRange) (idle : peer.keepalive = none) :
    PeerMove may inputs (peer,c)
      ({ peer with
          keepalive := some (c.state.scheduler.add when (.maybeSendKeepalive peer.id)).1 },
        c.withScheduler (c.state.scheduler.add when (.maybeSendKeepalive peer.id)).2)
  | another {peer : Peer} {c : Ctx} (sendAnotherKeepalive : Bool) :
    PeerMove may inputs (peer,c) ({ peer with sendAnotherKeepalive },c)

abbrev PeerMoves (may : Incident → Prop) (inputs : Packet → Prop) :=
  Relation.ReflTransGen (PeerMove may inputs)

variable {may : Incident → Prop} {inputs : Packet → Prop} {peer peer' : Peer} {c c' : Ctx}

/-- Transitions leave the identity of the peer and the keys of the endpoint alone. -/
theorem PeerMove.fixed (h : PeerMove may inputs (peer,c) (peer',c')) :
    peer'.id = peer.id ∧ peer'.config = peer.config ∧
      c'.state.ids.nodeKeys = c.state.ids.nodeKeys ∧ c'.state.myKey = c.state.myKey ∧
      c'.state.myCookie = c.state.myCookie := by
  cases h <;> exact ⟨rfl,rfl,rfl,rfl,rfl⟩

theorem PeerMove.owns (h : PeerMove may inputs (peer,c) (peer',c')) (ho : Owns peer c.state.ids.sessions) :
    Owns peer' c'.state.ids.sessions ∧
      KeepsOthers peer.id c.state.ids.sessions c'.state.ids.sessions := by
  have hrefl : KeepsOthers peer.id c.state.ids.sessions c.state.ids.sessions := fun _ _ _ h => h
  have hsession := List.nodup_append.mp ho.nodup
  cases h with
  | draw => exact ⟨ho.same rfl rfl,hrefl⟩
  | enqueue queue' inactive =>
    exact ⟨ho.same rfl (by simp [Peer.heldIds,inactive,SessionState.ids]),hrefl⟩
  | expire queue active incident =>
    refine ⟨ho.shrink rfl hsession.2.1 fun id hmem => ⟨?_,rfl⟩,hrefl⟩
    exact List.mem_append_right _ hmem
  | transmit active sealing =>
    exact ⟨ho.same rfl (by simp [Peer.heldIds,active,SessionState.ids]),hrefl⟩
  | receive active given opening =>
    have hid := (ReceiveSession.decrypt_id opening).1
    exact ⟨ho.same rfl (by simp [Peer.heldIds,active,SessionState.ids,hid]),hrefl⟩
  | receivePrev active given opening =>
    have hid := (ReceiveSession.decrypt_id opening).1
    exact ⟨ho.same rfl (by simp [Peer.heldIds,active,SessionState.ids,hid]),hrefl⟩
  | initiate when idle free initiation macs =>
    obtain ⟨_,_,_,_,rfl⟩ := initiateHandshake_ok initiation
    exact ⟨ho.allocate free rfl rfl rfl,.allocate free⟩
  | respond incident free reception indexed response =>
    obtain ⟨_,_,_,_,_,_,_,rfl,_⟩ := ReceivedHandshake.respond_ok response
    exact ⟨ho.allocate free rfl rfl rfl,.allocate free⟩
  | finish initiated given parsed finished activation =>
    rw [initiated] at finished
    obtain ⟨_,_,rfl⟩ := Handshake.finish_ok finished
    exact ho.activate rfl activation (by rw [initiated]; rfl) rfl
  | abandon initiated incident =>
    refine ⟨ho.shrink rfl ?_ fun id hmem => ⟨?_,rfl⟩,hrefl⟩
    · simpa [Peer.heldIds,Handshake.sessionId] using hsession.1
    · simp only [Peer.heldIds,Handshake.sessionId,Option.toList_none,List.append_nil] at hmem
      exact List.mem_append_left _ hmem
  | confirm responded given opening nonempty activation =>
    have hid := (ReceiveSession.decrypt_id opening).1
    exact ho.activate rfl activation (by rw [responded]; simp [Handshake.sessionId,hid]) rfl
  | cookie => exact ⟨ho.same rfl rfl,hrefl⟩
  | release incident => exact ho.release rfl (by simp [Peer.heldIds,Handshake.sessionId])
  | deactivate => exact ho.release rfl List.perm_append_comm
  | arm => exact ⟨ho.same rfl rfl,hrefl⟩
  | another => exact ⟨ho.same rfl rfl,hrefl⟩

theorem PeerMoves.fixed {x y : Peer × Ctx} (h : PeerMoves may inputs x y) :
    y.1.id = x.1.id ∧ y.1.config = x.1.config ∧
      y.2.state.ids.nodeKeys = x.2.state.ids.nodeKeys ∧ y.2.state.myKey = x.2.state.myKey ∧
      y.2.state.myCookie = x.2.state.myCookie := by
  induction h with
  | refl => exact ⟨rfl,rfl,rfl,rfl,rfl⟩
  | tail _ hmove ih =>
    obtain ⟨h1,h2,h3,h4,h5⟩ := hmove.fixed
    exact ⟨h1.trans ih.1,h2.trans ih.2.1,h3.trans ih.2.2.1,h4.trans ih.2.2.2.1,h5.trans ih.2.2.2.2⟩

/-- Runs of a peer keep its ownership, and leave the ids of other peers alone. -/
theorem PeerMoves.owns {x y : Peer × Ctx} (h : PeerMoves may inputs x y)
    (ho : Owns x.1 x.2.state.ids.sessions) :
    Owns y.1 y.2.state.ids.sessions ∧
      KeepsOthers x.1.id x.2.state.ids.sessions y.2.state.ids.sessions := by
  induction h with
  | refl => exact ⟨ho,fun _ _ _ h => h⟩
  | tail hmoves hmove ih =>
    obtain ⟨howns,hothers⟩ := hmove.owns ih.1
    have hid := (PeerMoves.fixed hmoves).1
    exact ⟨howns,fun id q hq hs => hothers id q (hid ▸ hq) (ih.2 id q hq hs)⟩

end
end Tailnet.Wireguard

import Tailnet.Wireguard.Handshake

/-! A peer of an endpoint: its sessions, its handshake and the calls that move them. The
ids of sessions are allocated from a table that all peers of the endpoint share. -/
namespace Tailnet.Wireguard
open Function

abbrev PeerId := UInt32

def maxQueuedPerPeer : ℕ := 32

def keepaliveTimeout : Instant := Instant.ofSecs 10

def handshakeTimeout : Instant := Instant.ofSecs 5

/-- A bounded packet queue that drops oldest packets when full. -/
abbrev Queue := List Packet

namespace Queue

def append (queue : Queue) (packets : List Packet) : Queue :=
  let newPackets := min packets.length maxQueuedPerPeer
  let dropIncoming := packets.length - newPackets
  let keepQueued := maxQueuedPerPeer - newPackets
  let dropQueued := queue.length - keepQueued
  queue.drop dropQueued ++ packets.drop dropIncoming

def newWith (packets : List Packet) : Queue := Queue.append [] packets

end Queue

inductive Event
  | handshakeTimeout (id : PeerId)
  | maybeSendKeepalive (id : PeerId)
  deriving DecidableEq

def Event.peer : Event → PeerId
  | handshakeTimeout id => id
  | maybeSendKeepalive id => id

/-- Tracks and allocates session ids for peer sessions. -/
structure IdMap where
  sessions : SessionId → Option PeerId
  nodeKeys : NodePublicKey → Option PeerId

namespace IdMap

def default : IdMap := ⟨fun _ => none,fun _ => none⟩

/-- Add a peer for a public key, unless there is one already. -/
def addPeer (ids : IdMap) (id : PeerId) (key : NodePublicKey) : Bool × IdMap :=
  if (ids.nodeKeys key).isSome then (false,ids)
  else (true,{ ids with nodeKeys := update ids.nodeKeys key (some id) })

/-- The loop of `allocate_session`: draw until an id is free. -/
def allocateLoop (ids : IdMap) (peer : PeerId) : ℕ → Prog Env (SessionId × IdMap)
  | 0 => Prog.lift (.error .divergence)
  | fuel+1 => do
    let ret ← Env.sessionId
    if (ids.sessions ret).isSome then allocateLoop ids peer fuel
    else return (ret,{ ids with sessions := update ids.sessions ret (some peer) })

def allocateSession (ids : IdMap) (peer : PeerId) : Prog Env (SessionId × IdMap) := fun env =>
  ids.allocateLoop peer env.fuel env

/-- Abandon the given session id, which must be in use. -/
def removeSession (ids : IdMap) (id : SessionId) : Result IdMap := do
  let _ ← Result.unwrapIn "remove_session" (ids.sessions id)
  return { ids with sessions := update ids.sessions id none }

def removeHandshakeSession (ids : IdMap) (handshake : Handshake) : Result IdMap :=
  match handshake.sessionId with
  | some id => ids.removeSession id
  | none => .ok ids

/-- Delete the peer for the given key, which must be in use. -/
def removePeer (ids : IdMap) (key : NodePublicKey) : Result IdMap := do
  let _ ← Result.unwrapIn "remove_peer" (ids.nodeKeys key)
  return { ids with nodeKeys := update ids.nodeKeys key none }

end IdMap

section
variable [MacPrimitives]

structure EndpointState where
  myKey : Noise.X25519KeyPair
  myCookie : MACReceiver
  ids : IdMap
  timestamps : TAI64NClock
  scheduler : Scheduler Event

/-- The packets that a call returns, by peer. -/
structure Outbox where
  toPeers : PeerId → Option (List Packet)
  toLocal : PeerId → Option (List Packet)

/-- What a call on a peer works on, apart from the peer. -/
structure Ctx where
  state : EndpointState
  env : Env
  out : Outbox

namespace Outbox

def default : Outbox := ⟨fun _ => none,fun _ => none⟩

/-- Packets for a peer, whose queue is created if there is none. -/
def queueToPeer (out : Outbox) (peer : PeerId) (packets : List Packet) : Outbox :=
  { out with toPeers := update out.toPeers peer (some ((out.toPeers peer).getD [] ++ packets)) }

def queueToLocal (out : Outbox) (peer : PeerId) (packets : List Packet) : Outbox :=
  { out with toLocal := update out.toLocal peer (some ((out.toLocal peer).getD [] ++ packets)) }

end Outbox

namespace Ctx
variable {α : Type}

def onEnv (m : Prog Env α) : Prog Ctx α := Prog.zoom Ctx.env (fun env c => { c with env }) m

def onIds (f : IdMap → Result IdMap) : Prog Ctx Unit := fun c => do
  let ids ← f c.state.ids
  return ((),{ c with state := { c.state with ids } })

def now : Prog Ctx Instant := onEnv Env.now

def allocateSession (peer : PeerId) : Prog Ctx SessionId := do
  let c ← get
  let (id,ids) ← onEnv (c.state.ids.allocateSession peer)
  onIds fun _ => .ok ids
  return id

def timestamp : Prog Ctx TAI64N := do
  let c ← get
  let (t,timestamps) ← onEnv c.state.timestamps.now
  modify fun c => { c with state := { c.state with timestamps } }
  return t

def scheduleAround (t plusMinus : Instant) (what : Event) : Prog Ctx Handle := do
  let when ← Prog.lift (TimeRange.newAround t plusMinus)
  let c ← get
  let (handle,scheduler) := c.state.scheduler.add when what
  set { c with state := { c.state with scheduler } }
  return handle

def cancel (handle : Handle) : Prog Ctx Unit :=
  modify fun c =>
    { c with state := { c.state with scheduler := c.state.scheduler.cancel handle } }

def queueToPeer (peer : PeerId) (packets : List Packet) : Prog Ctx Unit :=
  modify fun c => { c with out := c.out.queueToPeer peer packets }

def queueToLocal (peer : PeerId) (packets : List Packet) : Prog Ctx Unit :=
  modify fun c => { c with out := c.out.queueToLocal peer packets }

end Ctx
open Ctx

inductive SessionState
  /-- No active session, packets may be queued for future transmission. -/
  | none (queue : Queue)
  | active (recv : ReceiveSession) (recvPrev : Option ReceiveSession) (send : TransmitSession)
  deriving DecidableEq

namespace SessionState

/-- Release the id of a session, if there is one. -/
def release : Option ReceiveSession → Prog Ctx Unit
  | some recv => onIds fun ids => ids.removeSession recv.id
  | Option.none => pure ()

variable (s : SessionState)

/-- Activate the session, rotating existing ones. Queued packets are returned encrypted. -/
def activate (next : SessionPair) : Prog Ctx (List Packet × SessionState) :=
  match s with
  | none queue => do
    let (ret,send) ← Prog.lift (next.send.encrypt queue)
    return (ret,active next.recv Option.none send)
  | active recv recvPrev _ => do
    release recvPrev
    return ([],active next.recv (some recv) next.send)

/-- Deactivate the session, releasing any active session ids. -/
def deactivate : Prog Ctx SessionState :=
  match s with
  | none _ => return none []
  | active recv recvPrev _ => do
    release (some recv)
    release recvPrev
    return none []

/-- Encrypt a keepalive packet, unless the session cannot currently transmit. -/
def encryptKeepalive : Prog Ctx (Option Packet × SessionState) :=
  match s with
  | none _ => return (Option.none,s)
  | active recv recvPrev send => do
    if send.expired (← now) then return (Option.none,s)
    else
      let (packets,send) ← Prog.lift (send.encrypt [[]])
      return (packets.getLast?,active recv recvPrev send)

/-- Encrypt packets for transmission, or queue them if there is no session. An expired
session is dropped, with both receive sessions. -/
def encryptOrQueue (packets : List Packet) :
    Prog Ctx (Option (List Packet) × SessionState) :=
  match s with
  | none queue => return (Option.none,none (Queue.append queue packets))
  | active recv recvPrev send => do
    if send.expired (← now) then return (Option.none,none (Queue.newWith packets))
    else
      let (packets,send) ← Prog.lift (send.encrypt packets)
      return (some packets,active recv recvPrev send)

/-- A session has the id, and `recv` is not expired. The clock is read only then. -/
def matchesId (recv session : ReceiveSession) (id : SessionId) : Prog Ctx Bool := do
  if session.id = id then return !recv.expired (← now) else return false

/-- The receive session with the given id, if any, and the state with it replaced. The
expiry of the previous session is that of the current one. -/
def getRecv (id : SessionId) :
    Prog Ctx (Option (ReceiveSession × (ReceiveSession → SessionState))) :=
  match s with
  | none _ => return Option.none
  | active recv recvPrev send => do
    if ← matchesId recv recv id then return some (recv,fun r => active r recvPrev send)
    else
      match recvPrev with
      | Option.none => return Option.none
      | some prev => do
        if ← matchesId recv prev id then return some (prev,fun r => active recv (some r) send)
        else return Option.none

/-- Whether the transmit side is stale, or there is no session. -/
def needsRotation : Prog Ctx Bool :=
  match s with
  | none _ => return true
  | active _ _ send => return send.stale (← now)

end SessionState

structure PeerConfig where
  key : NodePublicKey
  psk : Psk
  deriving DecidableEq

structure Peer where
  id : PeerId
  config : PeerConfig
  session : SessionState
  handshake : Handshake
  lastSeenTimestamp : Option TAI64N
  cookieSender : MACSender
  keepalive : Option Handle
  sendAnotherKeepalive : Bool
  deriving DecidableEq

namespace Peer

def new (id : PeerId) (config : PeerConfig) : Peer where
  id
  config
  session := .none []
  handshake := .none
  lastSeenTimestamp := none
  cookieSender := MACSender.new config.key
  keepalive := none
  sendAnotherKeepalive := false

variable (peer : Peer)

def scheduleKeepalive : Prog Ctx Peer :=
  if peer.keepalive.isSome then return { peer with sendAnotherKeepalive := true }
  else do
    let handle ← scheduleAround ((← now) + keepaliveTimeout) (Instant.ofSecs 1)
      (.maybeSendKeepalive peer.id)
    return { peer with keepalive := some handle }

/-- Start a handshake. A previous one is lost. -/
def startHandshake : Prog Ctx Peer := do
  let sessionId ← allocateSession peer.id
  let timestamp ← timestamp
  let c ← get
  let (handshake,packet) ←
    onEnv (initiateHandshake c.state.myKey peer.config.key sessionId timestamp)
  let (mac,packet) ← onEnv (peer.cookieSender.writeMacs packet.toBytes)
  queueToPeer peer.id [packet]
  let timeout ← scheduleAround ((← now) + Wireguard.handshakeTimeout) (Instant.ofMillis 500)
    (.handshakeTimeout peer.id)
  return { peer with handshake := .initiated handshake timeout mac }

/-- Queue what was encrypted, if anything was. -/
def queueSome : Option (List Packet) → Prog Ctx Unit
  | some packets => queueToPeer peer.id packets
  | none => pure ()

def send (packets : List Packet) : Prog Ctx Peer := do
  let (packets,session) ← peer.session.encryptOrQueue packets
  peer.queueSome packets
  let peer := { peer with session }
  if peer.handshake.isActive then return peer
  else if ← peer.session.needsRotation then peer.startHandshake
  else return peer

def recvCookieReply (packet : CookieReply) : Prog Ctx Peer :=
  match peer.handshake with
  | .initiated _ _ mac => do
    let cookieSender ← onEnv (peer.cookieSender.receiveCookie packet mac)
    return { peer with cookieSender }
  | _ => return peer

/-- At least one packet must confirm a session: if none was queued, an empty one. -/
def confirmation (session : SessionState) (packets : List Packet) :
    Prog Ctx (List Packet × SessionState) :=
  if packets.isEmpty then do
    let (packets,session) ← session.encryptOrQueue [[]]
    return (← Prog.lift (Result.unwrap packets),session)
  else return (packets,session)

/-- The initiator activates the session of a finished handshake. -/
def finishHandshake (pair : SessionPair) : Prog Ctx Peer := do
  let (packets,session) ← peer.session.activate pair
  let (packets,session) ← confirmation session packets
  queueToPeer peer.id packets
  return { peer with session }

def recvHandshakeResponse (packet : HandshakeResponse) : Prog Ctx Peer := do
  let now ← now
  let c ← get
  let (done,handshake) :=
    peer.handshake.finish packet c.state.myKey peer.config.psk c.state.myCookie now
  let peer := { peer with handshake }
  match done with
  | none => return peer
  | some (pair,timeout) => do
    cancel timeout
    peer.finishHandshake pair

def deliver (packets : List Packet) : Prog Ctx Peer := do
  queueToLocal peer.id packets
  peer.scheduleKeepalive

/-- The responder activates the session that its first packets confirmed. -/
def confirmHandshake (pair : SessionPair) (packets : List Packet) :
    Prog Ctx Peer := do
  let peer ← peer.deliver packets
  let (packets,session) ← peer.session.activate pair
  peer.queueSome (if packets.isEmpty then none else some packets)
  return { peer with session }

def recvTransportData (sessionId : SessionId) (packets : List Packet) :
    Prog Ctx Peer := do
  match ← peer.session.getRecv sessionId with
  | some (recv,put) => do
    let (packets,recv) ← Prog.lift (recv.decrypt packets)
    let peer := { peer with session := put recv }
    if packets.isEmpty then return peer else peer.deliver packets
  | none => do
    let (done,handshake) ← Prog.lift (peer.handshake.confirm sessionId packets)
    let peer := { peer with handshake }
    match done with
    | none => return peer
    | some (pair,packets) => peer.confirmHandshake pair packets

/-- One packet of the loop of `recv`: whether it is kept, as transport data. -/
def recvMessage (packet : Packet) : Prog Ctx (Bool × Peer) :=
  match Message.tryFrom packet with
  | none => return (false,peer)
  | some (.transportData _) => return (true,peer)
  | some (.handshakeResponse resp) => return (false,← peer.recvHandshakeResponse resp)
  | some (.cookieReply resp) => return (false,← peer.recvCookieReply resp)
  | some (.handshakeInitiation _) => Prog.lift (.error (.message
      "handshake initiations should have been filtered out prior to calling recv"))

def retainTransport (peer : Peer) : List Packet → Prog Ctx (List Packet × Peer)
  | [] => return ([],peer)
  | packet::packets => do
    let (keep,peer) ← peer.recvMessage packet
    let (packets,peer) ← peer.retainTransport packets
    return (if keep then packet::packets else packets,peer)

def recv (sessionId : SessionId) (packets : List Packet) : Prog Ctx Peer := do
  let (packets,peer) ← peer.retainTransport packets
  peer.recvTransportData sessionId packets

/-- An initiation that is older than the last one seen is a replay. -/
def replayed (timestamp : TAI64N) : Bool :=
  match peer.lastSeenTimestamp with
  | some last => timestamp.lt last
  | none => false

def respondToHandshake (handshake : ReceivedHandshake) : Prog Ctx Peer :=
  if peer.replayed handshake.timestamp then return peer
  else do
    let peer := { peer with lastSeenTimestamp := some handshake.timestamp }
    let sessionId ← allocateSession peer.id
    let now ← now
    let (packet,handshake) ←
      onEnv (Handshake.respond sessionId handshake peer.config.psk peer.cookieSender now)
    queueToPeer peer.id [packet]
    return { peer with handshake }

/-- The active handshake is replaced by a new one. -/
def handshakeTimeout : Prog Ctx Peer :=
  if peer.handshake.isActive then do
    onIds fun ids => ids.removeHandshakeSession peer.handshake
    let peer := { peer with handshake := .none }
    peer.startHandshake
  else return peer

/-- A keepalive was sent; another one may be due. -/
def nextKeepalive : Prog Ctx Peer := do
  let peer := { peer with keepalive := none }
  if peer.sendAnotherKeepalive then
    let peer ← peer.scheduleKeepalive
    return { peer with sendAnotherKeepalive := false }
  else return peer

def sendKeepalive : Prog Ctx Peer := do
  let (packet,session) ← peer.session.encryptKeepalive
  let peer := { peer with session }
  match packet with
  | none => return peer
  | some packet => do
    queueToPeer peer.id [packet]
    peer.nextKeepalive

def shutdown : Prog Ctx Peer := do
  let session ← peer.session.deactivate
  onIds fun ids => ids.removeHandshakeSession peer.handshake
  return { peer with session, handshake := .none }

end Peer
end
end Tailnet.Wireguard

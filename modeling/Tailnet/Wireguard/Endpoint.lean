import Tailnet.Wireguard.Peer

/-! A WireGuard endpoint that communicates with many peers. Its calls are the steps of a
state machine; what they draw from outside is part of the state. -/
namespace Tailnet.Wireguard
open Ctx Function

section
variable [MacPrimitives]

structure Endpoint where
  state : EndpointState
  peers : PeerId → Option Peer

/-- What a call on the endpoint works on. -/
structure Call extends Ctx where
  peers : PeerId → Option Peer

namespace Call

/-- A call on a peer. Nothing happens if there is no such peer. -/
def onPeer (id : PeerId) (f : Peer → Prog Ctx Peer) : Prog Call Unit := fun c =>
  match c.peers id with
  | none => .ok ((),c)
  | some peer =>
    match f peer c.toCtx with
    | .error p => .error p
    | .ok (peer,ctx) => .ok ((),⟨ctx,update c.peers id (some peer)⟩)

/-- A call that does not touch the peers. -/
def onCtx {α : Type} (m : Prog Ctx α) : Prog Call α :=
  Prog.zoom Call.toCtx (fun ctx c => { c with toCtx := ctx }) m

end Call
open Call

namespace Endpoint

def new (myKey : Noise.X25519KeyPair) : Endpoint where
  state := ⟨myKey,MACReceiver.new myKey.pub,IdMap.default,TAI64NClock.new,Scheduler.default⟩
  peers _ := none

/-- The reverse index after the key of a peer changed. A collision goes unnoticed. -/
def changeKey (ids : IdMap) (id : PeerId) (old new : NodePublicKey) : Result IdMap :=
  if old ≠ new then do
    let ids ← ids.removePeer old
    return (ids.addPeer id new).2
  else .ok ids

def upsertPeer (e : Endpoint) (id : PeerId) (cfg : PeerConfig) :
    Result (Option PeerConfig × Endpoint) :=
  match e.peers id with
  | some peer => do
    let ids ← changeKey e.state.ids id peer.config.key cfg.key
    return (some peer.config,⟨{ e.state with ids },
      update e.peers id (some { peer with config := cfg })⟩)
  | none =>
    match e.state.ids.addPeer id cfg.key with
    | (false,_) => .error (.message "nodekey collision")
    | (true,ids) =>
      .ok (none,⟨{ e.state with ids },update e.peers id (some (Peer.new id cfg))⟩)

/-- A new peer with its key in the index. -/
def insertPeer (e : Endpoint) (id : PeerId) (cfg : PeerConfig) : Endpoint where
  state := { e.state with ids :=
    { e.state.ids with nodeKeys := update e.state.ids.nodeKeys cfg.key (some id) } }
  peers := update e.peers id (some (Peer.new id cfg))

theorem upsertPeer_ok {e e' : Endpoint} {id : PeerId} {cfg : PeerConfig} {old : Option PeerConfig}
    (h : e.upsertPeer id cfg = .ok (old,e')) :
    (∃ peer ids, e.peers id = some peer ∧
      changeKey e.state.ids id peer.config.key cfg.key = .ok ids ∧
      e' = ⟨{ e.state with ids },update e.peers id (some { peer with config := cfg })⟩) ∨
    e.peers id = none ∧ e.state.ids.nodeKeys cfg.key = none ∧ e' = e.insertPeer id cfg := by
  rw [upsertPeer] at h
  cases hp : e.peers id with
  | some peer =>
    rw [hp] at h
    obtain ⟨ids,hids,h⟩ := Result.bind_eq_ok.mp h
    cases h
    exact .inl ⟨peer,ids,rfl,hids,rfl⟩
  | none =>
    rw [hp] at h
    cases hk : e.state.ids.nodeKeys cfg.key with
    | some q => simp [IdMap.addPeer,hk] at h
    | none =>
      simp only [IdMap.addPeer,hk,Option.isSome_none] at h
      cases h
      exact .inr ⟨rfl,rfl,rfl⟩

theorem upsertPeer_error {e : Endpoint} {id : PeerId} {cfg : PeerConfig} {p : Panic}
    (h : e.upsertPeer id cfg = .error p) :
    (∃ peer, e.peers id = some peer ∧
      changeKey e.state.ids id peer.config.key cfg.key = .error p) ∨
    e.peers id = none ∧ (∃ q, e.state.ids.nodeKeys cfg.key = some q) ∧
      p = .message "nodekey collision" := by
  rw [upsertPeer] at h
  cases hp : e.peers id with
  | some peer =>
    rw [hp] at h
    rcases Result.bind_eq_error.mp h with h | ⟨_,_,h⟩
    · exact .inl ⟨peer,rfl,h⟩
    · cases h
  | none =>
    rw [hp] at h
    cases hk : e.state.ids.nodeKeys cfg.key with
    | none => simp [IdMap.addPeer,hk] at h
    | some q =>
      simp only [IdMap.addPeer,hk,Option.isSome_some] at h
      cases h
      exact .inr ⟨rfl,⟨q,rfl⟩,rfl⟩

def removePeer (id : PeerId) : Prog Call Bool := fun c =>
  match c.peers id with
  | none => .ok (false,c)
  | some peer => do
    let (peer,ctx) ← peer.shutdown c.toCtx
    let ((),ctx) ← onIds (fun ids => ids.removePeer peer.config.key) ctx
    return (true,⟨ctx,update c.peers id none⟩)

def send (packets : List (PeerId × List Packet)) : Prog Call Unit :=
  Prog.forEach (fun (id,packets) => onPeer id fun peer => peer.send packets) packets

/-- The id by which a packet is grouped. -/
def receiverOf (packet : Packet) : SessionId :=
  ((Message.tryFrom packet).bind Message.receiverId).getD 0

/-- The keys of the groups but 0, as the hash map yields them. -/
def groupIds (rank : SessionId → ℕ) (packets : List Packet) : List SessionId :=
  ((packets.map receiverOf).filter (· ≠ 0)).dedup.mergeSort fun a b => rank a ≤ rank b

def processOneHandshake (packet : Packet) : Prog Call Unit := fun c =>
  match Message.tryFrom packet with
  | some (.handshakeInitiation init) =>
    match ReceivedHandshake.new init c.state.myKey c.state.myCookie with
    | none => .ok ((),c)
    | some handshake =>
      match c.state.ids.nodeKeys handshake.peerStatic with
      | none => .ok ((),c)
      | some id => onPeer id (fun peer => peer.respondToHandshake handshake) c
  | _ => .ok ((),c)

/-- The packets for one session id. -/
def recvGroup (id : SessionId) (packets : List Packet) : Prog Call Unit := fun c =>
  match c.state.ids.sessions id with
  | none => .ok ((),c)
  | some peer => onPeer peer (fun peer => peer.recv id packets) c

def recv (packets : List Packet) : Prog Call Unit := do
  Prog.forEach processOneHandshake (packets.filter fun packet => receiverOf packet = 0)
  let rank ← onCtx (onEnv Env.order)
  Prog.forEach (fun id => recvGroup id (packets.filter fun packet => receiverOf packet = id))
    (groupIds rank packets)

def dispatchEvent : Event → Prog Call Unit
  | .handshakeTimeout id => onPeer id Peer.handshakeTimeout
  | .maybeSendKeepalive id => onPeer id Peer.sendKeepalive

def dueEvents (now : Instant) : Prog Ctx (List Event) := fun c =>
  let (events,scheduler) := c.state.scheduler.dispatch now
  .ok (events,{ c with state := { c.state with scheduler } })

def dispatchEvents (now : Instant) : Prog Call Unit := do
  let events ← onCtx (dueEvents now)
  Prog.forEach dispatchEvent events

/-- The range in which `dispatch_events` should next be called. -/
def nextEvent (e : Endpoint) : Result (Option TimeRange) := e.state.scheduler.nextDispatchRange

def peerKey (e : Endpoint) (id : PeerId) : Option NodePublicKey :=
  (e.peers id).map fun peer => peer.config.key

def peerId (e : Endpoint) (key : NodePublicKey) : Option PeerId := e.state.ids.nodeKeys key

end Endpoint

inductive Op
  | upsertPeer (id : PeerId) (cfg : PeerConfig)
  | removePeer (id : PeerId)
  | send (packets : List (PeerId × List Packet))
  | recv (packets : List Packet)
  | dispatchEvents (now : Instant)

inductive Reply
  | upserted (old : Option PeerConfig)
  | removed (existed : Bool)
  | packets (out : Outbox)

/-- An endpoint, and what it is still to draw from outside. -/
structure Machine where
  endpoint : Endpoint
  env : Env

namespace Machine

/-- The state in which a call starts: the outbox is empty. -/
def start (m : Machine) : Call := ⟨⟨m.endpoint.state,m.env,Outbox.default⟩,m.endpoint.peers⟩

/-- The state that a call leaves behind. -/
def stop (c : Call) : Machine := ⟨⟨c.state,c.peers⟩,c.env⟩

def call {α : Type} (m : Machine) (f : Prog Call α) : Result (α × Outbox × Machine) := do
  let (a,c) ← f m.start
  return (a,c.out,stop c)

/-- A call that returns packets. -/
def callPackets (m : Machine) (f : Prog Call Unit) : Result (Reply × Machine) := do
  let ((),out,m) ← m.call f
  return (.packets out,m)

def step : Op → Machine → Result (Reply × Machine)
  | .upsertPeer id cfg,m => do
    let (old,endpoint) ← m.endpoint.upsertPeer id cfg
    return (.upserted old,{ m with endpoint })
  | .removePeer id,m => do
    let (existed,_,m) ← m.call (Endpoint.removePeer id)
    return (.removed existed,m)
  | .send packets,m => m.callPackets (Endpoint.send packets)
  | .recv packets,m => m.callPackets (Endpoint.recv packets)
  | .dispatchEvents now,m => m.callPackets (Endpoint.dispatchEvents now)

end Machine
end
end Tailnet.Wireguard

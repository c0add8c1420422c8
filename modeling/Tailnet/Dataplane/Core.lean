import Tailnet.Dataplane.Routers
import Tailnet.PacketFilter.Rule
import Tailnet.Runtime.Dataplane

/-! The data plane. Packets of the local device are routed to peers and encrypted; packets from
peers are decrypted, filtered and routed to transports of the local device. The tunnel's next
event is kept as an event of the data plane's own scheduler. -/
namespace Tailnet.Runtime.Tunnel
open Wireguard (MacPrimitives Packet Outbox)
open Shadowvpn (AeadPrimitives Rng)

variable [MacPrimitives] [AeadPrimitives]

omit [MacPrimitives] [AeadPrimitives] in
inductive Protocol
  | wireguard
  | shadowvpn

omit [AeadPrimitives] in
/-- A new endpoint, with what it will draw from outside. -/
def new (myKey : Noise.X25519KeyPair) (env : Wireguard.Env) (rng : Rng) : Protocol → Tunnel
  | .wireguard => wireguard ⟨.new myKey,env⟩
  | .shadowvpn => shadowvpn (Shadowvpn.Endpoint.new rng).1

def send (packets : List (PeerId × List Packet)) (rng : Rng) : Tunnel → Result (Outbox × Tunnel)
  | wireguard m => do
    let (_,out,m) ← m.call (Wireguard.Endpoint.send packets)
    return (out,wireguard m)
  | shadowvpn e => do
    let (out,e,_) ← e.send packets .default rng
    return (out,shadowvpn e)

/-- Decrypt received packets. The protocol without handshakes tries the peers by a rank. -/
def recv (packets : List Packet) (rank : PeerId → ℕ) : Tunnel → Result (Outbox × Tunnel)
  | wireguard m => do
    let (_,out,m) ← m.call (Wireguard.Endpoint.recv packets)
    return (out,wireguard m)
  | shadowvpn e => do
    let out ← e.recv rank packets
    return (out,shadowvpn e)

omit [AeadPrimitives] in
def dispatchEvents (now : Instant) : Tunnel → Result (Outbox × Tunnel)
  | wireguard m => do
    let (_,out,m) ← m.call (Wireguard.Endpoint.dispatchEvents now)
    return (out,wireguard m)
  | shadowvpn e => .ok (.default,shadowvpn e)

omit [AeadPrimitives] in
def nextEvent : Tunnel → Result (Option TimeRange)
  | wireguard m => m.endpoint.nextEvent
  | shadowvpn _ => .ok none

end Tailnet.Runtime.Tunnel

namespace Tailnet
open Wireguard (MacPrimitives Packet Outbox PeerId)
open Shadowvpn (AeadPrimitives Rng)
open Dataplane PacketFilter

inductive NetSlice
  | ipv4 (ipNumber : UInt8) (source destination : IpAddr)
  | ipv6 (ipNumber : UInt8) (source destination : IpAddr)
  | arp

inductive TransportSlice
  | udp (source destination : Port)
  | tcp (source destination : Port)
  | icmp

structure SlicedPacket where
  net : Option NetSlice
  transport : Option TransportSlice

/-- The parser of packets, as far as it is used. -/
class Etherparse where
  fromIp : Packet → Option SlicedPacket

/-- A data plane subsystem that can be the subject of timer events. -/
inductive Subsystem
  | tunnel
  deriving DecidableEq

/-- A packet filter: the name of a ruleset that permits a packet, given capabilities. -/
abbrev Filter := PacketInfo → List String → Option String

/-- What is drawn from outside during a call: orders in which hash maps are iterated, and random
bytes. -/
structure Draws where
  byDest : IpAddr → ℕ
  toTunnel : PeerId → ℕ
  tried : PeerId → ℕ
  /-- the peers of a map of packets, in its order -/
  toPeers : List PeerId
  toLocal : List PeerId
  rng : Rng

structure DataPlane [MacPrimitives] where
  tunnel : Runtime.Tunnel
  orOut : SplitStackTable Outbound.RouteAction
  urOut : PeerId → Option UnderlayTransportId
  srcFilterIn : SplitStackTable PeerId
  orIn : SplitStackTable Inbound.RouteAction
  packetFilter : Filter
  events : Scheduler Subsystem
  tunnelNext : Option Handle

/-- The packets for the transports of the network. -/
abbrev ToPeers := Assoc (UnderlayTransportId × PeerId) (List Packet)

/-- The packets for the transports of the local device. -/
abbrev ToLocal := Assoc OverlayTransportId (List Packet)

namespace DataPlane

/-- The entries of a map of packets, in the order of its iteration. -/
def listed (order : List PeerId) (packets : PeerId → Option (List Packet)) :
    List (PeerId × List Packet) :=
  order.filterMap fun p => (packets p).map fun batch => (p,batch)

theorem mem_listed {order : List PeerId} {packets : PeerId → Option (List Packet)} {p : PeerId}
    {batch : List Packet} :
    (p,batch) ∈ listed order packets ↔ p ∈ order ∧ packets p = some batch := by
  simp [listed,and_comm]

theorem map_fst_listed (order : List PeerId) (packets : PeerId → Option (List Packet)) :
    (listed order packets).map Prod.fst = order.filter fun p => (packets p).isSome := by
  induction order with
  | nil => rfl
  | cons p order ih =>
    rw [listed] at ih ⊢
    cases hp : packets p with
    | none => simp [hp,ih]
    | some batch => simp [hp,ih]

theorem nodup_listed {order : List PeerId} (h : order.Nodup)
    (packets : PeerId → Option (List Packet)) : ((listed order packets).map Prod.fst).Nodup := by
  rw [map_fst_listed]
  exact h.filter _

/-- `Vec::retain`. -/
def retain (keep : Packet → Result Bool) : List Packet → Result (List Packet)
  | [] => .ok []
  | packet::packets => do
    let verdict ← keep packet
    let packets ← retain keep packets
    return if verdict then packet::packets else packets

variable [MacPrimitives]

def new (tunnel : Runtime.Tunnel) : DataPlane :=
  ⟨tunnel,.empty,fun _ => none,.empty,.empty,fun _ _ => none,.default,none⟩

/-- Keep the next event of the tunnel among the events of the data plane. -/
def reschedule (d : DataPlane) : Result DataPlane := do
  match ← d.tunnel.nextEvent with
  | none => return d
  | some next =>
    let (handle,events) := d.events.add next .tunnel
    match d.tunnelNext with
    | none => return { d with events, tunnelNext := some handle }
    | some prev => return { d with events := events.cancel prev, tunnelNext := some handle }

def nextEvent (d : DataPlane) : Result (Option Instant) := d.events.nextDispatch

/-- The dispatches for the events that are due. Packets for a peer replace those of an earlier
dispatch. -/
def runEvents (now : Instant) : List Subsystem → (PeerId → Option (List Packet)) → Runtime.Tunnel →
    Result ((PeerId → Option (List Packet)) × Runtime.Tunnel)
  | [],toPeers,tunnel => .ok (toPeers,tunnel)
  | .tunnel::events,toPeers,tunnel => do
    let (out,tunnel) ← tunnel.dispatchEvents now
    runEvents now events (fun p => (out.toPeers p).or (toPeers p)) tunnel

def processEvents (now : Instant) (draws : Draws) (d : DataPlane) : Result (ToPeers × DataPlane) := do
  let (due,events) := d.events.dispatch now
  let (toPeers,tunnel) ← runEvents now due (fun _ => none) d.tunnel
  let d ← reschedule { d with events, tunnel }
  return (Underlay.route d.urOut (listed draws.toPeers toPeers),d)

/-- Whether a packet of a peer comes from an address of the peer. -/
def srcVerdict [IpNetOps] (d : DataPlane) (peer : PeerId) (packet : Packet) : Result Bool :=
  match Packet.getSrcAddr packet with
  | none => .ok false
  | some src => do
    match ← d.srcFilterIn.lookup src with
    | some allowed => return allowed = peer
    | none => return false

def noPort : Port := ⟨0,Nat.zero_lt_succ 65535⟩

def dstPort : Option TransportSlice → Port
  | some (.udp _ destination) => destination
  | some (.tcp _ destination) => destination
  | _ => noPort

/-- What the packet filter is asked of a packet. -/
def packetInfo (slice : SlicedPacket) : Result PacketInfo :=
  match slice.net with
  | some (.ipv4 ipNumber src dst) => .ok ⟨src,dst,ipNumber.toNat,dstPort slice.transport⟩
  | some (.ipv6 ipNumber src dst) => .ok ⟨src,dst,ipNumber.toNat,dstPort slice.transport⟩
  | _ => .error .unreachable

/-- Whether the packet filter permits a packet, without capabilities. -/
def filterVerdict [Etherparse] (d : DataPlane) (packet : Packet) : Result Bool :=
  match Etherparse.fromIp packet with
  | none => .ok false
  | some slice => do
    let info ← packetInfo slice
    return (d.packetFilter info []).isSome

/-- The packets of a peer that pass both filters. -/
def accept [IpNetOps] [Etherparse] (d : DataPlane) (batch : PeerId × List Packet) :
    Result (List Packet) := do
  let packets ← retain (d.srcVerdict batch.1) batch.2
  retain d.filterVerdict packets

variable [IpNetOps] [AeadPrimitives]

def processOutbound (packets : List Packet) (draws : Draws) (d : DataPlane) :
    Result ((ToPeers × ToLocal) × DataPlane) := do
  let routed ← Outbound.route d.orOut draws.byDest packets
  let (out,tunnel) ← d.tunnel.send (routed.toWireguard.iter draws.toTunnel) draws.rng
  let toPeers := Underlay.route d.urOut (listed draws.toPeers out.toPeers)
  let d ← reschedule { d with tunnel }
  return ((toPeers,routed.loopback),d)

def processInbound [Etherparse] (packets : List Packet) (draws : Draws) (d : DataPlane) :
    Result ((ToPeers × ToLocal) × DataPlane) := do
  let (out,tunnel) ← d.tunnel.recv packets draws.tried
  let d := { d with tunnel }
  let admitted ← (listed draws.toLocal out.toLocal).mapM d.accept
  let toLocal ← Inbound.route d.orIn admitted.flatten
  let toPeers := Underlay.route d.urOut (listed draws.toPeers out.toPeers)
  let d ← d.reschedule
  return ((toPeers,toLocal),d)

end DataPlane
end Tailnet

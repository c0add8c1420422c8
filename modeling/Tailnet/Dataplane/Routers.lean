import Tailnet.Bart.Table
import Tailnet.Lib.Assoc
import Tailnet.Wireguard.Peer

/-! The routers of the data plane. Packets are assigned to peers, to transports of the local
device and to transports of the network; packets without a route are dropped. -/
namespace Tailnet.Dataplane
open List
open Wireguard (PeerId Packet)

abbrev OverlayTransportId := UInt32

abbrev UnderlayTransportId := UInt32

namespace Packet

def getIpFamily (packet : Packet) : Option Family :=
  packet.head?.bind fun b => if b >>> 4 = 4 then some .v4 else if b >>> 4 = 6 then some .v6 else none

/-- The bytes from `idx` on as an address, if there are enough of them. -/
def addrAt (fam : Family) (idx : ℕ) (packet : Packet) : Option IpAddr :=
  let octets := (packet.drop idx).take fam.octetCount
  if h : octets.length = fam.octetCount then some ⟨fam,octets,h⟩ else none

def getSrcAddr (packet : Packet) : Option IpAddr :=
  match getIpFamily packet with
  | some .v4 => addrAt .v4 12 packet
  | some .v6 => addrAt .v6 8 packet
  | none => none

def getDstAddr (packet : Packet) : Option IpAddr :=
  match getIpFamily packet with
  | some .v4 => addrAt .v4 16 packet
  | some .v6 => addrAt .v6 24 packet
  | none => none

end Packet

namespace Inbound

inductive RouteAction
  | drop
  | toOverlay (id : OverlayTransportId)
  deriving DecidableEq

variable [IpNetOps]

/-- Where a packet from a remote peer goes. -/
def target (table : SplitStackTable RouteAction) (packet : Packet) :
    Result (Option OverlayTransportId) :=
  match Packet.getDstAddr packet with
  | none => .ok none
  | some addr => do
    match ← table.lookup addr with
    | some (.toOverlay key) => return some key
    | some .drop => return none
    | none => return none

/-- Assign packets from remote peers to transports of the local device. -/
def route (table : SplitStackTable RouteAction) (packets : List Packet) :
    Result (Assoc OverlayTransportId (List Packet)) :=
  packets.foldlM (fun groups packet => do
    match ← target table packet with
    | some key => return groups.extend key [packet]
    | none => return groups) .empty

end Inbound

namespace Outbound

inductive RouteAction
  | drop
  | wireguard (peer : PeerId)
  | loopback (id : OverlayTransportId)
  deriving DecidableEq

structure Routed where
  toWireguard : Assoc PeerId (List Packet)
  loopback : Assoc OverlayTransportId (List Packet)

def byDest (packets : List Packet) : Assoc IpAddr (List Packet) :=
  packets.foldl (fun groups packet =>
    match Packet.getDstAddr packet with
    | some addr => groups.extend addr [packet]
    | none => groups) .empty

variable [IpNetOps]

/-- Assign packets of the local device to their next hop. The destinations are iterated by a rank. -/
def route (table : SplitStackTable RouteAction) (rank : IpAddr → ℕ) (packets : List Packet) :
    Result Routed :=
  ((byDest packets).iter rank).foldlM (fun ret group => do
    match ← table.lookup group.1 with
    | some (.wireguard peer) => return { ret with toWireguard := ret.toWireguard.extend peer group.2 }
    | some (.loopback id) => return { ret with loopback := ret.loopback.extend id group.2 }
    | some .drop => return ret
    | none => return ret) ⟨.empty,.empty⟩

end Outbound

namespace Underlay

def assign (table : PeerId → Option UnderlayTransportId)
    (ret : Assoc (UnderlayTransportId × PeerId) (List Packet)) (batch : PeerId × List Packet) :
    Assoc (UnderlayTransportId × PeerId) (List Packet) :=
  match table batch.1 with
  | some transport => ret.extend (transport,batch.1) batch.2
  | none => ret

/-- Assign the packets for peers to transports of the network. -/
def route (table : PeerId → Option UnderlayTransportId) (batches : List (PeerId × List Packet)) :
    Assoc (UnderlayTransportId × PeerId) (List Packet) :=
  batches.foldl (assign table) .empty

variable {table : PeerId → Option UnderlayTransportId} {batches : List (PeerId × List Packet)}
  {p : PeerId} {batch : List Packet} {tid : UnderlayTransportId}

theorem assign_other (ret : Assoc (UnderlayTransportId × PeerId) (List Packet))
    {b : PeerId × List Packet} (h : p ≠ b.1) :
    (assign table ret b).get (tid,p) = ret.get (tid,p) := by
  rw [assign]
  cases table b.1 with
  | none => rfl
  | some transport =>
    dsimp only
    rw [Assoc.get_extend,if_neg fun heq => h (Prod.mk.inj heq).2]

theorem foldl_assign_other (ret : Assoc (UnderlayTransportId × PeerId) (List Packet))
    (h : p ∉ batches.map Prod.fst) :
    (batches.foldl (assign table) ret).get (tid,p) = ret.get (tid,p) := by
  induction batches generalizing ret with
  | nil => rfl
  | cons b batches ih =>
    rw [map_cons,mem_cons,not_or] at h
    rw [foldl_cons,ih _ h.2,assign_other ret h.1]

/-- The packets for a peer with a route are in its entry. -/
theorem get_route (hnodup : (batches.map Prod.fst).Nodup) (hmem : (p,batch) ∈ batches)
    (htable : table p = some tid) : (route table batches).get (tid,p) = some batch := by
  have hrun : ∀ ret : Assoc (UnderlayTransportId × PeerId) (List Packet), ret.get (tid,p) = none →
      (batches.foldl (assign table) ret).get (tid,p) = some batch := by
    induction batches with
    | nil => cases hmem
    | cons b batches ih =>
      intro ret hret
      rw [map_cons,nodup_cons] at hnodup
      rw [foldl_cons]
      rcases mem_cons.mp hmem with rfl | hmem
      · rw [foldl_assign_other _ hnodup.1,assign,htable]
        dsimp only
        rw [Assoc.get_extend,if_pos rfl,hret]
        rfl
      · have hne : p ≠ b.1 := fun heq => hnodup.1 (heq ▸ mem_map_of_mem hmem)
        exact ih hnodup.2 hmem _ ((assign_other ret hne).trans hret)
  exact hrun .empty rfl

end Underlay
end Tailnet.Dataplane

import Tailnet.Bart.InsertAll
import Tailnet.Dataplane.Routers
import Tailnet.Runtime.FullUpdate

/-! The two actors that make routing tables from the peers: the routes of packets to peers, and
the filter of the source addresses of packets from peers. Over them, when a reply from an address
is accepted from the peer to which packets for the address are sent. -/
namespace Tailnet.Runtime
open Control Dataplane List

/-- The peers, in the order in which the map of the peers is iterated. -/
def PeerDb.iterPeers (db : PeerDb) (rank : PeerId → ℕ) : List (PeerId × Node) :=
  (db.peerIds rank).filterMap fun id => (db.peers id).map fun node => (id,node)

theorem PeerDb.mem_iterPeers {db : PeerDb} {rank : PeerId → ℕ} {entry : PeerId × Node}
    (h : entry ∈ db.iterPeers rank) : db.peers entry.1 = some entry.2 := by
  obtain ⟨id,-,hid⟩ := mem_filterMap.mp h
  obtain ⟨node,hnode,rfl⟩ := Option.map_eq_some_iff.mp hid
  exact hnode

structure PeerRoutesInner where
  underlayRoutes : PeerId → Option UnderlayTransportId
  overlayOutRoutes : SplitStackTable Outbound.RouteAction

section
variable [IpNetOps]

namespace RouteUpdater

/-- The routes to one peer. A peer without a region is skipped; `ask` is the answer of the actor of
the regions, if it has one. -/
def addPeer (ask : PeerId → RegionId → Option UnderlayTransportId) (routes : PeerRoutesInner)
    (entry : PeerId × Node) : Result PeerRoutesInner :=
  match entry.2.derpRegion with
  | none => .ok routes
  | some region => do
    let underlayOut :=
      match ask entry.1 region with
      | some transportId => Function.update routes.underlayRoutes entry.1 (some transportId)
      | none => routes.underlayRoutes
    let overlayOut ← routes.overlayOutRoutes.insertAll id
      (fun _ => Outbound.RouteAction.wireguard entry.1) entry.2.acceptedRoutes
    return ⟨underlayOut,overlayOut⟩

def handle (ask : PeerId → RegionId → Option UnderlayTransportId) (rank : PeerId → ℕ)
    (msg : PeerState) : Result PeerRoutesInner :=
  (msg.peers.iterPeers rank).foldlM (addPeer ask) ⟨fun _ => none,.empty⟩

end RouteUpdater

namespace SourceFilterUpdater

def addPeer (srcFilter : SplitStackTable PeerId) (entry : PeerId × Node) :
    Result (SplitStackTable PeerId) :=
  srcFilter.insertAll id (fun _ => entry.1) entry.2.acceptedRoutes

def handle (rank : PeerId → ℕ) (stateUpdate : PeerState) : Result (SplitStackTable PeerId) :=
  (stateUpdate.peers.iterPeers rank).foldlM addPeer .empty

end SourceFilterUpdater

end

structure AcceptedRoute where
  peer : PeerId
  region : Option RegionId
  route : IpNet

/-- All accepted routes, in the order in which the peers are iterated. -/
def acceptedRoutes (entries : List (PeerId × Node)) : List AcceptedRoute :=
  entries.flatMap fun entry => entry.2.acceptedRoutes.map fun route =>
    ⟨entry.1,entry.2.derpRegion,route⟩

theorem region_of_mem {db : PeerDb} {rank : PeerId → ℕ} {e : AcceptedRoute}
    (h : e ∈ acceptedRoutes (db.iterPeers rank)) :
    ∃ node, db.peers e.peer = some node ∧ e.region = node.derpRegion := by
  obtain ⟨entry,hentry,he⟩ := mem_flatMap.mp h
  obtain ⟨route,-,rfl⟩ := mem_map.mp he
  exact ⟨entry.2,PeerDb.mem_iterPeers hentry,rfl⟩

section
variable [IpNetOps]

theorem SourceFilterUpdater.fold_eq (entries : List (PeerId × Node)) (t : SplitStackTable PeerId) :
    entries.foldlM addPeer t =
      t.insertAll AcceptedRoute.route AcceptedRoute.peer (acceptedRoutes entries) := by
  induction entries generalizing t with
  | nil => rfl
  | cons entry entries ih =>
    rw [foldlM_cons,acceptedRoutes,flatMap_cons,SplitStackTable.insertAll,
      foldlM_append,foldlM_map]
    exact bind_congr fun t => ih t

/-- The routes to peers hold the accepted routes of the peers with a region. -/
theorem RouteUpdater.fold_eq (ask : PeerId → RegionId → Option UnderlayTransportId)
    (entries : List (PeerId × Node)) (routes : PeerRoutesInner) :
    (entries.foldlM (addPeer ask) routes).map PeerRoutesInner.overlayOutRoutes =
      routes.overlayOutRoutes.insertAll AcceptedRoute.route
        (fun e => Outbound.RouteAction.wireguard e.peer)
        ((acceptedRoutes entries).filter fun e => e.region.isSome) := by
  induction entries generalizing routes with
  | nil => rfl
  | cons entry entries ih =>
    rw [foldlM_cons,acceptedRoutes,flatMap_cons,filter_append,SplitStackTable.insertAll,
      foldlM_append]
    cases hr : entry.2.derpRegion with
    | none =>
      have hskip : addPeer ask routes entry = .ok routes := by rw [addPeer,hr]
      rw [hskip,filter_eq_nil_iff.mpr (by simp)]
      exact ih routes
    | some region =>
      rw [filter_eq_self.mpr (by simp),foldlM_map]
      cases hins : routes.overlayOutRoutes.insertAll id
          (fun _ => Outbound.RouteAction.wireguard entry.1) entry.2.acceptedRoutes with
      | error e =>
        have hone : addPeer ask routes entry = .error e := by
          simp only [addPeer,hr,hins]
          rfl
        rw [hone]
        exact (congrArg (· >>= _) hins).symm
      | ok out =>
        obtain ⟨underlay,hone⟩ : ∃ underlay, addPeer ask routes entry = .ok ⟨underlay,out⟩ := by
          simp only [addPeer,hr,hins]
          exact ⟨_,rfl⟩
        have hfold : entry.2.acceptedRoutes.foldlM (fun t route =>
            t.insertOne AcceptedRoute.route (fun e => Outbound.RouteAction.wireguard e.peer)
              ⟨entry.1,some region,route⟩) routes.overlayOutRoutes = .ok out := hins
        rw [hone,hfold]
        exact ih ⟨underlay,out⟩

/-- Wherever a peer without a region accepts a route to an address that a peer with a region
accepts as well, a route of a peer with a region takes precedence: a longer one, or one that is
as long and comes later. -/
def RegionsPrevail (es : List AcceptedRoute) : Prop :=
  ∀ before r after, es = before ++ r::after → r.region = none → ∀ d, r.route.Covering d →
    (∃ e ∈ es, e.region ≠ none ∧ e.route.Covering d) →
    (∃ e ∈ before, e.region ≠ none ∧ e.route.Covering d ∧ r.route.prefixLen < e.route.prefixLen) ∨
      ∃ e ∈ after, e.region ≠ none ∧ e.route.Covering d ∧ r.route.prefixLen ≤ e.route.prefixLen

/-- The accepted route that decides about an address. -/
abbrev Deciding (es : List AcceptedRoute) (d : IpAddr) : AcceptedRoute → Prop :=
  LastBest (fun e => e.route.Covering d) (fun e => e.route.prefixLen) es

theorem regionsPrevail_iff {es : List AcceptedRoute} : RegionsPrevail es ↔
    ∀ d e, Deciding es d e → (∃ e' ∈ es, e'.region ≠ none ∧ e'.route.Covering d) →
      e.region ≠ none := by
  constructor
  · rintro h d e ⟨before,after,hes,hc,hb,ha⟩ hex hnone
    rcases h before e after hes hnone d hc hex with ⟨e',he',-,hc',hlt⟩ | ⟨e',he',-,hc',hle⟩
    · exact absurd (hb e' he' hc') hlt.not_ge
    · exact absurd (ha e' he' hc') hle.not_gt
  · intro h before r after hes hnone d hc hex
    obtain ⟨e,hbest⟩ : ∃ e, Deciding es d e := exists_lastBest (by rw [hes]; simp) hc
    have hregion := h d e hbest hex
    obtain ⟨b,a,hes',hce,hb,ha⟩ := hbest
    rcases places_cases (hes.symm.trans hes') with ⟨rfl,-⟩ | ⟨hrb,hea⟩ | ⟨heb,hra⟩
    · exact absurd hnone hregion
    · exact .inr ⟨e,hea,hregion,hce,hb r hrb hc⟩
    · exact .inl ⟨e,heb,hregion,hce,ha r hra hc⟩

/-- Replies are accepted from the peers to which packets are sent exactly if the routes of peers
with a region prevail. -/
theorem replies_accepted_iff (ask : PeerId → RegionId → Option UnderlayTransportId)
    (rank : PeerId → ℕ) (state : PeerState) :
    ∃ routes srcFilter, RouteUpdater.handle ask rank state = .ok routes ∧
      SourceFilterUpdater.handle rank state = .ok srcFilter ∧
      ((∀ d p, routes.overlayOutRoutes.lookup d = .ok (some (.wireguard p)) →
          srcFilter.lookup d = .ok (some p)) ↔
        RegionsPrevail (acceptedRoutes (state.peers.iterPeers rank))) := by
  obtain ⟨srcFilter,m,hfilter,hsrc⟩ := SplitStackTable.insertAll_empty AcceptedRoute.route
    AcceptedRoute.peer (acceptedRoutes (state.peers.iterPeers rank))
  obtain ⟨out,m',hout,hroutes⟩ := SplitStackTable.insertAll_empty AcceptedRoute.route
    (fun e => Outbound.RouteAction.wireguard e.peer)
    ((acceptedRoutes (state.peers.iterPeers rank)).filter fun e => e.region.isSome)
  obtain ⟨routes,hhandle,rfl⟩ : ∃ routes, RouteUpdater.handle ask rank state = .ok routes ∧
      routes.overlayOutRoutes = out := by
    have := RouteUpdater.fold_eq ask (state.peers.iterPeers rank) ⟨fun _ => none,.empty⟩
    rw [hout] at this
    cases hh : RouteUpdater.handle ask rank state with
    | error e =>
      rw [RouteUpdater.handle] at hh
      rw [hh] at this
      cases this
    | ok routes =>
      rw [RouteUpdater.handle] at hh
      rw [hh] at this
      exact ⟨routes,rfl,Except.ok.inj this⟩
  refine ⟨routes,srcFilter,hhandle,(SourceFilterUpdater.fold_eq _ _).trans hfilter,?_⟩
  rw [regionsPrevail_iff]
  set es := acceptedRoutes (state.peers.iterPeers rank) with hes
  constructor
  · intro h d e hbest hex
    -- packets for `d` are sent to the peer of some route with a region, which is the peer of `e`
    obtain ⟨e',he',hregion,hc⟩ := hex
    have hmem : e' ∈ es.filter fun e => e.region.isSome :=
      mem_filter.mpr ⟨he',Option.isSome_iff_ne_none.mpr hregion⟩
    obtain ⟨e2,hbest2⟩ : ∃ e2, Deciding _ d e2 := exists_lastBest hmem hc
    obtain ⟨e3,hbest3,hpeer⟩ := hsrc.lookup_eq_iff.mp
      (h d e2.peer (hroutes.lookup_eq_iff.mpr ⟨e2,hbest2,rfl⟩))
    rw [← hbest.unique hbest3] at hpeer
    obtain ⟨he2,hregion2⟩ := mem_filter.mp hbest2.mem
    obtain ⟨node,hnode,hr⟩ := region_of_mem hbest.mem
    obtain ⟨node2,hnode2,hr2⟩ := region_of_mem he2
    rw [hpeer,hnode2] at hnode
    rw [hr,← Option.some.inj hnode,← hr2]
    exact Option.isSome_iff_ne_none.mp hregion2
  · intro h d p hp
    obtain ⟨e,hbest,hpeer⟩ := hroutes.lookup_eq_iff.mp hp
    obtain ⟨he,hregion⟩ := mem_filter.mp hbest.mem
    obtain ⟨e2,hbest2⟩ : ∃ e2, Deciding es d e2 := exists_lastBest he hbest.eligible
    have hregion2 := h d e2 hbest2 ⟨e,he,Option.isSome_iff_ne_none.mp hregion,hbest.eligible⟩
    rw [hbest.unique (hbest2.filter _ (Option.isSome_iff_ne_none.mpr hregion2))] at hpeer
    exact hsrc.lookup_eq_iff.mpr ⟨e2,hbest2,Outbound.RouteAction.wireguard.inj hpeer⟩

end

section
attribute [local instance] maskOps
open FullUpdate

def tenNet (second : UInt8) (len : ℕ) (h : len ≤ 32) : IpNet := ⟨⟨.v4,[10,second,0,0],rfl⟩,len,h⟩

/-- A subnet router with a region. -/
def regional : Node :=
  { numbered "a" 1 with
    derpRegion := some 1
    acceptedRoutes := [tenNet 0 8 (Nat.le_of_ble_eq_true rfl)] }

/-- A subnet router without a region, for a part of the same network. -/
def regionless : Node :=
  { numbered "b" 2 with
    acceptedRoutes := [tenNet 1 16 (Nat.le_of_ble_eq_true rfl)] }

/-- Packets for 10.1.0.0 are sent to peer 0, but only peer 1 may reply. -/
theorem shadowed_reply_rejected :
    (do
      let handled ← PeerTracker.handle (fun _ => 0) .start (some (.full [regional,regionless]))
      let state ← Result.unwrap handled.1.1
      let routes ← RouteUpdater.handle (fun _ _ => some 7) (fun _ => 0) state
      let srcFilter ← SourceFilterUpdater.handle (fun _ => 0) state
      let sent ← routes.overlayOutRoutes.lookup (tenNet 1 16 (Nat.le_of_ble_eq_true rfl)).addr
      let expected ← srcFilter.lookup (tenNet 1 16 (Nat.le_of_ble_eq_true rfl)).addr
      return (sent,expected)) = .ok (some (.wireguard 0),some 1) := by
  exact Result.eq_ok_of_toOption (by decide +kernel)

end

end Tailnet.Runtime

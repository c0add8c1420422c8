import Tailnet.Dataplane.Transports

/-! Which packets of its peers the data plane hands to the local device. The tables stand for maps of routes, and an
address belongs to the longest prefix around it. -/
namespace Tailnet
open List Dataplane Result SplitStackTable
open Wireguard (MacPrimitives Packet PeerId)

section
variable {packets : List Packet}

theorem DataPlane.retain_eq {keep : Packet → Result Bool} {kept : List Packet}
    (h : retain keep packets = .ok kept) : kept = packets.filter fun packet => keep packet = .ok true := by
  induction packets generalizing kept with
  | nil =>
    cases h
    rfl
  | cons packet packets ih =>
    obtain ⟨verdict,hverdict,h⟩ := bind_eq_ok.mp h
    obtain ⟨rest,hrest,h⟩ := bind_eq_ok.mp h
    cases h
    rw [ih hrest,filter_cons,hverdict]
    cases verdict <;> rfl

variable [IpNetOps]

/-- The value of the longest prefix around an address. -/
def RouteMap.Leads {A : Type} (m : RouteMap A) (ip : IpAddr) (a : A) : Prop :=
  ∃ p, IsLongest m ip p ∧ m.lookup p = some a

theorem SplitStackTable.Rep.lookup_iff {A : Type} {t : SplitStackTable A} {m : RouteMap A} (h : t.Rep m)
    {ip : IpAddr} {a : A} : t.lookup ip = .ok (some a) ↔ m.Leads ip a := by
  obtain ⟨-,-,-,-,-,-,-,-,-,-,⟨hlook,hno⟩ | ⟨p,v,hp,hv,hlook⟩,-⟩ := h.lookups ip
  · rw [hlook]
    exact ⟨nofun,fun ⟨p,hp,_⟩ => absurd hp.1 (hno p)⟩
  · rw [hlook]
    constructor
    · rintro ⟨⟩
      exact ⟨p,hp,hv⟩
    · rintro ⟨q,hq,ha⟩
      have hlen : q.prefixLen = p.prefixLen := le_antisymm (hp.2 q hq.1) (hq.2 p hp.1)
      rw [((h.canonical q hq.1.1).contains_iff.mp hq.1.2).2,hlen,
        ← ((h.canonical p hp.1.1).contains_iff.mp hp.1.2).2,hv] at ha
      rw [ha]

theorem Dataplane.Inbound.get_route {table : SplitStackTable RouteAction} {groups : ToLocal}
    (h : route table packets = .ok groups) (id : OverlayTransportId) :
    (groups.get id).getD [] = packets.filter fun packet => target table packet = .ok (some id) := by
  rw [route] at h
  generalize hm : (Assoc.empty : ToLocal) = m at h
  suffices hrun : (groups.get id).getD [] =
      (m.get id).getD [] ++ packets.filter fun packet => target table packet = .ok (some id) by
    rwa [← hm] at hrun
  clear hm
  induction packets generalizing m with
  | nil =>
    cases h
    simp
  | cons packet packets ih =>
    rw [foldlM_cons] at h
    obtain ⟨m1,hm1,h⟩ := bind_eq_ok.mp h
    obtain ⟨_ | key,hkey,⟨⟩⟩ := bind_eq_ok.mp hm1
    · rw [ih _ h,filter_cons,hkey]
      simp
    · rw [ih _ h,filter_cons,hkey,Assoc.get_extend]
      by_cases hid : key = id
      · simp [hid]
      · simp [hid,Ne.symm hid]

namespace DataPlane
variable [MacPrimitives] [Etherparse] {d d' : DataPlane} {srcs : RouteMap PeerId}
  {routes : RouteMap Inbound.RouteAction}

/-- What a packet of a peer needs to reach a transport of the local device: its source is an address of the peer, the
packet filter permits it, and its destination is routed there. -/
def Authorised (srcs : RouteMap PeerId) (routes : RouteMap Inbound.RouteAction) (filter : Filter)
    (id : OverlayTransportId) (peer : PeerId) (packet : Packet) : Prop :=
  (∃ src, Packet.getSrcAddr packet = some src ∧ srcs.Leads src peer) ∧
  (∃ slice info, Etherparse.fromIp packet = some slice ∧ packetInfo slice = .ok info ∧ (filter info []).isSome) ∧
  ∃ dst, Packet.getDstAddr packet = some dst ∧ routes.Leads dst (.toOverlay id)

theorem flatten_admitted {batches : List (PeerId × List Packet)} {admitted : List (List Packet)}
    (h : batches.mapM d.accept = .ok admitted) : admitted.flatten = batches.flatMap fun b =>
      b.2.filter fun packet => d.filterVerdict packet = .ok true ∧ d.srcVerdict b.1 packet = .ok true := by
  induction batches generalizing admitted with
  | nil =>
    cases h
    rfl
  | cons b batches ih =>
    rw [mapM_cons] at h
    obtain ⟨kept,hkept,h⟩ := bind_eq_ok.mp h
    obtain ⟨rest,hrest,⟨⟩⟩ := bind_eq_ok.mp h
    obtain ⟨own,hown,hkept⟩ := bind_eq_ok.mp hkept
    simp [ih hrest,retain_eq hkept,retain_eq hown,filter_filter]

variable (hsrcs : d.srcFilterIn.Rep srcs) (hroutes : d.orIn.Rep routes)
include hsrcs hroutes

theorem authorised_iff (id : OverlayTransportId) (peer : PeerId) (packet : Packet) :
    Authorised srcs routes d.packetFilter id peer packet ↔ d.srcVerdict peer packet = .ok true ∧
      d.filterVerdict packet = .ok true ∧ Inbound.target d.orIn packet = .ok (some id) := by
  refine and_congr ?_ (and_congr ?_ ?_)
  · rw [srcVerdict]
    cases Packet.getSrcAddr packet with
    | none => simp
    | some src =>
      simp only [Option.some.injEq,exists_eq_left',← hsrcs.lookup_iff]
      rcases d.srcFilterIn.lookup src with _ | _ | p <;> simp
  · rw [filterVerdict]
    cases Etherparse.fromIp packet with
    | none => simp
    | some slice => cases hinfo : packetInfo slice <;> simp [hinfo]
  · rw [Inbound.target]
    cases Packet.getDstAddr packet with
    | none => simp
    | some dst =>
      simp only [Option.some.injEq,exists_eq_left',← hroutes.lookup_iff]
      rcases d.orIn.lookup dst with _ | _ | _ | id <;> simp

open Classical

end DataPlane
end

attribute [local instance] maskOps Wireguard.sumMacs Shadowvpn.keyTagged blindParser

end Tailnet

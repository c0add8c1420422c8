import Tailnet.Wireguard.NodeKeys

/-! The way of a packet to the peer of its session. Packets are grouped by the id of their
receiver, and the id 0 stands for packets without one; the generator of ids may draw 0 too. -/
namespace Tailnet
namespace Prog
variable {σ α β : Type} {m : Prog σ α} {s s' : σ} {a : α}

theorem bind_run (h : m s = .ok (a,s')) (f : α → Prog σ β) : (m >>= f) s = f a s' := by
  rw [show (m >>= f) s = (m s >>= fun r => f r.1 r.2) from rfl,h]
  rfl

theorem forEach_singleton (f : α → Prog σ Unit) (a : α) : forEach f [a] = f a := bind_pure_unit

end Prog
end Tailnet

namespace Tailnet.Wireguard
open Prog Ctx Call

namespace IdMap
variable {ids ids' : IdMap} {p : PeerId} {fuel : ℕ} {env env' : Env} {id : SessionId}

/-- The generator draws 0 before any other id that is not in use. -/
def DrawsZero (ids : IdMap) (draws : Stream' SessionId) : Prop :=
  ids.sessions 0 = none ∧ ∃ n, draws.get n = 0 ∧ ∀ k < n, (ids.sessions (draws.get k)).isSome

/-- The id that is allocated is the first one drawn that is not in use. -/
theorem allocateLoop_first (h : ids.allocateLoop p fuel env = .ok ((id,ids'),env')) :
    ids.sessions id = none ∧ ∃ n, env.sessionIds.get n = id ∧
      ∀ k < n, (ids.sessions (env.sessionIds.get k)).isSome := by
  induction fuel generalizing env with
  | zero => cases h
  | succ fuel ih =>
    obtain ⟨ret,env1,hdraw,h⟩ := bind_eq_ok.mp h
    cases hdraw
    split at h
    · rename_i hused
      obtain ⟨hfree,n,hn,hbefore⟩ := ih h
      refine ⟨hfree,n + 1,hn,fun k hk => ?_⟩
      cases k with
      | zero => exact hused
      | succ k => exact hbefore k (by omega)
    · rename_i hfree
      cases h
      exact ⟨by simpa using hfree,0,rfl,fun k hk => by omega⟩

/-- A first free id is the only one. -/
theorem drawsZero_iff {n : ℕ} {draws : Stream' SessionId} (hfree : ids.sessions id = none)
    (hn : draws.get n = id) (hbefore : ∀ k < n, (ids.sessions (draws.get k)).isSome) :
    ids.DrawsZero draws ↔ id = 0 := by
  constructor
  · rintro ⟨hzero,m,hm,hused⟩
    rcases lt_trichotomy m n with hlt | heq | hgt
    · have := hbefore m hlt
      simp [hm,hzero] at this
    · rw [← hn,← heq,hm]
    · have := hused n hgt
      simp [hn,hfree] at this
  · intro hid
    exact ⟨hid ▸ hfree,n,hn.trans hid,hbefore⟩

end IdMap

namespace Endpoint
variable [MacPrimitives] {packet : Packet} {message : Message} {id : SessionId} {p : PeerId}

/-- A packet reaches the peer of a session. -/
structure Routed (ids : IdMap) (id : SessionId) (p : PeerId) (packet : Packet) : Prop where
  /-- whatever it arrives with, it is in the group of the session and not taken for a handshake -/
  grouped : ∀ packets rank, packet ∈ packets → id ∈ groupIds rank packets ∧
    packet ∈ packets.filter (fun packet => receiverOf packet = id) ∧
    packet ∉ packets.filter (fun packet => receiverOf packet = 0)
  /-- the peer receives the group, as long as the session is there -/
  handed : ∀ packets (c : Call), c.state.ids.sessions id = ids.sessions id →
    recvGroup id packets c = onPeer p (fun peer => peer.recv id packets) c
  /-- the peer receives the packet when it arrives alone -/
  alone : ∀ c : Call, c.state.ids = ids → recv [packet] c =
    (onCtx (onEnv Env.order) >>= fun _ => onPeer p fun peer => peer.recv id [packet]) c

omit [MacPrimitives] in
theorem receiverOf_eq (hparse : Message.tryFrom packet = some message)
    (hid : message.receiverId = some id) : receiverOf packet = id := by
  rw [receiverOf,hparse,Option.bind_some,hid,Option.getD_some]

omit [MacPrimitives] in
theorem mem_groupIds {rank : SessionId → ℕ} {packets : List Packet} :
    id ∈ groupIds rank packets ↔ id ≠ 0 ∧ ∃ packet ∈ packets, receiverOf packet = id := by
  simp [groupIds,and_comm]

omit [MacPrimitives] in
theorem groupIds_singleton (rank : SessionId → ℕ) (hid : receiverOf packet ≠ 0) :
    groupIds rank [packet] = [receiverOf packet] := by
  simp [groupIds,hid]

theorem order_eq (c : Call) : ∃ rank env, onCtx (onEnv Env.order) c = .ok (rank,{ c with env }) :=
  ⟨_,_,rfl⟩

theorem recvGroup_eq {c : Call} (hs : c.state.ids.sessions id = some p) (packets : List Packet) :
    recvGroup id packets c = onPeer p (fun peer => peer.recv id packets) c := by
  rw [recvGroup,hs]

/-- Only packets without a receiver are in the group of 0. -/
theorem routed_of_ne_zero {ids : IdMap} (hs : ids.sessions id = some p) (hid : id ≠ 0)
    (hpacket : receiverOf packet = id) : Routed ids id p packet where
  grouped packets rank hmem := by
    refine ⟨mem_groupIds.mpr ⟨hid,packet,hmem,hpacket⟩,?_,?_⟩
    · simp [hmem,hpacket]
    · simp [hpacket,hid]
  handed packets c hc := recvGroup_eq (hc.trans hs) packets
  alone c hc := by
    have hne : receiverOf packet ≠ 0 := hpacket ▸ hid
    have hnone : [packet].filter (fun packet => receiverOf packet = 0) = [] := by simp [hne]
    have hgroup : [packet].filter (fun packet => receiverOf packet = id) = [packet] := by
      simp [hpacket]
    obtain ⟨rank,env,horder⟩ := order_eq c
    rw [recv,hnone,forEach,pure_bind,bind_run horder,bind_run horder,
      groupIds_singleton rank hne,hpacket,forEach_singleton,hgroup]
    exact recvGroup_eq (by rw [← hs,← hc]) [packet]

/-- Packets for session 0 are taken for handshakes. -/
theorem not_routed_zero {ids : IdMap} (hpacket : receiverOf packet = 0) :
    ¬ Routed ids 0 p packet := by
  intro h
  exact (h.grouped [packet] (fun _ => 0) List.mem_cons_self).2.2 (by simp [hpacket])

/-- An allocated session id is routable iff the generator did not come upon 0 first. -/
theorem allocateSession_routable (ids ids' : IdMap) (p : PeerId) (env env' : Env) (id : SessionId)
    (halloc : ids.allocateSession p env = .ok ((id,ids'),env')) :
    (∀ packet message, Message.tryFrom packet = some message → message.receiverId = some id →
      Routed ids' id p packet) ↔ ¬ ids.DrawsZero env.sessionIds := by
  obtain ⟨hfree,n,hn,hbefore⟩ := IdMap.allocateLoop_first halloc
  have hids := (allocateLoop_free halloc).2
  have hs : ids'.sessions id = some p := hids ▸ Function.update_self ..
  rw [IdMap.drawsZero_iff hfree hn hbefore]
  constructor
  · rintro hrouted rfl
    let header := TransportDataHeader.default
    have hparse : Message.tryFrom header.toBytes = some (.transportData header) := by decide
    exact not_routed_zero (receiverOf_eq hparse rfl) (hrouted _ _ hparse rfl)
  · intro hid packet message hparse hreceiver
    exact routed_of_ne_zero hs hid (receiverOf_eq hparse hreceiver)

end Endpoint

section
attribute [local instance] sumMacs

/-- An endpoint that draws 1 for its first session. -/
theorem allocateSession_routable_one :
    let env := Env.zeros
    (∃ ids' env', IdMap.default.allocateSession 7 env = .ok ((1,ids'),env') ∧
      ∀ packet message, Message.tryFrom packet = some message → message.receiverId = some 1 →
        Endpoint.Routed ids' 1 7 packet) ∧ ¬ IdMap.default.DrawsZero env.sessionIds := by
  have hne : ¬ IdMap.default.DrawsZero Env.zeros.sessionIds := by
    rintro ⟨-,n,hn,hused⟩
    cases n with
    | zero => exact absurd hn (by decide)
    | succ n => exact absurd (hused 0 (by omega)) (by decide)
  exact ⟨⟨_,_,rfl,(Endpoint.allocateSession_routable _ _ 7 Env.zeros _ 1 rfl).mpr hne⟩,hne⟩

/-- The generator draws 0 for the first session of a new endpoint. Packets for this session are
taken for handshakes and dropped. -/
theorem zero_session_unroutable :
    let env : Env := { Env.zeros with sessionIds := Stream'.const 0 }
    let header := TransportDataHeader.default
    ∃ ids' env', IdMap.default.allocateSession 7 env = .ok ((0,ids'),env') ∧
      Message.tryFrom header.toBytes = some (.transportData header) ∧
      Message.receiverId (.transportData header) = some 0 ∧
      Endpoint.receiverOf header.toBytes = 0 ∧
      (∀ c, Endpoint.processOneHandshake header.toBytes c = .ok ((),c)) ∧
      ¬ Endpoint.Routed ids' 0 7 header.toBytes := by
  have hparse : Message.tryFrom TransportDataHeader.default.toBytes =
      some (.transportData TransportDataHeader.default) := by decide
  have hzero := Endpoint.receiverOf_eq hparse rfl
  refine ⟨_,_,rfl,hparse,rfl,hzero,fun c => ?_,Endpoint.not_routed_zero hzero⟩
  rw [Endpoint.processOneHandshake,hparse]

end
end Tailnet.Wireguard

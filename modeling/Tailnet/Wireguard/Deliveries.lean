import Tailnet.Wireguard.NodeKeys

/-! What a call delivers to the local side, logged with the session that decrypted it and the
time that the clock showed. The log is what the call returns, and a peer whose packets were
delivered has a keepalive scheduled. -/
namespace Tailnet.Wireguard
open Prog Ctx Call List

/-- Packets that a session of a peer decrypted, when the clock showed `now`. -/
structure Delivery where
  peer : PeerId
  session : ReceiveSession
  now : Instant
  packets : List Packet

/-- The outbox grows by the packets that are delivered. -/
def Outbox.Grows (out : Outbox) (ds : List Delivery) (out' : Outbox) : Prop :=
  ∀ p, (out'.toLocal p).getD [] =
    (out.toLocal p).getD [] ++ (ds.filter fun d => d.peer = p).flatMap Delivery.packets

theorem Outbox.toLocal_pushToPeer (out : Outbox) (p : PeerId) (ret : List Packet) :
    (out.pushToPeer p ret).toLocal = out.toLocal := by
  rw [pushToPeer]
  split <;> rfl

theorem Outbox.Grows.of_eq {out out' : Outbox} (h : out'.toLocal = out.toLocal) : out.Grows [] out' := by
  intro p
  simp [h]

theorem Outbox.Grows.trans {out1 out2 out3 : Outbox} {ds ds' : List Delivery}
    (h : out1.Grows ds out2) (h' : out2.Grows ds' out3) : out1.Grows (ds ++ ds') out3 := by
  intro p
  rw [h' p,h p]
  simp

theorem Outbox.grows_queueToLocal (out : Outbox) (p : PeerId) (session : ReceiveSession)
    (now : Instant) (packets : List Packet) : out.Grows [⟨p,session,now,packets⟩] (out.queueToLocal p packets) := by
  intro q
  by_cases hq : p = q
  · subst hq
    simp [queueToLocal]
  · simp [queueToLocal,hq,Function.update_of_ne (Ne.symm hq)]

section
variable [MacPrimitives]

/-- The keepalive of a peer is scheduled. -/
def Call.Armed (c : Call) (p : PeerId) : Prop :=
  ∃ peer, c.peers p = some peer ∧ peer.keepalive.isSome = true

/-- What is delivered goes to the outbox, and arms the keepalives of its peers. -/
structure Call.Delivers (c : Call) (ds : List Delivery) (c' : Call) : Prop where
  grows : c.out.Grows ds c'.out
  armed : ∀ d ∈ ds, c'.Armed d.peer
  keeps : ∀ p, c.Armed p → c'.Armed p

theorem Call.Delivers.refl (c : Call) : c.Delivers [] c :=
  ⟨.of_eq rfl,forall_mem_nil _,fun _ h => h⟩

theorem Call.Delivers.trans {c1 c2 c3 : Call} {ds ds' : List Delivery} (h : c1.Delivers ds c2)
    (h' : c2.Delivers ds' c3) : c1.Delivers (ds ++ ds') c3 where
  grows := h.grows.trans h'.grows
  armed := forall_mem_append.mpr ⟨fun d hd => h'.keeps _ (h.armed d hd),h'.armed⟩
  keeps p hp := h'.keeps p (h.keeps p hp)

namespace Peer

/-- What `recv_transport_data` delivers, by the session that `get_recv` selects or by the
tentative session. The clock is not read for the latter: `now` is what it shows next. -/
def deliveries (peer : Peer) (id : SessionId) (packets : List Packet) (c : Ctx) : List Delivery :=
  match peer.session.getRecv id c with
  | .ok (some (recv,_),_) =>
    match recv.decrypt packets with
    | .ok (opened,_) => if opened.isEmpty then [] else [⟨peer.id,recv,c.env.instants.head,opened⟩]
    | .error _ => []
  | .ok (none,_) =>
    match peer.handshake.confirm id packets with
    | .ok (some (tentative,opened),_) => [⟨peer.id,tentative.recv,c.env.instants.head,opened⟩]
    | _ => []
  | .error _ => []

/-- What `recv` delivers, of the packets for a session id. -/
def recvDeliveries (peer : Peer) (id : SessionId) (packets : List Packet) (c : Ctx) :
    List Delivery :=
  match peer.retainTransport packets c with
  | .ok ((kept,peer),c) => peer.deliveries id kept c
  | .error _ => []

end Peer

namespace Endpoint

def groupDeliveries (id : SessionId) (packets : List Packet) (c : Call) : List Delivery :=
  match c.state.ids.sessions id with
  | none => []
  | some p => c.logPeer p fun peer ctx => peer.recvDeliveries id packets ctx

def recvDeliveries (packets : List Packet) (c : Call) : List Delivery :=
  logGroups groupDeliveries packets c

end Endpoint

/-- What a call delivers to the local side. -/
def Machine.deliveries (m : Machine) : Op → List Delivery
  | .recv packets => Endpoint.recvDeliveries packets m.start
  | _ => []

/-! What is logged is what the call returns. -/

variable {may : Incident → Prop} {peer peer' : Peer} {c c' : Ctx} {id : SessionId}
  {packets : List Packet}

/-- Without datagrams, nothing is delivered. -/
theorem PeerMove.toLocal {inputs : Packet → Prop} (h : PeerMove may inputs (peer,c) (peer',c'))
    (hin : ∀ p, ¬ inputs p) : c'.out.toLocal = c.out.toLocal := by
  have hnil : ∀ {packets : List Packet}, (∀ p ∈ packets, inputs p) → packets = [] := fun given =>
    eq_nil_iff_forall_not_mem.mpr fun p hp => hin p (given p hp)
  cases h with
  | receive active given opening =>
    obtain rfl := hnil given
    cases opening
    rfl
  | receivePrev active given opening =>
    obtain rfl := hnil given
    cases opening
    rfl
  | confirm responded given opening nonempty activation =>
    obtain rfl := hnil given
    cases opening
    exact absurd rfl nonempty
  | finish initiated given parsed finished activation => exact absurd given (hin _)
  | cookie expiry initiated given parsed opening => exact absurd given (hin _)
  | _ => rfl

theorem PeerMoves.toLocal {x y : Peer × Ctx} (h : PeerMoves may (fun _ => False) x y) :
    y.2.out.toLocal = x.2.out.toLocal := by
  induction h with
  | refl => rfl
  | tail _ hmove ih => exact (hmove.toLocal fun _ => id).trans ih

theorem CallMove.toLocal {x y : Dispatch} (h : CallMove may (fun _ => False) x y) :
    y.2.out.toLocal = x.2.out.toLocal := by
  cases h with
  | peer live move => exact move.toLocal fun _ => And.right
  | _ => rfl

theorem CallMoves.toLocal {x y : Dispatch} (h : CallMoves may (fun _ => False) x y) :
    y.2.out.toLocal = x.2.out.toLocal := by
  induction h with
  | refl => rfl
  | tail _ hmove ih => exact hmove.toLocal.trans ih

/-- A keepalive that is scheduled stays so until it is sent. -/
theorem PeerMove.armed {inputs : Packet → Prop} (h : PeerMove may inputs (peer,c) (peer',c'))
    (harmed : peer.keepalive.isSome) : peer'.keepalive.isSome := by
  cases h with
  | arm when idle => rfl
  | _ => exact harmed

theorem PeerMoves.armed {inputs : Packet → Prop} {x y : Peer × Ctx} (h : PeerMoves may inputs x y)
    (harmed : x.1.keepalive.isSome) : y.1.keepalive.isSome := by
  induction h with
  | refl => exact harmed
  | tail _ hmove ih => exact hmove.armed ih

theorem SessionState.activate_out {s : SessionState} {next : SessionPair}
    {r : List Packet × SessionState} (h : s.activate next c = .ok (r,c')) : c'.out = c.out := by
  cases s with
  | none queue =>
    obtain ⟨⟨ret,send⟩,_,hlift,hret⟩ := bind_eq_ok.mp h
    obtain ⟨_,rfl⟩ := lift_eq_ok.mp hlift
    cases hret
    rfl
  | active recv recvPrev send =>
    obtain ⟨_,c1,hrelease,hret⟩ := bind_eq_ok.mp h
    cases hret
    cases recvPrev with
    | none =>
      cases hrelease
      rfl
    | some prev =>
      obtain ⟨ids,_,hids⟩ := Result.bind_eq_ok.mp hrelease
      cases hids
      rfl

namespace Peer

theorem Arms.out (h : Arms peer c peer' c') : c'.out = c.out := by
  cases h <;> rfl

theorem recvTransportData_delivers (h : peer.recvTransportData id packets c = .ok (peer',c')) :
    c.out.Grows (peer.deliveries id packets c) c'.out ∧
      ∀ d ∈ peer.deliveries id packets c, d.peer = peer.id ∧ peer'.keepalive.isSome := by
  obtain ⟨selected,c1,hget,h⟩ := bind_eq_ok.mp h
  obtain ⟨⟨env,rfl⟩,_⟩ := SessionState.ensures_getRecv.of_ok hget
  simp only [deliveries,hget]
  cases selected with
  | some selected =>
    obtain ⟨recv,put⟩ := selected
    obtain ⟨⟨opened,recv'⟩,_,hlift,h⟩ := bind_eq_ok.mp h
    obtain ⟨hopen,rfl⟩ := lift_eq_ok.mp hlift
    simp only [hopen]
    dsimp only at h
    split at h
    · cases h
      rw [if_pos ‹_›]
      exact ⟨.of_eq rfl,forall_mem_nil _⟩
    · have harms := ensures_deliver.of_ok h
      rw [if_neg ‹_›,harms.out]
      exact ⟨Outbox.grows_queueToLocal _ _ _ _ _,forall_mem_singleton.mpr ⟨rfl,harms.armed⟩⟩
  | none =>
    obtain ⟨⟨done,handshake⟩,_,hlift,h⟩ := bind_eq_ok.mp h
    obtain ⟨hconfirm,rfl⟩ := lift_eq_ok.mp hlift
    simp only [hconfirm]
    cases done with
    | none =>
      cases h
      exact ⟨.of_eq rfl,forall_mem_nil _⟩
    | some done =>
      obtain ⟨pair,opened⟩ := done
      obtain ⟨peer1,c2,hdeliver,h⟩ := bind_eq_ok.mp h
      have harms := ensures_deliver.of_ok hdeliver
      have hout : c2.out = c.out.queueToLocal peer.id opened := harms.out
      obtain ⟨⟨ret,session⟩,c3,hactivate,h⟩ := bind_eq_ok.mp h
      have hdelivered : c.out.Grows [⟨peer.id,pair.recv,c.env.instants.head,opened⟩] c3.out := by
        rw [SessionState.activate_out hactivate,hout]
        exact Outbox.grows_queueToLocal _ _ _ _ _
      cases ret with
      | nil =>
        cases h
        exact ⟨hdelivered,forall_mem_singleton.mpr ⟨rfl,harms.armed⟩⟩
      | cons packet ret =>
        cases h
        exact ⟨hdelivered,forall_mem_singleton.mpr ⟨rfl,harms.armed⟩⟩

theorem recvHandshakeResponse_toLocal {response : HandshakeResponse}
    (ho : Owns peer c.state.ids.sessions)
    (h : peer.recvHandshakeResponse response c = .ok (peer',c')) :
    c'.out.toLocal = c.out.toLocal := by
  obtain ⟨now,c1,hnow,h⟩ := bind_eq_ok.mp h
  obtain ⟨-,env,rfl⟩ := ensures_now.of_ok hnow
  obtain ⟨_,_,⟨⟩,h⟩ := bind_eq_ok.mp h
  cases hf : peer.handshake.finish response c.state.myKey peer.config.psk c.state.myCookie now with
  | mk done handshake =>
  simp only [hf] at h
  cases done with
  | none =>
    cases h
    rfl
  | some done =>
    obtain ⟨_,_,⟨⟩,h⟩ := bind_eq_ok.mp h
    have hmapped : ∀ id ∈ peer.session.ids, (c.state.ids.sessions id).isSome := fun id hid =>
      Option.isSome_iff_exists.mpr ⟨_,ho.mapped id (mem_append_left _ hid)⟩
    obtain ⟨ret,session,released,-,hmoves⟩ :=
      (moves_finishHandshake (fun _ => True) (fun _ => False) (by exact hmapped)).of_ok h
    rw [hmoves.toLocal]
    exact Outbox.toLocal_pushToPeer _ _ _

theorem recvCookieReply_toLocal {reply : CookieReply}
    (h : peer.recvCookieReply reply c = .ok (peer',c')) : c'.out.toLocal = c.out.toLocal := by
  cases hh : peer.handshake with
  | initiated sent timeout mac =>
    simp only [recvCookieReply,hh] at h
    obtain ⟨macs,c1,henv,hret⟩ := bind_eq_ok.mp h
    obtain ⟨env,_,rfl⟩ := (ensures_onEnv (panics_receiveCookie _ _ _)).of_ok henv
    cases hret
    rfl
  | none =>
    simp only [recvCookieReply,hh] at h
    cases h
    rfl
  | responded tentative =>
    simp only [recvCookieReply,hh] at h
    cases h
    rfl

theorem recvMessage_toLocal {packet : Packet} {keep : Bool} (ho : Owns peer c.state.ids.sessions)
    (h : peer.recvMessage packet c = .ok ((keep,peer'),c')) : c'.out.toLocal = c.out.toLocal := by
  cases hm : Message.tryFrom packet with
  | none =>
    simp only [recvMessage,hm] at h
    cases h
    rfl
  | some message =>
    cases message with
    | transportData header =>
      simp only [recvMessage,hm] at h
      cases h
      rfl
    | handshakeInitiation init =>
      simp only [recvMessage,hm] at h
      cases h
    | handshakeResponse resp =>
      simp only [recvMessage,hm] at h
      obtain ⟨peer1,c1,hresponse,hret⟩ := bind_eq_ok.mp h
      cases hret
      exact recvHandshakeResponse_toLocal ho hresponse
    | cookieReply reply =>
      simp only [recvMessage,hm] at h
      obtain ⟨peer1,c1,hcookie,hret⟩ := bind_eq_ok.mp h
      cases hret
      exact recvCookieReply_toLocal hcookie

theorem retainTransport_toLocal {kept : List Packet} (ho : Owns peer c.state.ids.sessions)
    (hid : ∀ p ∈ packets, Endpoint.receiverOf p ≠ 0)
    (h : peer.retainTransport packets c = .ok ((kept,peer'),c')) :
    c'.out.toLocal = c.out.toLocal := by
  induction packets generalizing peer c kept with
  | nil =>
    cases h
    rfl
  | cons packet packets ih =>
    obtain ⟨⟨keep,peer1⟩,c1,hmessage,h⟩ := bind_eq_ok.mp h
    obtain ⟨⟨kept',peer2⟩,c2,hrest,h⟩ := bind_eq_ok.mp h
    cases h
    have hmoves : Ensures Benign (peer.recvMessage packet) c fun r c' =>
        PeerMoves (fun _ => True) (fun _ => True) (peer,c) (r.2,c') ∧
          (r.1 = true → ∃ header, Message.tryFrom packet = some (.transportData header)) :=
      moves_recvMessage ho trivial (hid packet mem_cons_self) fun _ _ => trivial
    have ho1 := ((hmoves.of_ok hmessage).1.owns ho).1
    rw [ih ho1 (fun p hp => hid p (mem_cons_of_mem _ hp)) hrest,recvMessage_toLocal ho hmessage]

theorem recv_delivers (ho : Owns peer c.state.ids.sessions)
    (hid : ∀ p ∈ packets, Endpoint.receiverOf p ≠ 0) (h : peer.recv id packets c = .ok (peer',c')) :
    c.out.Grows (peer.recvDeliveries id packets c) c'.out ∧
      ∀ d ∈ peer.recvDeliveries id packets c, d.peer = peer.id ∧ peer'.keepalive.isSome := by
  obtain ⟨⟨kept,peer1⟩,c1,hretain,h⟩ := bind_eq_ok.mp h
  rw [recvDeliveries,hretain]
  obtain ⟨hgrows,harmed⟩ := recvTransportData_delivers h
  have hid1 : peer1.id = peer.id := by
    have hmoves : Ensures Benign (peer.retainTransport packets) c fun r c' =>
        PeerMoves (fun _ => True) (fun _ => True) (peer,c) (r.2,c') ∧ _ :=
      moves_retainTransport ho (fun _ _ => trivial) hid fun _ _ => trivial
    exact (hmoves.of_ok hretain).1.fixed.1
  rw [← hid1]
  exact ⟨Outbox.Grows.trans (.of_eq (retainTransport_toLocal ho hid hretain)) hgrows,harmed⟩

end Peer

namespace Endpoint
variable {c c' : Call}

theorem recvGroup_delivers (hs : Sound c.peers c.state.ids.sessions)
    (hid : ∀ p ∈ packets, receiverOf p = id) (hne : id ≠ 0) (h : recvGroup id packets c = .ok ((),c')) :
    c.Delivers (groupDeliveries id packets c) c' := by
  rw [recvGroup] at h
  rw [groupDeliveries]
  cases hp : c.state.ids.sessions id with
  | none =>
    rw [hp] at h
    cases h
    exact .refl c
  | some p =>
    rw [hp] at h
    simp only [onPeer] at h
    cases hlive : c.peers p with
    | none =>
      rw [hlive] at h
      cases h
      simp only [logPeer,hlive]
      exact .refl c
    | some peer =>
      rw [hlive] at h
      simp only [logPeer_of_live hlive]
      cases hrun : peer.recv id packets c.toCtx with
      | error q => simp [hrun] at h
      | ok r =>
        simp only [hrun] at h
        cases h
        obtain ⟨hsame,ho⟩ := hs p peer hlive
        obtain ⟨hgrows,harmed⟩ := Peer.recv_delivers ho (fun q hq => hid q hq ▸ hne) hrun
        have hmoves : Ensures Benign (peer.recv id packets) c.toCtx fun peer' ctx =>
            PeerMoves (fun _ => True) (fun _ => True) (peer,c.toCtx) (peer',ctx) :=
          Peer.moves_recv ho (fun _ _ => trivial) hid hne fun _ _ => trivial
        refine ⟨hgrows,fun d hd => ?_,fun q hq => ?_⟩
        · rw [(harmed d hd).1,hsame]
          exact ⟨r.1,Function.update_self _ _ _,(harmed d hd).2⟩
        · obtain ⟨old,hold,harmed⟩ := hq
          by_cases heq : q = p
          · subst heq
            obtain rfl : peer = old := Option.some.inj (hlive.symm.trans hold)
            exact ⟨r.1,Function.update_self _ _ _,(hmoves.of_ok hrun).armed harmed⟩
          · exact ⟨old,(Function.update_of_ne heq _ _).trans hold,harmed⟩

/-- What `recv` returns for the local side is what is logged, and keepalives are scheduled. -/
theorem recv_delivers (hs : Sound c.peers c.state.ids.sessions) (h : recv packets c = .ok ((),c')) :
    c.out.Grows (recvDeliveries packets c) c'.out ∧
      ∀ d ∈ recvDeliveries packets c, c'.Armed d.peer := by
  obtain ⟨_,c1,hhandshakes,h⟩ := bind_eq_ok.mp h
  obtain ⟨rank,c2,horder,hgroups⟩ := bind_eq_ok.mp h
  simp only [recvDeliveries,logGroups,hhandshakes,horder]
  have hfollows : Follows (fun _ => True) (fun _ => False) (forEach processOneHandshake
      (packets.filter fun packet => receiverOf packet = 0)) _ :=
    follows_forEach fun a _ => follows_processOneHandshake a
  have hmoves := (hfollows c hs fun _ _ => trivial).of_ok hhandshakes
  have hlocal : c2.out.toLocal = c.out.toLocal := by
    cases horder
    exact hmoves.toLocal
  have hs2 : Sound c2.peers c2.state.ids.sessions := by
    cases horder
    exact hmoves.sound hs
  have hdelivers : c2.Delivers (logEach
      (fun id => recvGroup id (packets.filter fun packet => receiverOf packet = id))
      (fun id => groupDeliveries id (packets.filter fun packet => receiverOf packet = id))
      (groupIds rank packets) c2) c' := by
    refine forEach_logged (fun c => Sound c.peers c.state.ids.sessions) Call.Delivers .refl
      (fun _ _ _ _ _ h h' => h.trans h') (fun id hmem c c' hc hrun => ?_) hs2 hgroups
    have hne : id ≠ 0 := by
      rw [groupIds,mem_mergeSort,mem_dedup,mem_filter] at hmem
      exact of_decide_eq_true hmem.2
    have hid : ∀ p ∈ packets.filter (fun packet => receiverOf packet = id), receiverOf p = id :=
      fun p hp => of_decide_eq_true (mem_filter.mp hp).2
    have hgroup : Follows (fun _ => True) (fun _ => True) (recvGroup id _) _ :=
      follows_recvGroup (fun _ _ => trivial) hid hne
    exact ⟨((hgroup c hc fun _ _ => trivial).of_ok hrun).sound hc,recvGroup_delivers hc hid hne hrun⟩
  exact ⟨Outbox.Grows.trans (.of_eq hlocal) hdelivers.grows,hdelivers.armed⟩

end Endpoint

namespace Machine
variable {m : Machine} {op : Op}

theorem delivers (hs : m.IdsSound) {out : Outbox} {m' : Machine}
    (h : step op m = .ok (.packets out,m')) (p : PeerId) :
    (out.toLocal p).getD [] =
      ((m.deliveries op).filter fun d => d.peer = p).flatMap Delivery.packets := by
  have hempty : ∀ c : Call, CallMoves (fun _ => True) (fun _ => False) ([],m.start) ([],c) →
      (c.out.toLocal p).getD [] = [] := by
    intro c hmoves
    rw [hmoves.toLocal]
    rfl
  cases op with
  | upsertPeer id cfg =>
    obtain ⟨_,_,h⟩ := Result.bind_eq_ok.mp h
    cases h
  | removePeer id =>
    obtain ⟨_,_,h⟩ := Result.bind_eq_ok.mp h
    cases h
  | send packets =>
    obtain ⟨_,hcall,h⟩ := Result.bind_eq_ok.mp h
    obtain ⟨⟨_,c⟩,hrun,hret⟩ := Result.bind_eq_ok.mp hcall
    cases hret
    cases h
    exact hempty c ((Endpoint.follows_send packets m.start hs fun _ _ => trivial).of_ok hrun)
  | dispatchEvents now =>
    obtain ⟨_,hcall,h⟩ := Result.bind_eq_ok.mp h
    obtain ⟨⟨_,c⟩,hrun,hret⟩ := Result.bind_eq_ok.mp hcall
    cases hret
    cases h
    exact hempty c ((Endpoint.follows_dispatchEvents now m.start hs fun _ _ => trivial).of_ok hrun)
  | recv packets =>
    obtain ⟨_,hcall,h⟩ := Result.bind_eq_ok.mp h
    obtain ⟨⟨_,c⟩,hrun,hret⟩ := Result.bind_eq_ok.mp hcall
    cases hret
    cases h
    have hdelivers := (Endpoint.recv_delivers (c := m.start) hs hrun).1
    exact hdelivers p

theorem delivers_armed (hs : m.IdsSound) {out : Outbox} {m' : Machine}
    (h : step op m = .ok (.packets out,m')) : ∀ d ∈ m.deliveries op,
      ∃ peer, m'.endpoint.peers d.peer = some peer ∧ peer.keepalive.isSome = true := by
  cases op with
  | recv packets =>
    obtain ⟨_,hcall,h⟩ := Result.bind_eq_ok.mp h
    obtain ⟨⟨_,c⟩,hrun,hret⟩ := Result.bind_eq_ok.mp hcall
    cases hret
    cases h
    exact (Endpoint.recv_delivers (c := m.start) hs hrun).2
  | _ => exact fun d hd => by cases hd

end Machine
end

section
attribute [local instance] sumMacs

/-- A clock that shows 0 at first, and then five minutes. -/
def Env.late : Env :=
  { Env.zeros with instants := fun n => if n = 0 then 0 else Instant.ofSecs 300 }

/-- The calls on the responder: the initiation of a handshake arrives, and then the data that
the initiator sends once it has the answer to it. -/
def lateData (env : Env) : List Op :=
  let initiation := initiatorSends []
  let upsert := Op.upsertPeer 1 ⟨initiatorKey.pub,sameBytes 0⟩
  let answers := sentTo 1 (runAll Machine.step [upsert,.recv initiation]
    ⟨Endpoint.new responderKey,env⟩)
  [upsert,.recv initiation,.recv ((initiatorSends answers).drop initiation.length)]

end
end Tailnet.Wireguard

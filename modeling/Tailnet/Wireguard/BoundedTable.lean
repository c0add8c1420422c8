import Tailnet.Wireguard.NodeKeys

/-! The size of the table of session ids. Every id in the table is held by its peer, as long as
no session expires while packets are sent, no response to a handshake is forged, and no
handshake is overwritten by the answer to an initiation: each of these drops a session or a
handshake and leaves its ids in the table. -/
namespace Tailnet.Wireguard
open Prog Ctx Call Function List

/-- The incidents that drop an id without releasing it. -/
def Incident.leaks : Incident → Bool
  | expired => true
  | forged => true
  | overtaken => true
  | superseded => true
  | _ => false

/-- A peer holds an id for each of its two receive sessions and for its handshake. -/
theorem Peer.length_heldIds_le (peer : Peer) : peer.heldIds.length ≤ 3 := by
  have hsession : peer.session.ids.length ≤ 2 := by
    cases peer.session with
    | none queue => exact Nat.zero_le 2
    | active recv recvPrev send => cases recvPrev <;> simp [SessionState.ids]
  have hhandshake : peer.handshake.sessionId.toList.length ≤ 1 := by
    cases peer.handshake.sessionId <;> simp
  rw [heldIds,length_append]
  omega

/-- A peer holds all the ids that the table maps to it. -/
def HoldsAll (peer : Peer) (s : SessionId → Option PeerId) : Prop :=
  ∀ id, s id = some peer.id → id ∈ peer.heldIds

def NoneForOthers (p : PeerId) (s s' : SessionId → Option PeerId) : Prop :=
  ∀ id q, q ≠ p → s' id = some q → s id = some q

variable {peer peer' : Peer} {s : SessionId → Option PeerId}

theorem NoneForOthers.refl (p : PeerId) (s : SessionId → Option PeerId) : NoneForOthers p s s :=
  fun _ _ _ h => h

theorem HoldsAll.same (h : HoldsAll peer s) (hid : peer'.id = peer.id)
    (hheld : peer'.heldIds = peer.heldIds) : HoldsAll peer' s ∧ NoneForOthers peer.id s s := by
  refine ⟨fun id hs => ?_,.refl _ _⟩
  rw [hheld]
  exact h id (hid ▸ hs)

theorem HoldsAll.allocate (h : HoldsAll peer s) {id : SessionId} (hid : peer'.id = peer.id)
    (hsession : peer'.session = peer.session) (hidle : peer.handshake = .none)
    (hhandshake : peer'.handshake.sessionId = some id) :
    HoldsAll peer' (update s id (some peer.id)) ∧
      NoneForOthers peer.id s (update s id (some peer.id)) := by
  have hheld : peer'.heldIds = peer.heldIds ++ [id] := by
    rw [Peer.heldIds,hsession,hhandshake,Peer.heldIds,hidle]
    simp [Handshake.sessionId]
  refine ⟨fun a ha => ?_,fun a q hq ha => ?_⟩
  · rw [hheld,mem_append,mem_singleton]
    rw [hid,update_apply] at ha
    split at ha
    · exact .inr ‹_›
    · exact .inl (h a ha)
  · rw [update_apply] at ha
    split at ha
    · exact absurd (Option.some.inj ha).symm hq
    · exact ha

theorem HoldsAll.release (h : HoldsAll peer s) {ids : List SessionId} (hid : peer'.id = peer.id)
    (hheld : ∀ id ∈ peer.heldIds, id ∈ peer'.heldIds ∨ id ∈ ids) :
    HoldsAll peer' (forget s ids) ∧ NoneForOthers peer.id s (forget s ids) := by
  refine ⟨fun a ha => ?_,fun a q _ ha => ?_⟩
  · rw [hid,forget_apply] at ha
    split at ha
    · cases ha
    · exact (hheld a (h a ha)).resolve_right ‹_›
  · rw [forget_apply] at ha
    split at ha
    · cases ha
    · exact ha

/-- Every id in the table is held by a peer, and by the one that the table says. -/
def Tight (peers : PeerId → Option Peer) (s : SessionId → Option PeerId) : Prop :=
  ∀ id p, s id = some p → ∃ peer, peers p = some peer ∧ id ∈ peer.heldIds

variable {peers : PeerId → Option Peer} {s' : SessionId → Option PeerId} {p : PeerId}

theorem Tight.holdsAll (h : Tight peers s) (hpeer : peers p = some peer) (hid : peer.id = p) :
    HoldsAll peer s := by
  intro id hs
  obtain ⟨peer1,hpeer1,hmem⟩ := h id p (hid ▸ hs)
  rw [hpeer] at hpeer1
  cases hpeer1
  exact hmem

theorem Tight.update (h : Tight peers s) (hid : peer.id = p) (hholds : HoldsAll peer s')
    (hothers : NoneForOthers p s s') : Tight (Function.update peers p (some peer)) s' := by
  intro id q hq
  by_cases hne : q = p
  · subst hne
    exact ⟨peer,update_self q _ _,hholds id (hid ▸ hq)⟩
  · obtain ⟨peer1,hpeer1,hmem⟩ := h id q (hothers id q hne hq)
    exact ⟨peer1,by rwa [update_of_ne hne],hmem⟩

theorem Tight.remove (h : Tight peers s) (hpeer : peers p = some peer) (hid : peer.id = p) :
    Tight (Function.update peers p none) (forget s peer.heldIds) := by
  intro id q hq
  rw [forget_apply] at hq
  split at hq
  · cases hq
  · rename_i hreleased
    have hne : q ≠ p := by
      rintro rfl
      exact hreleased (h.holdsAll hpeer hid id (hid ▸ hq))
    obtain ⟨peer1,hpeer1,hmem⟩ := h id q hq
    exact ⟨peer1,by rwa [update_of_ne hne],hmem⟩

section
variable [MacPrimitives] {may : Incident → Prop} {inputs : Packet → Prop} {c c' : Ctx}

theorem HoldsAll.activate (h : HoldsAll peer s) {next : SessionPair} {ret : List Packet}
    {released : List SessionId} (hid : peer'.id = peer.id)
    (hactivates : SessionState.Activates next peer.session ret peer'.session released)
    (hfrom : peer.handshake.sessionId = some next.recv.id) :
    HoldsAll peer' (forget s released) ∧ NoneForOthers peer.id s (forget s released) := by
  obtain ⟨kept,hold,hnew⟩ := hactivates.ids
  refine h.release hid fun id hmem => ?_
  simp only [Peer.heldIds,hold,hnew,hfrom,Option.toList_some,mem_append,mem_cons,
    not_mem_nil,or_false] at hmem ⊢
  tauto

/-- A transition without a leak keeps the ids of a peer in its hands. -/
theorem PeerMove.holdsAll (h : PeerMove may inputs (peer,c) (peer',c'))
    (hmay : ∀ i, may i → i.leaks = false) (hp : HoldsAll peer c.state.ids.sessions) :
    HoldsAll peer' c'.state.ids.sessions ∧
      NoneForOthers peer.id c.state.ids.sessions c'.state.ids.sessions := by
  cases h with
  | draw => exact hp.same rfl rfl
  | enqueue queue' inactive =>
    exact hp.same rfl (by simp [Peer.heldIds,inactive,SessionState.ids])
  | expire queue active incident => cases hmay _ incident
  | transmit active sealing => exact hp.same rfl (by simp [Peer.heldIds,active,SessionState.ids])
  | receive active given opening =>
    have hid := (ReceiveSession.decrypt_id opening).1
    exact hp.same rfl (by simp [Peer.heldIds,active,SessionState.ids,hid])
  | receivePrev active given opening =>
    have hid := (ReceiveSession.decrypt_id opening).1
    exact hp.same rfl (by simp [Peer.heldIds,active,SessionState.ids,hid])
  | initiate when idle free initiation macs =>
    obtain ⟨_,_,_,_,rfl⟩ := initiateHandshake_ok initiation
    exact hp.allocate rfl rfl idle rfl
  | respond incident free reception indexed response =>
    obtain ⟨_,_,_,_,_,_,_,rfl,_⟩ := ReceivedHandshake.respond_ok response
    have hidle : peer.handshake = .none := by
      cases hh : peer.handshake with
      | none => rfl
      | initiated sent timeout mac =>
        rw [hh] at incident
        cases hmay _ incident
      | responded tentative =>
        rw [hh] at incident
        cases hmay _ incident
    exact hp.allocate rfl rfl hidle rfl
  | finish initiated given parsed finished activation =>
    rw [initiated] at finished
    obtain ⟨_,_,rfl⟩ := Handshake.finish_ok finished
    exact hp.activate rfl activation (by rw [initiated]; rfl)
  | abandon initiated incident => cases hmay _ incident
  | confirm responded given opening nonempty activation =>
    have hid := (ReceiveSession.decrypt_id opening).1
    exact hp.activate rfl activation (by rw [responded]; simp [Handshake.sessionId,hid])
  | cookie => exact hp.same rfl rfl
  | release incident =>
    refine hp.release rfl fun id hmem => ?_
    rw [Peer.heldIds,mem_append] at hmem
    exact hmem.imp_left (mem_append_left _)
  | deactivate =>
    refine hp.release rfl fun id hmem => ?_
    rw [Peer.heldIds,mem_append] at hmem
    exact hmem.symm.imp_left (mem_append_right _)
  | arm => exact hp.same rfl rfl
  | another => exact hp.same rfl rfl

theorem CallMove.tight {x y : Dispatch} (h : CallMove may inputs x y)
    (hmay : ∀ i, may i → i.leaks = false) (hs : Sound x.2.peers x.2.state.ids.sessions)
    (ht : Tight x.2.peers x.2.state.ids.sessions) : Tight y.2.peers y.2.state.ids.sessions := by
  cases h with
  | draw => exact ht
  | take => exact ht
  | skip => exact ht
  | idle => exact ht
  | lapse => exact ht
  | peer live move =>
    have hid := (hs _ _ live).1
    obtain ⟨hholds,hothers⟩ := move.holdsAll hmay (ht.holdsAll live hid)
    exact ht.update (move.fixed.1.trans hid) hholds (hid ▸ hothers)
  | @abort due c e id peer timeout live =>
    have hid := (hs _ _ live).1
    have hrelease : PeerMove (fun i => i = .orphaned) inputs (peer,c.toCtx) _ :=
      .release fun i hi => ?_
    · obtain ⟨hholds,hothers⟩ := hrelease.holdsAll (fun i hi => hi ▸ rfl) (ht.holdsAll live hid)
      exact ht.update hid hholds (hid ▸ hothers)
    · cases hh : peer.handshake <;> simp_all [Peer.shutdownIncident]
  | @sent due c e id peer keepalive live =>
    have hid := (hs _ _ live).1
    have hholds := ht.holdsAll live hid
    exact ht.update hid hholds (.refl _ _)

theorem CallMoves.tight {x y : Dispatch} (h : CallMoves may inputs x y)
    (hmay : ∀ i, may i → i.leaks = false) (hs : Sound x.2.peers x.2.state.ids.sessions)
    (ht : Tight x.2.peers x.2.state.ids.sessions) : Tight y.2.peers y.2.state.ids.sessions := by
  induction h with
  | refl => exact ht
  | tail hmoves hmove ih => exact hmove.tight hmay (CallMoves.sound hmoves hs) ih

namespace Machine
variable {m m' : Machine} {op : Op} {reply : Reply}

def TableTight (m : Machine) : Prop := Tight m.endpoint.peers m.endpoint.state.ids.sessions

theorem Move.tight (h : m.Move may op reply m') (hmay : ∀ i, may i → i.leaks = false)
    (hs : m.IdsSound) (ht : m.TableTight) : m'.TableTight := by
  cases h with
  | missing absent => exact ht
  | packets moves => exact CallMoves.tight moves hmay hs ht
  | remove live incident indexed => exact Tight.remove ht live (hs _ _ live).1
  | @upsert id cfg old endpoint upserted =>
    rcases Endpoint.upsertPeer_ok upserted with ⟨peer,ids,hp,hids,rfl⟩ | ⟨hp,_,rfl⟩
    · have hsessions := Endpoint.changeKey_sessions hids
      have hholds := Tight.holdsAll ht hp (hs _ _ hp).1
      simp only [TableTight,hsessions]
      exact Tight.update ht (hs _ _ hp).1 hholds (.refl _ _)
    · refine Tight.update ht rfl (fun a ha => ?_) (.refl _ _)
      obtain ⟨peer,hpeer,_⟩ := ht a id ha
      rw [hp] at hpeer
      cases hpeer

/-- The table of session ids holds nothing but the ids that live peers hold, and at most three
for each peer. -/
structure TableBounded (m : Machine) : Prop where
  held : ∀ id p, m.endpoint.state.ids.sessions id = some p →
    ∃ peer, m.endpoint.peers p = some peer ∧ id ∈ peer.heldIds
  atMostThree : ∀ p, Set.ncard {id | m.endpoint.state.ids.sessions id = some p} ≤ 3
  removed : ∀ p, m.endpoint.peers p = none → ∀ id, m.endpoint.state.ids.sessions id ≠ some p

theorem TableTight.bounded (ht : m.TableTight) : m.TableBounded where
  held := ht
  removed p hnone id hs := by
    obtain ⟨peer,hpeer,_⟩ := ht id p hs
    rw [hnone] at hpeer
    cases hpeer
  atMostThree p := by
    cases hp : m.endpoint.peers p with
    | none =>
      have hempty : {id | m.endpoint.state.ids.sessions id = some p} = ∅ := by
        refine Set.eq_empty_iff_forall_notMem.mpr fun id hs => ?_
        obtain ⟨peer,hpeer,_⟩ := ht id p hs
        rw [hp] at hpeer
        cases hpeer
      rw [hempty,Set.ncard_empty]
      exact Nat.zero_le 3
    | some peer =>
      have hsub : {id | m.endpoint.state.ids.sessions id = some p} ⊆ peer.heldIds.toFinset := by
        intro id hs
        obtain ⟨peer1,hpeer1,hmem⟩ := ht id p hs
        rw [hp] at hpeer1
        cases hpeer1
        simpa using hmem
      calc Set.ncard {id | m.endpoint.state.ids.sessions id = some p}
          ≤ Set.ncard (peer.heldIds.toFinset : Set SessionId) := Set.ncard_le_ncard hsub
        _ = peer.heldIds.toFinset.card := Set.ncard_coe_finset _
        _ ≤ peer.heldIds.length := toFinset_card_le _
        _ ≤ 3 := peer.length_heldIds_le

end Machine

/-- In every run without an incident that leaks, the table of session ids is bounded in every
state that is reached. -/
theorem session_table_bounded (myKey : Noise.X25519KeyPair) (env : Env) (ops : List Op)
    (hleaks : AtEveryCall Machine.step (fun m op => ∀ i ∈ m.incidents op, i.leaks = false) ops
      ⟨Endpoint.new myKey,env⟩) :
    AtEveryState Machine.step Machine.TableBounded ops ⟨Endpoint.new myKey,env⟩ := by
  have hnew : Machine.IdsSound ⟨Endpoint.new myKey,env⟩ := fun p peer h => by cases h
  have htight : Machine.TableTight ⟨Endpoint.new myKey,env⟩ := fun id p h => by cases h
  refine (Machine.atEvery_of_moves Machine.TableTight ?_ hnew htight hleaks).mono
    fun m h => h.2.bounded
  exact fun m op reply m' hs ht hmove => hmove.tight (fun _ h => h) hs ht

end

section
attribute [local instance] sumMacs

/-- A run without leaks: a handshake starts, times out and starts again, and the peer is
removed. -/
theorem session_table_bounded_timeout :
    let m : Machine := ⟨Endpoint.new (.ofSecret (sameBytes 9)),Env.zeros⟩
    let ops := [Op.upsertPeer 1 ⟨sameBytes 1,sameBytes 0⟩,.send [(1,[[7]])],
      .dispatchEvents (Instant.ofSecs 10),.removePeer 1]
    (runAll Machine.step ops m).isOk ∧ AtEveryState Machine.step Machine.TableBounded ops m :=
  ⟨by decide +kernel,session_table_bounded _ _ _ (by decide +kernel)⟩

/-- A response with a wrong MAC drops the handshake and leaves its id in the table, even after
the peer was removed. -/
theorem forged_response_leaks_id :
    let m : Machine := ⟨Endpoint.new (.ofSecret (sameBytes 9)),Env.zeros⟩
    let forged := { HandshakeResponse.default with receiverId := 1 }
    let ops := [Op.upsertPeer 1 ⟨sameBytes 1,sameBytes 0⟩,.send [(1,[[7]])],.recv [forged.toBytes],
      .removePeer 1]
    ∃ replies m', runAll Machine.step ops m = .ok (replies,m') ∧
      m'.endpoint.state.ids.sessions 1 = some 1 ∧ m'.endpoint.peers 1 = none ∧
      ¬ AtEveryState Machine.step Machine.TableBounded ops m := by
  intro m forged ops
  let last (m' : Machine) : Bool :=
    m'.endpoint.state.ids.sessions 1 = some 1 ∧ m'.endpoint.peers 1 = none
  have hrun : (runAll Machine.step ops m).toOption.any (fun r => last r.2) = true := by
    decide +kernel
  obtain ⟨replies,m',hresult,hlast⟩ := exists_of_runAll_any last hrun
  obtain ⟨hentry,hpeer⟩ := of_decide_eq_true hlast
  refine ⟨replies,m',hresult,hentry,hpeer,fun h => ?_⟩
  exact (h.last hresult).removed 1 hpeer 1 hentry

end
end Tailnet.Wireguard

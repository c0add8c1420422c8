import Tailnet.Wireguard.Endpoint

/-! The session ids that a peer holds. Each is in the table of the endpoint and is the peer's
own; an id is allocated for a handshake, goes to the session that the handshake activates and
is released with it. -/
namespace Tailnet.Wireguard
open MacPrimitives Function List

/-- A table without some ids. -/
def forget (sessions : SessionId → Option PeerId) : List SessionId → SessionId → Option PeerId
  | [] => sessions
  | id::ids => forget (update sessions id none) ids

def SessionState.ids : SessionState → List SessionId
  | .none _ => []
  | .active recv recvPrev _ => recv.id::(recvPrev.map ReceiveSession.id).toList

def Peer.heldIds (peer : Peer) : List SessionId := peer.session.ids ++ peer.handshake.sessionId.toList

/-- The ids that a peer holds are distinct, and the table maps them to the peer. -/
structure Owns (peer : Peer) (sessions : SessionId → Option PeerId) : Prop where
  nodup : peer.heldIds.Nodup
  mapped : ∀ id ∈ peer.heldIds, sessions id = some peer.id

def KeepsOthers (peer : PeerId) (s s' : SessionId → Option PeerId) : Prop :=
  ∀ id q, q ≠ peer → s id = some q → s' id = some q

variable {peer peer' : Peer} {s s' : SessionId → Option PeerId}

theorem forget_apply (s : SessionId → Option PeerId) (ids : List SessionId) (id : SessionId) :
    forget s ids id = if id ∈ ids then none else s id := by
  induction ids generalizing s with
  | nil => simp [forget]
  | cons a ids ih =>
    rw [forget,ih,update_apply]
    by_cases h : id ∈ ids
    · simp [h]
    · by_cases ha : id = a <;> simp [h,ha]

theorem forget_append (s : SessionId → Option PeerId) (ids ids' : List SessionId) :
    forget s (ids ++ ids') = forget (forget s ids) ids' := by
  induction ids generalizing s with
  | nil => rfl
  | cons id ids ih => exact ih (update s id none)

/-- A peer that holds fewer ids than before owns them. -/
theorem Owns.shrink (h : Owns peer s) (hid : peer'.id = peer.id) (hnodup : peer'.heldIds.Nodup)
    (hsub : ∀ id ∈ peer'.heldIds, id ∈ peer.heldIds ∧ s' id = s id) : Owns peer' s' := by
  refine ⟨hnodup,fun id hmem => ?_⟩
  obtain ⟨hold,htable⟩ := hsub id hmem
  rw [htable,hid,h.mapped id hold]

theorem Owns.same (h : Owns peer s) (hid : peer'.id = peer.id) (hheld : peer'.heldIds = peer.heldIds) :
    Owns peer' s :=
  h.shrink hid (hheld ▸ h.nodup) fun _ hmem => ⟨hheld ▸ hmem,rfl⟩

theorem Owns.allocate (h : Owns peer s) {id : SessionId} (free : s id = none)
    (hid : peer'.id = peer.id) (hsession : peer'.session = peer.session)
    (hhandshake : peer'.handshake.sessionId = some id) :
    Owns peer' (update s id (some peer.id)) := by
  have hheld : peer'.heldIds = peer.session.ids ++ [id] := by
    rw [Peer.heldIds,hsession,hhandshake]
    rfl
  have hold : ∀ a ∈ peer.session.ids, s a = some peer.id := fun a ha =>
    h.mapped a (mem_append_left _ ha)
  have hnew : id ∉ peer.session.ids := by
    intro hmem
    rw [hold id hmem] at free
    cases free
  refine ⟨?_,?_⟩
  · rw [hheld]
    exact (nodup_append.mp h.nodup).1.append (nodup_singleton id) (by simpa using hnew)
  · intro a ha
    rw [hheld,mem_append,mem_singleton] at ha
    rw [hid,update_apply]
    split
    · rfl
    · exact hold a (ha.resolve_right ‹_›)

theorem KeepsOthers.allocate {id : SessionId} {p : PeerId} (free : s id = none) :
    KeepsOthers p s (update s id (some p)) := by
  intro a q _ ha
  rwa [update_of_ne]
  rintro rfl
  rw [free] at ha
  cases ha

theorem Owns.forget_others (h : Owns peer s) {ids : List SessionId}
    (hsub : ∀ id ∈ ids, id ∈ peer.heldIds) : KeepsOthers peer.id s (forget s ids) := by
  intro id q hq hsome
  rwa [forget_apply,if_neg]
  intro hin
  rw [h.mapped id (hsub id hin)] at hsome
  exact hq (Option.some.inj hsome).symm

theorem Owns.release (h : Owns peer s) {ids : List SessionId} (hid : peer'.id = peer.id)
    (hperm : peer.heldIds.Perm (peer'.heldIds ++ ids)) :
    Owns peer' (forget s ids) ∧ KeepsOthers peer.id s (forget s ids) := by
  have hnodup := nodup_append.mp (hperm.nodup_iff.mp h.nodup)
  have hheld : ∀ id ∈ peer'.heldIds ++ ids, id ∈ peer.heldIds := fun id hmem =>
    hperm.mem_iff.mpr hmem
  refine ⟨⟨hnodup.1,fun id hmem => ?_⟩,h.forget_others fun id hin => ?_⟩
  · rw [forget_apply,if_neg fun hin => hnodup.2.2 id hmem id hin rfl,hid,
      h.mapped id (hheld id (mem_append_left _ hmem))]
  · exact hheld id (mem_append_right _ hin)

section
variable [MacPrimitives]

/-- Packets that are queued if there are any. -/
def Outbox.pushToPeer (out : Outbox) (peer : PeerId) (packets : List Packet) : Outbox :=
  if packets.isEmpty then out else out.queueToPeer peer packets

def Outbox.pushToLocal (out : Outbox) (peer : PeerId) (packets : List Packet) : Outbox :=
  if packets.isEmpty then out else out.queueToLocal peer packets

def Ctx.withSessions (c : Ctx) (sessions : SessionId → Option PeerId) : Ctx :=
  { c with state := { c.state with ids := { c.state.ids with sessions } } }

namespace SessionState

/-- What activating a pair of sessions does: the packets it seals, the new state and the
ids it releases. -/
inductive Activates (next : SessionPair) :
    SessionState → List Packet → SessionState → List SessionId → Prop
  | fresh {queue ret : List Packet} {send : TransmitSession}
    (sealing : next.send.encrypt queue = .ok (ret,send)) :
    Activates next (none queue) ret (active next.recv Option.none send) []
  | rotate {recv : ReceiveSession} {recvPrev : Option ReceiveSession} {send : TransmitSession} :
    Activates next (active recv recvPrev send) [] (active next.recv (some recv) next.send)
      (recvPrev.map ReceiveSession.id).toList

end SessionState

theorem SessionState.Activates.ids {next : SessionPair} {st st' : SessionState}
    {ret : List Packet} {released : List SessionId} (h : Activates next st ret st' released) :
    ∃ kept, st.ids = kept ++ released ∧ st'.ids = next.recv.id::kept := by
  cases h with
  | fresh sealing => exact ⟨[],rfl,rfl⟩
  | @rotate recv recvPrev send => exact ⟨[recv.id],rfl,rfl⟩

/-- The id of a finished handshake goes to the session that it activates. -/
theorem Owns.activate (h : Owns peer s) {next : SessionPair} {ret : List Packet}
    {released : List SessionId} (hid : peer'.id = peer.id)
    (hactivates : SessionState.Activates next peer.session ret peer'.session released)
    (hfrom : peer.handshake.sessionId = some next.recv.id) (hnone : peer'.handshake = .none) :
    Owns peer' (forget s released) ∧ KeepsOthers peer.id s (forget s released) := by
  obtain ⟨kept,hold,hnew⟩ := hactivates.ids
  have hheld : peer.heldIds = kept ++ released ++ [next.recv.id] := by
    rw [Peer.heldIds,hold,hfrom]
    rfl
  have hheld' : peer'.heldIds = next.recv.id::kept := by
    rw [Peer.heldIds,hnew,hnone]
    simp [Handshake.sessionId]
  apply h.release hid
  rw [hheld,hheld']
  exact perm_append_singleton _ _

end
end Tailnet.Wireguard

import Tailnet.Lib.Index
import Tailnet.Wireguard.SessionIds

/-! The index of an endpoint by node key. It is the inverse of the map from peers to keys
as long as no live peer is given the key of another: inserting a peer checks for a
collision, but changing the key of a peer does not. -/
namespace Tailnet.Wireguard
open Prog Function Endpoint

section
variable [MacPrimitives]

/-- The index of node keys is exact. -/
def Endpoint.Exact (e : Endpoint) : Prop := Inverse e.peerId e.peerKey

/-- The call gives a live peer the key of another live peer. -/
def Endpoint.Rekeys (e : Endpoint) : Op → Prop
  | .upsertPeer id cfg => ∃ old, e.peerKey id = some old ∧ old ≠ cfg.key ∧
      ∃ q, q ≠ id ∧ e.peerKey q = some cfg.key
  | _ => False

/-- The call upserts a key that a different live peer holds. -/
def Endpoint.Collides (e : Endpoint) : Op → Prop
  | .upsertPeer id cfg => ∃ q, q ≠ id ∧ e.peerKey q = some cfg.key
  | _ => False

/-- Calls that insert, update and remove peers. -/
inductive PeerOp
  | upsert (id : PeerId) (cfg : PeerConfig)
  | remove (id : PeerId)

def PeerOp.toOp : PeerOp → Op
  | upsert id cfg => .upsertPeer id cfg
  | remove id => .removePeer id

namespace Endpoint
variable {e e' : Endpoint} {id : PeerId} {cfg : PeerConfig}

theorem peerKey_update (state : EndpointState) (peers : PeerId → Option Peer) (id : PeerId)
    (peer : Option Peer) :
    peerKey ⟨state,update peers id peer⟩ =
      update (peerKey ⟨state,peers⟩) id (peer.map fun p => p.config.key) := by
  funext p
  by_cases h : p = id
  · simp [peerKey,h]
  · simp [peerKey,h]

theorem peerKey_of_peers {peer : Peer} (h : e.peers id = some peer) :
    e.peerKey id = some peer.config.key := by
  rw [peerKey,h]
  rfl

theorem Exact.changeKey (h : e.Exact) {old new : NodePublicKey} (hold : e.peerKey id = some old)
    (hfree : old ≠ new → ∀ q, q ≠ id → e.peerKey q ≠ some new) :
    ∃ ids, Endpoint.changeKey e.state.ids id old new = .ok ids ∧
      Inverse ids.nodeKeys (update e.peerKey id (some new)) := by
  rw [Endpoint.changeKey]
  by_cases hne : old = new
  · subst hne
    refine ⟨e.state.ids,by simp,?_⟩
    rw [← hold,update_eq_self]
    exact h
  · have hindex : e.state.ids.nodeKeys old = some id := (h old id).mpr hold
    have hnone : e.peerId new = none := by
      rw [Inverse.index_eq_none h]
      intro q
      by_cases hq : q = id
      · rw [hq,hold]
        exact fun heq => hne (Option.some.inj heq)
      · exact hfree hne q hq
    have hnew : (update e.state.ids.nodeKeys old none) new = none := by
      rw [update_of_ne (Ne.symm hne)]
      exact hnone
    let nodeKeys := update (update e.state.ids.nodeKeys old none) new (some id)
    refine ⟨{ e.state.ids with nodeKeys },?_,Inverse.change h hold (Ne.symm hne) hnone⟩
    simp only [if_pos hne,IdMap.removePeer,hindex,Result.unwrapIn,Result.bind_of_ok,
      Result.pure_eq_ok,IdMap.addPeer,hnew]
    rfl

theorem Exact.upsertPeer_live (h : e.Exact) (cfg : PeerConfig) {peer : Peer} (hp : e.peers id = some peer)
    (hfree : peer.config.key ≠ cfg.key → ∀ q, q ≠ id → e.peerKey q ≠ some cfg.key) :
    ∃ old e', e.upsertPeer id cfg = .ok (old,e') ∧ e'.Exact ∧
      e'.peerKey = update e.peerKey id (some cfg.key) := by
  obtain ⟨ids,hids,hinv⟩ := h.changeKey (peerKey_of_peers hp) hfree
  refine ⟨_,_,by rw [upsertPeer,hp]; simp only [hids,Result.bind_of_ok]; rfl,?_,peerKey_update ..⟩
  rw [Exact,peerKey_update]
  exact hinv

theorem Exact.upsertPeer_new (h : e.Exact) (cfg : PeerConfig) (hp : e.peers id = none)
    (hfree : ∀ q, e.peerKey q ≠ some cfg.key) :
    ∃ old e', e.upsertPeer id cfg = .ok (old,e') ∧ e'.Exact ∧
      e'.peerKey = update e.peerKey id (some cfg.key) := by
  have hnone : e.state.ids.nodeKeys cfg.key = none := h.index_eq_none.mpr hfree
  refine ⟨none,e.insertPeer id cfg,?_,?_,peerKey_update ..⟩
  · simp only [upsertPeer,hp,IdMap.addPeer,hnone,Option.isSome_none]
    rfl
  · rw [Exact,insertPeer,peerKey_update]
    exact Inverse.insert h hnone (by simp [peerKey,hp])

/-- The key of a live peer is changed without a look at the collision. -/
theorem Exact.upsertPeer_rekeys (h : e.Exact) (hr : e.Rekeys (.upsertPeer id cfg)) :
    ∃ old e', e.upsertPeer id cfg = .ok (old,e') := by
  obtain ⟨old,hold,hne,q,_,hq⟩ := hr
  obtain ⟨peer,hp,rfl⟩ := Option.map_eq_some_iff.mp hold
  have hindex : e.state.ids.nodeKeys peer.config.key = some id := (h _ id).mpr hold
  obtain ⟨ids,hids⟩ : ∃ ids,
      Endpoint.changeKey e.state.ids id peer.config.key cfg.key = .ok ids := by
    simp [Endpoint.changeKey,hne,IdMap.removePeer,hindex,Result.unwrapIn]
  exact ⟨_,_,by rw [upsertPeer,hp]; simp only [hids,Result.bind_of_ok]; rfl⟩

end Endpoint

namespace Machine
variable {m m' : Machine}

theorem exact_new (myKey : Noise.X25519KeyPair) : (Endpoint.new myKey).Exact := fun k p => by
  simp [Endpoint.peerId,Endpoint.peerKey,Endpoint.new,IdMap.default]

/-- Removing a peer from an exact index does not panic, and leaves an exact index. -/
theorem step_removePeer_exact (hs : m.IdsSound) (h : m.endpoint.Exact) (id : PeerId) :
    ∃ reply m', step (.removePeer id) m = .ok (reply,m') ∧ m'.endpoint.Exact ∧
      m'.endpoint.peerKey = update m.endpoint.peerKey id none := by
  have hfound : ∀ peer, m.start.peers id = some peer →
      m.start.state.ids.nodeKeys peer.config.key = none → False := by
    intro peer hp hnone
    have hindex : m.endpoint.peerId peer.config.key = some id :=
      (h _ id).mpr (peerKey_of_peers hp)
    rw [show m.endpoint.peerId peer.config.key = none from hnone] at hindex
    cases hindex
  have hremove : Ensures (fun _ => False) (Endpoint.removePeer id) m.start _ :=
    ensures_removePeer hs hfound
  rw [step,call]
  cases hrun : Endpoint.removePeer id m.start with
  | error p => exact (hremove.of_error hrun).elim
  | ok r =>
    obtain ⟨existed,c⟩ := r
    refine ⟨_,_,rfl,?_⟩
    rcases hremove.of_ok hrun with ⟨hnone,_,rfl⟩ | ⟨peer,hp,_,_,rfl⟩
    · refine ⟨h,?_⟩
      have hkey : m.endpoint.peerKey id = none := by
        rw [Endpoint.peerKey]
        exact Option.map_eq_none_iff.mpr hnone
      rw [← hkey,update_eq_self]
      rfl
    · refine ⟨?_,peerKey_update ..⟩
      rw [stop,Endpoint.Exact,peerKey_update]
      exact Inverse.remove h (peerKey_of_peers hp)

/-- The calls on an exact index that does not silently give away a key. -/
theorem step_exact (hs : m.IdsSound) (h : m.endpoint.Exact) (op : PeerOp)
    (hr : ¬ m.endpoint.Rekeys op.toOp) :
    (m.endpoint.Collides op.toOp → step op.toOp m = .error (.message "nodekey collision")) ∧
    (¬ m.endpoint.Collides op.toOp → ∃ reply m', step op.toOp m = .ok (reply,m') ∧
      m'.endpoint.Exact) := by
  cases op with
  | remove id =>
    obtain ⟨reply,m',hm',hexact,_⟩ := step_removePeer_exact hs h id
    exact ⟨fun hc => hc.elim,fun _ => ⟨reply,m',hm',hexact⟩⟩
  | upsert id cfg =>
    simp only [PeerOp.toOp,step]
    cases hp : m.endpoint.peers id with
    | some peer =>
      have hkey := peerKey_of_peers hp
      refine ⟨fun hcollides => ?_,fun hc => ?_⟩
      · obtain ⟨q,hq,hqkey⟩ := hcollides
        refine absurd ⟨_,hkey,fun heq => hq ?_,q,hq,hqkey⟩ hr
        exact Inverse.unique h hqkey (heq ▸ hkey)
      · obtain ⟨old,e',he',hexact,_⟩ := h.upsertPeer_live cfg hp fun _ q hq hqkey =>
          hc ⟨q,hq,hqkey⟩
        exact ⟨_,_,by rw [he']; rfl,hexact⟩
    | none =>
      have hkey : m.endpoint.peerKey id = none := by simp [Endpoint.peerKey,hp]
      refine ⟨fun hcollides => ?_,fun hc => ?_⟩
      · obtain ⟨q,-,hqkey⟩ := hcollides
        have hindex : m.endpoint.state.ids.nodeKeys cfg.key = some q := (h _ q).mpr hqkey
        simp [Endpoint.upsertPeer,hp,IdMap.addPeer,hindex]
      · obtain ⟨old,e',he',hexact,_⟩ := h.upsertPeer_new cfg hp fun q hqkey =>
          hc ⟨q,fun heq => by simp [heq,hkey] at hqkey,hqkey⟩
        exact ⟨_,_,by rw [he']; rfl,hexact⟩

/-- A call that inserts, updates or removes a peer. -/
def peerStep (op : PeerOp) : Machine → Result (Reply × Machine) := step op.toOp

/-- The index is exact in every state of a run, and the calls that panic are the upserts of a
key that a different live peer holds. -/
def IndexRight (ops : List PeerOp) (m : Machine) : Prop :=
  AtEveryState peerStep (fun m => m.endpoint.Exact) ops m ∧
  AtEveryCall peerStep (fun m op =>
    ((∃ p, peerStep op m = .error p) ↔ m.endpoint.Collides op.toOp) ∧
    (m.endpoint.Collides op.toOp → peerStep op m = .error (.message "nodekey collision"))) ops m

theorem indexRight_of_not_rekeys {ops : List PeerOp} (hs : m.IdsSound) (h : m.endpoint.Exact)
    (hr : AtEveryCall peerStep (fun m op => ¬ m.endpoint.Rekeys op.toOp) ops m) :
    IndexRight ops m := by
  refine atEvery_of_invariant (fun m => m.IdsSound ∧ m.endpoint.Exact) (fun m h => h.2) ?_ ops
    ⟨hs,h⟩ hr
  rintro m op ⟨hs,h⟩ hr
  obtain ⟨hpanic,hreturn⟩ := step_exact hs h op hr
  refine ⟨⟨⟨fun ⟨p,hp⟩ => ?_,fun hc => ⟨_,hpanic hc⟩⟩,hpanic⟩,fun reply m' hstep => ?_⟩
  · by_contra hc
    obtain ⟨reply,m',hok,_⟩ := hreturn hc
    rw [peerStep,hok] at hp
    cases hp
  · refine ⟨step_sound hs hstep,?_⟩
    by_cases hc : m.endpoint.Collides op.toOp
    · rw [peerStep,hpanic hc] at hstep
      cases hstep
    · obtain ⟨reply',m'',hok,hexact⟩ := hreturn hc
      rw [peerStep,hok] at hstep
      cases hstep
      exact hexact

theorem not_rekeys_of_indexRight {ops : List PeerOp} (h : IndexRight ops m) :
    AtEveryCall peerStep (fun m op => ¬ m.endpoint.Rekeys op.toOp) ops m := by
  induction ops generalizing m with
  | nil => trivial
  | cons op ops ih =>
    obtain ⟨⟨hexact,hstates⟩,⟨hpanics,_⟩,hcalls⟩ := h
    refine ⟨fun hr => ?_,fun reply m' hstep => ih ⟨hstates reply m' hstep,hcalls reply m' hstep⟩⟩
    cases op with
    | remove id => exact hr
    | upsert id cfg =>
      obtain ⟨old,e',hok⟩ := hexact.upsertPeer_rekeys hr
      obtain ⟨_,_,_,q,hq,hqkey⟩ := hr
      obtain ⟨p,hp⟩ := hpanics.mpr ⟨q,hq,hqkey⟩
      simp [peerStep,PeerOp.toOp,step,hok] at hp

end Machine

/-- The index of node keys is right along a run exactly if no call of it gives a live peer the
key of another live peer. -/
theorem node_key_index_right_iff (myKey : Noise.X25519KeyPair) (env : Env) (ops : List PeerOp) :
    Machine.IndexRight ops ⟨Endpoint.new myKey,env⟩ ↔
      AtEveryCall Machine.peerStep (fun m op => ¬ m.endpoint.Rekeys op.toOp) ops
        ⟨Endpoint.new myKey,env⟩ :=
  ⟨Machine.not_rekeys_of_indexRight,
    Machine.indexRight_of_not_rekeys (fun p peer h => by cases h) (Machine.exact_new myKey)⟩

end

/-- An environment that draws zeros, and ids from 1 on. -/
def Env.zeros : Env where
  instants := Stream'.const 0
  systemTimes := Stream'.const 0
  sessionIds n := UInt32.ofNat (n+1)
  ephemerals n := List.Vector.replicate 32 (UInt8.ofNat (n+1))
  orders := Stream'.const fun _ => 0
  fuel := 1

def sameBytes (b : UInt8) : Bytes 32 := List.Vector.replicate 32 b

/-- The packets to a peer that a run returns. -/
def sentTo [MacPrimitives] (p : PeerId) : Result (List Reply × Machine) → List Packet
  | .ok (replies,_) => replies.flatMap fun
    | .packets out => (out.toPeers p).getD []
    | _ => []
  | .error _ => []

/-- Peer 1 is given the key of peer 2. The call returns, the index does not know peer 1 under
its key any more, and once peer 1 is removed the removal of peer 2 panics. -/
theorem rekeyed_peer_corrupts_index :
    letI := sumMacs
    let m : Machine := ⟨Endpoint.new (.ofSecret (sameBytes 9)),Env.zeros⟩
    let cfg (b : UInt8) : PeerConfig := ⟨sameBytes b,sameBytes 0⟩
    let ops := [PeerOp.upsert 1 (cfg 1),.upsert 2 (cfg 2),.upsert 1 (cfg 2)]
    ¬ Machine.IndexRight ops m ∧
    runAll Machine.peerStep (ops ++ [.remove 1,.remove 2]) m = .error (.unwrapNoneIn "remove_peer") := by
  refine ⟨fun h => ?_,rfl⟩
  have hthird := ((h.2.2 _ _ rfl).2 _ _ rfl).1.2 ⟨2,by decide,rfl⟩
  cases hthird

section
attribute [local instance] sumMacs

/-- Two endpoints for runs, an initiator and a responder, who know each other as
peer 1. -/
def initiatorKey : Noise.X25519KeyPair := .ofSecret (sameBytes 9)

def responderKey : Noise.X25519KeyPair := .ofSecret (sameBytes 1)

/-- What the initiator sends when it is given data and then some answers. -/
def initiatorSends (answers : List Packet) : List Packet :=
  sentTo 1 (runAll Machine.step [.upsertPeer 1 ⟨responderKey.pub,sameBytes 0⟩,.send [(1,[[7]])],
    .recv answers] ⟨Endpoint.new initiatorKey,Env.zeros⟩)

end
end Tailnet.Wireguard

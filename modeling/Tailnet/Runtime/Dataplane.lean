import Tailnet.Runtime.FullUpdate
import Tailnet.Shadowvpn.RoundTrip
import Tailnet.Wireguard.NodeKeys

/-! The actor that installs the peers of the tracker into the tunnel. The upserts of an update
are applied before its deletions, so the tunnel follows the database as long as no peer takes a
key that another one had right before the update. -/
namespace Tailnet.Runtime
open Function List Result Option
open Wireguard (MacPrimitives PeerConfig)
open Control

section
variable [MacPrimitives]

inductive Tunnel
  | wireguard (m : Wireguard.Machine)
  | shadowvpn (e : Shadowvpn.Endpoint)

namespace Tunnel

def upsertPeer (id : PeerId) (cfg : PeerConfig) : Tunnel → Result Tunnel
  | wireguard m => do
    let (_,m) ← Wireguard.Machine.step (.upsertPeer id cfg) m
    return wireguard m
  | shadowvpn e => do
    let (_,e) ← e.upsertPeer id cfg
    return shadowvpn e

def removePeer (id : PeerId) : Tunnel → Result Tunnel
  | wireguard m => do
    let (_,m) ← Wireguard.Machine.step (.removePeer id) m
    return wireguard m
  | shadowvpn e => .ok (shadowvpn (e.removePeer id).2)

def peerKey : Tunnel → PeerId → Option NodePublicKey
  | wireguard m => m.endpoint.peerKey
  | shadowvpn e => e.peerKey

def Fresh : Tunnel → Prop
  | wireguard m => ∃ myKey, m.endpoint = .new myKey
  | shadowvpn e => ∃ c obfs, e = .withConfig c obfs

/-- The indices of the endpoint are right. -/
def Sound : Tunnel → Prop
  | wireguard m => m.IdsSound ∧ m.endpoint.Exact
  | shadowvpn e => e.Exact

variable {t : Tunnel} {id : PeerId}

theorem Fresh.sound (h : t.Fresh) : t.Sound ∧ ∀ p, t.peerKey p = none := by
  cases t with
  | wireguard m =>
    obtain ⟨myKey,hm⟩ := h
    have hpeers : ∀ p, m.endpoint.peers p = none := fun p => by rw [hm]; rfl
    refine ⟨⟨fun p peer hp => ?_,hm ▸ Wireguard.Machine.exact_new myKey⟩,fun p => ?_⟩
    · rw [hpeers] at hp
      cases hp
    · rw [peerKey,hm]
      rfl
  | shadowvpn e =>
    obtain ⟨c,obfs,rfl⟩ := h
    refine ⟨fun k p => ?_,fun p => rfl⟩
    exact ⟨fun h => (by cases h),fun h => by cases h⟩

/-- A peer is given a key that no other peer has. -/
theorem Sound.upsertPeer (h : t.Sound) (cfg : PeerConfig)
    (hfree : ∀ q, q ≠ id → t.peerKey q ≠ some cfg.key) :
    ∃ t', t.upsertPeer id cfg = .ok t' ∧ t'.Sound ∧
      t'.peerKey = update t.peerKey id (some cfg.key) := by
  cases t with
  | wireguard m =>
    obtain ⟨hs,hexact⟩ := h
    have hupsert : ∃ old e', m.endpoint.upsertPeer id cfg = .ok (old,e') ∧ e'.Exact ∧
        e'.peerKey = update m.endpoint.peerKey id (some cfg.key) := by
      cases hp : m.endpoint.peers id with
      | some peer => exact hexact.upsertPeer_live cfg hp fun _ => hfree
      | none =>
        refine hexact.upsertPeer_new cfg hp fun q hq => ?_
        by_cases heq : q = id
        · simp [heq,Wireguard.Endpoint.peerKey,hp] at hq
        · exact hfree q heq hq
    obtain ⟨old,e',he',hexact',hkeys⟩ := hupsert
    have hstep : Wireguard.Machine.step (.upsertPeer id cfg) m =
        .ok (.upserted old,{ m with endpoint := e' }) := by
      rw [Wireguard.Machine.step,he']
      rfl
    refine ⟨.wireguard { m with endpoint := e' },by rw [Tunnel.upsertPeer,hstep]; rfl,
      ⟨?_,hexact'⟩,hkeys⟩
    exact Wireguard.Machine.step_sound hs hstep
  | shadowvpn e =>
    obtain ⟨old,e',he',hexact',hkeys⟩ := Shadowvpn.Endpoint.Exact.upsertPeer h cfg hfree
    exact ⟨.shadowvpn e',by rw [Tunnel.upsertPeer,he']; rfl,hexact',hkeys⟩

theorem Sound.removePeer (h : t.Sound) (id : PeerId) :
    ∃ t', t.removePeer id = .ok t' ∧ t'.Sound ∧ t'.peerKey = update t.peerKey id none := by
  cases t with
  | wireguard m =>
    obtain ⟨hs,hexact⟩ := h
    obtain ⟨reply,m',hm',hexact',hkeys⟩ := Wireguard.Machine.step_removePeer_exact hs hexact id
    refine ⟨.wireguard m',by rw [Tunnel.removePeer,hm']; rfl,⟨?_,hexact'⟩,hkeys⟩
    exact Wireguard.Machine.step_sound hs hm'
  | shadowvpn e =>
    obtain ⟨hexact',hkeys⟩ := Shadowvpn.Endpoint.Exact.removePeer h id
    exact ⟨_,rfl,hexact',hkeys⟩

end Tunnel

/-- The configuration with which a node is installed: no key is shared with it beforehand. -/
def peerConfig (node : Node) : PeerConfig := ⟨node.nodeKey,List.Vector.replicate 32 0⟩

variable [IpNetOps]

/-- Apply an update of the tracker to the tunnel. -/
def Tunnel.applyPeerState (order : IterOrder PeerId) (msg : PeerState) (t : Tunnel) : Result Tunnel := do
  let t ← (order.list msg.upserts).foldlM (fun t upsert => do
    let (_,node) ← Result.unwrap (← msg.peers.get (.peerId upsert))
    t.upsertPeer upsert (peerConfig node)) t
  (order.list msg.deletions).foldlM (fun t delete => t.removePeer delete) t

namespace Tunnel
variable {t : Tunnel} {db : PeerDb} {keys : PeerId → Option NodePublicKey}

/-- The node keys of a database, by peer. -/
def dbKeys (db : PeerDb) (p : PeerId) : Option NodePublicKey := (db.peers p).map Node.nodeKey

omit [MacPrimitives] in
theorem get_peerId {p : PeerId} {node : Node} (h : db.peers p = some node) :
    db.get (.peerId p) = .ok (some (p,node)) := by
  simp [PeerDb.get,PeerDb.lookup,h]

/-- Live peers are upserted in any order, if none of them takes a key that another peer has in
the tunnel or in the database. -/
theorem upserts_spec (ups : List PeerId) (hlive : ∀ p ∈ ups, ∃ node, db.peers p = some node)
    (hunique : ∀ p q k, dbKeys db p = some k → dbKeys db q = some k → p = q) (h : t.Sound)
    (hfree : ∀ p q k, dbKeys db p = some k → t.peerKey q = some k → q = p) :
    ∃ t', ups.foldlM (fun t upsert => do
        let (_,node) ← Result.unwrap (← db.get (.peerId upsert))
        upsertPeer upsert (peerConfig node) t) t = .ok t' ∧ t'.Sound ∧
      ∀ p, t'.peerKey p = if p ∈ ups then dbKeys db p else t.peerKey p := by
  induction ups generalizing t with
  | nil => exact ⟨t,rfl,h,fun p => by simp⟩
  | cons id ups ih =>
    obtain ⟨node,hnode⟩ := hlive id mem_cons_self
    have hkey : dbKeys db id = some node.nodeKey := by rw [dbKeys,hnode]; rfl
    have hother : ∀ q, q ≠ id → t.peerKey q ≠ some node.nodeKey := fun q hq hqkey =>
      hq (hfree id q node.nodeKey hkey hqkey)
    obtain ⟨t1,ht1,hs1,hkeys1⟩ := h.upsertPeer (peerConfig node) hother
    have hfree1 : ∀ p q k, dbKeys db p = some k → t1.peerKey q = some k → q = p := by
      intro p q k hp hq
      rw [hkeys1] at hq
      by_cases heq : q = id
      · rw [heq,update_self] at hq
        cases hq
        exact heq.trans (hunique id p _ hkey hp)
      · rw [update_of_ne heq] at hq
        exact hfree p q k hp hq
    obtain ⟨t2,ht2,hs2,hkeys2⟩ := ih (fun p hp => hlive p (mem_cons_of_mem _ hp)) hs1 hfree1
    refine ⟨t2,?_,hs2,fun p => ?_⟩
    · rw [foldlM_cons]
      simp only [get_peerId hnode,bind_of_ok,unwrap_some,ht1]
      exact ht2
    · rw [hkeys2 p,hkeys1]
      by_cases heq : p = id
      · subst heq
        simp [hkey,peerConfig]
      · simp [heq]

omit [IpNetOps] in
theorem deletions_spec (dels : List PeerId) (h : t.Sound) :
    ∃ t', dels.foldlM (fun t delete => removePeer delete t) t = .ok t' ∧ t'.Sound ∧
      ∀ p, t'.peerKey p = if p ∈ dels then none else t.peerKey p := by
  induction dels generalizing t with
  | nil => exact ⟨t,rfl,h,fun p => by simp⟩
  | cons id dels ih =>
    obtain ⟨t1,ht1,hs1,hkeys1⟩ := h.removePeer id
    obtain ⟨t2,ht2,hs2,hkeys2⟩ := ih hs1
    refine ⟨t2,by rw [foldlM_cons,ht1]; exact ht2,hs2,fun p => ?_⟩
    rw [hkeys2 p,hkeys1]
    by_cases heq : p = id
    · simp [heq]
    · simp [heq]

omit [MacPrimitives] in
theorem dbKeys_unique (h : db.Ok false False) (p q : PeerId) (k : NodePublicKey)
    (hp : dbKeys db p = some k) (hq : dbKeys db q = some k) : p = q := by
  obtain ⟨a,ha,hak⟩ := map_eq_some_iff.mp hp
  obtain ⟨b,hb,hbk⟩ := map_eq_some_iff.mp hq
  exact h.eq_of_owns (k := .nodeKey k) ha hak.symm hb hbk.symm

/-- A tunnel that has the keys of the database before an update has the keys of the database
after it. -/
theorem applyPeerState_spec (order : IterOrder PeerId) {msg : PeerState} (h : t.Sound)
    (hkeys : t.peerKey = dbKeys db) (hok : msg.peers.Ok false False)
    (hpub : msg.peers.Published db.peers msg.deletions msg.upserts)
    (hfree : ∀ p q k, dbKeys msg.peers p = some k → dbKeys db q = some k → q = p) :
    ∃ t', t.applyPeerState order msg = .ok t' ∧ t'.Sound ∧ t'.peerKey = dbKeys msg.peers := by
  obtain ⟨t1,ht1,hs1,hkeys1⟩ := upserts_spec (order.list msg.upserts)
    (fun p hp => hpub.live p ((order.mem_list _ p).mp hp)) (dbKeys_unique hok) h (hkeys ▸ hfree)
  obtain ⟨t2,ht2,hs2,hkeys2⟩ := deletions_spec (order.list msg.deletions) hs1
  refine ⟨t2,by rw [applyPeerState,ht1]; exact ht2,hs2,?_⟩
  funext p
  simp only [hkeys2,hkeys1,hkeys,order.mem_list]
  by_cases hdel : p ∈ msg.deletions
  · rw [if_pos hdel,dbKeys,(hpub.gone p hdel).1]
    rfl
  · rw [if_neg hdel]
    by_cases hup : p ∈ msg.upserts
    · rw [if_pos hup]
    · rw [if_neg hup,dbKeys,dbKeys,hpub.kept p hup,if_neg hdel]

end Tunnel

/-- No node of an update has a key that another peer had right before it. A node that was deleted
and comes back is another peer. -/
def NodeSet.KeysStay (s : Set Node) (upd : PeerUpdate) : Prop :=
  ∀ old ∈ s, ∀ new ∈ apply s upd, new.nodeKey = old.nodeKey →
    new.stableId = old.stableId ∧ old ∈ survivors s upd

/-- The tracker and the tunnel that follows it. -/
structure Peering where
  tracker : PeerTracker
  tunnel : Tunnel

namespace Peering

/-- A message to the tracker, and the order in which the sets that it publishes are iterated. -/
structure Call where
  order : IterOrder PeerId
  message : PeerTracker.Call

/-- The tracker handles a message, and the data plane what the tracker publishes. -/
def step (c : Call) (s : Peering) : Result (PeerTracker.Output × Peering) := do
  let (out,tracker) ← PeerTracker.step c.message s.tracker
  match out with
  | .published (some msg) _ =>
    let tunnel ← s.tunnel.applyPeerState c.order msg
    return (out,⟨tracker,tunnel⟩)
  | _ => return (out,{ s with tracker })

/-- The tunnel has the keys of the database. -/
def Follows (s : Peering) : Prop := ∀ p, s.tunnel.peerKey p = (s.tracker.peerDb.peers p).map Node.nodeKey

/-- The data plane applies what the tracker publishes without a panic. -/
def Applies (s : Peering) (c : Call) : Prop :=
  ∀ out tracker, PeerTracker.step c.message s.tracker = .ok (out,tracker) →
    ∃ tunnel, step c s = .ok (out,⟨tracker,tunnel⟩)

/-- The update keeps the fields of the nodes unique in each of its steps, and no node has a key
that another peer had right before it. -/
def Call.KeepsKeys (s : Peering) (c : Call) : Prop :=
  PeerTracker.Call.Keeps s.tracker c.message ∧
    ∀ rank upd, c.message = .update rank (some upd) → NodeSet.KeysStay s.tracker.peerDb.liveNodes upd

structure Good (s : Peering) : Prop where
  ok : s.tracker.peerDb.Ok false False
  sound : s.tunnel.Sound
  follows : s.Follows

omit [MacPrimitives] in
theorem keys_free {db : PeerDb} {upd : PeerUpdate} {state : PeerState}
    (hok : state.peers.Ok false False)
    (hlive : state.peers.liveNodes = NodeSet.apply db.liveNodes upd)
    (hpub : state.peers.Published db.peers state.deletions state.upserts)
    (hgone : ∀ p ∈ state.deletions, ∀ old, db.peers p = some old →
      old ∉ NodeSet.survivors db.liveNodes upd)
    (hstay : NodeSet.KeysStay db.liveNodes upd) (p q : PeerId) (k : NodePublicKey)
    (hp : Tunnel.dbKeys state.peers p = some k) (hq : Tunnel.dbKeys db q = some k) : q = p := by
  obtain ⟨new,hnew,hnewKey⟩ := map_eq_some_iff.mp hp
  obtain ⟨old,hold,holdKey⟩ := map_eq_some_iff.mp hq
  have hmem : new ∈ NodeSet.apply db.liveNodes upd := hlive ▸ ⟨p,hnew⟩
  obtain ⟨hstable,hsurvives⟩ := hstay old ⟨q,hold⟩ new hmem (hnewKey.trans holdKey.symm)
  have hkept : q ∉ state.deletions := fun hdel => hgone q hdel old hold hsurvives
  obtain ⟨node,hnode,hnodeStable⟩ := hpub.same q old hold hkept
  exact hok.eq_of_stableId hnode hnew (hnodeStable.trans hstable.symm)

/-- One message keeps the tunnel in step. -/
theorem Good.step {s : Peering} (h : s.Good) (c : Call) (hc : c.KeepsKeys s) :
    s.Applies c ∧ ∀ out s', Peering.step c s = .ok (out,s') → s'.Good := by
  obtain ⟨order,message⟩ := c
  cases message with
  | update rank peerUpdate =>
    cases peerUpdate with
    | none =>
      refine ⟨fun out tracker ht => ⟨s.tunnel,?_⟩,fun out s' hs' => ?_⟩
      · cases ht
        rfl
      · cases hs'
        exact ⟨h.ok,h.sound,h.follows⟩
    | some upd =>
      rcases PeerTracker.applyUpdate_live h.ok rank hc.1 with
        ⟨_,state,hstate,hok,hlive,hpub,hgone⟩ | ⟨_,herr⟩
      · obtain ⟨replies,t',ht',hdb⟩ := PeerTracker.step_update_ok hstate hok
        have hfree := keys_free hok hlive hpub hgone (hc.2 rank upd rfl)
        obtain ⟨tunnel,htunnel,hsound,hkeys⟩ :=
          Tunnel.applyPeerState_spec order h.sound (funext h.follows) hok hpub hfree
        have hstep : Peering.step ⟨order,.update rank (some upd)⟩ s =
            .ok (.published (some state) replies,⟨t',tunnel⟩) := by
          simp only [Peering.step,ht',bind_of_ok,htunnel]
          rfl
        refine ⟨fun out tracker ht => ?_,fun out s' hs' => ?_⟩
        · rw [ht'] at ht
          cases ht
          exact ⟨tunnel,hstep⟩
        · rw [hstep] at hs'
          cases hs'
          refine ⟨?_,hsound,fun p => ?_⟩
          · change t'.peerDb.Ok false False
            rw [hdb]
            exact hok
          · change tunnel.peerKey p = (t'.peerDb.peers p).map Node.nodeKey
            rw [hkeys,hdb]
            rfl
      · have herr' : PeerTracker.step (.update rank (some upd)) s.tracker =
            .error (.message "no matching peer for update") := by
          simp only [PeerTracker.step,PeerTracker.handle,herr,bind_of_error]
        refine ⟨fun out tracker ht => ?_,fun out s' hs' => ?_⟩
        · rw [herr'] at ht
          cases ht
        · simp only [Peering.step,herr',bind_of_error] at hs'
          cases hs'
  | request req =>
    have hreq : ∀ out tracker, PeerTracker.step (.request req) s.tracker = .ok (out,tracker) →
        Peering.step ⟨order,.request req⟩ s = .ok (out,⟨tracker,s.tunnel⟩) ∧
          tracker.peerDb = s.tracker.peerDb := by
      intro out tracker ht
      obtain ⟨⟨reply,t'⟩,hrequest,heq⟩ := bind_eq_ok.mp ht
      cases heq
      refine ⟨by simp only [Peering.step,ht,bind_of_ok]; rfl,?_⟩
      rw [PeerTracker.request] at hrequest
      split at hrequest
      · obtain ⟨_,_,heq⟩ := bind_eq_ok.mp hrequest
        cases heq
        rfl
      · cases hrequest
        rfl
    refine ⟨fun out tracker ht => ⟨s.tunnel,(hreq out tracker ht).1⟩,fun out s' hs' => ?_⟩
    obtain ⟨⟨out',tracker⟩,ht,_⟩ := bind_eq_ok.mp hs'
    obtain ⟨hstep,hdb⟩ := hreq out' tracker ht
    rw [hstep] at hs'
    cases hs'
    refine ⟨?_,h.sound,fun p => ?_⟩
    · change tracker.peerDb.Ok false False
      rw [hdb]
      exact h.ok
    · change s.tunnel.peerKey p = (tracker.peerDb.peers p).map Node.nodeKey
      rw [hdb]
      exact h.follows p

/-- In every run whose updates keep the fields of the nodes unique in each step, and in which no
node takes a key that another peer had right before the update, the data plane applies every
update and the tunnel has the keys of the database. -/
theorem tunnel_follows_peerDb {tunnel : Tunnel} (hfresh : tunnel.Fresh) (calls : List Call)
    (hcalls : AtEveryCall step (fun s c => c.KeepsKeys s) calls ⟨.start,tunnel⟩) :
    AtEveryState step Follows calls ⟨.start,tunnel⟩ ∧
      AtEveryCall step Applies calls ⟨.start,tunnel⟩ := by
  obtain ⟨hsound,hnone⟩ := hfresh.sound
  have hgood : Good ⟨.start,tunnel⟩ := ⟨PeerDb.ok_empty,hsound,hnone⟩
  exact atEvery_of_invariant Good (fun s h => h.follows) (fun s c h hc => h.step c hc) calls hgood hcalls

end Peering

section Attribution
open Shadowvpn (Endpoint Cipher Obfuscator)

/-- Every peer is installed with the same pre-shared key. -/
def Tunnel.ZeroKeyed : Tunnel → Prop
  | wireguard _ => True
  | shadowvpn e => ∀ id peer, e.peers.get id = some peer → peer.config.psk = List.Vector.replicate 32 0

omit [IpNetOps] in
theorem Tunnel.ZeroKeyed.upsertPeer {t t' : Tunnel} (h : t.ZeroKeyed) {id : PeerId} {node : Node}
    (ht : t.upsertPeer id (peerConfig node) = .ok t') : t'.ZeroKeyed := by
  cases t with
  | wireguard m =>
    obtain ⟨_,_,heq⟩ := bind_eq_ok.mp ht
    cases heq
    trivial
  | shadowvpn e =>
    have hput : ∀ byKey, (Tunnel.shadowvpn (e.putPeer id (peerConfig node) byKey)).ZeroKeyed := by
      intro byKey p peer hp
      rw [Endpoint.putPeer,Assoc.get_insert] at hp
      by_cases heq : p = id
      · rw [if_pos heq] at hp
        cases hp
        rfl
      · rw [if_neg heq] at hp
        exact h p peer hp
    obtain ⟨⟨old,e'⟩,he',heq⟩ := bind_eq_ok.mp ht
    cases heq
    rw [Endpoint.upsertPeer] at he'
    split at he'
    · cases he'
    · cases hid : e.peers.get id with
      | none =>
        rw [hid] at he'
        cases he'
        exact hput _
      | some peer =>
        rw [hid] at he'
        cases he'
        exact hput _

omit [IpNetOps] in
theorem Tunnel.ZeroKeyed.removePeer {t t' : Tunnel} (h : t.ZeroKeyed) {id : PeerId}
    (ht : t.removePeer id = .ok t') : t'.ZeroKeyed := by
  cases t with
  | wireguard m =>
    obtain ⟨_,_,heq⟩ := bind_eq_ok.mp ht
    cases heq
    trivial
  | shadowvpn e =>
    cases ht
    intro p peer hp
    rw [Endpoint.removePeer] at hp
    cases hid : e.peers.get id with
    | none =>
      rw [hid] at hp
      exact h p peer hp
    | some old =>
      rw [hid] at hp
      simp only [Assoc.get_erase] at hp
      split at hp
      · cases hp
      · exact h p peer hp

theorem Tunnel.ZeroKeyed.applyPeerState {t t' : Tunnel} (h : t.ZeroKeyed) {order : IterOrder PeerId}
    {msg : PeerState} (ht : t.applyPeerState order msg = .ok t') : t'.ZeroKeyed := by
  obtain ⟨t1,ht1,ht'⟩ := bind_eq_ok.mp ht
  have h1 : t1.ZeroKeyed := by
    refine foldlM_keeps (fun t id t' ht hstep => ?_) h ht1
    obtain ⟨found,_,hrest⟩ := bind_eq_ok.mp hstep
    obtain ⟨⟨_,node⟩,_,hup⟩ := bind_eq_ok.mp hrest
    exact ht.upsertPeer hup
  exact foldlM_keeps (fun t id t' ht hstep => ht.removePeer hstep) h1 ht'

/-- Apply what the tracker publishes, one update after the other. -/
def Tunnel.applyAll (msgs : List (IterOrder PeerId × PeerState)) (t : Tunnel) : Result Tunnel :=
  msgs.foldlM (fun t msg => t.applyPeerState msg.1 msg.2) t

omit [IpNetOps] in
theorem Tunnel.ZeroKeyed.masterKey {e : Endpoint} (h : (Tunnel.shadowvpn e).ZeroKeyed) (id : PeerId)
    (peer : Shadowvpn.Peer) (hid : e.peers.get id = some peer) :
    peer.masterKey = (List.replicate 32 0).take e.cipher.keyLen := by
  rw [e.peers_new id peer hid,Shadowvpn.Peer.new,h id peer hid]
  rfl

/-- The peers that are installed into an endpoint are told apart by their keys, and packets are
attributed to the peer that sealed them, exactly if at most one peer is installed. -/
theorem attribution_iff_one_peer [Shadowvpn.AeadPrimitives] (c : Cipher) (obfs : Obfuscator)
    (msgs : List (IterOrder PeerId × PeerState)) (e : Endpoint)
    (h : (Tunnel.shadowvpn (.withConfig c obfs)).applyAll msgs = .ok (.shadowvpn e)) :
    (e.Attributes ↔ ∀ p q, e.peerKey p ≠ none → e.peerKey q ≠ none → p = q) ∧
      (e.DistinctKeys ↔ ∀ p q, e.peerKey p ≠ none → e.peerKey q ≠ none → p = q) := by
  have hfresh : (Tunnel.shadowvpn (.withConfig c obfs)).ZeroKeyed := fun id peer hid => by cases hid
  have hzero : (Tunnel.shadowvpn e).ZeroKeyed :=
    foldlM_keeps (fun t msg t' ht hstep => ht.applyPeerState hstep) hfresh h
  have hlive : ∀ {p}, e.peerKey p ≠ none → ∃ peer, e.peers.get p = some peer := by
    intro p hp
    obtain ⟨key,hkey⟩ := ne_none_iff_exists'.mp hp
    obtain ⟨peer,hpeer,_⟩ := map_eq_some_iff.mp hkey
    exact ⟨peer,hpeer⟩
  have hdistinct : (∀ p q, e.peerKey p ≠ none → e.peerKey q ≠ none → p = q) → e.DistinctKeys :=
    fun hone p q peer peer' hp hq _ =>
      hone p q (by simp [Endpoint.peerKey,hp]) (by simp [Endpoint.peerKey,hq])
  refine ⟨⟨fun hattr p q hp hq => ?_,fun hone => (hdistinct hone).attributes⟩,
    fun hkeys p q hp hq => ?_,hdistinct⟩
  · obtain ⟨peer,hpeer⟩ := hlive hp
    obtain ⟨peer',hpeer'⟩ := hlive hq
    by_contra hne
    exact Endpoint.not_attributes_of_equal_keys hzero.masterKey hpeer hpeer' hne hattr
  · obtain ⟨peer,hpeer⟩ := hlive hp
    obtain ⟨peer',hpeer'⟩ := hlive hq
    exact hkeys p q peer peer' hpeer hpeer'
      ((hzero.masterKey p peer hpeer).trans (hzero.masterKey q peer' hpeer').symm)

end Attribution
end

section
attribute [local instance] maskOps Wireguard.sumMacs Shadowvpn.keyTagged
open FullUpdate

def byId : IterOrder PeerId := .byRank UInt32.toNat fun _ _ => UInt32.toNat_inj.mp

def Peering.netmap (nodes : List Node) : Peering.Call := ⟨byId,.update (fun _ => 0) (some (.full nodes))⟩

def freshWireguard : Tunnel := .wireguard ⟨.new (.ofSecret (Wireguard.sameBytes 9)),Wireguard.Env.zeros⟩

def freshShadowvpn : Tunnel := .shadowvpn (.withConfig .chaCha20Poly1305 .none)

theorem fitAll_single {s : Set Node} {node : Node} (hnets : (routeNets node).Nodup) :
    NodeSet.FitAll false (NodeSet.retain s [node.stableId]) [node] :=
  ⟨⟨fun _ hold hne => absurd (mem_singleton.mp hold.2) hne,hnets⟩,trivial⟩

/-- A node is gone and its key has a new owner. The fields are unique before and after the update
and in each step of it, but either endpoint still has the old owner when the new one comes. -/
theorem Peering.reused_key_panics :
    let Panics (tunnel : Tunnel) : Prop :=
      AtEveryCall step (fun s c => PeerTracker.Call.Keeps s.tracker c.message)
        [netmap [withKey "a" 1 1],netmap [withKey "b" 2 1]] ⟨.start,tunnel⟩ ∧
      runAll step [netmap [withKey "a" 1 1],netmap [withKey "b" 2 1]] ⟨.start,tunnel⟩ =
        .error (.message "nodekey collision")
    Panics freshWireguard ∧ Panics freshShadowvpn := by
  have hnext : ∀ tunnel ∈ [freshWireguard,freshShadowvpn],
      ((step (netmap [withKey "a" 1 1]) ⟨.start,tunnel⟩).toOption.map
        fun r => r.2.tracker.peerDb.nextId) = some 1 := by
    simp only [forall_mem_cons]
    refine ⟨?_,?_,by simp⟩
    · decide +kernel
    · decide +kernel
  have hpanic : ∀ tunnel ∈ [freshWireguard,freshShadowvpn],
      runAll step [netmap [withKey "a" 1 1],netmap [withKey "b" 2 1]] ⟨.start,tunnel⟩ =
        .error (.message "nodekey collision") := by
    simp only [forall_mem_cons]
    refine ⟨?_,?_,by simp⟩
    · exact eq_error_of_panic (by decide +kernel)
    · exact eq_error_of_panic (by decide +kernel)
  intro Panics
  have hpanics : ∀ tunnel ∈ [freshWireguard,freshShadowvpn], Panics tunnel := by
    refine fun tunnel htunnel => ⟨⟨⟨fitAll_single nodup_nil,?_⟩,fun o s' hs' => ?_⟩,
      hpanic tunnel htunnel⟩
    · change 0 + 1 < 2^32
      decide
    have hid := hnext tunnel htunnel
    rw [hs'] at hid
    have hid : s'.tracker.peerDb.nextId = 1 := Option.some.inj hid
    refine ⟨⟨fitAll_single nodup_nil,?_⟩,fun _ _ _ => trivial⟩
    rw [hid]
    decide
  exact ⟨hpanics _ mem_cons_self,hpanics _ (mem_cons_of_mem _ mem_cons_self)⟩

/-- A node comes and goes. -/
theorem Peering.tunnel_follows_peerDb_one_node :
    AtEveryState step Follows [netmap [withKey "a" 1 1],netmap []] ⟨.start,freshShadowvpn⟩ ∧
      AtEveryCall step Applies [netmap [withKey "a" 1 1],netmap []] ⟨.start,freshShadowvpn⟩ := by
  have hfirst : (netmap [withKey "a" 1 1]).KeepsKeys ⟨.start,freshShadowvpn⟩ := by
    refine ⟨⟨fitAll_single nodup_nil,by decide⟩,fun rank upd _ old hold => ?_⟩
    rw [PeerTracker.start,PeerTracker.liveNodes_empty] at hold
    exact absurd hold (Set.notMem_empty old)
  have hfresh : freshShadowvpn.Fresh := ⟨_,_,rfl⟩
  refine tunnel_follows_peerDb hfresh _ ⟨hfirst,fun o s' hs' => ⟨⟨⟨trivial,?_⟩,fun rank upd heq old _ new hnew => ?_⟩,fun _ _ _ => trivial⟩⟩
  · have hgood : Good ⟨.start,freshShadowvpn⟩ := ⟨PeerDb.ok_empty,hfresh.sound.1,hfresh.sound.2⟩
    exact ((hgood.step _ hfirst).2 o s' hs').ok.small
  · cases heq
    exact absurd hnew.2 not_mem_nil

def installed (nodes : List Node) : Result Tunnel := do
  let state ← PeerTracker.applyUpdate (fun _ => 0) .empty (.full nodes)
  freshShadowvpn.applyAll [(byId,state)]

/-- The ids and master keys of the peers of an endpoint. -/
def installedKeys : Tunnel → List (PeerId × List UInt8)
  | .shadowvpn e => e.peers.entries.map fun x => (x.1,x.2.masterKey)
  | .wireguard _ => []

theorem mem_installedKeys {e : Shadowvpn.Endpoint} {id : PeerId} {peer : Shadowvpn.Peer}
    (h : e.peers.get id = some peer) : (id,peer.masterKey) ∈ installedKeys (.shadowvpn e) :=
  mem_map.mpr ⟨(id,peer),Assoc.mem_entries.mpr h,rfl⟩

/-- Two nodes are installed with one master key, and packets are delivered under the wrong one. -/
theorem two_nodes_share_key :
    ∃ e, installed [withKey "a" 1 1,withKey "b" 2 2] = .ok (.shadowvpn e) ∧
      ¬ e.Attributes ∧ ¬ e.DistinctKeys := by
  obtain ⟨t,ht,hkeys⟩ : ∃ t, installed [withKey "a" 1 1,withKey "b" 2 2] = .ok t ∧
      installedKeys t = [(1,List.replicate 32 0),(0,List.replicate 32 0)] :=
    exists_ok_of_any (by decide +kernel)
  cases t with
  | wireguard m => cases hkeys
  | shadowvpn e =>
    have hmem : ∀ x ∈ [(1,List.replicate 32 0),(0,List.replicate 32 (0 : UInt8))],
        ∃ peer, e.peers.get x.1 = some peer ∧ peer.masterKey = x.2 := by
      intro x hx
      rw [← hkeys] at hx
      obtain ⟨⟨id,peer⟩,hentry,rfl⟩ := mem_map.mp hx
      exact ⟨peer,Assoc.mem_entries.mp hentry,rfl⟩
    have hall : ∀ id peer, e.peers.get id = some peer → peer.masterKey = List.replicate 32 0 := by
      intro id peer hid
      have hx := mem_installedKeys hid
      rw [hkeys] at hx
      simp only [mem_cons,Prod.mk.injEq,not_mem_nil,or_false] at hx
      exact hx.elim And.right And.right
    obtain ⟨peer,hpeer,hkey⟩ := hmem (1,_) mem_cons_self
    obtain ⟨peer',hpeer',hkey'⟩ := hmem (0,_) (mem_cons_of_mem _ mem_cons_self)
    have hne : (1 : PeerId) ≠ 0 := by decide
    refine ⟨e,ht,Shadowvpn.Endpoint.not_attributes_of_equal_keys hall hpeer hpeer' hne,fun hdistinct => ?_⟩
    exact hne (hdistinct 1 0 peer peer' hpeer hpeer' (hkey.trans hkey'.symm))

/-- A single node is installed. -/
theorem attribution_iff_one_peer_single :
    ∃ e, installed [withKey "a" 1 1] = .ok (.shadowvpn e) ∧ e.Attributes ∧ e.DistinctKeys := by
  obtain ⟨t,ht,hkeys⟩ : ∃ t, installed [withKey "a" 1 1] = .ok t ∧
      installedKeys t = [(0,List.replicate 32 0)] :=
    exists_ok_of_any (by decide +kernel)
  cases t with
  | wireguard m => cases hkeys
  | shadowvpn e =>
    obtain ⟨state,_,hstate⟩ := bind_eq_ok.mp ht
    obtain ⟨hattr,hdistinct⟩ := attribution_iff_one_peer .chaCha20Poly1305 .none [(byId,state)] e hstate
    have hone : ∀ p, e.peerKey p ≠ none → p = 0 := by
      intro p hp
      obtain ⟨key,hkey⟩ := ne_none_iff_exists'.mp hp
      obtain ⟨peer,hpeer,_⟩ := map_eq_some_iff.mp hkey
      have hx := mem_installedKeys hpeer
      rw [hkeys] at hx
      exact (Prod.mk.inj (mem_singleton.mp hx)).1
    have hsame : ∀ p q, e.peerKey p ≠ none → e.peerKey q ≠ none → p = q := fun p q hp hq =>
      (hone p hp).trans (hone q hq).symm
    exact ⟨e,ht,hattr.mpr hsame,hdistinct.mpr hsame⟩

end
end Tailnet.Runtime

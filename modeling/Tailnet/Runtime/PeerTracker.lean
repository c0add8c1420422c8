import Tailnet.Control.MapStream
import Tailnet.Runtime.PeerDbRuns

/-! The actor that keeps the peer database up to date with the updates of the control
plane and answers requests about peers. Over it, what updates do to the set of live nodes. -/
namespace Tailnet.Runtime
open Control Function List Result PeerDb

/-- A request that waits for the first update. -/
inductive Pending
  | peerByName (name : String)
  | acceptedRoute (ip : IpAddr)
  | tailnetIp (ip : IpAddr)

inductive Reply
  | node (node : Option Node)
  | nodes (nodes : List Node)

structure PeerTracker where
  peerDb : PeerDb
  seenStateUpdate : Bool
  pendingRequests : List Pending

/-- What the tracker publishes after an update. -/
structure PeerState where
  deletions : Finset PeerId
  upserts : Finset PeerId
  peers : PeerDb

namespace PeerTracker

def start : PeerTracker := ⟨.empty,false,[]⟩

/-- `trim_end_matches('.')`. -/
def trimDots (name : String) : String :=
  String.ofList (name.toList.reverse.dropWhile (· == '.')).reverse

def hostNet (ip : IpAddr) : IpNet := .host ip

variable [IpNetOps]

def answer (db : PeerDb) : Pending → Result Reply
  | .peerByName name => do
    let found ← db.get (.name (trimDots name))
    return .node (found.map Prod.snd)
  | .acceptedRoute ip => do
    let found ← db.getRoute (hostNet ip)
    return .nodes (found.map Prod.snd)
  | .tailnetIp ip => do
    let found ← db.get (.ip ip)
    return .node (found.map Prod.snd)

/-- A request is answered at once or, before the first update, later. -/
def request (t : PeerTracker) (req : Pending) : Result (Option Reply × PeerTracker) :=
  if t.seenStateUpdate then do
    let reply ← answer t.peerDb req
    return (some reply,t)
  else
    .ok (none,{ t with pendingRequests := t.pendingRequests ++ [req] })

def servicePendingRequests (t : PeerTracker) : Result (List Reply × PeerTracker) :=
  if t.seenStateUpdate then
    .ok ([],t)
  else do
    let replies ← t.pendingRequests.mapM (answer t.peerDb)
    return (replies,{ t with seenStateUpdate := true, pendingRequests := [] })

def upsertAll (nodes : List Node) (upserts : Finset PeerId) (db : PeerDb) :
    Result (Finset PeerId × PeerDb) :=
  nodes.foldlM (fun (upserts,db) node => do
    let (id,db) ← db.upsert node
    return (insert id upserts,db)) (upserts,db)

def removeAll (ids : List NodeId) (deletions : Finset PeerId) (db : PeerDb) :
    Result (Finset PeerId × PeerDb) :=
  ids.foldlM (fun (deletions,db) peer => do
    match ← db.remove (.nodeId peer) with
    -- an unknown peer is only logged
    | (none,db) => return (deletions,db)
    | (some (id,_),db) => return (insert id deletions,db)) (deletions,db)

def patchAll (updates : List NodeUpdate) (upserts : Finset PeerId) (db : PeerDb) :
    Result (Finset PeerId × PeerDb) :=
  updates.foldlM (fun (upserts,db) u => do
    let (id,db) ← db.patch u
    return (insert id upserts,db)) (upserts,db)

/-- Whether a peer is in the new list; the others are noted as deletions. -/
def retains (newIds : List StableNodeId) (id : PeerId) (peer : Node) (deletions : Finset PeerId) :
    Bool × Finset PeerId :=
  let retain := newIds.contains peer.stableId
  (retain,if retain then deletions else insert id deletions)

/-- The database after an update. `rank` is the order in which the map of the peers is
iterated. -/
def applyUpdate (rank : PeerId → ℕ) (db : PeerDb) : PeerUpdate → Result PeerState
  | .full newNodes => do
    let (deletions,db) ← db.retain rank (retains (newNodes.map Node.stableId)) ∅
    let (upserts,db) ← upsertAll newNodes ∅ db
    return ⟨deletions,upserts,db⟩
  | .delta patch upsert remove => do
    let (deletions,db) ← removeAll remove ∅ db
    let (upserts,db) ← upsertAll upsert ∅ db
    let (upserts,db) ← patchAll patch upserts db
    return ⟨deletions,upserts,db⟩

/-- The handler of an update of the control plane: the state that is published, and the
replies to the requests that were waiting. -/
def handle (rank : PeerId → ℕ) (t : PeerTracker) (peerUpdate : Option PeerUpdate) :
    Result ((Option PeerState × List Reply) × PeerTracker) :=
  match peerUpdate with
  | none => .ok ((none,[]),t)
  | some peerUpdate => do
    let state ← applyUpdate rank t.peerDb peerUpdate
    let (replies,t) ← servicePendingRequests { t with peerDb := state.peers }
    return ((some state,replies),t)

end PeerTracker

section NodeSets
variable [IpNetOps]

def PeerDb.liveNodes (db : PeerDb) : Set Node := {node | ∃ p, db.peers p = some node}

namespace NodeSet

/-- A node replaces the one with the same stable id. -/
def upsert (s : Set Node) (new : Node) : Set Node := insert new {node ∈ s | node.stableId ≠ new.stableId}

def remove (s : Set Node) (id : NodeId) : Set Node := {node ∈ s | node.id ≠ id}

/-- The node with the id of the update is patched, if there is one. -/
def patch (s : Set Node) (u : NodeUpdate) : Set Node :=
  (fun node => if node.id = u.id then node.patched u else node) '' s

def retain (s : Set Node) (ids : List StableNodeId) : Set Node := {node ∈ s | node.stableId ∈ ids}

/-- The nodes that an update starts from: those it does not delete. -/
def survivors (s : Set Node) : PeerUpdate → Set Node
  | .full nodes => retain s (nodes.map Node.stableId)
  | .delta _ _ removes => removes.foldl remove s

/-- What a whole update does. -/
def apply (s : Set Node) : PeerUpdate → Set Node
  | .full nodes => nodes.foldl upsert (retain s (nodes.map Node.stableId))
  | .delta patches upserts removes => patches.foldl patch (upserts.foldl upsert (removes.foldl remove s))

/-- A node can be inserted: nothing it is stored under belongs to another node. -/
def Fits (hosts : Bool) (s : Set Node) (new : Node) : Prop :=
  (∀ node ∈ s, node.stableId ≠ new.stableId → ∀ k, Bears new k → ¬ Owns hosts node k) ∧
    (routeNets new).Nodup

/-- Nodes can be inserted one after the other. -/
def FitAll (hosts : Bool) : Set Node → List Node → Prop
  | _,[] => True
  | s,node::nodes => Fits hosts s node ∧ FitAll hosts (upsert s node) nodes

/-- A patched node can take the place of the node. -/
def FitsPatch (s : Set Node) (u : NodeUpdate) : Prop :=
  ∀ cur ∈ s, cur.id = u.id → ∀ node ∈ s, node ≠ cur → ∀ k, Bears (cur.patched u) k → ¬ Owns false node k

def FitAllPatches : Set Node → List NodeUpdate → Prop
  | _,[] => True
  | s,u::us => FitsPatch s u ∧ FitAllPatches (patch s u) us

end NodeSet

variable {hosts : Bool} {strict : Prop} {db : PeerDb} {id : PeerId} {new node : Node}

theorem NodeSet.Fits.peerDb (h : NodeSet.Fits hosts db.liveNodes new) (hids : db.nextId+1 < 2^32) :
    db.Fits hosts new :=
  ⟨fun _ => hids,fun q node hq => h.1 node ⟨q,hq⟩,h.2⟩

theorem PeerDb.Ok.eq_of_stableId (h : db.Ok hosts strict) {p q : PeerId} {a b : Node}
    (ha : db.peers p = some a) (hb : db.peers q = some b) (heq : a.stableId = b.stableId) : p = q :=
  h.eq_of_owns (k := .stableId a.stableId) ha rfl hb heq

theorem PeerDb.Ok.eq_of_nodeId (h : db.Ok hosts strict) {p q : PeerId} {a b : Node}
    (ha : db.peers p = some a) (hb : db.peers q = some b) (heq : a.id = b.id) : p = q :=
  h.eq_of_owns (k := .nodeId a.id) ha rfl hb heq

/-- What has been noted about the changes since `before`: the deleted peers are gone for good, the
upserted ones are live, the others are as they were, and those that stay keep their stable id. -/
structure PeerDb.Published (before : PeerId → Option Node) (deletions upserts : Finset PeerId)
    (db : PeerDb) : Prop where
  live : ∀ p ∈ upserts, ∃ node, db.peers p = some node
  kept : ∀ p, p ∉ upserts → db.peers p = if p ∈ deletions then none else before p
  gone : ∀ p ∈ deletions, db.peers p = none ∧ p.toNat < db.nextId
  same : ∀ p old, before p = some old → p ∉ deletions →
    ∃ node, db.peers p = some node ∧ node.stableId = old.stableId

namespace PeerDb.Published
variable {before : PeerId → Option Node} {deletions upserts : Finset PeerId} {db' : PeerDb}

omit [IpNetOps] in
theorem start (db : PeerDb) : db.Published db.peers ∅ ∅ where
  live p hp := absurd hp (Finset.notMem_empty p)
  kept p _ := (if_neg (Finset.notMem_empty p)).symm
  gone p hp := absurd hp (Finset.notMem_empty p)
  same _ old hp _ := ⟨old,hp,rfl⟩

omit [IpNetOps] in
theorem remove (h : db.Published before deletions ∅) (hbound : id.toNat < db.nextId)
    (hpeers : db'.peers = update db.peers id none) (hnext : db'.nextId = db.nextId) :
    db'.Published before (insert id deletions) ∅ where
  live p hp := absurd hp (Finset.notMem_empty p)
  kept p hp := by
    rw [hpeers]
    by_cases heq : p = id
    · rw [heq,update_self,if_pos (Finset.mem_insert_self ..)]
    · rw [update_of_ne heq,h.kept p hp]
      simp only [Finset.mem_insert,heq,false_or]
  gone p hp := by
    rw [hpeers,hnext]
    by_cases heq : p = id
    · rw [heq,update_self]
      exact ⟨rfl,hbound⟩
    · rw [update_of_ne heq]
      exact h.gone p ((Finset.mem_insert.mp hp).resolve_left heq)
  same p old hp hno := by
    rw [Finset.mem_insert,not_or] at hno
    rw [hpeers,update_of_ne hno.1]
    exact h.same p old hp hno.2

omit [IpNetOps] in
/-- A live peer takes a node with its stable id, or a new peer takes the next id. -/
theorem put (h : db.Published before deletions upserts)
    (hid : (∃ cur, db.peers id = some cur ∧ cur.stableId = new.stableId) ∨
      db.peers id = none ∧ db.nextId ≤ id.toNat)
    (hpeers : db'.peers = update db.peers id (some new)) (hnext : db.nextId ≤ db'.nextId) :
    db'.Published before deletions (insert id upserts) where
  live p hp := by
    rw [hpeers]
    by_cases heq : p = id
    · exact ⟨new,by rw [heq,update_self]⟩
    · rw [update_of_ne heq]
      exact h.live p ((Finset.mem_insert.mp hp).resolve_left heq)
  kept p hp := by
    rw [Finset.mem_insert,not_or] at hp
    rw [hpeers,update_of_ne hp.1]
    exact h.kept p hp.2
  gone p hp := by
    obtain ⟨hnone,hlt⟩ := h.gone p hp
    have hne : p ≠ id := by
      rintro rfl
      rcases hid with ⟨cur,hcur,_⟩ | ⟨_,hle⟩
      · rw [hnone] at hcur
        cases hcur
      · exact not_lt.mpr hle hlt
    rw [hpeers,update_of_ne hne]
    exact ⟨hnone,hlt.trans_le hnext⟩
  same p old hp hno := by
    obtain ⟨node,hnode,hstable⟩ := h.same p old hp hno
    rw [hpeers]
    by_cases heq : p = id
    · subst heq
      refine ⟨new,update_self ..,?_⟩
      rcases hid with ⟨cur,hcur,hsame⟩ | ⟨hnone,_⟩
      · rw [hnode] at hcur
        cases hcur
        exact hsame.symm.trans hstable
      · rw [hnone] at hnode
        cases hnode
    · exact ⟨node,by rw [update_of_ne heq,hnode],hstable⟩

end PeerDb.Published

theorem PeerDb.liveNodes_upsert (h : db.Ok hosts strict) (hid : db.IdFor new id) {db' : PeerDb}
    (hpeers : db'.peers = update db.peers id (some new)) :
    db'.liveNodes = NodeSet.upsert db.liveNodes new := by
  ext node
  constructor
  · rintro ⟨p,hp⟩
    rw [hpeers] at hp
    by_cases heq : p = id
    · subst heq
      rw [update_self] at hp
      cases hp
      exact .inl rfl
    · rw [update_of_ne heq] at hp
      refine .inr ⟨⟨p,hp⟩,fun hs => ?_⟩
      rcases hid with ⟨cur,hcur,hstable⟩ | ⟨hno,_⟩
      · exact heq (h.eq_of_stableId hp hcur (hs.trans hstable.symm))
      · exact hno ⟨p,node,hp,hs⟩
  · rintro (rfl | ⟨⟨p,hp⟩,hne⟩)
    · exact ⟨id,by rw [hpeers,update_self]⟩
    · refine ⟨p,?_⟩
      rw [hpeers,update_of_ne,hp]
      rintro rfl
      rcases hid with ⟨cur,hcur,hstable⟩ | ⟨_,_,hnone⟩
      · rw [hcur] at hp
        cases hp
        exact hne hstable
      · rw [hnone] at hp
        cases hp

theorem PeerDb.upsert_live (h : db.Ok hosts strict) (hfits : NodeSet.Fits hosts db.liveNodes new)
    (hids : db.nextId+1 < 2^32) :
    ∃ id db', db.upsert new = .ok (id,db') ∧ db'.Ok hosts strict ∧
      db'.liveNodes = NodeSet.upsert db.liveNodes new ∧ db'.nextId ≤ db.nextId+1 ∧
      ∀ before deletions upserts, db.Published before deletions upserts →
        db'.Published before deletions (insert id upserts) := by
  obtain ⟨id,db',hdb',hok',hid,hpeers,hnext⟩ := upsert_spec h (hfits.peerDb hids)
  have hbounds : db.nextId ≤ db'.nextId ∧ db'.nextId ≤ db.nextId+1 := by
    rw [hnext]
    split
    · exact ⟨Nat.le_succ _,le_rfl⟩
    · exact ⟨le_rfl,Nat.le_succ _⟩
  refine ⟨id,db',hdb',hok',liveNodes_upsert h hid hpeers,hbounds.2,fun before deletions upserts hpub => ?_⟩
  refine hpub.put (hid.imp_right fun ⟨_,heq,hnone⟩ => ⟨hnone,?_⟩) hpeers hbounds.1
  rw [heq,UInt32.toNat_ofNat_of_lt' h.small]

theorem PeerTracker.upsertAll_live {nodes : List Node} (upserts : Finset PeerId)
    (h : db.Ok hosts strict) (hfits : NodeSet.FitAll hosts db.liveNodes nodes)
    (hids : db.nextId + nodes.length < 2^32) :
    ∃ upserts' db', upsertAll nodes upserts db = .ok (upserts',db') ∧ db'.Ok hosts strict ∧
      db'.liveNodes = nodes.foldl NodeSet.upsert db.liveNodes ∧
      db'.nextId ≤ db.nextId + nodes.length ∧
      ∀ before deletions, db.Published before deletions upserts →
        db'.Published before deletions upserts' := by
  induction nodes generalizing upserts db with
  | nil => exact ⟨upserts,db,rfl,h,rfl,le_rfl,fun _ _ hpub => hpub⟩
  | cons node nodes ih =>
    rw [length_cons] at hids
    obtain ⟨id,db1,hdb1,hok1,hlive1,hnext1,hpub1⟩ := upsert_live h hfits.1 (by omega)
    obtain ⟨upserts2,db2,hdb2,hok2,hlive2,hnext2,hpub2⟩ := ih (insert id upserts) hok1
      (hlive1 ▸ hfits.2) (by omega)
    refine ⟨upserts2,db2,?_,hok2,?_,?_,fun before deletions hpub =>
      hpub2 before deletions (hpub1 before deletions upserts hpub)⟩
    · rw [upsertAll,foldlM_cons]
      simp only [hdb1,bind_of_ok]
      exact hdb2
    · rw [hlive2,hlive1,foldl_cons]
    · rw [length_cons]
      omega

/-- The peer of a removal is noted, if there was one. -/
def PeerTracker.noteDeletion (r : Option (PeerId × Node)) (deletions : Finset PeerId) : Finset PeerId :=
  match r with
  | none => deletions
  | some (id,_) => insert id deletions

theorem PeerDb.removeId_live (h : db.Ok hosts strict) (i : NodeId) :
    ∃ r db', db.remove (.nodeId i) = .ok (r,db') ∧ db'.Ok hosts strict ∧
      db'.liveNodes = NodeSet.remove db.liveNodes i ∧ db'.nextId = db.nextId ∧
      ∀ before deletions, db.Published before deletions ∅ →
        db'.Published before (PeerTracker.noteDeletion r deletions) ∅ := by
  obtain ⟨r,db',hdb',hok',hnext,hr⟩ := remove_spec h (.nodeId i)
  refine ⟨r,db',hdb',hok',?_,hnext,fun before deletions hpub => ?_⟩
  case refine_2 =>
    cases r with
    | none => exact hr.1 ▸ hpub
    | some x => exact hpub.remove (h.bound x.1 x.2 hr.2.1) hr.2.2 hnext
  cases r with
  | none =>
    -- no live node has the id, since the index would lead to it
    have hno : ∀ p node, db.peers p = some node → node.id ≠ i := by
      intro p node hp hi
      have hidx : db.lookup (.nodeId i) = .ok (some p) :=
        congrArg Except.ok (h.controlIdx_iff.mpr ⟨node,hp,hi⟩)
      rw [hr.2 p hidx] at hp
      cases hp
    rw [hr.1]
    ext node
    exact ⟨fun hnode => ⟨hnode,fun hi => hnode.elim fun p hp => hno p node hp hi⟩,fun hnode => hnode.1⟩
  | some x =>
    obtain ⟨id,node⟩ := x
    obtain ⟨hidx,hnode,hpeers⟩ := hr
    obtain ⟨node',hnode',hi⟩ := h.controlIdx_iff.mp (Except.ok.inj hidx)
    rw [hnode] at hnode'
    cases hnode'
    ext n
    constructor
    · rintro ⟨p,hp⟩
      rw [hpeers] at hp
      by_cases heq : p = id
      · rw [heq,update_self] at hp
        cases hp
      · rw [update_of_ne heq] at hp
        exact ⟨⟨p,hp⟩,fun hn => heq (h.eq_of_nodeId hp hnode (hn.trans hi.symm))⟩
    · rintro ⟨⟨p,hp⟩,hne⟩
      refine ⟨p,?_⟩
      rw [hpeers,update_of_ne,hp]
      rintro rfl
      rw [hnode] at hp
      cases hp
      exact hne hi

theorem PeerTracker.removeAll_live (ids : List NodeId) (deletions : Finset PeerId)
    (h : db.Ok hosts strict) :
    ∃ deletions' db', removeAll ids deletions db = .ok (deletions',db') ∧ db'.Ok hosts strict ∧
      db'.liveNodes = ids.foldl NodeSet.remove db.liveNodes ∧ db'.nextId = db.nextId ∧
      ∀ before, db.Published before deletions ∅ → db'.Published before deletions' ∅ := by
  induction ids generalizing deletions db with
  | nil => exact ⟨deletions,db,rfl,h,rfl,rfl,fun _ hpub => hpub⟩
  | cons i ids ih =>
    obtain ⟨r,db1,hdb1,hok1,hlive1,hnext1,hpub1⟩ := removeId_live h i
    obtain ⟨deletions2,db2,hdb2,hok2,hlive2,hnext2,hpub2⟩ := ih (noteDeletion r deletions) hok1
    refine ⟨deletions2,db2,?_,hok2,by rw [hlive2,hlive1,foldl_cons],hnext2.trans hnext1,
      fun before hpub => hpub2 before (hpub1 before deletions hpub)⟩
    rw [removeAll,foldlM_cons]
    simp only [hdb1,bind_of_ok]
    cases r with
    | none => exact hdb2
    | some x => exact hdb2

omit [IpNetOps] in
theorem NodeSet.mem_patch {s : Set Node} {u : NodeUpdate} {node : Node} :
    node ∈ patch s u ↔ ∃ n ∈ s, (if n.id = u.id then n.patched u else n) = node := Iff.rfl

omit [IpNetOps] in
theorem NodeSet.exists_id_patch {s : Set Node} {u : NodeUpdate} {i : NodeId} :
    (∃ node ∈ patch s u, node.id = i) ↔ ∃ node ∈ s, node.id = i := by
  have hid : ∀ n : Node, (if n.id = u.id then n.patched u else n).id = n.id := by
    intro n
    split
    · rfl
    · rfl
  constructor
  · rintro ⟨_,⟨n,hn,rfl⟩,hi⟩
    exact ⟨n,hn,(hid n).symm.trans hi⟩
  · rintro ⟨n,hn,hi⟩
    exact ⟨_,⟨n,hn,rfl⟩,(hid n).trans hi⟩

theorem PeerDb.patch_unknown (h : db.Ok hosts strict) {u : NodeUpdate}
    (hu : ¬ ∃ node ∈ db.liveNodes, node.id = u.id) :
    db.patch u = .error (.message "no matching peer for update") := by
  have hnone : db.indexState.controlIdx u.id = none := by
    rw [Option.eq_none_iff_forall_ne_some]
    intro p hp
    obtain ⟨node,hnode,hi⟩ := h.controlIdx_iff.mp hp
    exact hu ⟨node,⟨p,hnode⟩,hi⟩
  rw [patch,hnone]
  rfl

theorem PeerDb.patch_live (h : db.Ok false False) {u : NodeUpdate}
    (hfits : NodeSet.FitsPatch db.liveNodes u) (hu : ∃ node ∈ db.liveNodes, node.id = u.id) :
    ∃ id db', db.patch u = .ok (id,db') ∧ db'.Ok false False ∧
      db'.liveNodes = NodeSet.patch db.liveNodes u ∧ db'.nextId = db.nextId ∧
      ∀ before deletions upserts, db.Published before deletions upserts →
        db'.Published before deletions (insert id upserts) := by
  obtain ⟨cur,⟨id,hcur⟩,hid⟩ := hu
  have hfree : FreeFor false db.peers id (cur.patched u) := by
    intro q hq node hnode
    refine hfits cur ⟨id,hcur⟩ hid node ⟨q,hnode⟩ ?_
    rintro rfl
    exact hq (h.eq_of_nodeId hnode hcur rfl)
  obtain ⟨db',hdb',hok',hpeers,hnext⟩ := patch_spec h hcur hid
    (overwrites_patched False.elim False.elim False.elim) hfree
  refine ⟨id,db',hdb',hok',?_,hnext,fun before deletions upserts hpub => ?_⟩
  case refine_2 =>
    have hstable : cur.stableId = (cur.patched u).stableId := rfl
    exact hpub.put (.inl ⟨cur,hcur,hstable⟩) hpeers hnext.ge
  ext node
  rw [NodeSet.mem_patch]
  constructor
  · rintro ⟨p,hp⟩
    rw [hpeers] at hp
    by_cases heq : p = id
    · rw [heq,update_self] at hp
      cases hp
      exact ⟨cur,⟨id,hcur⟩,if_pos hid⟩
    · rw [update_of_ne heq] at hp
      exact ⟨node,⟨p,hp⟩,if_neg fun hi => heq (h.eq_of_nodeId hp hcur (hi.trans hid.symm))⟩
  · rintro ⟨n,⟨p,hp⟩,rfl⟩
    refine ⟨p,?_⟩
    rw [hpeers]
    by_cases heq : p = id
    · subst heq
      rw [hcur] at hp
      cases hp
      rw [update_self,if_pos hid]
    · rw [update_of_ne heq,hp,
        if_neg fun hi => heq (h.eq_of_nodeId hp hcur (hi.trans hid.symm))]

/-- Patches are applied if and only if all the nodes they name are live. -/
theorem PeerTracker.patchAll_live {us : List NodeUpdate} (upserts : Finset PeerId)
    (h : db.Ok false False) (hfits : NodeSet.FitAllPatches db.liveNodes us) :
    (∀ u ∈ us, ∃ node ∈ db.liveNodes, node.id = u.id) ∧
        (∃ upserts' db', patchAll us upserts db = .ok (upserts',db') ∧ db'.Ok false False ∧
          db'.liveNodes = us.foldl NodeSet.patch db.liveNodes ∧
          ∀ before deletions, db.Published before deletions upserts →
            db'.Published before deletions upserts') ∨
      (¬ ∀ u ∈ us, ∃ node ∈ db.liveNodes, node.id = u.id) ∧
        patchAll us upserts db = .error (.message "no matching peer for update") := by
  induction us generalizing upserts db with
  | nil => exact .inl ⟨(fun u hu => by cases hu),upserts,db,rfl,h,rfl,fun _ _ hpub => hpub⟩
  | cons u us ih =>
    rw [forall_mem_cons,patchAll,foldlM_cons,foldl_cons]
    by_cases hu : ∃ node ∈ db.liveNodes, node.id = u.id
    · obtain ⟨id,db1,hdb1,hok1,hlive1,_,hpub1⟩ := patch_live h hfits.1 hu
      have hrest := ih (insert id upserts) hok1 (hlive1 ▸ hfits.2)
      simp only [hlive1,NodeSet.exists_id_patch] at hrest
      simp only [hdb1,bind_of_ok,hu,true_and]
      refine hrest.imp_left fun ⟨hknown,upserts',db',hdb',hok',hlive',hpub'⟩ =>
        ⟨hknown,upserts',db',hdb',hok',hlive',fun before deletions hpub => ?_⟩
      exact hpub' before deletions (hpub1 before deletions upserts hpub)
    · right
      refine ⟨fun hall => hu hall.1,?_⟩
      simp only [patch_unknown h hu,bind_of_error]

omit [IpNetOps] in
/-- What `retain` notes while it goes over the peers. -/
theorem PeerTracker.mem_foldl_visit {ids : List StableNodeId} {visited : List PeerId}
    {deletions : Finset PeerId} :
    id ∈ visited.foldl (db.visit (retains ids)) deletions ↔
      id ∈ deletions ∨ id ∈ visited ∧ ∃ node, db.peers id = some node ∧ node.stableId ∉ ids := by
  induction visited generalizing deletions with
  | nil => simp
  | cons p visited ih =>
    rw [foldl_cons,ih,mem_cons]
    have hvisit : id ∈ db.visit (retains ids) deletions p ↔
        id ∈ deletions ∨ id = p ∧ ∃ node, db.peers id = some node ∧ node.stableId ∉ ids := by
      rw [PeerDb.visit]
      cases hp : db.peers p with
      | none =>
        refine ⟨.inl,fun h => h.elim (fun h => h) fun hvisited => ?_⟩
        obtain ⟨heq,node,hnode,-⟩ := hvisited
        rw [heq,hp] at hnode
        cases hnode
      | some node =>
        by_cases hmem : node.stableId ∈ ids
        · simp only [retains,contains_iff_mem.mpr hmem,if_true]
          refine ⟨.inl,fun h => h.elim (fun h => h) fun hvisited => ?_⟩
          obtain ⟨heq,node',hnode',hno⟩ := hvisited
          rw [heq,hp] at hnode'
          cases hnode'
          exact absurd hmem hno
        · have hcontains : ids.contains node.stableId = false :=
            Bool.eq_false_iff.mpr fun h => hmem (contains_iff_mem.mp h)
          simp only [retains,hcontains,Bool.false_eq_true,if_false,Finset.mem_insert]
          constructor
          · rintro (rfl | h)
            · exact .inr ⟨rfl,node,hp,hmem⟩
            · exact .inl h
          · rintro (h | ⟨rfl,_⟩)
            · exact .inr h
            · exact .inl rfl
    rw [hvisit,or_and_right,or_assoc]

/-- The peers that are not retained are noted as deletions. -/
theorem PeerDb.published_retain (h : db.Ok hosts strict) (rank : PeerId → ℕ) {ids : List StableNodeId}
    {db' : PeerDb} (hpeers : ∀ q, db'.peers q = (db.peers q).filter fun node => ids.contains node.stableId)
    (hnext : db'.nextId = db.nextId) :
    db'.Published db.peers ((db.peerIds rank).foldl (db.visit (PeerTracker.retains ids)) ∅) ∅ := by
  have hmem : ∀ p, p ∈ (db.peerIds rank).foldl (db.visit (PeerTracker.retains ids)) ∅ ↔
      ∃ node, db.peers p = some node ∧ node.stableId ∉ ids := by
    intro p
    rw [PeerTracker.mem_foldl_visit]
    constructor
    · rintro (hp | ⟨_,hp⟩)
      · exact absurd hp (Finset.notMem_empty p)
      · exact hp
    · rintro ⟨node,hnode,hno⟩
      exact .inr ⟨(mem_peerIds h).mpr ⟨node,hnode⟩,node,hnode,hno⟩
  refine ⟨fun p hp => absurd hp (Finset.notMem_empty p),fun p _ => ?_,fun p hp => ?_,
    fun p old hold hno => ?_⟩
  · rw [hpeers]
    cases hp : db.peers p with
    | none => simp
    | some node =>
      simp only [hmem,hp,Option.some.injEq,exists_eq_left',Option.filter_some,contains_iff_mem]
      by_cases hin : node.stableId ∈ ids
      · simp [hin]
      · simp [hin]
  · obtain ⟨node,hnode,hno⟩ := (hmem p).mp hp
    refine ⟨?_,hnext ▸ h.bound p node hnode⟩
    rw [hpeers,hnode,Option.filter_some,if_neg (by simpa using hno)]
  · have hin : old.stableId ∈ ids := by
      by_contra hin
      exact hno ((hmem p).mpr ⟨old,hold,hin⟩)
    refine ⟨old,?_,rfl⟩
    rw [hpeers,hold,Option.filter_some,if_pos (by simpa using hin)]

theorem PeerDb.retain_live (h : db.Ok hosts strict) (rank : PeerId → ℕ) (ids : List StableNodeId) :
    ∃ deletions db', db.retain rank (PeerTracker.retains ids) ∅ = .ok (deletions,db') ∧
      db'.Ok hosts strict ∧ db'.liveNodes = NodeSet.retain db.liveNodes ids ∧
      db'.nextId = db.nextId ∧ db'.Published db.peers deletions ∅ := by
  have hkeep : ∀ id node s, (PeerTracker.retains ids id node s).1 = ids.contains node.stableId :=
    fun _ _ _ => rfl
  obtain ⟨db',hdb',hok',hnext,hpeers⟩ := retain_spec hkeep h rank ∅
  refine ⟨_,db',hdb',hok',?_,hnext,published_retain h rank hpeers hnext⟩
  ext node
  constructor
  · rintro ⟨p,hp⟩
    rw [hpeers,Option.filter_eq_some_iff] at hp
    exact ⟨⟨p,hp.1⟩,contains_iff_mem.mp hp.2⟩
  · rintro ⟨⟨p,hp⟩,hmem⟩
    refine ⟨p,?_⟩
    rw [hpeers,Option.filter_eq_some_iff]
    exact ⟨hp,contains_iff_mem.mpr hmem⟩

/-- A deleted peer is not the peer of a node that has survived. -/
theorem PeerDb.Published.notMem_liveNodes {db' : PeerDb} {deletions : Finset PeerId} {p : PeerId}
    {old : Node} (hpub : db'.Published db.peers deletions ∅) (h : db.Ok hosts strict)
    (hp : p ∈ deletions) (hold : db.peers p = some old) : old ∉ db'.liveNodes := by
  rintro ⟨q,hq⟩
  rw [hpub.kept q (Finset.notMem_empty q)] at hq
  by_cases hq' : q ∈ deletions
  · rw [if_pos hq'] at hq
    cases hq
  · rw [if_neg hq'] at hq
    exact hq' (h.eq_of_stableId hq hold rfl ▸ hp)

/-- Every entry of an update keeps the fields of the live nodes unique, and peer ids are left. -/
def PeerTracker.Keeps (db : PeerDb) : PeerUpdate → Prop
  | .full nodes => NodeSet.FitAll false (NodeSet.retain db.liveNodes (nodes.map Node.stableId)) nodes ∧
      db.nextId + nodes.length < 2^32
  | .delta patches upserts removes =>
    NodeSet.FitAll false (removes.foldl NodeSet.remove db.liveNodes) upserts ∧
      NodeSet.FitAllPatches (upserts.foldl NodeSet.upsert (removes.foldl NodeSet.remove db.liveNodes))
        patches ∧
      db.nextId + upserts.length < 2^32

/-- All nodes that are to be patched are live after the removals and the upserts. -/
def PeerTracker.PatchesKnown (db : PeerDb) : PeerUpdate → Prop
  | .full _ => True
  | .delta patches upserts removes => ∀ u ∈ patches,
      ∃ node ∈ upserts.foldl NodeSet.upsert (removes.foldl NodeSet.remove db.liveNodes), node.id = u.id

/-- An update takes effect, or it names an unknown node in a patch and panics. -/
theorem PeerTracker.applyUpdate_live (h : db.Ok false False) (rank : PeerId → ℕ) {upd : PeerUpdate}
    (hkeeps : Keeps db upd) :
    PatchesKnown db upd ∧ (∃ state, applyUpdate rank db upd = .ok state ∧
        state.peers.Ok false False ∧ state.peers.liveNodes = NodeSet.apply db.liveNodes upd ∧
        state.peers.Published db.peers state.deletions state.upserts ∧
        ∀ p ∈ state.deletions, ∀ old, db.peers p = some old → old ∉ NodeSet.survivors db.liveNodes upd) ∨
      ¬ PatchesKnown db upd ∧
        applyUpdate rank db upd = .error (.message "no matching peer for update") := by
  cases upd with
  | full nodes =>
    obtain ⟨hfits,hids⟩ := hkeeps
    obtain ⟨deletions,db1,hdb1,hok1,hlive1,hnext1,hpub1⟩ :=
      retain_live h rank (nodes.map Node.stableId)
    rw [← hlive1] at hfits
    rw [← hnext1] at hids
    obtain ⟨upserts,db2,hdb2,hok2,hlive2,_,hpub2⟩ := upsertAll_live ∅ hok1 hfits hids
    rw [hlive1] at hlive2
    have hgone : ∀ p ∈ deletions, ∀ old, db.peers p = some old →
        old ∉ NodeSet.retain db.liveNodes (nodes.map Node.stableId) :=
      fun p hp old hold => hlive1 ▸ hpub1.notMem_liveNodes h hp hold
    exact .inl ⟨trivial,⟨deletions,upserts,db2⟩,by simp [applyUpdate,hdb1,hdb2],hok2,hlive2,
      hpub2 db.peers deletions hpub1,hgone⟩
  | delta patches upserts removes =>
    obtain ⟨hfits,hpatches,hids⟩ := hkeeps
    obtain ⟨deletions,db1,hdb1,hok1,hlive1,hnext1,hpub1⟩ := removeAll_live removes ∅ h
    have hdeleted := hpub1 db.peers (PeerDb.Published.start db)
    have hgone : ∀ p ∈ deletions, ∀ old, db.peers p = some old →
        old ∉ removes.foldl NodeSet.remove db.liveNodes :=
      fun p hp old hold => hlive1 ▸ hdeleted.notMem_liveNodes h hp hold
    rw [← hlive1] at hfits hpatches
    rw [← hnext1] at hids
    obtain ⟨upserts',db2,hdb2,hok2,hlive2,_,hpub2⟩ := upsertAll_live ∅ hok1 hfits hids
    rw [← hlive2] at hpatches
    rw [hlive1] at hlive2
    have hp := patchAll_live upserts' hok2 hpatches
    simp only [hlive2] at hp
    rcases hp with ⟨hknown,upserts3,db3,hdb3,hok3,hlive3,hpub3⟩ | ⟨hknown,herr⟩
    · exact .inl ⟨hknown,⟨deletions,upserts3,db3⟩,by simp [applyUpdate,hdb1,hdb2,hdb3],hok3,hlive3,
        hpub3 db.peers deletions (hpub2 db.peers deletions hdeleted),hgone⟩
    · exact .inr ⟨hknown,by simp [applyUpdate,hdb1,hdb2,herr]⟩

end NodeSets

section Runs
variable [IpNetOps] {hosts : Bool} {strict : Prop} {db : PeerDb}

theorem PeerTracker.answer_ok (h : db.Ok hosts strict) (req : Pending) :
    ∃ reply, answer db req = .ok reply := by
  have hget : ∀ field, ∃ r, db.get field = .ok r := by
    intro field
    obtain ⟨r,hr⟩ := h.lookup_ok field
    exact ⟨_,by rw [PeerDb.get,hr]; rfl⟩
  cases req with
  | peerByName name =>
    obtain ⟨r,hr⟩ := hget (.name (trimDots name))
    exact ⟨_,by rw [answer,hr]; rfl⟩
  | acceptedRoute ip =>
    obtain ⟨ips,entries,hi⟩ := h.indexed
    obtain ⟨_,_,_,_,_,hroute⟩ := hi.getRoute (hostNet ip)
    exact ⟨_,by rw [answer,hroute]; rfl⟩
  | tailnetIp ip =>
    obtain ⟨r,hr⟩ := hget (.ip ip)
    exact ⟨_,by rw [answer,hr]; rfl⟩

theorem PeerTracker.servicePendingRequests_ok {t : PeerTracker} (h : t.peerDb.Ok hosts strict) :
    ∃ replies t', t.servicePendingRequests = .ok (replies,t') ∧ t'.peerDb = t.peerDb := by
  rw [servicePendingRequests]
  split
  · exact ⟨[],t,rfl,rfl⟩
  · have hall : ∀ reqs : List Pending, ∃ replies, reqs.mapM (answer t.peerDb) = .ok replies := by
      intro reqs
      induction reqs with
      | nil => exact ⟨[],rfl⟩
      | cons req reqs ih =>
        obtain ⟨reply,hreply⟩ := answer_ok h req
        obtain ⟨replies,hreplies⟩ := ih
        exact ⟨reply::replies,by rw [mapM_cons,hreply,hreplies]; rfl⟩
    obtain ⟨replies,hreplies⟩ := hall t.pendingRequests
    exact ⟨replies,{ t with seenStateUpdate := true, pendingRequests := [] },by rw [hreplies]; rfl,rfl⟩

namespace PeerTracker

inductive Call
  | update (rank : PeerId → ℕ) (peerUpdate : Option PeerUpdate)
  | request (req : Pending)

inductive Output
  | published (state : Option PeerState) (replies : List Reply)
  | replied (reply : Option Reply)

def step : Call → PeerTracker → Result (Output × PeerTracker)
  | .update rank peerUpdate,t => do
    let ((state,replies),t) ← t.handle rank peerUpdate
    return (.published state replies,t)
  | .request req,t => do
    let (reply,t) ← t.request req
    return (.replied reply,t)

def Call.Keeps (t : PeerTracker) : Call → Prop
  | .update _ (some upd) => PeerTracker.Keeps t.peerDb upd
  | _ => True

/-- An update is handled without a panic, and each of its entries takes effect; those that
name unknown nodes change nothing. -/
def Handled (t : PeerTracker) (rank : PeerId → ℕ) (upd : PeerUpdate) : Prop :=
  ∃ state replies t', step (.update rank (some upd)) t = .ok (.published (some state) replies,t') ∧
    t'.peerDb = state.peers ∧ t'.peerDb.liveNodes = NodeSet.apply t.peerDb.liveNodes upd

variable {t : PeerTracker}

theorem step_update_ok {rank : PeerId → ℕ} {upd : PeerUpdate} {state : PeerState}
    (hstate : applyUpdate rank t.peerDb upd = .ok state) (hok : state.peers.Ok hosts strict) :
    ∃ replies t', step (.update rank (some upd)) t = .ok (.published (some state) replies,t') ∧
      t'.peerDb = state.peers := by
  have hok' : ({ t with peerDb := state.peers } : PeerTracker).peerDb.Ok hosts strict := hok
  obtain ⟨replies,t',ht',hdb⟩ := servicePendingRequests_ok hok'
  refine ⟨replies,t',?_,hdb⟩
  simp only [step,handle,hstate,bind_of_ok,ht']
  rfl

theorem handled_iff (h : t.peerDb.Ok false False) (rank : PeerId → ℕ) {upd : PeerUpdate}
    (hkeeps : Keeps t.peerDb upd) :
    (Handled t rank upd ↔ PatchesKnown t.peerDb upd) ∧
      ∀ o t', step (.update rank (some upd)) t = .ok (o,t') → t'.peerDb.Ok false False := by
  rcases applyUpdate_live h rank hkeeps with ⟨hknown,state,hstate,hok,hlive,_⟩ | ⟨hknown,herr⟩
  · obtain ⟨replies,t',hstep,hdb⟩ := step_update_ok hstate hok
    refine ⟨⟨fun _ => hknown,fun _ => ⟨state,replies,t',hstep,hdb,?_⟩⟩,fun o t'' ht'' => ?_⟩
    · rw [hdb]
      exact hlive
    · rw [hstep] at ht''
      cases ht''
      rw [hdb]
      exact hok
  · have hstep : step (.update rank (some upd)) t =
        .error (.message "no matching peer for update") := by
      simp only [step,handle,herr,bind_of_error]
    refine ⟨⟨fun ⟨state,replies,t',ht',_⟩ => ?_,fun hk => absurd hk hknown⟩,fun o t' ht' => ?_⟩
    · rw [hstep] at ht'
      cases ht'
    · rw [hstep] at ht'
      cases ht'

/-- In every run of the tracker whose updates keep the fields of the nodes unique, an update
is handled if and only if it patches only nodes that are live after its removals and
upserts. -/
theorem handled_iff_patchesKnown (calls : List Call)
    (hcalls : AtEveryCall step Call.Keeps calls start) :
    AtEveryCall step (fun t call => ∀ rank upd, call = .update rank (some upd) →
      (Handled t rank upd ↔ PatchesKnown t.peerDb upd)) calls start := by
  refine (atEvery_of_invariant (fun t => t.peerDb.Ok false False) (fun _ _ => trivial) ?_ calls
    ok_empty hcalls).2
  intro t call hok hkeeps
  cases call with
  | update rank peerUpdate =>
    cases peerUpdate with
    | none =>
      refine ⟨(fun rank upd heq => by cases heq),fun o t' ht' => ?_⟩
      cases ht'
      exact hok
    | some upd =>
      obtain ⟨hiff,hnext⟩ := handled_iff hok rank hkeeps
      refine ⟨fun rank' upd' heq => ?_,hnext⟩
      cases heq
      exact hiff
  | request req =>
    refine ⟨(fun rank upd heq => by cases heq),fun o t' ht' => ?_⟩
    obtain ⟨reply,hreply⟩ := answer_ok hok req
    rw [step,request] at ht'
    split at ht'
    · rw [hreply] at ht'
      cases ht'
      exact hok
    · cases ht'
      exact hok

end PeerTracker
end Runs

namespace PeerTracker

theorem liveNodes_empty : PeerDb.empty.liveNodes = ∅ := by
  ext node
  exact ⟨fun ⟨p,hp⟩ => (by cases hp),False.elim⟩

section
attribute [local instance] maskOps

/-- A patch of a node that is not known stops the tracker, and the other entries are lost. -/
theorem unknown_patch_panics :
    Keeps start.peerDb (.delta [.default 7 .online] [Node.blank 1] []) ∧
      ¬ Handled start (fun _ => 0) (.delta [.default 7 .online] [Node.blank 1] []) := by
  have hkeeps : Keeps start.peerDb (.delta [.default 7 .online] [Node.blank 1] []) := by
    refine ⟨⟨⟨fun node hnode => ?_,by decide⟩,trivial⟩,⟨fun cur hcur hid => ?_,trivial⟩,by decide⟩
    · exact absurd hnode (by rw [foldl_nil,start,liveNodes_empty]; exact Set.notMem_empty _)
    · rcases hcur with rfl | ⟨hcur,_⟩
      · cases hid
      · exact absurd hcur (by rw [foldl_nil,start,liveNodes_empty]; exact Set.notMem_empty _)
  refine ⟨hkeeps,fun hhandled => ?_⟩
  obtain ⟨node,hnode,hid⟩ := (handled_iff ok_empty _ hkeeps).1.mp hhandled _ mem_cons_self
  rcases hnode with rfl | ⟨hnode,_⟩
  · cases hid
  · exact absurd hnode (by rw [foldl_nil,start,liveNodes_empty]; exact Set.notMem_empty _)

/-- A netmap with one node, then a delta that patches it and removes an unknown one. -/
theorem handled_iff_patchesKnown_two_updates :
    AtEveryCall step (fun t call => ∀ rank upd, call = .update rank (some upd) →
        (Handled t rank upd ↔ PatchesKnown t.peerDb upd))
      [.update (fun _ => 0) (some (.full [Node.blank 1])),
        .update (fun _ => 0) (some (.delta [.default 1 .online] [] [5]))] start := by
  apply handled_iff_patchesKnown
  have hkeeps : Keeps start.peerDb (.full [Node.blank 1]) := by
    refine ⟨⟨⟨fun node hnode => ?_,by decide⟩,trivial⟩,by decide⟩
    exact absurd hnode.1 (by rw [start,liveNodes_empty]; exact Set.notMem_empty _)
  obtain ⟨hiff,hok⟩ := handled_iff ok_empty (fun _ => 0) hkeeps
  obtain ⟨state,replies,t,ht,_,hlive⟩ := hiff.mpr trivial
  refine ⟨hkeeps,fun o t' ht' => ⟨?_,fun _ _ _ => trivial⟩⟩
  have hsmall := (hok o t' ht').small
  rw [ht] at ht'
  cases ht'
  refine ⟨trivial,⟨fun cur hcur _ node hnode hne => ?_,trivial⟩,hsmall⟩
  have hone : ∀ n ∈ t.peerDb.liveNodes, n = Node.blank 1 := by
    intro n hn
    rw [hlive,start,liveNodes_empty] at hn
    rcases hn with rfl | ⟨⟨hn,_⟩,_⟩
    · rfl
    · exact absurd hn (Set.notMem_empty _)
  exact absurd ((hone node hnode.1).trans (hone cur hcur.1).symm) hne

end
end PeerTracker
end Tailnet.Runtime

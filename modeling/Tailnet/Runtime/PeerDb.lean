import Tailnet.Bart.Table
import Tailnet.Control.Node

/-! The peer database of the runtime: the known nodes by their peer ids, and indices that
lead from the fields of a node to its id. -/
namespace Tailnet.Runtime
open Control Function

abbrev Node := Control.Node
abbrev PeerId := UInt32
abbrev PeerName := String

abbrev Index (K : Type) := K → Option PeerId

/-- The old id of a key, and the index without the key. -/
def Index.remove {K : Type} [DecidableEq K] (idx : Index K) (key : K) : Option PeerId × Index K :=
  (idx key,update idx key none)

def Index.insert {K : Type} [DecidableEq K] (idx : Index K) (key : K) (id : PeerId) : Index K :=
  update idx key (some id)

structure IndexState where
  nkIdx : Index NodePublicKey
  discoIdx : Index DiscoPublicKey
  stableidIdx : Index StableNodeId
  controlIdx : Index NodeId
  /-- Index on the host name and the fully-qualified name. -/
  nameIdx : Index PeerName
  /-- Index on the tailnet addresses. -/
  ipIdx : SplitStackTable PeerId
  /-- Index on the accepted routes, which nodes may share. -/
  routeIdx : SplitStackTable (List PeerId)

structure PeerDb where
  peers : PeerId → Option Node
  indexState : IndexState
  nextId : ℕ

/-- Bring an index up to date. If the fields that `accessor` selects have changed, the old
node's entries are removed and the new node's are inserted. -/
def maybeUpdate {T Idx : Type} [DecidableEq T] (new : Node) (old : Option Node) (accessor : Node → T)
    (idx : Idx) (remove insert : Node → Idx → Result Idx) : Result Idx :=
  match old with
  | some x => if accessor x = accessor new then .ok idx else do
    let idx ← remove x idx
    insert new idx
  | none => insert new idx

def maybeUpdateIdx {K : Type} [DecidableEq K] (new : Node) (old : Option Node) (accessor : Node → K)
    (idx : Index K) (newId : PeerId) : Result (Index K) :=
  maybeUpdate new old accessor idx
    (fun old idx => do
      let (oldId,idx) := idx.remove (accessor old)
      Result.assert (oldId == some newId)
      return idx)
    (fun new idx => .ok (idx.insert (accessor new) newId))

namespace IndexState

def empty : IndexState :=
  ⟨fun _ => none,fun _ => none,fun _ => none,fun _ => none,fun _ => none,.empty,.empty⟩

variable [IpNetOps]

def removeRoute (routes : SplitStackTable (List PeerId)) (route : IpNet) (id : PeerId) :
    Result (SplitStackTable (List PeerId)) := do
  -- the closure is called with the stored entry, which has to contain the id
  let entry ← routes.lookupPrefixExact route.trunc
  Result.assert (entry.all fun val => val.contains id)
  let (_,routes) ← routes.modify route
    { absent := .noop
      present := fun val =>
        let val := val.filter (· ≠ id)
        (val,if val.isEmpty then .remove else .noop) }
  return routes

def insertRoute (routes : SplitStackTable (List PeerId)) (route : IpNet) (id : PeerId) :
    Result (SplitStackTable (List PeerId)) := do
  let (_,routes) ← routes.modify route
    { absent := .insert [id]
      present := fun val => (val ++ [id],.noop) }
  return routes

def remove (s : IndexState) (id : PeerId) (node : Node) : Result IndexState := do
  let nkIdx := (s.nkIdx.remove node.nodeKey).2
  let stableidIdx := (s.stableidIdx.remove node.stableId).2
  let controlIdx := (s.controlIdx.remove node.id).2
  let (_,ipIdx) ← s.ipIdx.remove node.tailnetAddress.ipv4
  let (_,ipIdx) ← ipIdx.remove node.tailnetAddress.ipv6
  let nameIdx :=
    if s.nameIdx node.hostname = some id then (s.nameIdx.remove node.hostname).2 else s.nameIdx
  let nameIdx :=
    match node.fqdnOpt false with
    | some fqdn => (nameIdx.remove fqdn).2
    | none => nameIdx
  let routeIdx ← node.acceptedRoutes.foldlM (fun routes route => removeRoute routes route id) s.routeIdx
  let discoIdx :=
    match node.discoKey with
    | some disco => (s.discoIdx.remove disco).2
    | none => s.discoIdx
  return ⟨nkIdx,discoIdx,stableidIdx,controlIdx,nameIdx,ipIdx,routeIdx⟩

def updateDisco (new : Node) (old : Option Node) (id : PeerId) (idx : Index DiscoPublicKey) :
    Result (Index DiscoPublicKey) :=
  maybeUpdate new old Node.discoKey idx
    (fun old idx =>
      match old.discoKey with
      | some key => do
        let (oldId,idx) := idx.remove key
        Result.assert (oldId == some id)
        return idx
      | none => .ok idx)
    (fun new idx =>
      match new.discoKey with
      | some key => .ok (idx.insert key id)
      | none => .ok idx)

/-- Both the host name, which need not be unique, and the fully-qualified name are stored. -/
def updateNames (new : Node) (old : Option Node) (id : PeerId) (idx : Index PeerName) :
    Result (Index PeerName) :=
  maybeUpdate new old (fun x => (x.hostname,x.tailnet)) idx
    (fun old idx =>
      let idx := if idx old.hostname = some id then (idx.remove old.hostname).2 else idx
      match old.fqdnOpt false with
      | some fqdn => do
        let (removedId,idx) := idx.remove fqdn
        Result.assert (removedId == some id)
        return idx
      | none => .ok idx)
    (fun new idx =>
      let idx := idx.insert new.hostname id
      match new.fqdnOpt false with
      | some fqdn => .ok (idx.insert fqdn id)
      | none => .ok idx)

def updateIps (new : Node) (old : Option Node) (id : PeerId) (idx : SplitStackTable PeerId) :
    Result (SplitStackTable PeerId) :=
  maybeUpdate new old Node.tailnetAddress idx
    (fun old idx => do
      let (id4,idx) ← idx.remove old.tailnetAddress.ipv4
      let (id6,idx) ← idx.remove old.tailnetAddress.ipv6
      Result.assert (id4 == some id)
      Result.assert (id6 == some id)
      return idx)
    (fun new idx => do
      let (_,idx) ← idx.insert new.tailnetAddress.ipv4 id
      let (_,idx) ← idx.insert new.tailnetAddress.ipv6 id
      return idx)

def updateRoutes (new : Node) (old : Option Node) (id : PeerId)
    (idx : SplitStackTable (List PeerId)) : Result (SplitStackTable (List PeerId)) :=
  maybeUpdate new old Node.acceptedRoutes idx
    (fun old idx => old.acceptedRoutes.foldlM (fun idx route => removeRoute idx route id) idx)
    (fun new idx => new.acceptedRoutes.foldlM (fun idx route => insertRoute idx route id) idx)

/-- The updates of all indices in `PeerDb::upsert`. -/
def update (s : IndexState) (new : Node) (old : Option Node) (id : PeerId) : Result IndexState := do
  let nkIdx ← maybeUpdateIdx new old Node.nodeKey s.nkIdx id
  let stableidIdx ← maybeUpdateIdx new old Node.stableId s.stableidIdx id
  let controlIdx ← maybeUpdateIdx new old Node.id s.controlIdx id
  let discoIdx ← updateDisco new old id s.discoIdx
  let nameIdx ← updateNames new old id s.nameIdx
  let ipIdx ← updateIps new old id s.ipIdx
  let routeIdx ← updateRoutes new old id s.routeIdx
  return ⟨nkIdx,discoIdx,stableidIdx,controlIdx,nameIdx,ipIdx,routeIdx⟩

end IndexState

/-- A field of a node by which it can be found. -/
inductive IndexedField
  | peerId (id : PeerId)
  | nodeKey (key : NodePublicKey)
  | discoKey (key : DiscoPublicKey)
  | stableId (id : StableNodeId)
  | nodeId (id : NodeId)
  | name (name : PeerName)
  | ip (ip : IpAddr)

namespace PeerDb

def empty : PeerDb := ⟨fun _ => none,.empty,0⟩

/-- The ids of the peers, in the order in which the map of the peers is iterated. -/
def peerIds (db : PeerDb) (rank : PeerId → ℕ) : List PeerId :=
  (((List.range db.nextId).map UInt32.ofNat).filter fun id => (db.peers id).isSome).insertionSort
    fun a b => rank a ≤ rank b

variable [IpNetOps]

/-- Insert a node, or update the one with the same stable id. -/
def upsert (db : PeerDb) (new : Node) : Result (PeerId × PeerDb) := do
  let (id,nextId) ←
    match db.indexState.stableidIdx new.stableId with
    | some id => Except.ok (id,db.nextId)
    | none =>
      if db.nextId+1 < 2^32 then .ok (UInt32.ofNat db.nextId,db.nextId+1) else .error .overflow
  let old := db.peers id
  if old = some new then
    return (id,{ db with nextId := nextId })
  else
    let indexState ← db.indexState.update new old id
    return (id,⟨update db.peers id (some new),indexState,nextId⟩)

/-- Apply an update to the node with the same control id. -/
def patch (db : PeerDb) (u : NodeUpdate) : Result (PeerId × PeerDb) := do
  let id ←
    match db.indexState.controlIdx u.id with
    | some id => Except.ok id
    | none => .error (.message "no matching peer for update")
  let peer ← Result.unwrap (db.peers id)
  let db := { db with peers := update db.peers id none }
  let peer ← peer.applyUpdate u
  db.upsert peer

def lookup (db : PeerDb) : IndexedField → Result (Option PeerId)
  | .peerId id => .ok (if (db.peers id).isSome then some id else none)
  | .nodeKey key => .ok (db.indexState.nkIdx key)
  | .discoKey key => .ok (db.indexState.discoIdx key)
  | .stableId id => .ok (db.indexState.stableidIdx id)
  | .nodeId id => .ok (db.indexState.controlIdx id)
  | .name name => .ok (db.indexState.nameIdx name)
  | .ip ip => db.indexState.ipIdx.lookup ip

def removePeer (db : PeerDb) (id : PeerId) (node : Node) : Result PeerDb := do
  let indexState ← db.indexState.remove id node
  return { db with peers := update db.peers id none, indexState := indexState }

def remove (db : PeerDb) (field : IndexedField) : Result (Option (PeerId × Node) × PeerDb) := do
  match ← db.lookup field with
  | none => return (none,db)
  | some id =>
    match db.peers id with
    | none => return (none,db)
    | some node =>
      let db ← db.removePeer id node
      return (some (id,node),db)

def get (db : PeerDb) (field : IndexedField) : Result (Option (PeerId × Node)) := do
  let id ← db.lookup field
  return id.bind fun id => (db.peers id).map fun peer => (id,peer)

/-- The nodes with the closest matching route. -/
def getRoute (db : PeerDb) (route : IpNet) : Result (List (PeerId × Node)) := do
  let ids ← db.indexState.routeIdx.lookupPrefix route
  (ids.getD []).mapM fun id => do
    let peer ← Result.unwrap (db.peers id)
    return (id,peer)

/-- One peer in `retain`: the predicate, which may keep a state, decides whether it stays. -/
def retainOne {σ : Type} (predicate : PeerId → Node → σ → Bool × σ) (r : σ × PeerDb) (id : PeerId) :
    Result (σ × PeerDb) :=
  match r.2.peers id with
  | none => .ok r
  | some node => do
    let (keep,s) := predicate id node r.1
    if keep then
      return (s,r.2)
    else
      let db ← r.2.removePeer id node
      return (s,db)

def retain {σ : Type} (db : PeerDb) (rank : PeerId → ℕ) (predicate : PeerId → Node → σ → Bool × σ)
    (s : σ) : Result (σ × PeerDb) :=
  (db.peerIds rank).foldlM (retainOne predicate) (s,db)

end PeerDb
end Tailnet.Runtime

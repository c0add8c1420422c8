import Tailnet.Bart.PrefixMatch
import Tailnet.Runtime.PeerIndex

/-! Calls of the peer database keep its indices, and what the lookups then return. -/
namespace Tailnet.Runtime
open Control Function List Result

section Calls
variable [IpNetOps] {hosts : Bool} {strict : Prop} {db : PeerDb} {new node cur : Node} {id : PeerId} {u : NodeUpdate}

/-- The indices are those of the live peers, and every live peer has an id that was given
out. -/
structure PeerDb.Ok (hosts : Bool) (strict : Prop) (db : PeerDb) : Prop where
  indexed : ∃ ips entries, Indexed hosts strict db.indexState db.peers ips entries
  bound : ∀ id node, db.peers id = some node → id.toNat < db.nextId
  small : db.nextId < 2^32

theorem PeerDb.ok_empty : PeerDb.empty.Ok hosts strict :=
  ⟨⟨_,_,indexed_empty⟩,(fun id node h => by cases h),by decide⟩

/-- An exact index: the key leads to a peer if and only if the peer bears it. -/
theorem PeerDb.Ok.stableidIdx_iff (h : db.Ok hosts strict) {i : StableNodeId} :
    db.indexState.stableidIdx i = some id ↔ ∃ node, db.peers id = some node ∧ node.stableId = i := by
  obtain ⟨ips,entries,hi⟩ := h.indexed
  constructor
  · intro hk
    obtain ⟨node,hnode,hbears⟩ := hi.notStale id (.stableId i) hk (.inr trivial)
    exact ⟨node,hnode,Eq.symm hbears⟩
  · rintro ⟨node,hnode,rfl⟩
    exact hi.resolves id (.stableId node.stableId) ⟨node,hnode,rfl⟩

theorem PeerDb.Ok.controlIdx_iff (h : db.Ok hosts strict) {i : NodeId} :
    db.indexState.controlIdx i = some id ↔ ∃ node, db.peers id = some node ∧ node.id = i := by
  obtain ⟨ips,entries,hi⟩ := h.indexed
  constructor
  · intro hk
    obtain ⟨node,hnode,hbears⟩ := hi.notStale id (.nodeId i) hk (.inr trivial)
    exact ⟨node,hnode,Eq.symm hbears⟩
  · rintro ⟨node,hnode,rfl⟩
    exact hi.resolves id (.nodeId node.id) ⟨node,hnode,rfl⟩

def PeerDb.Knows (db : PeerDb) (i : StableNodeId) : Prop :=
  ∃ id node, db.peers id = some node ∧ node.stableId = i

/-- What a node needs to be inserted: an id is left if it is new, what it is stored under is
nobody else's, and its routes are distinct networks. -/
structure PeerDb.Fits (hosts : Bool) (db : PeerDb) (new : Node) : Prop where
  ids : ¬ db.Knows new.stableId → db.nextId+1 < 2^32
  distinct : ∀ q node, db.peers q = some node → node.stableId ≠ new.stableId →
    ∀ k, Bears new k → ¬ Owns hosts node k
  nets : (routeNets new).Nodup

theorem PeerDb.Fits.freeFor (hfits : db.Fits hosts new)
    (hid : ∀ q node, db.peers q = some node → node.stableId = new.stableId → q = id) :
    FreeFor hosts db.peers id new :=
  fun q hq node hnode => hfits.distinct q node hnode fun heq => hq (hid q node hnode heq)

/-- The id of an upserted node: the one it has, or the next one. -/
def PeerDb.IdFor (db : PeerDb) (new : Node) (id : PeerId) : Prop :=
  (∃ cur, db.peers id = some cur ∧ cur.stableId = new.stableId) ∨
    ¬ db.Knows new.stableId ∧ id = UInt32.ofNat db.nextId ∧ db.peers id = none

omit [IpNetOps] in
theorem bound_update {peers : PeerId → Option Node} {n n' : ℕ} {o : Option Node}
    (h : ∀ id node, peers id = some node → id.toNat < n) (hle : n ≤ n') (hid : id.toNat < n')
    (q : PeerId) (node : Node) (hq : update peers id o q = some node) : q.toNat < n' := by
  by_cases heq : q = id
  · rw [heq]
    exact hid
  · rw [update_of_ne heq] at hq
    exact (h q node hq).trans_le hle

theorem PeerDb.upsert_spec (h : db.Ok hosts strict) (hfits : db.Fits hosts new) :
    ∃ id db', db.upsert new = .ok (id,db') ∧ db'.Ok hosts strict ∧ db.IdFor new id ∧
      db'.peers = update db.peers id (some new) ∧
      db'.nextId = if db.peers id = none then db.nextId+1 else db.nextId := by
  obtain ⟨ips,entries,hi⟩ := h.indexed
  cases hidx : db.indexState.stableidIdx new.stableId with
  | some id =>
    obtain ⟨cur,hcur,hstable⟩ := h.stableidIdx_iff.mp hidx
    have hid : ∀ q node, db.peers q = some node → node.stableId = new.stableId → q = id :=
      fun q node hq heq => Option.some.inj ((h.stableidIdx_iff.mpr ⟨node,hq,heq⟩).symm.trans hidx)
    by_cases hsame : db.peers id = some new
    · refine ⟨id,db,by simp [upsert,hidx,hsame],h,.inl ⟨cur,hcur,hstable⟩,?_,?_⟩
      · rw [← hsame,update_eq_self]
      · rw [hcur,if_neg (by simp)]
    · obtain ⟨s',ips',entries',hs',hi'⟩ := hi.update (.inl rfl) (hfits.freeFor hid) hfits.nets
      refine ⟨id,⟨update db.peers id (some new),s',db.nextId⟩,by simp [upsert,hidx,hsame,hs'],
        ⟨⟨ips',entries',hi'⟩,bound_update h.bound le_rfl (h.bound id cur hcur),h.small⟩,
        .inl ⟨cur,hcur,hstable⟩,rfl,?_⟩
      rw [hcur,if_neg (by simp)]
  | none =>
    have hno : ¬ db.Knows new.stableId := by
      rintro ⟨q,node,hq,heq⟩
      rw [h.stableidIdx_iff.mpr ⟨node,hq,heq⟩] at hidx
      cases hidx
    have hlt := hfits.ids hno
    have htoNat : (UInt32.ofNat db.nextId).toNat = db.nextId := by
      exact UInt32.toNat_ofNat_of_lt' h.small
    have hnone : db.peers (UInt32.ofNat db.nextId) = none := by
      rw [Option.eq_none_iff_forall_ne_some]
      intro node hnode
      have hb := h.bound _ node hnode
      rw [htoNat] at hb
      exact lt_irrefl _ hb
    have hfree : FreeFor hosts db.peers (UInt32.ofNat db.nextId) new :=
      hfits.freeFor fun q node hq heq => absurd ⟨q,node,hq,heq⟩ hno
    obtain ⟨s',ips',entries',hs',hi'⟩ := hi.update (.inl rfl) hfree hfits.nets
    rw [hnone] at hs'
    have hid : (UInt32.ofNat db.nextId).toNat < db.nextId+1 := by
      rw [htoNat]
      exact Nat.lt_succ_self _
    refine ⟨UInt32.ofNat db.nextId,
      ⟨update db.peers (UInt32.ofNat db.nextId) (some new),s',db.nextId+1⟩,?_,
      ⟨⟨ips',entries',hi'⟩,bound_update h.bound (Nat.le_succ _) hid,hlt⟩,.inr ⟨hno,rfl,hnone⟩,rfl,
      by rw [if_pos hnone]⟩
    simp only [upsert,hidx,if_pos hlt,bind_of_ok,hnone,reduceCtorEq,if_false,hs']
    rfl

/-- A patch takes the node out of the map, so that its old version is not found when the
patched one is inserted. -/
theorem PeerDb.patch_spec (h : db.Ok hosts strict) (hcur : db.peers id = some cur) (hid : cur.id = u.id)
    (hover : Overwrites strict cur (cur.patched u)) (hfree : FreeFor hosts db.peers id (cur.patched u)) :
    ∃ db', db.patch u = .ok (id,db') ∧ db'.Ok hosts strict ∧
      db'.peers = update db.peers id (some (cur.patched u)) ∧ db'.nextId = db.nextId := by
  obtain ⟨ips,entries,hi⟩ := h.indexed
  have hcontrol : db.indexState.controlIdx u.id = some id := h.controlIdx_iff.mpr ⟨cur,hcur,hid⟩
  have hstable : db.indexState.stableidIdx (cur.patched u).stableId = some id :=
    h.stableidIdx_iff.mpr ⟨cur,hcur,rfl⟩
  obtain ⟨s',ips',entries',hs',hi'⟩ :=
    hi.update (.inr ⟨rfl,cur,hcur,hover⟩) hfree (hi.nodup id cur hcur : (routeNets cur).Nodup)
  refine ⟨⟨update db.peers id (some (cur.patched u)),s',db.nextId⟩,?_,
    ⟨⟨ips',entries',hi'⟩,bound_update h.bound le_rfl (h.bound id cur hcur),h.small⟩,rfl,rfl⟩
  simp only [patch,hcontrol,bind_of_ok,hcur,unwrap_some,Node.applyUpdate_of_id hid,
    upsert,hstable,update_self,reduceCtorEq,if_false,hs',update_idem]
  rfl

theorem PeerDb.removePeer_spec (h : db.Ok hosts strict) (hnode : db.peers id = some node) :
    ∃ db', db.removePeer id node = .ok db' ∧ db'.Ok hosts strict ∧
      db'.peers = update db.peers id none ∧ db'.nextId = db.nextId := by
  obtain ⟨ips,entries,hi⟩ := h.indexed
  obtain ⟨s',ips',entries',hs',hi'⟩ := hi.remove hnode
  exact ⟨⟨update db.peers id none,s',db.nextId⟩,by simp [removePeer,hs'],
    ⟨⟨ips',entries',hi'⟩,bound_update h.bound le_rfl (h.bound id node hnode),h.small⟩,rfl,rfl⟩

theorem PeerDb.Ok.lookup_ok (h : db.Ok hosts strict) (field : IndexedField) :
    ∃ r, db.lookup field = .ok r := by
  obtain ⟨ips,entries,hi⟩ := h.indexed
  cases field with
  | ip a =>
    obtain ⟨m,hm,_⟩ := hi.ip
    exact ⟨_,lookupAddress_spec (hm.stack a.family).wf⟩
  | _ => exact ⟨_,rfl⟩

/-- What a removal does: nothing if the field leads to no live peer. -/
theorem PeerDb.remove_spec (h : db.Ok hosts strict) (field : IndexedField) :
    ∃ r db', db.remove field = .ok (r,db') ∧ db'.Ok hosts strict ∧ db'.nextId = db.nextId ∧
      match r with
      | none => db' = db ∧ ∀ id, db.lookup field = .ok (some id) → db.peers id = none
      | some (id,node) => db.lookup field = .ok (some id) ∧ db.peers id = some node ∧
        db'.peers = update db.peers id none := by
  obtain ⟨r,hr⟩ := h.lookup_ok field
  cases r with
  | none => exact ⟨none,db,by simp [remove,hr],h,rfl,rfl,fun id hid => by rw [hr] at hid; cases hid⟩
  | some id =>
    cases hnode : db.peers id with
    | none =>
      refine ⟨none,db,by simp [remove,hr,hnode],h,rfl,rfl,fun id' hid => ?_⟩
      rw [hr] at hid
      cases hid
      exact hnode
    | some node =>
      obtain ⟨db',hdb',hok,hpeers,hnext⟩ := removePeer_spec h hnode
      exact ⟨some (id,node),db',by simp [remove,hr,hnode,hdb'],hok,hnext,hr,hnode,hpeers⟩

section Retain
variable {σ : Type} {predicate : PeerId → Node → σ → Bool × σ} {keep : PeerId → Node → Bool}

/-- What the predicate keeps in its state at one peer. -/
def PeerDb.visit (db : PeerDb) (predicate : PeerId → Node → σ → Bool × σ) (s : σ) (id : PeerId) : σ :=
  match db.peers id with
  | none => s
  | some node => (predicate id node s).2

theorem PeerDb.retainOne_spec (hkeep : ∀ id node s, (predicate id node s).1 = keep id node)
    (h : db.Ok hosts strict) (s : σ) (id : PeerId) :
    ∃ db', retainOne predicate (s,db) id = .ok (db.visit predicate s id,db') ∧ db'.Ok hosts strict ∧
      db'.nextId = db.nextId ∧
      db'.peers = update db.peers id ((db.peers id).filter (keep id)) := by
  cases hnode : db.peers id with
  | none =>
    refine ⟨db,by simp [retainOne,visit,hnode],h,rfl,?_⟩
    rw [Option.filter_none,← hnode,update_eq_self]
  | some node =>
    cases hk : keep id node with
    | true =>
      refine ⟨db,by simp [retainOne,visit,hnode,hkeep,hk],h,rfl,?_⟩
      rw [Option.filter_some,if_pos hk,← hnode,update_eq_self]
    | false =>
      obtain ⟨db',hdb',hok,hpeers,hnext⟩ := removePeer_spec h hnode
      refine ⟨db',by simp [retainOne,visit,hnode,hkeep,hk,hdb'],hok,hnext,?_⟩
      rw [hpeers,Option.filter_some,hk]
      rfl

theorem PeerDb.retain_fold (hkeep : ∀ id node s, (predicate id node s).1 = keep id node)
    {ids : List PeerId} (hnodup : ids.Nodup) (h : db.Ok hosts strict) (s : σ) :
    ∃ db', ids.foldlM (retainOne predicate) (s,db) = .ok (ids.foldl (db.visit predicate) s,db') ∧
      db'.Ok hosts strict ∧ db'.nextId = db.nextId ∧
      ∀ q, db'.peers q = if q ∈ ids then (db.peers q).filter (keep q) else db.peers q := by
  induction ids generalizing db s with
  | nil => exact ⟨db,rfl,h,rfl,fun q => by simp⟩
  | cons id ids ih =>
    rw [nodup_cons] at hnodup
    obtain ⟨db1,hdb1,hok1,hnext1,hpeers1⟩ := retainOne_spec hkeep h s id
    obtain ⟨db2,hdb2,hok2,hnext2,hpeers2⟩ := ih hnodup.2 hok1 (db.visit predicate s id)
    have hother : ∀ q ∈ ids, db1.peers q = db.peers q := by
      intro q hq
      rw [hpeers1,update_of_ne]
      rintro rfl
      exact hnodup.1 hq
    have hvisit : ∀ s, ids.foldl (db1.visit predicate) s = ids.foldl (db.visit predicate) s := by
      intro s
      refine foldl_ext _ _ s fun s q hq => ?_
      rw [visit,visit,hother q hq]
    refine ⟨db2,?_,hok2,hnext2.trans hnext1,fun q => ?_⟩
    · rw [foldlM_cons,hdb1,bind_of_ok,hdb2,hvisit]
      rfl
    · rw [hpeers2 q]
      by_cases hq : q = id
      · subst hq
        rw [if_neg hnodup.1,hpeers1,update_self,if_pos mem_cons_self]
      · rw [hpeers1,update_of_ne hq]
        simp [hq]

theorem PeerDb.mem_peerIds (h : db.Ok hosts strict) {rank : PeerId → ℕ} :
    id ∈ db.peerIds rank ↔ ∃ node, db.peers id = some node := by
  rw [peerIds,mem_insertionSort,mem_filter,Option.isSome_iff_exists,mem_map]
  refine ⟨fun hid => hid.2,fun hid => ⟨?_,hid⟩⟩
  obtain ⟨node,hnode⟩ := hid
  exact ⟨id.toNat,mem_range.mpr (h.bound id node hnode),UInt32.ofNat_toNat⟩

theorem PeerDb.nodup_peerIds (h : db.Ok hosts strict) {rank : PeerId → ℕ} : (db.peerIds rank).Nodup := by
  rw [peerIds,(perm_insertionSort _ _).nodup_iff]
  refine List.Nodup.filter _ (List.Nodup.map_on ?_ nodup_range)
  intro a ha b hb heq
  have ha' := (mem_range.mp ha).trans h.small
  have hb' := (mem_range.mp hb).trans h.small
  rw [← UInt32.toNat_ofNat_of_lt' ha',← UInt32.toNat_ofNat_of_lt' hb',heq]

theorem PeerDb.retain_spec (hkeep : ∀ id node s, (predicate id node s).1 = keep id node)
    (h : db.Ok hosts strict) (rank : PeerId → ℕ) (s : σ) :
    ∃ db', db.retain rank predicate s = .ok ((db.peerIds rank).foldl (db.visit predicate) s,db') ∧
      db'.Ok hosts strict ∧ db'.nextId = db.nextId ∧ ∀ q, db'.peers q = (db.peers q).filter (keep q) := by
  obtain ⟨db',hdb',hok,hnext,hpeers⟩ := retain_fold hkeep (nodup_peerIds h) h s
  refine ⟨db',hdb',hok,hnext,fun q => ?_⟩
  rw [hpeers q]
  split
  · rfl
  · rename_i hq
    have hnone : db.peers q = none := by
      rw [Option.eq_none_iff_forall_ne_some]
      exact fun node hnode => hq ((mem_peerIds h).mpr ⟨node,hnode⟩)
    rw [hnone,Option.filter_none]

end Retain
end Calls
section Lookups
variable [IpNetOps] {hosts : Bool} {strict : Prop} {db : PeerDb} {node : Node} {p : PeerId}

theorem PeerDb.Ok.eq_of_owns (h : db.Ok hosts strict) {q : PeerId} {node' : Node} {k : Key}
    (hp : db.peers p = some node) (hk : Owns hosts node k) (hq : db.peers q = some node')
    (hk' : Owns hosts node' k) : p = q := by
  obtain ⟨ips,entries,hi⟩ := h.indexed
  exact Option.some.inj ((hi.resolves p k ⟨node,hp,hk⟩).symm.trans (hi.resolves q k ⟨node',hq,hk'⟩))

/-- A lookup by address finds the peer with the longest network around the address. -/
theorem PeerDb.Ok.lookup_ip (h : db.Ok hosts strict) (a : IpAddr) :
    db.lookup (.ip a) = .ok none ∧
        (∀ p node net, db.peers p = some node → net ∈ ipKeys node → net.contains a = false) ∨
      ∃ p node net, db.lookup (.ip a) = .ok (some p) ∧ db.peers p = some node ∧
        net ∈ ipKeys node ∧ net.contains a = true ∧
        ∀ q node' net', db.peers q = some node' → net' ∈ ipKeys node' → net'.contains a = true →
          net'.prefixLen ≤ net.prefixLen := by
  obtain ⟨ips,entries,hi⟩ := h.indexed
  obtain ⟨m,hm,rfl⟩ := hi.ip
  have hlook : db.lookup (.ip a) = _ := lookupAddress_spec (hm.stack a.family).wf
  have hcovers : ∀ q node net, db.peers q = some node → net ∈ ipKeys node → net.contains a = true →
      Covers m a net ∧ net.prefixLen < 8*a.octets.length+1 := by
    intro q node net hq hnet hc
    have hmem : net ∈ m := Finmap.mem_iff.mpr ⟨q,hi.resolves q (.ip net) ⟨node,hq,hnet⟩⟩
    have hcover : Covers m a net := ⟨hmem,(IpNet.contains_iff.mp hc).1,hc⟩
    exact ⟨hcover,hcover.prefixLen_lt⟩
  rcases hm.head_covering le_rfl with ⟨hnone,hno⟩ | ⟨net,p,hhead,hv,hnet,hmax⟩
  · left
    refine ⟨hlook.trans (congrArg _ hnone),fun q node net hq hnet => ?_⟩
    rw [Bool.eq_false_iff]
    exact fun hc => hno net (hcovers q node net hq hnet hc)
  · right
    obtain ⟨node,hp,hbears⟩ := hi.notStale p (.ip net) hv (.inr trivial)
    exact ⟨p,node,net,hlook.trans (congrArg _ hhead),hp,hbears,hnet.1.2.2,
      fun q node' net' hq hnet' hc => hmax net' (hcovers q node' net' hq hnet' hc)⟩

omit [IpNetOps] in
theorem mapM_unwrap {peers : PeerId → Option Node} {ids : List PeerId}
    (h : ∀ id ∈ ids, ∃ node, peers id = some node) :
    ids.mapM (fun id => do
      let peer ← Result.unwrap (peers id)
      return (id,peer)) = Except.ok (ids.filterMap fun id => (peers id).map fun node => (id,node)) := by
  induction ids with
  | nil => rfl
  | cons id ids ih =>
    rw [forall_mem_cons] at h
    obtain ⟨⟨node,hnode⟩,hrest⟩ := h
    rw [mapM_cons,ih hrest,hnode,filterMap_cons,hnode]
    rfl

/-- A lookup by route returns the live peers in the entry of the prefix that is hit. -/
theorem Indexed.getRoute {ips : IpNet → Option PeerId} {entries : IpNet → List PeerId}
    (hi : Indexed hosts strict db.indexState db.peers ips entries) (route : IpNet) :
    ∃ (m : RouteMap (List PeerId)) (o : Option IpNet), db.indexState.routeIdx.Rep m ∧
      (∀ net, m.lookup net = if entries net = [] then none else some (entries net)) ∧
      PrefixHit m route o ∧
      db.getRoute route = .ok (((o.map entries).getD []).filterMap fun id =>
        (db.peers id).map fun node => (id,node)) := by
  obtain ⟨m,hm,hentries⟩ := hi.route
  obtain ⟨res,o,hres,hhit,hval⟩ := hm.lookupPrefix_hit route
  have hlook : db.indexState.routeIdx.lookupPrefix route = .ok (res.map Prod.snd) := by
    change SimpleTable.lookupPrefix _ route = _
    rw [SimpleTable.lookupPrefix,show Tailnet.lookupPrefixLpm _ route = _ from hres]
    rfl
  have hids : (res.map Prod.snd).getD [] = (o.map entries).getD [] := by
    rw [hval]
    cases o with
    | none => rfl
    | some net =>
      rw [Option.bind_some,hentries]
      split
      · rename_i hnil
        exact hnil.symm
      · rfl
  refine ⟨m,o,hm,hentries,hhit,?_⟩
  rw [PeerDb.getRoute,hlook,bind_of_ok,hids]
  refine mapM_unwrap fun id hid => ?_
  cases o with
  | none => cases hid
  | some net =>
    obtain ⟨node,hnode,_⟩ := (hi.listed net id).mp hid
    exact ⟨node,hnode⟩

/-- The prefix of one address. -/
def IsHost (net : IpNet) : Prop := net.prefixLen = 8*net.addr.octets.length

instance (net : IpNet) : Decidable (IsHost net) := inferInstanceAs (Decidable (_ = _))

theorem IsHost.contains_iff {net : IpNet} (h : IsHost net) {a : IpAddr} :
    net.trunc.contains a = true ↔ net.addr = a := by
  rw [IpNet.contains_iff,IpNet.trunc_key,IpNet.trunc_family,IpNet.trunc_prefixLen]
  constructor
  · rintro ⟨hf,hkey⟩
    have hlen : net.addr.octets.length = a.octets.length := by
      rw [net.addr.length_octets,a.length_octets,hf]
    rw [IpNet.key,keyOf_eq_iff hlen] at hkey
    refine IpAddr.ext_bit hf fun k => ?_
    rcases Nat.lt_or_ge k net.prefixLen with hk | hk
    · exact hkey k hk
    · -- there are no bits past the last octet
      have hout : ∀ os : List UInt8, 8*os.length ≤ k → bitAt os k = false := by
        intro os hos
        rw [bitAt,getD_eq_default _ _ (by omega)]
        exact Nat.zero_testBit _
      rw [h] at hk
      rw [IpAddr.bit,IpAddr.bit,hout _ hk,hout _ (by omega)]
  · rintro rfl
    exact ⟨rfl,rfl⟩

/-- The tailnet addresses of a node are addresses of single hosts. -/
def HostAddresses (node : Node) : Prop :=
  IsHost node.tailnetAddress.ipv4 ∧ IsHost node.tailnetAddress.ipv6

instance (node : Node) : Decidable (HostAddresses node) := inferInstanceAs (Decidable (_ ∧ _))

def HasAddress (node : Node) (a : IpAddr) : Prop :=
  node.tailnetAddress.ipv4.addr = a ∨ node.tailnetAddress.ipv6.addr = a

theorem HostAddresses.contains_iff (h : HostAddresses node) {a : IpAddr} :
    (∃ net ∈ ipKeys node, net.contains a = true) ↔ HasAddress node a := by
  constructor
  · rintro ⟨net,rfl | rfl,hc⟩
    · exact .inl (h.1.contains_iff.mp hc)
    · exact .inr (h.2.contains_iff.mp hc)
  · rintro (ha | ha)
    · exact ⟨_,.inl rfl,h.1.contains_iff.mpr ha⟩
    · exact ⟨_,.inr rfl,h.2.contains_iff.mpr ha⟩

theorem canonical_of_mem_ipKeys {net : IpNet} (h : net ∈ ipKeys node) : net.Canonical := by
  rcases h with rfl | rfl
  · exact IpNet.trunc_canonical _
  · exact IpNet.trunc_canonical _

theorem HostAddresses.prefixLen (h : HostAddresses node) {net : IpNet} (hnet : net ∈ ipKeys node) :
    net.prefixLen = 8*net.addr.octets.length := by
  rcases hnet with rfl | rfl
  · rw [IpNet.trunc_prefixLen,IpNet.length_trunc]
    exact h.1
  · rw [IpNet.trunc_prefixLen,IpNet.length_trunc]
    exact h.2

theorem PeerDb.Ok.eq_of_hasAddress (h : db.Ok hosts strict)
    (hhost : ∀ p node, db.peers p = some node → HostAddresses node) {q : PeerId} {node' : Node}
    {a : IpAddr} (hp : db.peers p = some node) (ha : HasAddress node a)
    (hq : db.peers q = some node') (ha' : HasAddress node' a) : p = q := by
  obtain ⟨net,hnet,hc⟩ := (hhost p node hp).contains_iff.mpr ha
  obtain ⟨net',hnet',hc'⟩ := (hhost q node' hq).contains_iff.mpr ha'
  have heq : net = net' := by
    obtain ⟨hf,hkey⟩ := IpNet.contains_iff.mp hc
    obtain ⟨hf',hkey'⟩ := IpNet.contains_iff.mp hc'
    have hlen := (hhost p node hp).prefixLen hnet
    have hlen' := (hhost q node' hq).prefixLen hnet'
    have hcan := canonical_of_mem_ipKeys hnet
    have hcan' := canonical_of_mem_ipKeys hnet'
    rw [net.addr.length_octets,hf,← hf',← net'.addr.length_octets,← hlen'] at hlen
    rw [hlen,← hkey'] at hkey
    exact hcan.ext hcan' (hf.trans hf'.symm) hkey
  subst heq
  exact h.eq_of_owns (k := .ip net) hp hnet hq hnet'

end Lookups
namespace PeerDb

/-- A call of the database. The predicate of `retain` is asked once about each peer. -/
inductive Call
  | upsert (node : Node)
  | patch (update : NodeUpdate)
  | remove (field : IndexedField)
  | retain (rank : PeerId → ℕ) (predicate : PeerId → Node → Bool)

section Runs
variable [IpNetOps]

def step : Call → PeerDb → Result (Unit × PeerDb)
  | .upsert node,db => do
    let (_,db) ← db.upsert node
    return ((),db)
  | .patch u,db => do
    let (_,db) ← db.patch u
    return ((),db)
  | .remove field,db => do
    let (_,db) ← db.remove field
    return ((),db)
  | .retain rank predicate,db => db.retain rank (fun id node s => (predicate id node,s)) ()

/-- The lookups by a field that is unique return a peer exactly when it is live and has the
field, and the entry of a route lists the live peers that accept it. -/
structure IndicesInverse (db : PeerDb) : Prop where
  nodeKey : ∀ key p, db.lookup (.nodeKey key) = .ok (some p) ↔
    ∃ node, db.peers p = some node ∧ node.nodeKey = key
  discoKey : ∀ key p, db.lookup (.discoKey key) = .ok (some p) ↔
    ∃ node, db.peers p = some node ∧ node.discoKey = some key
  stableId : ∀ i p, db.lookup (.stableId i) = .ok (some p) ↔
    ∃ node, db.peers p = some node ∧ node.stableId = i
  nodeId : ∀ i p, db.lookup (.nodeId i) = .ok (some p) ↔
    ∃ node, db.peers p = some node ∧ node.id = i
  /-- host names are found by the same lookup -/
  fqdn : ∀ name p, (∀ q node, db.peers q = some node → node.hostname ≠ name) →
    (db.lookup (.name name) = .ok (some p) ↔
      ∃ node, db.peers p = some node ∧ node.fqdnOpt false = some name)
  fqdn_of_hostname : ∀ name p node, db.peers p = some node → node.fqdnOpt false = some name →
    db.lookup (.name name) = .ok (some p)
  address : ∀ a p, db.lookup (.ip a) = .ok (some p) ↔
    ∃ node, db.peers p = some node ∧ HasAddress node a
  route : ∀ r, ∃ entry, db.indexState.routeIdx.lookupPrefixExact (IpNet.trunc r) = .ok entry ∧
    entry ≠ some [] ∧ (entry.getD []).Nodup ∧
    ∀ p, p ∈ entry.getD [] ↔ ∃ node, db.peers p = some node ∧ r.trunc ∈ routeNets node

/-- The condition on a call: afterwards the fields are unique, the addresses are those of
hosts and the routes are distinct; and a patch is one of a live node without routes that
keeps its node key and the disco key it has. -/
def Admissible (db : PeerDb) : Call → Prop
  | .upsert new => db.Fits false new ∧ HostAddresses new
  | .patch u => ∃ id cur, db.peers id = some cur ∧ cur.id = u.id ∧ cur.acceptedRoutes = [] ∧
      (∀ key, u.nodeKey = some key → key = cur.nodeKey) ∧
      (∀ key old, u.discoKey = some key → cur.discoKey = some old → key = old) ∧
      FreeFor false db.peers id (cur.patched u)
  | .remove _ => True
  | .retain _ _ => True

variable {db : PeerDb} {cur : Node} {u : NodeUpdate}

/-- A patch overwrites a node well as long as it changes no key that it has, and the node
has no routes. -/
theorem overwrites_patched {strict : Prop} (hroutes : strict → cur.acceptedRoutes = [])
    (hkey : strict → ∀ key, u.nodeKey = some key → key = cur.nodeKey)
    (hdisco : strict → ∀ key old, u.discoKey = some key → cur.discoKey = some old → key = old) :
    Overwrites strict cur (cur.patched u) where
  nets := fun net hnet => hnet
  lasting := by
    intro k hk hbears
    cases k with
    | nodeKey key => cases hk
    | discoKey key => cases hk
    | _ => exact hbears
  bears := by
    intro hs k hbears
    cases k with
    | nodeKey key =>
      change key = u.nodeKey.getD cur.nodeKey
      cases hu : u.nodeKey with
      | none => exact hbears
      | some new =>
        rw [hkey hs new hu]
        exact hbears
    | discoKey key =>
      change u.discoKey.or cur.discoKey = some key
      cases hu : u.discoKey with
      | none => exact hbears
      | some new =>
        rw [hdisco hs new key hu hbears]
        rfl
    | _ => exact hbears
  noRoutes := fun hs => by
    change cur.acceptedRoutes.map IpNet.trunc = []
    rw [hroutes hs,map_nil]

/-- The state of a run in which every call meets the condition. -/
def Good (db : PeerDb) : Prop :=
  db.Ok false True ∧ ∀ p node, db.peers p = some node → HostAddresses node

omit [IpNetOps] in
theorem hostAddresses_update {peers : PeerId → Option Node} {id : PeerId} {o : Option Node}
    (h : ∀ p node, peers p = some node → HostAddresses node)
    (ho : ∀ node, o = some node → HostAddresses node) (p : PeerId) (node : Node)
    (hp : update peers id o p = some node) : HostAddresses node := by
  by_cases heq : p = id
  · subst heq
    rw [update_self] at hp
    exact ho node hp
  · rw [update_of_ne heq] at hp
    exact h p node hp

/-- A call that meets the condition does not panic and leads to a good state. -/
theorem Good.step (h : db.Good) {call : Call} (hc : db.Admissible call) :
    ∃ db', step call db = .ok ((),db') ∧ db'.Good := by
  obtain ⟨hok,hhost⟩ := h
  cases call with
  | upsert new =>
    obtain ⟨id,db',hdb',hok',_,hpeers,_⟩ := upsert_spec hok hc.1
    refine ⟨db',by simp [PeerDb.step,hdb'],hok',?_⟩
    rw [hpeers]
    exact hostAddresses_update hhost fun node hnode => by cases hnode; exact hc.2
  | patch u =>
    obtain ⟨id,cur,hcur,hid,hroutes,hkey,hdisco,hfree⟩ := hc
    obtain ⟨db',hdb',hok',hpeers,_⟩ := patch_spec hok hcur hid
      (overwrites_patched (fun _ => hroutes) (fun _ => hkey) fun _ => hdisco) hfree
    refine ⟨db',by simp [PeerDb.step,hdb'],hok',?_⟩
    rw [hpeers]
    exact hostAddresses_update hhost fun node hnode => by cases hnode; exact hhost id cur hcur
  | remove field =>
    obtain ⟨r,db',hdb',hok',_,hr⟩ := remove_spec hok field
    refine ⟨db',by simp [PeerDb.step,hdb'],hok',?_⟩
    cases r with
    | none =>
      rw [hr.1]
      exact hhost
    | some x =>
      rw [hr.2.2]
      exact hostAddresses_update hhost fun node hnode => by cases hnode
  | retain rank predicate =>
    have hkeep : ∀ id node (s : Unit), ((fun id node s => (predicate id node,s)) id node s).1 =
        predicate id node := fun _ _ _ => rfl
    obtain ⟨db',hdb',hok',_,hpeers⟩ := retain_spec hkeep hok rank ()
    refine ⟨db',hdb',hok',fun p node hp => ?_⟩
    rw [hpeers] at hp
    exact hhost p node (Option.filter_eq_some_iff.mp hp).1

theorem Good.indicesInverse (h : db.Good) : db.IndicesInverse := by
  obtain ⟨hok,hhost⟩ := h
  obtain ⟨ips,entries,hi⟩ := hok.indexed
  have hiff : ∀ k p, db.indexState.at ips k = some p → Live db.peers Bears p k :=
    fun k p hk => hi.notStale p k hk (.inl trivial)
  refine ⟨fun key p => ?_,fun key p => ?_,fun i p => ?_,fun i p => ?_,fun name p hname => ?_,
    fun name p node hnode hfqdn => ?_,fun a p => ?_,fun r => ?_⟩
  · rw [lookup,Except.ok.injEq]
    constructor
    · intro hk
      obtain ⟨node,hnode,hb⟩ := hiff (.nodeKey key) p hk
      exact ⟨node,hnode,Eq.symm hb⟩
    · rintro ⟨node,hnode,rfl⟩
      exact hi.resolves p (.nodeKey node.nodeKey) ⟨node,hnode,rfl⟩
  · rw [lookup,Except.ok.injEq]
    exact ⟨hiff (.discoKey key) p,hi.resolves p (.discoKey key)⟩
  · rw [lookup,Except.ok.injEq]
    exact hok.stableidIdx_iff
  · rw [lookup,Except.ok.injEq]
    exact hok.controlIdx_iff
  · rw [lookup,Except.ok.injEq]
    constructor
    · intro hk
      obtain ⟨node,hnode,hb⟩ := hiff (.name name) p hk
      rcases hb with hb | hb
      · exact absurd (Eq.symm hb) (hname p node hnode)
      · exact ⟨node,hnode,hb⟩
    · rintro ⟨node,hnode,hfqdn⟩
      exact hi.resolves p (.name name) ⟨node,hnode,.inl hfqdn⟩
  · exact congrArg Except.ok (hi.resolves p (.name name) ⟨node,hnode,.inl hfqdn⟩)
  · rcases hok.lookup_ip a with ⟨hnone,hno⟩ | ⟨q,node,net,hsome,hq,hnet,hc,_⟩
    · rw [hnone]
      refine ⟨fun hp => (by cases hp),fun ⟨node,hnode,ha⟩ => ?_⟩
      obtain ⟨net,hnet,hc⟩ := (hhost p node hnode).contains_iff.mpr ha
      rw [hno p node net hnode hnet] at hc
      cases hc
    · have ha := (hhost q node hq).contains_iff.mp ⟨net,hnet,hc⟩
      rw [hsome]
      constructor
      · intro hp
        cases hp
        exact ⟨node,hq,ha⟩
      · rintro ⟨node',hnode',ha'⟩
        rw [hok.eq_of_hasAddress hhost hnode' ha' hq ha]
  · refine ⟨_,hi.route.lookup r.trunc_canonical,?_,?_,fun p => ?_⟩
    · split
      · simp
      · rename_i hne
        simpa using hne
    · split
      · exact nodup_nil
      · exact hi.once trivial _
    · rw [← hi.listed r.trunc p]
      split
      · rename_i hnil
        rw [hnil]
        rfl
      · rfl

/-- In every run whose calls meet the condition no call panics, and the indices are the
inverse of the map of the peers in every state. -/
theorem indices_inverse_in_runs (calls : List Call)
    (hcalls : AtEveryCall step Admissible calls empty) :
    AtEveryState step IndicesInverse calls empty ∧
      AtEveryCall step (fun db call => ∃ db', step call db = .ok ((),db')) calls empty := by
  refine atEvery_of_invariant Good (fun db h => h.indicesInverse) ?_ calls
    ⟨ok_empty,fun p node h => by cases h⟩ hcalls
  intro db call hgood hc
  obtain ⟨db',hdb',hgood'⟩ := hgood.step hc
  refine ⟨⟨db',hdb'⟩,fun o s' hs' => ?_⟩
  rw [hdb'] at hs'
  cases hs'
  exact hgood'

/-- The fields of the live nodes are unique. -/
def Unique (db : PeerDb) : Prop :=
  ∀ p q a b, db.peers p = some a → db.peers q = some b → p ≠ q → ∀ k, Owns false a k → ¬ Owns false b k

theorem Ok.unique {strict : Prop} (h : db.Ok false strict) : db.Unique :=
  fun _ _ _ _ ha hb hne _ hk hk' => hne (h.eq_of_owns ha hk hb hk')

theorem fits_empty {hosts : Bool} {new : Node} (h : (routeNets new).Nodup) : empty.Fits hosts new :=
  ⟨fun _ => by decide,(fun q node hq => by cases hq),h⟩

theorem freeFor_single {hosts : Bool} {id : PeerId} {a new : Node} (hpeers : db.peers =
    update empty.peers id (some a)) : FreeFor hosts db.peers id new := by
  intro q hq node hnode
  rw [hpeers,update_of_ne hq] at hnode
  cases hnode

end Runs

/-- A node that accepts the routes to `10.0.0.0/8`. -/
def routed : Node :=
  { Node.blank 1 with acceptedRoutes := [.ofV4 10 0 0 0 8] }

def newKey : NodeUpdate :=
  { NodeUpdate.default 1 .unknown with nodeKey := some (List.Vector.replicate 32 1) }

section
attribute [local instance] maskOps

/-- After a change of the node key by a patch the old key still leads to the node. -/
theorem patch_keeps_old_key :
    AtEveryState step Unique [.upsert routed,.patch newKey] empty ∧
      ¬ AtEveryState step IndicesInverse [.upsert routed,.patch newKey] empty := by
  constructor
  · have hempty : empty.Ok false False := ok_empty
    have hfits : empty.Fits false routed := fits_empty (by decide +kernel)
    obtain ⟨id,db1,hdb1,hok1,_,hpeers1,_⟩ := upsert_spec hempty hfits
    have hcur : db1.peers id = some routed := by
      rw [hpeers1,update_self]
    obtain ⟨db2,hdb2,hok2,_⟩ := patch_spec (u := newKey) hok1 hcur rfl
      (overwrites_patched False.elim False.elim False.elim) (freeFor_single hpeers1)
    refine ⟨hempty.unique,fun o s' hs' => ?_⟩
    simp only [step,hdb1,bind_of_ok] at hs'
    cases hs'
    refine ⟨hok1.unique,fun o s' hs' => ?_⟩
    simp only [step,hdb2,bind_of_ok] at hs'
    cases hs'
    exact hok2.unique
  · intro h
    obtain ⟨⟨os,db⟩,hrun,hlook,hkey⟩ : ∃ r, runAll step [.upsert routed,.patch newKey] empty = .ok r ∧
        r.2.lookup (.nodeKey routed.nodeKey) = .ok (some 0) ∧
        (r.2.peers 0).map Node.nodeKey = some (List.Vector.replicate 32 1) :=
      exists_ok_of_any (by decide +kernel)
    obtain ⟨node,hnode,hold⟩ := ((h.last hrun).nodeKey routed.nodeKey 0).mp hlook
    rw [hnode,Option.map_some,hold] at hkey
    revert hkey
    decide

/-- A node comes, gets another status and goes. -/
theorem indices_inverse_status_patch :
    AtEveryState step IndicesInverse
      [.upsert (Node.blank 1),.patch (.default 1 .online),.remove (.nodeId 1)] empty := by
  refine (indices_inverse_in_runs _ ?_).1
  have hempty : empty.Ok false True := ok_empty
  have hfits : empty.Fits false (Node.blank 1) := fits_empty (by decide)
  refine ⟨⟨hfits,by decide⟩,fun o s' hs' => ?_⟩
  obtain ⟨id,db,hdb,_,_,hpeers,_⟩ := upsert_spec hempty hfits
  simp only [step,hdb,bind_of_ok] at hs'
  cases hs'
  refine ⟨⟨id,Node.blank 1,?_,rfl,rfl,?_,?_,freeFor_single hpeers⟩,fun o s' _ => ⟨trivial,fun _ _ _ => trivial⟩⟩
  · rw [hpeers,update_self]
  · intro key hkey
    cases hkey
  · intro key old hkey
    cases hkey

end
end PeerDb
end Tailnet.Runtime

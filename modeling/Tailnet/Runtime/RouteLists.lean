import Tailnet.Runtime.FullUpdate

/-! The index of the accepted routes, for nodes with any lists of routes. A network that a node
lists twice is removed twice, and the second removal asserts what the first one made false when
another peer accepts the network, too. -/
namespace Tailnet.Runtime
open Control Function Result

namespace PeerDb
variable [IpNetOps] {db db' : PeerDb} {new node : Node} {id : PeerId}

/-- What every run keeps, whatever nodes are inserted: the entries of the routes list the peers
that accept them, and the index of the stable ids is exact. -/
structure Routed (db : PeerDb) : Prop where
  lists : ∃ entries, EntryRep db.indexState.routeIdx entries ∧ Listed entries db.peers
  ips : ∃ v, IpRep db.indexState.ipIdx v
  stable : ∀ i id, db.indexState.stableidIdx i = some id ↔
    ∃ node, db.peers id = some node ∧ node.stableId = i
  bound : ∀ id node, db.peers id = some node → id.toNat < db.nextId
  small : db.nextId < 2^32

/-- The ids in the entry of a route. -/
def routeEntry (db : PeerDb) (route : IpNet) : Result (List PeerId) := do
  let entry ← db.indexState.routeIdx.lookupPrefixExact route.trunc
  return entry.getD []

/-- The entries of the routes are the same, apart from one id. -/
def KeepsOthers (db db' : PeerDb) (id : PeerId) : Prop :=
  ∀ route, (db'.routeEntry route).map (List.filter (· ≠ id)) =
    (db.routeEntry route).map (List.filter (· ≠ id))

theorem keepsOthers_of {entries entries' : IpNet → List PeerId}
    (h : EntryRep db.indexState.routeIdx entries) (h' : EntryRep db'.indexState.routeIdx entries')
    (hkept : OthersKept id entries entries') : db.KeepsOthers db' id := by
  have hentry {db : PeerDb} {entries : IpNet → List PeerId}
      (h : EntryRep db.indexState.routeIdx entries) (route : IpNet) :
      db.routeEntry route = .ok (entries route.trunc) := by
    rw [routeEntry,h.lookup route.trunc_canonical]
    by_cases he : entries route.trunc = []
    · simp [he]
    · simp [he]
  intro route
  rw [hentry h,hentry h']
  exact congrArg Except.ok (hkept route.trunc)

theorem routed_empty : Routed empty where
  lists := ⟨fun _ => [],⟨∅,SplitStackTable.empty_rep,fun _ => rfl⟩,by simp [Listed,empty]⟩
  ips := ⟨_,∅,SplitStackTable.empty_rep,rfl⟩
  stable := by simp [empty,IndexState.empty]
  bound := by simp [empty]
  small := by decide

theorem updateIps_keeps {t t' : SplitStackTable PeerId} {old : Option Node} (h : ∃ v, IpRep t v)
    (hup : IndexState.updateIps new old id t = .ok t') : ∃ v, IpRep t' v := by
  have hins {t t' : SplitStackTable PeerId} (h : ∃ v, IpRep t v)
      (hins : IndexState.updateIps new none id t = .ok t') : ∃ v, IpRep t' v := by
    obtain ⟨v,h⟩ := h
    obtain ⟨t1,ht1,h1⟩ := h.insert new.tailnetAddress.ipv4 id
    obtain ⟨t2,ht2,h2⟩ := h1.insert new.tailnetAddress.ipv6 id
    simp only [IndexState.updateIps,maybeUpdate,ht1,ht2,bind_of_ok] at hins
    cases hins
    exact ⟨_,h2⟩
  cases old with
  | none => exact hins h hup
  | some x =>
    rw [IndexState.updateIps,maybeUpdate] at hup
    split at hup
    · cases hup
      exact h
    · obtain ⟨v,h⟩ := h
      obtain ⟨t1,ht1,h1⟩ := h.remove x.tailnetAddress.ipv4
      obtain ⟨t2,ht2,h2⟩ := h1.remove x.tailnetAddress.ipv6
      obtain ⟨t3,ht3,hup⟩ := bind_eq_ok.mp hup
      simp only [ht1,ht2,bind_of_ok,bind_eq_ok] at ht3
      obtain ⟨-,-,-,-,ht3⟩ := ht3
      cases ht3
      exact hins ⟨_,h2⟩ hup

/-- The parts of an update of the indices that are followed here. -/
theorem update_parts {s s' : IndexState} {old : Option Node} (h : s.update new old id = .ok s') :
    maybeUpdateIdx new old Node.stableId s.stableidIdx id = .ok s'.stableidIdx ∧
      IndexState.updateIps new old id s.ipIdx = .ok s'.ipIdx ∧
      IndexState.updateRoutes new old id s.routeIdx = .ok s'.routeIdx := by
  simp only [IndexState.update,bind_eq_ok] at h
  obtain ⟨nk,-,stable,hstable,control,-,disco,-,names,-,ips,hips,routes,hroutes,hs'⟩ := h
  cases hs'
  exact ⟨hstable,hips,hroutes⟩

/-- An upserted node has a stable id that leads to it alone. -/
theorem Routed.update_stable (h : db.Routed) {old : Option Node} {idx : Index StableNodeId}
    (hold : old = db.peers id ∨ old = none)
    (hstable : ∀ cur, db.peers id = some cur → cur.stableId = new.stableId)
    (hnew : db.peers id = none → db.indexState.stableidIdx new.stableId = none)
    (hidx : maybeUpdateIdx new old Node.stableId db.indexState.stableidIdx id = .ok idx) :
    ∀ i q, idx i = some q ↔
      ∃ node, update db.peers id (some new) q = some node ∧ node.stableId = i := by
  have hcur (cur : Node) (hc : db.peers id = some cur) :
      db.indexState.stableidIdx new.stableId = some id :=
    (h.stable _ _).mpr ⟨cur,hc,hstable cur hc⟩
  have heq : idx = update db.indexState.stableidIdx new.stableId (some id) := by
    cases old with
    | none => exact (Except.ok.inj hidx).symm
    | some x =>
      have hx : db.peers id = some x := (hold.resolve_right (by simp)).symm
      have hsame : maybeUpdateIdx new (some x) Node.stableId db.indexState.stableidIdx id =
          .ok db.indexState.stableidIdx := if_pos (hstable x hx)
      rw [hsame] at hidx
      cases hidx
      rw [← hcur x hx,update_eq_self]
  subst heq
  intro i q
  by_cases hi : i = new.stableId
  · subst hi
    rw [update_self]
    by_cases hq : q = id
    · subst hq
      simp
    · rw [update_of_ne hq,← h.stable]
      refine iff_of_false (fun hs => hq (Option.some.inj hs).symm) fun hs => ?_
      cases hc : db.peers id with
      | none => exact absurd (hs.symm.trans (hnew hc)) (by simp)
      | some cur => exact hq (Option.some.inj (hs.symm.trans (hcur cur hc)))
  · rw [update_of_ne hi,h.stable]
    by_cases hq : q = id
    · subst hq
      rw [update_self]
      constructor
      · rintro ⟨cur,hc,rfl⟩
        exact absurd (hstable cur hc) hi
      · rintro ⟨node,hnode,rfl⟩
        cases hnode
        exact absurd rfl hi
    · rw [update_of_ne hq]

theorem Routed.update (h : db.Routed) {old : Option Node} {s' : IndexState} {n : ℕ}
    (hold : old = db.peers id ∨
      old = none ∧ ∀ cur, db.peers id = some cur → ∀ net ∈ routeNets cur, net ∈ routeNets new)
    (hstable : ∀ cur, db.peers id = some cur → cur.stableId = new.stableId)
    (hnew : db.peers id = none → db.indexState.stableidIdx new.stableId = none)
    (hle : db.nextId ≤ n) (hid : id.toNat < n) (hn : n < 2^32)
    (hs' : db.indexState.update new old id = .ok s') :
    Routed ⟨Function.update db.peers id (some new),s',n⟩ := by
  obtain ⟨hidx,hips,hroutes⟩ := update_parts hs'
  obtain ⟨entries,hrep,hl⟩ := h.lists
  obtain ⟨entries',hrep',hl',-,-⟩ := (updateRoutes_spec hrep hl hold).2 _ hroutes
  exact
    { lists := ⟨entries',hrep',hl'⟩
      ips := updateIps_keeps h.ips hips
      stable := h.update_stable (hold.imp_right And.left) hstable hnew hidx
      bound := bound_update h.bound hle hid
      small := hn }

theorem upsert_eq_ok (h : db.upsert new = .ok (id,db')) : ∃ n,
    (db.indexState.stableidIdx new.stableId = some id ∧ n = db.nextId ∨
      db.indexState.stableidIdx new.stableId = none ∧ id = UInt32.ofNat db.nextId ∧
        n = db.nextId+1 ∧ n < 2^32) ∧
    (db.peers id = some new ∧ db' = { db with nextId := n } ∨
      ∃ s', db.indexState.update new (db.peers id) id = .ok s' ∧
        db' = ⟨update db.peers id (some new),s',n⟩) := by
  have finish {id1 : PeerId} {n : ℕ} (h : (if db.peers id1 = some new then
        (.ok (id1,{ db with nextId := n }) : Result (PeerId × PeerDb))
      else do
        let indexState ← db.indexState.update new (db.peers id1) id1
        return (id1,⟨update db.peers id1 (some new),indexState,n⟩)) = .ok (id,db')) :
      id1 = id ∧ (db.peers id = some new ∧ db' = { db with nextId := n } ∨
        ∃ s', db.indexState.update new (db.peers id) id = .ok s' ∧
          db' = ⟨update db.peers id (some new),s',n⟩) := by
    split at h
    · rename_i hsame
      cases h
      exact ⟨rfl,.inl ⟨hsame,rfl⟩⟩
    · obtain ⟨s',hs',h⟩ := bind_eq_ok.mp h
      cases h
      exact ⟨rfl,.inr ⟨s',hs',rfl⟩⟩
  rw [upsert] at h
  split at h
  · rename_i hsome
    obtain ⟨rfl,hrest⟩ := finish h
    exact ⟨_,.inl ⟨hsome,rfl⟩,hrest⟩
  · rename_i hnone
    split at h
    · rename_i hlt
      obtain ⟨rfl,hrest⟩ := finish h
      exact ⟨_,.inr ⟨hnone,rfl,rfl,hlt⟩,hrest⟩
    · cases h

theorem Routed.next_free (h : db.Routed) : db.peers (UInt32.ofNat db.nextId) = none := by
  rw [Option.eq_none_iff_forall_ne_some]
  intro node hnode
  have hb := h.bound _ node hnode
  rw [UInt32.toNat_ofNat_of_lt' h.small] at hb
  exact lt_irrefl _ hb

theorem Routed.upsert (h : db.Routed) (hup : db.upsert new = .ok (id,db')) : db'.Routed := by
  obtain ⟨n,hid,hdb'⟩ := upsert_eq_ok hup
  have hn : db.nextId ≤ n ∧ id.toNat < n ∧ n < 2^32 ∧
      (∀ cur, db.peers id = some cur → cur.stableId = new.stableId) ∧
      (db.peers id = none → db.indexState.stableidIdx new.stableId = none) := by
    rcases hid with ⟨hidx,rfl⟩ | ⟨hidx,rfl,rfl,hlt⟩
    · obtain ⟨cur,hcur,hstable⟩ := (h.stable _ _).mp hidx
      refine ⟨le_rfl,h.bound id cur hcur,h.small,fun c hc => ?_,fun hnone => ?_⟩
      · cases hcur.symm.trans hc
        exact hstable
      · cases hcur.symm.trans hnone
    · refine ⟨Nat.le_succ _,?_,hlt,fun cur hcur => ?_,fun _ => hidx⟩
      · rw [UInt32.toNat_ofNat_of_lt' h.small]
        exact Nat.lt_succ_self _
      · cases h.next_free.symm.trans hcur
  obtain ⟨hle,hlt,hsmall,hstable,hnew⟩ := hn
  rcases hdb' with ⟨-,rfl⟩ | ⟨s',hs',rfl⟩
  · exact ⟨h.lists,h.ips,h.stable,fun p node hp => (h.bound p node hp).trans_le hle,hsmall⟩
  · exact h.update (.inl rfl) hstable hnew hle hlt hsmall hs'

theorem Routed.patch {u : NodeUpdate} (h : db.Routed) (hpatch : db.patch u = .ok (id,db')) :
    db'.Routed := by
  rw [PeerDb.patch] at hpatch
  split at hpatch
  · rename_i id1 hid1
    rw [bind_of_ok] at hpatch
    obtain ⟨cur,hcur,hpatch⟩ := bind_eq_ok.mp hpatch
    obtain ⟨new,hnew,hpatch⟩ := bind_eq_ok.mp hpatch
    have hcur : db.peers id1 = some cur := unwrap_eq_ok.mp hcur
    have hnew : new = cur.patched u := by
      rw [Node.applyUpdate] at hnew
      split at hnew
      · exact (Except.ok.inj hnew).symm
      · cases hnew
    subst hnew
    have hidx : db.indexState.stableidIdx cur.stableId = some id1 := (h.stable _ _).mpr ⟨cur,hcur,rfl⟩
    obtain ⟨n,hid,hdb'⟩ := upsert_eq_ok hpatch
    obtain ⟨rfl,rfl⟩ : id1 = id ∧ n = db.nextId := by
      rcases hid with ⟨hid,rfl⟩ | ⟨hid,-⟩
      · exact ⟨Option.some.inj (hidx.symm.trans hid),rfl⟩
      · cases hidx.symm.trans hid
    rcases hdb' with ⟨hsame,-⟩ | ⟨s',hs',rfl⟩
    · cases (update_self id1 _ db.peers).symm.trans hsame
    · dsimp only at hs' ⊢
      rw [update_self] at hs'
      rw [update_idem]
      refine h.update (.inr ⟨rfl,fun c hc => ?_⟩) (fun c hc => ?_) (fun hnone => ?_) le_rfl
        (h.bound id1 cur hcur) h.small hs'
      · cases hcur.symm.trans hc
        exact fun net hnet => hnet
      · cases hcur.symm.trans hc
        rfl
      · cases hcur.symm.trans hnone
  · cases hpatch

theorem Routed.remove_stable (h : db.Routed) (hnode : db.peers id = some node) (i : StableNodeId)
    (q : PeerId) : (db.indexState.stableidIdx.remove node.stableId).2 i = some q ↔
      ∃ other, Function.update db.peers id none q = some other ∧ other.stableId = i := by
  dsimp only [Index.remove]
  by_cases hq : q = id
  · subst hq
    simp only [update_self,reduceCtorEq,false_and,exists_false,iff_false]
    by_cases hi : i = node.stableId
    · simp [hi]
    · rw [update_of_ne hi,h.stable]
      rintro ⟨other,hother,rfl⟩
      cases hnode.symm.trans hother
      exact hi rfl
  · rw [update_of_ne hq,← h.stable]
    by_cases hi : i = node.stableId
    · subst hi
      rw [update_self]
      refine iff_of_false (by simp) fun hs => hq ?_
      exact Option.some.inj (hs.symm.trans ((h.stable _ _).mpr ⟨node,hnode,rfl⟩))
    · rw [update_of_ne hi]

/-- The removal of a node fails exactly if the removal of its routes does. -/
theorem Routed.removePeer (h : db.Routed) (hnode : db.peers id = some node) :
    ((∃ db', db.removePeer id node = .ok db') ↔ Alone db.peers id node) ∧
      ∀ db', db.removePeer id node = .ok db' → db'.Routed ∧ db.KeepsOthers db' id := by
  obtain ⟨entries,hrep,hl⟩ := h.lists
  obtain ⟨v,hv⟩ := h.ips
  obtain ⟨t1,ht1,h1⟩ := hv.remove node.tailnetAddress.ipv4
  obtain ⟨t2,ht2,h2⟩ := h1.remove node.tailnetAddress.ipv6
  rw [← removable_iff_alone hl hnode]
  simp only [PeerDb.removePeer,IndexState.remove,ht1,ht2,bind_of_ok]
  rcases removeRoutes_cases hrep node.acceptedRoutes id with ⟨hrem,t,ht,h'⟩ | ⟨hrem,herr⟩
  · simp only [ht,bind_of_ok]
    refine ⟨iff_of_true ⟨_,rfl⟩ hrem,fun db' hdb' => ?_⟩
    cases hdb'
    refine ⟨?_,keepsOthers_of hrep h' othersKept_dropId⟩
    exact
      { lists := ⟨_,h',hl.drop hnode⟩
        ips := ⟨_,h2⟩
        stable := h.remove_stable hnode
        bound := bound_update h.bound le_rfl (h.bound id node hnode)
        small := h.small }
  · simp only [herr]
    exact ⟨iff_of_false (not_exists_ok _) hrem,(fun _ hdb' => by cases hdb')⟩

theorem Routed.remove (h : db.Routed) {field : IndexedField} {r : Option (PeerId × Node)}
    (hrem : db.remove field = .ok (r,db')) : db'.Routed := by
  rw [PeerDb.remove] at hrem
  obtain ⟨o,-,hrem⟩ := bind_eq_ok.mp hrem
  cases o with
  | none =>
    cases hrem
    exact h
  | some id =>
    dsimp only at hrem
    cases hnode : db.peers id with
    | none =>
      rw [hnode] at hrem
      cases hrem
      exact h
    | some node =>
      rw [hnode] at hrem
      obtain ⟨db1,hdb1,hrem⟩ := bind_eq_ok.mp hrem
      cases hrem
      exact ((h.removePeer hnode).2 db' hdb1).1

theorem Routed.retain (h : db.Routed) {predicate : PeerId → Node → Unit → Bool × Unit}
    {ids : List PeerId} {r : Unit × PeerDb}
    (hret : ids.foldlM (retainOne predicate) ((),db) = .ok r) : r.2.Routed := by
  induction ids generalizing db with
  | nil =>
    cases hret
    exact h
  | cons id ids ih =>
    rw [List.foldlM_cons] at hret
    obtain ⟨⟨_,db1⟩,hdb1,hret⟩ := bind_eq_ok.mp hret
    refine ih ?_ hret
    rw [retainOne] at hdb1
    split at hdb1
    · cases hdb1
      exact h
    · rename_i node hnode
      dsimp only at hdb1
      split at hdb1
      · cases hdb1
        exact h
      · obtain ⟨db2,hdb2,hret2⟩ := bind_eq_ok.mp hdb1
        cases hret2
        exact ((h.removePeer hnode).2 _ hdb2).1

theorem Routed.step (h : db.Routed) {call : Call} {o : Unit} (hstep : PeerDb.step call db = .ok (o,db')) :
    db'.Routed := by
  cases call with
  | upsert new =>
    obtain ⟨⟨id,db1⟩,hdb1,hret⟩ := bind_eq_ok.mp hstep
    cases hret
    exact h.upsert hdb1
  | patch u =>
    obtain ⟨⟨id,db1⟩,hdb1,hret⟩ := bind_eq_ok.mp hstep
    cases hret
    exact h.patch hdb1
  | remove field =>
    obtain ⟨⟨r,db1⟩,hdb1,hret⟩ := bind_eq_ok.mp hstep
    cases hret
    exact h.remove hdb1
  | retain rank predicate => exact h.retain hstep

/-- The fields of a node, apart from the host name and the routes, lead to it. -/
structure Undisputed (db : PeerDb) (id : PeerId) (node : Node) : Prop where
  nodeKey : db.indexState.nkIdx node.nodeKey = some id
  nodeId : db.indexState.controlIdx node.id = some id
  discoKey : ∀ key, node.discoKey = some key → db.indexState.discoIdx key = some id
  fqdn : ∀ name, node.fqdnOpt false = some name → db.indexState.nameIdx name = some id
  ips : ∀ net ∈ ipKeys node, db.indexState.ipIdx.lookupPrefixExact net = .ok (some id)

/-- A node can be upserted as far as its other fields go: the ones that the database has for it are
undisputed, and there is an id for it if it is new. -/
def HasPlace (db : PeerDb) (new : Node) : Prop :=
  (¬ db.Knows new.stableId → db.nextId+1 < 2^32) ∧
    ∀ id cur, db.peers id = some cur → cur.stableId = new.stableId → db.Undisputed id cur

theorem Routed.owns (h : db.Routed) (hu : db.Undisputed id node) (hnode : db.peers id = some node)
    {v : IpNet → Option PeerId} (hv : IpRep db.indexState.ipIdx v) (k : Key) (hk : Owns false node k) :
    db.indexState.at v k = some id := by
  cases k with
  | nodeKey key =>
    cases hk
    exact hu.nodeKey
  | discoKey key => exact hu.discoKey key hk
  | stableId i =>
    cases hk
    exact (h.stable _ _).mpr ⟨node,hnode,rfl⟩
  | nodeId i =>
    cases hk
    exact hu.nodeId
  | name name =>
    rcases hk with hk | ⟨hk,-⟩
    · exact hu.fqdn name hk
    · cases hk
  | ip net =>
    obtain ⟨m,hm,rfl⟩ := hv
    have hcan : net.Canonical := by
      rcases hk with rfl | rfl
      · exact IpNet.trunc_canonical _
      · exact IpNet.trunc_canonical _
    have hlook := hu.ips net hk
    rw [hm.lookupPrefixExact hcan] at hlook
    exact Except.ok.inj hlook

/-- An upsert returns exactly if the removal of the old routes does not fail. -/
theorem Routed.upsert_iff (h : db.Routed) (hplace : db.HasPlace new) :
    (∃ id db', db.upsert new = .ok (id,db') ∧ db.KeepsOthers db' id) ↔
      ∀ id cur, db.peers id = some cur → cur.stableId = new.stableId →
        cur.acceptedRoutes ≠ new.acceptedRoutes → Alone db.peers id cur := by
  obtain ⟨entries,hrep,hl⟩ := h.lists
  obtain ⟨v,hv⟩ := h.ips
  constructor
  · rintro ⟨id,db',hup,-⟩ id' cur hcur hstable hne
    obtain ⟨n,hid,hdb'⟩ := upsert_eq_ok hup
    have hidx : db.indexState.stableidIdx new.stableId = some id' :=
      (h.stable _ _).mpr ⟨cur,hcur,hstable⟩
    obtain rfl : id = id' := by
      rcases hid with ⟨hid,-⟩ | ⟨hid,-⟩
      · exact Option.some.inj (hid.symm.trans hidx)
      · cases hid.symm.trans hidx
    rcases hdb' with ⟨hsame,-⟩ | ⟨s',hs',-⟩
    · cases hcur.symm.trans hsame
      exact absurd rfl hne
    · exact (updateRoutes_spec hrep hl (.inl rfl)).1.mp ⟨_,(update_parts hs').2.2⟩ cur hcur hne
  · intro halone
    have hupdate (id : PeerId) (hid : ∀ cur, db.peers id = some cur → cur.stableId = new.stableId) :
        ∃ s', db.indexState.update new (db.peers id) id = .ok s' ∧
          ∀ n, db.KeepsOthers ⟨Function.update db.peers id (some new),s',n⟩ id := by
      have hor : db.peers id = db.peers id ∨ db.peers id = none ∧
        ∀ cur, db.peers id = some cur → ∀ net ∈ routeNets cur, net ∈ routeNets new := .inl rfl
      obtain ⟨routes,hroutes⟩ := (updateRoutes_spec hrep hl hor).1.mpr fun cur hcur =>
        halone id cur hcur (hid cur hcur)
      obtain ⟨entries',hrep',-,hkept,-⟩ := (updateRoutes_spec hrep hl hor).2 routes hroutes
      obtain ⟨s',-,hs',-,rfl,-⟩ := IndexState.update_at hv (fun cur hcur =>
        h.owns (hplace.2 id cur hcur (hid cur hcur)) hcur hv) hroutes
      exact ⟨s',hs',fun n => keepsOthers_of hrep hrep' hkept⟩
    cases hidx : db.indexState.stableidIdx new.stableId with
    | some id =>
      obtain ⟨cur,hcur,hstable⟩ := (h.stable _ _).mp hidx
      by_cases hsame : db.peers id = some new
      · exact ⟨id,db,by simp [PeerDb.upsert,hidx,hsame],fun _ => rfl⟩
      · obtain ⟨s',hs',hkept⟩ := hupdate id fun c hc => by
          cases hcur.symm.trans hc
          exact hstable
        exact ⟨id,_,by simp [PeerDb.upsert,hidx,hsame,hs'],hkept db.nextId⟩
    | none =>
      have hno : ¬ db.Knows new.stableId := by
        rintro ⟨q,node,hq,heq⟩
        cases hidx.symm.trans ((h.stable _ _).mpr ⟨node,hq,heq⟩)
      have hnone := h.next_free
      obtain ⟨s',hs',hkept⟩ := hupdate (UInt32.ofNat db.nextId) fun c hc => by
        cases hnone.symm.trans hc
      rw [hnone] at hs'
      refine ⟨_,_,?_,hkept (db.nextId+1)⟩
      simp only [PeerDb.upsert,hidx,if_pos (hplace.1 hno),bind_of_ok,hnone,reduceCtorEq,
        if_false,hs']
      rfl

/-- In every database that a run leads to, an upsert and a removal return and keep the entries of
the other peers exactly if no other peer accepts a network that the node whose routes are removed
lists more than once. -/
theorem route_lists_tolerated_iff (calls : List Call) {os : List Unit} {db : PeerDb}
    (hrun : runAll step calls empty = .ok (os,db)) :
    (∀ new, db.HasPlace new →
      ((∃ id db', db.upsert new = .ok (id,db') ∧ db.KeepsOthers db' id) ↔
        ∀ id cur, db.peers id = some cur → cur.stableId = new.stableId →
          cur.acceptedRoutes ≠ new.acceptedRoutes → Alone db.peers id cur)) ∧
      ∀ field id node, db.lookup field = .ok (some id) → db.peers id = some node →
        ((∃ db', db.remove field = .ok (some (id,node),db') ∧ db.KeepsOthers db' id) ↔
          Alone db.peers id node) := by
  have hinv : AtEveryState step Routed calls empty :=
    atEveryState_of_invariant Routed (fun _ h => h) (fun _ _ _ _ h hstep => h.step hstep) calls
      routed_empty
  have h := hinv.last hrun
  refine ⟨fun new hplace => h.upsert_iff hplace,fun field id node hlook hnode => ?_⟩
  rw [← (h.removePeer hnode).1]
  constructor
  · rintro ⟨db',hrem,-⟩
    simp only [PeerDb.remove,hlook,bind_of_ok,hnode] at hrem
    obtain ⟨db1,hdb1,-⟩ := bind_eq_ok.mp hrem
    exact ⟨db1,hdb1⟩
  · rintro ⟨db',hdb'⟩
    exact ⟨db',by simp [PeerDb.remove,hlook,hnode,hdb'],((h.removePeer hnode).2 db' hdb').2⟩

end PeerDb

section
attribute [local instance] maskOps

def PeerDb.accepting (name : String) (n : UInt8) (routes : List IpNet) : Node :=
  { FullUpdate.numbered name n with acceptedRoutes := routes }

/-- A node that lists a network twice can be inserted and replaced if it is alone. -/
theorem PeerDb.route_lists_tolerated_alone : ∃ os db,
    runAll step [.upsert (accepting "a" 1 [.ofV4 10 0 0 0 8,.ofV4 10 0 0 0 8])] empty = .ok (os,db) ∧
      ∀ field id node, db.lookup field = .ok (some id) → db.peers id = some node →
        ((∃ db', db.remove field = .ok (some (id,node),db') ∧ db.KeepsOthers db' id) ↔
          Alone db.peers id node) := by
  have hok : Result.panic (runAll step
      [.upsert (accepting "a" 1 [.ofV4 10 0 0 0 8,.ofV4 10 0 0 0 8])] empty) = none := by
    decide +kernel
  obtain ⟨⟨os,db⟩,hrun⟩ := exists_ok_of_panic hok
  exact ⟨os,db,hrun,(route_lists_tolerated_iff _ hrun).2⟩

/-- The second peer lists a network twice that the first one accepts, too. -/
theorem PeerDb.shared_repeat_panics :
    runAll step [.upsert (accepting "a" 1 [.ofV4 10 0 0 0 8]),
      .upsert (accepting "b" 2 [.ofV4 10 0 0 0 8,.ofV4 10 0 0 1 8]),.remove (.stableId "b")] empty =
        .error .assertion :=
  eq_error_of_panic (by decide +kernel)

end
end Tailnet.Runtime

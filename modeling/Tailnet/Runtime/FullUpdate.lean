import Tailnet.Runtime.PeerTracker

/-! Databases with the same live nodes answer alike, whatever the ids of the peers are and
in whatever order the nodes came. A full update therefore replaces the database, as long as
no node takes over a field from one that has yet to be updated. -/
namespace Tailnet.Runtime
open Control List PeerTracker

section
variable [IpNetOps] {db db' : PeerDb} {node : Node} {p : PeerId}

/-- All lookups find the same nodes. The ids of peers differ between databases, and the order
of nodes with one route is not fixed. -/
structure SameLookups (db db' : PeerDb) : Prop where
  field : ∀ field : IndexedField, (∀ id, field ≠ .peerId id) → ∃ r r', db.get field = .ok r ∧
    db'.get field = .ok r' ∧ r.map Prod.snd = r'.map Prod.snd
  route : ∀ net, ∃ r r', db.getRoute net = .ok r ∧ db'.getRoute net = .ok r' ∧
    (r.map Prod.snd).Perm (r'.map Prod.snd)

theorem PeerDb.get_of_lookup {field : IndexedField} {l : Option PeerId}
    (h : db.lookup field = .ok l) :
    ∃ r, db.get field = .ok r ∧ r.map Prod.snd = l.bind db.peers := by
  refine ⟨_,by rw [PeerDb.get,h]; rfl,?_⟩
  cases l with
  | none => rfl
  | some id => cases hp : db.peers id <;> simp [hp]

variable {ips ips' : IpNet → Option PeerId} {entries entries' : IpNet → List PeerId}

theorem Indexed.bind_at (h : Indexed true True db.indexState db.peers ips entries) (k : Key) :
    (db.indexState.at ips k).bind db.peers = some node ↔ node ∈ db.liveNodes ∧ Bears node k := by
  rw [Option.bind_eq_some_iff]
  constructor
  · rintro ⟨p,hp,hnode⟩
    obtain ⟨node',hnode',hbears⟩ := h.notStale p k hp (.inl trivial)
    rw [hnode] at hnode'
    cases hnode'
    exact ⟨⟨p,hnode⟩,hbears⟩
  · rintro ⟨⟨p,hnode⟩,hbears⟩
    exact ⟨p,h.resolves p k ⟨node,hnode,bears_iff_owns.mp hbears⟩,hnode⟩

theorem Indexed.bind_at_eq (h : Indexed true True db.indexState db.peers ips entries)
    (h' : Indexed true True db'.indexState db'.peers ips' entries')
    (hlive : db.liveNodes = db'.liveNodes) (k : Key) :
    (db.indexState.at ips k).bind db.peers = (db'.indexState.at ips' k).bind db'.peers := by
  ext node
  rw [h.bind_at k,h'.bind_at k,hlive]

theorem Indexed.entries_ne_nil {hosts : Bool} {strict : Prop}
    (h : Indexed hosts strict db.indexState db.peers ips entries) {net : IpNet} :
    entries net ≠ [] ↔ ∃ node ∈ db.liveNodes, net ∈ routeNets node := by
  constructor
  · intro hne
    obtain ⟨p,hp⟩ := exists_mem_of_ne_nil _ hne
    obtain ⟨node,hnode,hnet⟩ := (h.listed net p).mp hp
    exact ⟨node,⟨p,hnode⟩,hnet⟩
  · rintro ⟨node,⟨p,hnode⟩,hnet⟩
    exact ne_nil_of_mem ((h.listed net p).mpr ⟨node,hnode,hnet⟩)

theorem Indexed.mem_nodes {hosts : Bool} {strict : Prop}
    (h : Indexed hosts strict db.indexState db.peers ips entries) {net : IpNet} :
    node ∈ (entries net).filterMap db.peers ↔ node ∈ db.liveNodes ∧ net ∈ routeNets node := by
  rw [mem_filterMap]
  constructor
  · rintro ⟨p,hp,hnode⟩
    obtain ⟨node',hnode',hnet⟩ := (h.listed net p).mp hp
    rw [hnode] at hnode'
    cases hnode'
    exact ⟨⟨p,hnode⟩,hnet⟩
  · rintro ⟨⟨p,hnode⟩,hnet⟩
    exact ⟨p,(h.listed net p).mpr ⟨node,hnode,hnet⟩,hnode⟩

theorem Indexed.nodup_nodes (h : Indexed true True db.indexState db.peers ips entries)
    (hok : db.Ok true True) (net : IpNet) : ((entries net).filterMap db.peers).Nodup :=
  (h.once trivial net).filterMap fun _ _ _ ha hb => hok.eq_of_stableId ha hb rfl

/-- Lookups by address find the node with the longest network. -/
theorem sameNode_ip (h : db.Ok true True) (h' : db'.Ok true True)
    (hlive : db.liveNodes = db'.liveNodes) (a : IpAddr) :
    ∃ l l', db.lookup (.ip a) = .ok l ∧ db'.lookup (.ip a) = .ok l' ∧
      l.bind db.peers = l'.bind db'.peers := by
  have hmem : ∀ q n, db.peers q = some n → ∃ q', db'.peers q' = some n :=
    fun q n hn => hlive.subset ⟨q,hn⟩
  have hmem' : ∀ q n, db'.peers q = some n → ∃ q', db.peers q' = some n :=
    fun q n hn => hlive.superset ⟨q,hn⟩
  rcases h.lookup_ip a with ⟨hnone,hno⟩ | ⟨p,n,net,hsome,hp,hnet,hc,hmax⟩
  · rcases h'.lookup_ip a with ⟨hnone',_⟩ | ⟨p',n',net',_,hp',hnet',hc',_⟩
    · exact ⟨none,none,hnone,hnone',rfl⟩
    · obtain ⟨q,hq⟩ := hmem' p' n' hp'
      rw [hno q n' net' hq hnet'] at hc'
      cases hc'
  · rcases h'.lookup_ip a with ⟨_,hno'⟩ | ⟨p',n',net',hsome',hp',hnet',hc',hmax'⟩
    · obtain ⟨q,hq⟩ := hmem p n hp
      rw [hno' q n net hq hnet] at hc
      cases hc
    · obtain ⟨q,hq⟩ := hmem p n hp
      obtain ⟨q',hq'⟩ := hmem' p' n' hp'
      have hlen : net.prefixLen = net'.prefixLen :=
        le_antisymm (hmax' q n net hq hnet hc) (hmax q' n' net' hq' hnet' hc')
      have heq : net = net' := by
        obtain ⟨hf,hkey⟩ := IpNet.contains_iff.mp hc
        obtain ⟨hf',hkey'⟩ := IpNet.contains_iff.mp hc'
        rw [hlen,← hkey'] at hkey
        exact (canonical_of_mem_ipKeys hnet).ext (canonical_of_mem_ipKeys hnet')
          (hf.trans hf'.symm) hkey
      subst heq
      have hsame : p = q' := h.eq_of_owns (k := .ip net) hp hnet hq' hnet'
      subst hsame
      rw [hp] at hq'
      cases hq'
      exact ⟨some p,some p',hsome,hsome',hp.trans hp'.symm⟩

theorem sameLookups_of_liveNodes (h : db.Ok true True) (h' : db'.Ok true True)
    (hlive : db.liveNodes = db'.liveNodes) : SameLookups db db' := by
  obtain ⟨ips,entries,hi⟩ := h.indexed
  obtain ⟨ips',entries',hi'⟩ := h'.indexed
  constructor
  · intro field hfield
    have hlook : ∃ l l', db.lookup field = .ok l ∧ db'.lookup field = .ok l' ∧
        l.bind db.peers = l'.bind db'.peers := by
      cases field with
      | peerId id => exact absurd rfl (hfield id)
      | nodeKey key => exact ⟨_,_,rfl,rfl,hi.bind_at_eq hi' hlive (.nodeKey key)⟩
      | discoKey key => exact ⟨_,_,rfl,rfl,hi.bind_at_eq hi' hlive (.discoKey key)⟩
      | stableId i => exact ⟨_,_,rfl,rfl,hi.bind_at_eq hi' hlive (.stableId i)⟩
      | nodeId i => exact ⟨_,_,rfl,rfl,hi.bind_at_eq hi' hlive (.nodeId i)⟩
      | name name => exact ⟨_,_,rfl,rfl,hi.bind_at_eq hi' hlive (.name name)⟩
      | ip a => exact sameNode_ip h h' hlive a
    obtain ⟨l,l',hl,hl',heq⟩ := hlook
    obtain ⟨r,hr,hmap⟩ := PeerDb.get_of_lookup hl
    obtain ⟨r',hr',hmap'⟩ := PeerDb.get_of_lookup hl'
    exact ⟨r,r',hr,hr',by rw [hmap,hmap',heq]⟩
  · intro route
    obtain ⟨m,o,hm,hm_entries,hhit,hroute⟩ := hi.getRoute route
    obtain ⟨m',o',hm',hm_entries',hhit',hroute'⟩ := hi'.getRoute route
    have hkeys : ∀ net, net ∈ m ↔ net ∈ m' := by
      intro net
      have hin : ∀ (m : RouteMap (List PeerId)) (e : List PeerId),
          m.lookup net = (if e = [] then none else some e) → (net ∈ m ↔ e ≠ []) := by
        intro m e he
        rw [Finmap.mem_iff,he]
        by_cases hnil : e = []
        · simp [hnil]
        · simp [hnil]
      rw [hin m _ (hm_entries net),hin m' _ (hm_entries' net),hi.entries_ne_nil,hi'.entries_ne_nil,hlive]
    have ho : o = o' := PrefixHit.unique hm.canonical hhit ((PrefixHit.congr hkeys).mpr hhit')
    subst ho
    refine ⟨_,_,hroute,hroute',?_⟩
    have hsnd : ∀ (peers : PeerId → Option Node) (ids : List PeerId),
        (ids.filterMap fun id => (peers id).map fun node => (id,node)).map Prod.snd =
          ids.filterMap peers := by
      intro peers ids
      rw [map_filterMap]
      refine filterMap_congr fun id _ => ?_
      cases peers id <;> rfl
    rw [hsnd,hsnd]
    cases o with
    | none => exact .refl _
    | some net =>
      refine (perm_ext_iff_of_nodup (hi.nodup_nodes h net) (hi'.nodup_nodes h' net)).mpr ?_
      intro node
      exact hi.mem_nodes.trans (by rw [hlive]; exact hi'.mem_nodes.symm)

omit [IpNetOps] in
/-- Upserts leave of a set only the nodes whose stable ids are not among theirs. -/
theorem NodeSet.mem_foldl_upsert {nodes : List Node} {s : Set Node} :
    node ∈ nodes.foldl upsert s ↔
      node ∈ nodes.foldl upsert ∅ ∨ node ∈ s ∧ node.stableId ∉ nodes.map Node.stableId := by
  induction nodes generalizing s with
  | nil => simp
  | cons a nodes ih =>
    rw [foldl_cons,foldl_cons,ih,ih (s := upsert ∅ a),map_cons,mem_cons]
    simp only [upsert,Set.mem_insert_iff,Set.mem_ofPred_eq,Set.mem_empty_iff_false,false_and,
      or_false]
    tauto

omit [IpNetOps] in
theorem NodeSet.apply_full (s : Set Node) (nodes : List Node) :
    apply s (.full nodes) = nodes.foldl upsert ∅ := by
  ext node
  rw [apply,mem_foldl_upsert]
  refine ⟨fun h => h.elim (fun h => h) fun ⟨hmem,hno⟩ => absurd hmem.2 hno,.inl⟩

/-- A full update of a database that was built by upserts is handled, and all lookups give
what they give in a new database with the nodes of the update. No node of the list may take
a field that a node of the database with a later place in the list still has. -/
theorem full_update_replaces (olds nodes : List Node) (rank : PeerId → ℕ)
    (holds : NodeSet.FitAll true ∅ olds) (hnodes : NodeSet.FitAll true ∅ nodes)
    (htake : NodeSet.FitAll true
      (NodeSet.retain (olds.foldl NodeSet.upsert ∅) (nodes.map Node.stableId)) nodes)
    (hids : olds.length + nodes.length < 2^32) :
    ∃ db fresh, (∃ ids, PeerTracker.upsertAll olds ∅ .empty = .ok (ids,db)) ∧
      (∃ ids, PeerTracker.upsertAll nodes ∅ .empty = .ok (ids,fresh)) ∧
      ∀ t : PeerTracker, t.peerDb = db → ∃ state replies t',
        t.handle rank (some (.full nodes)) = .ok ((some state,replies),t') ∧
        SameLookups t'.peerDb fresh := by
  have hempty : PeerDb.empty.Ok true True := PeerDb.ok_empty
  rw [← liveNodes_empty] at holds hnodes
  obtain ⟨ids,db,hdb,hok,hlive,hnext,_⟩ := upsertAll_live ∅ hempty holds
    (by change 0 + olds.length < _; omega)
  obtain ⟨ids',fresh,hfresh,hok',hlive',_⟩ := upsertAll_live ∅ hempty hnodes
    (by change 0 + nodes.length < _; omega)
  rw [liveNodes_empty] at hlive hlive'
  refine ⟨db,fresh,⟨ids,hdb⟩,⟨ids',hfresh⟩,?_⟩
  rintro t rfl
  obtain ⟨deletions,db1,hdb1,hok1,hlive1,hnext1,_⟩ :=
    PeerDb.retain_live hok rank (nodes.map Node.stableId)
  rw [← hlive,← hlive1] at htake
  have hnext' : t.peerDb.nextId ≤ olds.length := by
    rw [← Nat.zero_add olds.length]
    exact hnext
  obtain ⟨upserts,db2,hdb2,hok2,hlive2,_⟩ := upsertAll_live ∅ hok1 htake (by omega)
  have hok3 : ({ t with peerDb := db2 } : PeerTracker).peerDb.Ok true True := hok2
  obtain ⟨replies,t',ht',hdb'⟩ := servicePendingRequests_ok hok3
  refine ⟨⟨deletions,upserts,db2⟩,replies,t',?_,?_⟩
  · simp only [PeerTracker.handle,PeerTracker.applyUpdate,hdb1,Result.bind_of_ok,hdb2,
      Result.pure_eq_ok,ht']
  · rw [hdb']
    refine sameLookups_of_liveNodes hok2 hok' ?_
    rw [hlive2,hlive1,hlive']
    exact NodeSet.apply_full _ nodes

end
namespace FullUpdate

/-- A node that differs from others in all its fields. -/
def numbered (name : String) (n : UInt8) : Node :=
  { Node.blank n.toNat with
    stableId := name
    hostname := name
    nodeKey := List.Vector.replicate 32 n
    tailnetAddress := ⟨⟨⟨.v4,[100,64,0,n],rfl⟩,32,by simp⟩,
      ⟨⟨.v6,[0,0,0,0,0,0,0,0,0,0,0,0,0,0,0,n],rfl⟩,128,by simp⟩,rfl,rfl⟩ }

/-- The same node with the key of another one. -/
def withKey (name : String) (n key : UInt8) : Node :=
  { numbered name n with nodeKey := List.Vector.replicate 32 key }

theorem fitAll_pair [IpNetOps] {a b : Node} (hkey : b.nodeKey ≠ a.nodeKey)
    (hstable : b.stableId ≠ a.stableId) (hid : b.id ≠ a.id) (hdisco : a.discoKey = none)
    (htailnet : a.tailnet = none ∧ b.tailnet = none) (hhost : b.hostname ≠ a.hostname)
    (hip : ∀ net ∈ ipKeys b, net ∉ ipKeys a) (ha : (routeNets a).Nodup) (hb : (routeNets b).Nodup) :
    NodeSet.FitAll true ∅ [a,b] := by
  have hfirst : NodeSet.Fits true ∅ a := ⟨fun node hnode => absurd hnode (Set.notMem_empty node),ha⟩
  refine ⟨hfirst,⟨fun node hnode _ k hbears => ?_,hb⟩,trivial⟩
  rcases hnode with rfl | ⟨hnode,_⟩
  · cases k with
    | nodeKey key => exact fun ho => hkey (Eq.trans (Eq.symm hbears) ho)
    | discoKey key =>
      intro ho
      rw [Owns,hdisco,optionKeys_none] at ho
      exact ho
    | stableId i => exact fun ho => hstable (Eq.trans (Eq.symm hbears) ho)
    | nodeId i => exact fun ho => hid (Eq.trans (Eq.symm hbears) ho)
    | name name =>
      rw [Bears,nameKeys,Node.fqdnOpt,htailnet.2] at hbears
      rw [Owns,Node.fqdnOpt,htailnet.1]
      rcases hbears with hbears | hbears
      · rintro (ho | ⟨_,ho⟩)
        · cases ho
        · exact hhost (Eq.trans (Eq.symm hbears) ho)
      · cases hbears
    | ip net => exact hip net hbears
  · exact absurd hnode (Set.notMem_empty node)

section
attribute [local instance] maskOps

theorem numbered_ips : ∀ net ∈ ipKeys (numbered "b" 2), net ∉ ipKeys (numbered "a" 1) := by
  rintro net (rfl | rfl) (h | h)
  · revert h
    decide +kernel
  · revert h
    decide +kernel
  · revert h
    decide +kernel
  · revert h
    decide +kernel

theorem fitAll_withKey {j k : UInt8} (h : j ≠ k) :
    NodeSet.FitAll true ∅ [withKey "a" 1 j,withKey "b" 2 k] := by
  have hname : "b" ≠ "a" := by decide
  have hid : ((2 : UInt8).toNat : ℤ) ≠ ((1 : UInt8).toNat : ℤ) := by decide
  refine fitAll_pair ?_ hname hid rfl ⟨rfl,rfl⟩ hname numbered_ips nodup_nil nodup_nil
  intro heq
  have hhead := congrArg (fun v : NodePublicKey => v.head) heq
  exact h hhead.symm

/-- Two nodes that exchange their keys stop the tracker. -/
theorem exchanged_keys_panic :
    NodeSet.FitAll true ∅ [withKey "a" 1 1,withKey "b" 2 2] ∧
      NodeSet.FitAll true ∅ [withKey "a" 1 2,withKey "b" 2 1] ∧
      (do
        let (_,db) ← PeerTracker.upsertAll [withKey "a" 1 1,withKey "b" 2 2] ∅ .empty
        PeerTracker.handle (fun _ => 0) ⟨db,true,[]⟩
          (some (.full [withKey "a" 1 2,withKey "b" 2 1]))) = .error .assertion := by
  refine ⟨fitAll_withKey (by decide),fitAll_withKey (by decide),?_⟩
  exact Result.eq_error_of_panic (by decide +kernel)

/-- A full update in which the key of a node that is gone has a new owner. -/
theorem full_update_replaces_new_owner :
    ∃ db fresh, (∃ ids, PeerTracker.upsertAll [withKey "a" 1 1,withKey "b" 2 2] ∅ .empty = .ok (ids,db)) ∧
      (∃ ids, PeerTracker.upsertAll [withKey "b" 2 1] ∅ .empty = .ok (ids,fresh)) ∧
      ∀ t : PeerTracker, t.peerDb = db → ∃ state replies t',
        t.handle (fun _ => 0) (some (.full [withKey "b" 2 1])) = .ok ((some state,replies),t') ∧
        SameLookups t'.peerDb fresh := by
  refine full_update_replaces _ _ _ (fitAll_withKey (by decide)) ?_ ?_ (by decide)
  · exact ⟨⟨fun node hnode => absurd hnode (Set.notMem_empty node),by decide⟩,trivial⟩
  · refine ⟨⟨?_,by decide⟩,trivial⟩
    -- of the old nodes only the one that is updated is kept
    rintro node ⟨hnode,hmem⟩ hne
    exact absurd (mem_singleton.mp hmem) hne

end
end FullUpdate
end Tailnet.Runtime

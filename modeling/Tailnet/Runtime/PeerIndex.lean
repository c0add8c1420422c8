import Tailnet.Lib.Index
import Tailnet.Runtime.PeerDb

/-! What the indices of the peer database hold. All keys of a node are taken together, so
that an update of the indices is one reassignment of keys; the entries of the routes are
followed apart, since nodes share them. -/
namespace Tailnet.Runtime
open Control Function List Result

/-- The keys of the indices. Addresses stand as networks. -/
inductive Key
  | nodeKey (key : NodePublicKey)
  | discoKey (key : DiscoPublicKey)
  | stableId (id : StableNodeId)
  | nodeId (id : NodeId)
  | name (name : PeerName)
  | ip (net : IpNet)

section Updates
variable {T K Idx : Type} [DecidableEq T] {accessor : Node → T} {new : Node} {old : Option Node}
  {id : PeerId} {idx : Idx}

/-- The keys that an update removes from an index. -/
def droppedKeys (accessor : Node → T) (keys : Node → Set K) (old : Option Node) (new : Node) : Set K :=
  {k | ∃ x, old = some x ∧ accessor x ≠ accessor new ∧ k ∈ keys x}

/-- The keys that an update inserts into an index. -/
def takenKeys (accessor : Node → T) (keys : Node → Set K) (old : Option Node) (new : Node) : Set K :=
  {k | k ∈ keys new ∧ ∀ x, old = some x → accessor x ≠ accessor new}

/-- An index that stands for `v` is updated by dropping and taking keys. -/
theorem maybeUpdate_spec {remove insert : Node → Idx → Result Idx}
    (rep : Idx → (K → Option PeerId) → Prop) (keys : Node → Set K) {v : K → Option PeerId}
    (h : rep idx v)
    (hrem : ∀ x, old = some x → ∃ idx', remove x idx = .ok idx' ∧ rep idx' (reassign v id (keys x) ∅))
    (hins : ∀ idx v, rep idx v →
      ∃ idx', insert new idx = .ok idx' ∧ rep idx' (reassign v id ∅ (keys new))) :
    ∃ idx', maybeUpdate new old accessor idx remove insert = .ok idx' ∧
      rep idx' (reassign v id (droppedKeys accessor keys old new)
        (takenKeys accessor keys old new)) := by
  cases old with
  | none =>
    obtain ⟨idx',hidx',hrep⟩ := hins idx v h
    refine ⟨idx',hidx',?_⟩
    have hd : droppedKeys accessor keys none new = ∅ := by
      simp [droppedKeys]
    have ht : takenKeys accessor keys none new = keys new := by
      simp [takenKeys]
    rwa [hd,ht]
  | some x =>
    by_cases hacc : accessor x = accessor new
    · refine ⟨idx,if_pos hacc,?_⟩
      have hd : droppedKeys accessor keys (some x) new = ∅ := by
        simp [droppedKeys,hacc]
      have ht : takenKeys accessor keys (some x) new = ∅ := by
        simp [takenKeys,hacc]
      rwa [hd,ht,reassign_empty]
    · obtain ⟨idx1,hidx1,h1⟩ := hrem x rfl
      obtain ⟨idx2,hidx2,h2⟩ := hins idx1 _ h1
      refine ⟨idx2,by simp [maybeUpdate,hacc,hidx1,hidx2],?_⟩
      have hd : droppedKeys accessor keys (some x) new = keys x := by
        simp [droppedKeys,hacc]
      have ht : takenKeys accessor keys (some x) new = keys new := by
        simp [takenKeys,hacc]
      rw [hd,ht]
      rwa [reassign_take,Set.union_empty] at h2

theorem maybeUpdate_eq {idx : Index K} {remove insert : Node → Index K → Result (Index K)} (keys : Node → Set K)
    (hrem : ∀ x, old = some x → remove x idx = .ok (reassign idx id (keys x) ∅))
    (hins : ∀ idx, insert new idx = .ok (reassign idx id ∅ (keys new))) :
    maybeUpdate new old accessor idx remove insert =
      .ok (reassign idx id (droppedKeys accessor keys old new) (takenKeys accessor keys old new)) := by
  have h : ∃ idx', maybeUpdate new old accessor idx remove insert = .ok idx' ∧ idx' = _ :=
    maybeUpdate_spec Eq keys rfl (fun x hx => ⟨_,hrem x hx,rfl⟩) fun idx v hv => ⟨_,hins idx,hv ▸ rfl⟩
  obtain ⟨idx',hidx',rfl⟩ := h
  exact hidx'

theorem maybeUpdateIdx_spec [DecidableEq K] {accessor : Node → K} {idx : Index K}
    (hold : ∀ x, old = some x → idx (accessor x) = some id) :
    maybeUpdateIdx new old accessor idx id =
      .ok (reassign idx id (droppedKeys accessor (fun x => {accessor x}) old new)
        (takenKeys accessor (fun x => {accessor x}) old new)) := by
  refine maybeUpdate_eq (fun x => {accessor x}) (fun x hx => ?_) fun idx => ?_
  · rw [← update_none_eq_reassign (hold x hx)]
    simp [Index.remove,hold x hx]
  · rw [← update_some_eq_reassign]
    rfl

theorem updateDisco_spec {idx : Index DiscoPublicKey}
    (hold : ∀ x, old = some x → ∀ k, x.discoKey = some k → idx k = some id) :
    IndexState.updateDisco new old id idx =
      .ok (reassign idx id (droppedKeys Node.discoKey (fun x => optionKeys x.discoKey) old new)
        (takenKeys Node.discoKey (fun x => optionKeys x.discoKey) old new)) := by
  refine maybeUpdate_eq (fun x => optionKeys x.discoKey) (fun x hx => ?_) fun idx => ?_
  · cases hk : x.discoKey with
    | none => rw [optionKeys_none,reassign_empty]
    | some key =>
      rw [optionKeys_some,← update_none_eq_reassign (hold x hx key hk)]
      simp [Index.remove,hold x hx key hk]
  · cases hk : new.discoKey with
    | none => rw [optionKeys_none,reassign_empty]
    | some key =>
      rw [optionKeys_some,← update_some_eq_reassign]
      rfl

variable {node : Node}

theorem fqdnOpt_ne_hostname {name : PeerName} (h : node.fqdnOpt false = some name) :
    name ≠ node.hostname := by
  rw [Node.fqdnOpt] at h
  cases ht : node.tailnet with
  | none => simp [ht] at h
  | some tailnet =>
    simp only [ht,Option.bind_eq_bind,Option.bind_some] at h
    cases h
    intro heq
    have hlen := congrArg String.length heq
    simp only [String.length_append] at hlen
    have hdot : (".":String).length = 1 := rfl
    omega

/-- The names under which a node is stored. -/
def nameKeys (node : Node) : Set PeerName := {node.hostname} ∪ optionKeys (node.fqdnOpt false)

theorem nameKeys_of_none (hk : node.fqdnOpt false = none) : nameKeys node = {node.hostname} := by
  rw [nameKeys,hk,optionKeys_none,Set.union_empty]

/-- The fully-qualified name is removed after the host name, which is another one. -/
theorem drop_fqdn {idx : Index PeerName} {fqdn : PeerName} (hk : node.fqdnOpt false = some fqdn)
    (hold : idx fqdn = some id) : reassign idx id {node.hostname} ∅ fqdn = some id ∧
      update (reassign idx id {node.hostname} ∅) fqdn none = reassign idx id (nameKeys node) ∅ := by
  have hfqdn : reassign idx id {node.hostname} ∅ fqdn = some id := by
    rw [reassign_of_notMem (Set.notMem_empty fqdn) (fqdnOpt_ne_hostname hk)]
    exact hold
  refine ⟨hfqdn,?_⟩
  rw [update_none_eq_reassign hfqdn,reassign_drop,nameKeys,hk,optionKeys_some]

theorem updateNames_spec {idx : Index PeerName}
    (hold : ∀ x, old = some x → ∀ k, x.fqdnOpt false = some k → idx k = some id) :
    IndexState.updateNames new old id idx =
      .ok (reassign idx id (droppedKeys (fun x => (x.hostname,x.tailnet)) nameKeys old new)
        (takenKeys (fun x => (x.hostname,x.tailnet)) nameKeys old new)) := by
  refine maybeUpdate_eq nameKeys (fun x hx => ?_) fun idx => ?_
  · have hhost := ite_update_eq_reassign idx id x.hostname
    cases hk : x.fqdnOpt false with
    | none =>
      rw [nameKeys_of_none hk,← hhost]
      rfl
    | some fqdn =>
      obtain ⟨hfqdn,hdrop⟩ := drop_fqdn hk (hold x hx fqdn hk)
      rw [← hdrop]
      simp only [Index.remove,hhost,hfqdn,beq_self_eq_true,assert_true,bind_of_ok]
      rfl
  · have hhost := update_some_eq_reassign idx id new.hostname
    cases hk : new.fqdnOpt false with
    | none =>
      rw [nameKeys_of_none hk,← hhost]
      rfl
    | some fqdn =>
      have hfqdn := update_some_eq_reassign (reassign idx id ∅ {new.hostname}) id fqdn
      rw [reassign_take,Set.union_comm] at hfqdn
      rw [nameKeys,hk,optionKeys_some,← hfqdn,← hhost]
      rfl

end Updates
section Tables
variable [IpNetOps] {new : Node} {old : Option Node} {id : PeerId}

/-- A table of ids stands for an index of networks. -/
def IpRep (t : SplitStackTable PeerId) (v : IpNet → Option PeerId) : Prop :=
  ∃ m : RouteMap PeerId, t.Rep m ∧ v = fun net => m.lookup net

variable {t : SplitStackTable PeerId} {v : IpNet → Option PeerId}

theorem IpRep.remove (h : IpRep t v)
    (p : IpNet) : ∃ t', t.remove p = .ok (v p.trunc,t') ∧ IpRep t' (update v p.trunc none) := by
  obtain ⟨m,hm,rfl⟩ := h
  obtain ⟨t',ht',hrep⟩ := SplitStackTable.remove_spec hm p
  refine ⟨t',ht',_,hrep,?_⟩
  funext net
  rw [update_apply]
  exact (RouteMap.lookup_set m p.trunc net none).symm

theorem IpRep.insert (h : IpRep t v) (p : IpNet) (id : PeerId) :
    ∃ t', t.insert p id = .ok (v p.trunc,t') ∧ IpRep t' (update v p.trunc (some id)) := by
  obtain ⟨m,hm,rfl⟩ := h
  obtain ⟨t',ht',hrep⟩ := SplitStackTable.insert_spec hm p id
  refine ⟨t',ht',_,hrep,?_⟩
  funext net
  rw [update_apply]
  exact (RouteMap.lookup_set m p.trunc net (some id)).symm

/-- The networks of the tailnet addresses of a node. -/
def ipKeys (node : Node) : Set IpNet :=
  {node.tailnetAddress.ipv4.trunc} ∪ {node.tailnetAddress.ipv6.trunc}

theorem ipv6_trunc_ne_ipv4_trunc (a : TailnetAddress) : a.ipv6.trunc ≠ a.ipv4.trunc := by
  intro h
  have hf := congrArg (fun p : IpNet => p.addr.family) h
  simp only [IpNet.trunc_family,a.family_ipv4,a.family_ipv6] at hf
  cases hf

theorem IpRep.remove_both {node : Node}
    (h : IpRep t v) (hnode : ∀ net ∈ ipKeys node, v net = some id) :
    ∃ t1 t2, t.remove node.tailnetAddress.ipv4 = .ok (some id,t1) ∧
      t1.remove node.tailnetAddress.ipv6 = .ok (some id,t2) ∧
      IpRep t2 (reassign v id (ipKeys node) ∅) := by
  have h4 : v node.tailnetAddress.ipv4.trunc = some id := hnode _ (.inl rfl)
  obtain ⟨t1,ht1,h1⟩ := h.remove node.tailnetAddress.ipv4
  obtain ⟨t2,ht2,h2⟩ := h1.remove node.tailnetAddress.ipv6
  have h6 : reassign v id {node.tailnetAddress.ipv4.trunc} ∅ node.tailnetAddress.ipv6.trunc =
      some id := by
    have hne : node.tailnetAddress.ipv6.trunc ∉ ({node.tailnetAddress.ipv4.trunc} : Set IpNet) :=
      ipv6_trunc_ne_ipv4_trunc _
    rw [reassign_of_notMem (Set.notMem_empty _) hne]
    exact hnode _ (.inr rfl)
  rw [h4] at ht1
  rw [update_none_eq_reassign h4] at ht2 h2
  rw [h6] at ht2
  rw [update_none_eq_reassign h6,reassign_drop] at h2
  exact ⟨t1,t2,ht1,ht2,h2⟩

theorem updateIps_spec (h : IpRep t v)
    (hold : ∀ x, old = some x → ∀ net ∈ ipKeys x, v net = some id) :
    ∃ t', IndexState.updateIps new old id t = .ok t' ∧ IpRep t' (reassign v id
      (droppedKeys Node.tailnetAddress ipKeys old new)
      (takenKeys Node.tailnetAddress ipKeys old new)) := by
  unfold IndexState.updateIps
  apply maybeUpdate_spec IpRep ipKeys h
  · intro x hx
    obtain ⟨t1,t2,ht1,ht2,h2⟩ := h.remove_both (hold x hx)
    exact ⟨t2,by simp [ht1,ht2],h2⟩
  · intro t v h
    obtain ⟨t1,ht1,h1⟩ := h.insert new.tailnetAddress.ipv4 id
    obtain ⟨t2,ht2,h2⟩ := h1.insert new.tailnetAddress.ipv6 id
    rw [update_some_eq_reassign,update_some_eq_reassign,reassign_take,Set.union_comm] at h2
    exact ⟨t2,by simp [ht1,ht2],h2⟩

end Tables
section Routes
variable [IpNetOps] {new : Node} {old : Option Node} {id : PeerId} {t : SplitStackTable (List PeerId)}
  {entries : IpNet → List PeerId} {routes : List IpNet}

/-- A table of routes stands for the lists of ids at the networks. Empty lists have no entry. -/
def EntryRep (t : SplitStackTable (List PeerId)) (entries : IpNet → List PeerId) : Prop :=
  ∃ m : RouteMap (List PeerId), t.Rep m ∧
    ∀ net, m.lookup net = if entries net = [] then none else some (entries net)

theorem EntryRep.lookup (h : EntryRep t entries) {net : IpNet} (hnet : net.Canonical) :
    t.lookupPrefixExact net = .ok (if entries net = [] then none else some (entries net)) := by
  obtain ⟨m,hm,hentries⟩ := h
  rw [hm.lookupPrefixExact hnet,hentries]

theorem EntryRep.modify (h : EntryRep t entries) (route : IpNet) (f : ModifyFn (List PeerId))
    (entry : List PeerId)
    (hf : ((f.call (if entries route.trunc = [] then none else some (entries route.trunc))).2.apply
      (f.call (if entries route.trunc = [] then none else some (entries route.trunc))).1).2 =
        if entry = [] then none else some entry) :
    ∃ r t', t.modify route f = .ok (r,t') ∧ EntryRep t' (update entries route.trunc entry) := by
  obtain ⟨m,hm,hentries⟩ := h
  obtain ⟨t',ht',hrep⟩ := SplitStackTable.modify_spec hm route f
  refine ⟨_,t',ht',_,hrep,fun net => ?_⟩
  rw [← hentries] at hf
  have hset : (RouteMap.step (.modify route f) m).2 =
      m.set route.trunc (if entry = [] then none else some entry) :=
    congrArg (m.set route.trunc) hf
  rw [hset,RouteMap.lookup_set]
  by_cases hnet : net = route.trunc
  · subst hnet
    simp
  · rw [if_neg hnet,hentries,update_of_ne hnet]

theorem removeRoute_spec (h : EntryRep t entries) {route : IpNet}
    (hid : entries route.trunc ≠ [] → id ∈ entries route.trunc) :
    ∃ t', IndexState.removeRoute t route id = .ok t' ∧
      EntryRep t' (update entries route.trunc ((entries route.trunc).filter (· ≠ id))) := by
  have hlook := h.lookup route.trunc_canonical
  obtain ⟨r,t',ht',hrep⟩ := h.modify route
    { absent := .noop
      present := fun val =>
        let val := val.filter (· ≠ id)
        (val,if val.isEmpty then .remove else .noop) }
    ((entries route.trunc).filter (· ≠ id)) (by
      by_cases he : entries route.trunc = []
      · simp [he,ModifyFn.call,RouteModification.apply]
      · simp only [if_neg he,ModifyFn.call]
        cases (entries route.trunc).filter (· ≠ id) with
        | nil => rfl
        | cons a as => rfl)
  refine ⟨t',?_,hrep⟩
  rw [IndexState.removeRoute,hlook]
  have hassert : (if entries route.trunc = [] then none else some (entries route.trunc)).all
      (fun val => val.contains id) = true := by
    by_cases he : entries route.trunc = []
    · simp [he]
    · simp [he,hid he]
  simp only [bind_of_ok,hassert,assert_true]
  rw [ht']
  rfl

theorem insertRoute_spec (h : EntryRep t entries) (route : IpNet) (id : PeerId) :
    ∃ t', IndexState.insertRoute t route id = .ok t' ∧
      EntryRep t' (update entries route.trunc (entries route.trunc ++ [id])) := by
  obtain ⟨r,t',ht',hrep⟩ := h.modify route
    { absent := .insert [id]
      present := fun val => (val ++ [id],.noop) }
    (entries route.trunc ++ [id]) (by
      by_cases he : entries route.trunc = []
      · simp [he,ModifyFn.call,RouteModification.apply]
      · simp [he,ModifyFn.call,RouteModification.apply])
  exact ⟨t',by rw [IndexState.insertRoute,ht']; rfl,hrep⟩

/-- The entries without an id at some networks. -/
def dropId (id : PeerId) (nets : List IpNet) (entries : IpNet → List PeerId) (net : IpNet) :
    List PeerId :=
  if net ∈ nets then (entries net).filter (· ≠ id) else entries net

variable {nets : List IpNet}

omit [IpNetOps] in
theorem mem_dropId {net : IpNet} {p : PeerId} :
    p ∈ dropId id nets entries net ↔ p ∈ entries net ∧ (p = id → net ∉ nets) := by
  by_cases hnet : net ∈ nets
  · simp [dropId,hnet]
  · simp [dropId,hnet]

omit [IpNetOps] in
theorem nodup_dropId (h : ∀ net, (entries net).Nodup) (net : IpNet) :
    (dropId id nets entries net).Nodup := by
  rw [dropId]
  split
  · exact (h net).filter _
  · exact h net

/-- The removal of an id from the entries of some networks does not fail. -/
def Removable (id : PeerId) (nets : List IpNet) (entries : IpNet → List PeerId) : Prop :=
  ∀ net ∈ nets, entries net = [] ∨
    id ∈ entries net ∧ (1 < nets.count net → (entries net).filter (· ≠ id) = [])

/-- The entries of other peers are the same. -/
def OthersKept (id : PeerId) (entries entries' : IpNet → List PeerId) : Prop :=
  ∀ net, (entries' net).filter (· ≠ id) = (entries net).filter (· ≠ id)

omit [IpNetOps] in
theorem removable_cons {net : IpNet} :
    Removable id (net::nets) entries ↔ (entries net = [] ∨ id ∈ entries net) ∧
      Removable id nets (update entries net ((entries net).filter (· ≠ id))) := by
  constructor
  · intro h
    refine ⟨(h net mem_cons_self).imp_right And.left,fun net' hmem => ?_⟩
    have h' := h net' (mem_cons_of_mem net hmem)
    by_cases heq : net' = net
    · subst heq
      rw [update_self]
      rcases h' with h' | ⟨-,h'⟩
      · exact .inl (by simp [h'])
      · exact .inl (h' (by rw [count_cons_self]; exact Nat.succ_lt_succ (count_pos_iff.mpr hmem)))
    · rwa [update_of_ne heq,← count_cons_of_ne (Ne.symm heq)]
  · rintro ⟨hnet,h⟩ net' hmem
    have htail (hmem : net' ∈ nets) (heq : net' = net) : (entries net).filter (· ≠ id) = [] := by
      have h' := h net' hmem
      rw [heq,update_self] at h'
      rcases h' with h' | ⟨h',-⟩
      · exact h'
      · simp at h'
    by_cases heq : net' = net
    · subst heq
      refine hnet.imp_right fun hid => ⟨hid,fun hcount => htail ?_ rfl⟩
      rw [count_cons_self] at hcount
      exact count_pos_iff.mp (by omega)
    · have h' := h net' ((mem_cons.mp hmem).resolve_left heq)
      rwa [update_of_ne heq,← count_cons_of_ne (Ne.symm heq)] at h'

omit [IpNetOps] in
theorem dropId_update {net : IpNet} :
    dropId id nets (update entries net ((entries net).filter (· ≠ id))) =
      dropId id (net::nets) entries := by
  funext net'
  by_cases heq : net' = net
  · subst heq
    by_cases hmem : net' ∈ nets
    · simp [dropId,hmem]
    · simp [dropId,hmem]
  · simp [dropId,heq]

omit [IpNetOps] in
theorem othersKept_dropId : OthersKept id entries (dropId id nets entries) := by
  intro net
  by_cases hmem : net ∈ nets
  · simp [dropId,hmem]
  · simp [dropId,hmem]

theorem removeRoute_fails (h : EntryRep t entries) {route : IpNet} (hne : entries route.trunc ≠ [])
    (hid : id ∉ entries route.trunc) : IndexState.removeRoute t route id = .error .assertion := by
  rw [IndexState.removeRoute,h.lookup route.trunc_canonical,if_neg hne]
  have hassert : (some (entries route.trunc)).all (fun val => val.contains id) = false := by
    simpa using hid
  simp only [bind_of_ok,hassert]
  rfl

/-- The removal of all routes of a list either fails or takes the id out of the entries. -/
theorem removeRoutes_cases (h : EntryRep t entries) (routes : List IpNet) (id : PeerId) :
    Removable id (routes.map IpNet.trunc) entries ∧
        (∃ t', routes.foldlM (fun idx route => IndexState.removeRoute idx route id) t = .ok t' ∧
          EntryRep t' (dropId id (routes.map IpNet.trunc) entries)) ∨
      ¬ Removable id (routes.map IpNet.trunc) entries ∧
        routes.foldlM (fun idx route => IndexState.removeRoute idx route id) t = .error .assertion := by
  induction routes generalizing t entries with
  | nil => exact .inl ⟨(fun net hnet => by cases hnet),t,rfl,h⟩
  | cons route routes ih =>
    rw [map_cons,removable_cons,foldlM_cons]
    by_cases hid : entries route.trunc = [] ∨ id ∈ entries route.trunc
    · obtain ⟨t1,ht1,h1⟩ := removeRoute_spec h fun hne => hid.resolve_left hne
      rw [ht1,← dropId_update]
      rcases ih h1 with ⟨hrem,hok⟩ | ⟨hrem,herr⟩
      · exact .inl ⟨⟨hid,hrem⟩,hok⟩
      · exact .inr ⟨fun hr => hrem hr.2,herr⟩
    · rw [not_or] at hid
      refine .inr ⟨fun hr => hr.1.elim hid.1 hid.2,?_⟩
      rw [removeRoute_fails h hid.1 hid.2]
      rfl

theorem insertRoutes_spec (h : EntryRep t entries) (routes : List IpNet) (id : PeerId) :
    ∃ t' entries', routes.foldlM (fun idx route => IndexState.insertRoute idx route id) t = .ok t' ∧
      EntryRep t' entries' ∧ OthersKept id entries entries' ∧
      (∀ net p, p ∈ entries' net ↔ p ∈ entries net ∨ p = id ∧ net ∈ routes.map IpNet.trunc) ∧
      ((routes.map IpNet.trunc).Nodup → (∀ net, (entries net).Nodup) →
        (∀ net ∈ routes.map IpNet.trunc, id ∉ entries net) → ∀ net, (entries' net).Nodup) := by
  induction routes generalizing t entries with
  | nil => exact ⟨t,entries,rfl,h,fun _ => rfl,by simp,fun _ hn _ => hn⟩
  | cons route routes ih =>
    obtain ⟨t1,ht1,h1⟩ := insertRoute_spec h route id
    obtain ⟨t2,entries2,ht2,h2,hkept,hmem,hnodup⟩ := ih h1
    refine ⟨t2,entries2,by rw [foldlM_cons,ht1]; exact ht2,h2,fun net => ?_,fun net p => ?_,
      fun hroutes hn hid => ?_⟩
    · rw [hkept net]
      by_cases heq : net = route.trunc
      · subst heq
        simp
      · rw [update_of_ne heq]
    · rw [hmem net p]
      by_cases heq : net = route.trunc
      · subst heq
        simp [or_assoc]
        tauto
      · simp [heq]
    · rw [map_cons,nodup_cons] at hroutes
      refine hnodup hroutes.2 (fun net => ?_) fun net hnet => ?_
      · by_cases heq : net = route.trunc
        · subst heq
          rw [update_self]
          exact (hn _).append (nodup_singleton id) (by simpa using hid _ mem_cons_self)
        · rw [update_of_ne heq]
          exact hn net
      · have hne : net ≠ route.trunc := fun heq => hroutes.1 (heq ▸ hnet)
        rw [update_of_ne hne]
        exact hid net (mem_cons_of_mem _ hnet)

/-- The networks of the accepted routes of a node. -/
def routeNets (node : Node) : List IpNet := node.acceptedRoutes.map IpNet.trunc

/-- The entry of a network lists the peers that accept a route to it. -/
def Listed (entries : IpNet → List PeerId) (peers : PeerId → Option Node) : Prop :=
  ∀ net p, p ∈ entries net ↔ ∃ node, peers p = some node ∧ net ∈ routeNets node

variable {peers : PeerId → Option Node} {node : Node}

theorem Listed.drop (hl : Listed entries peers) (hid : peers id = some node) :
    Listed (dropId id (routeNets node) entries) (update peers id none) := by
  intro net p
  rw [mem_dropId,hl net p]
  by_cases hp : p = id
  · subst hp
    simp only [hid,update_self,Option.some.injEq,exists_eq_left',forall_const,
      reduceCtorEq,false_and,exists_false,iff_false,not_and,not_not]
    exact fun hnet => hnet
  · simp [hp]

theorem Listed.add {entries' : IpNet → List PeerId} (hl : Listed entries peers)
    (hcur : ∀ cur, peers id = some cur → ∀ net ∈ routeNets cur, net ∈ routeNets new)
    (hmem : ∀ net p, p ∈ entries' net ↔ p ∈ entries net ∨ p = id ∧ net ∈ routeNets new) :
    Listed entries' (update peers id (some new)) := by
  intro net p
  rw [hmem,hl net p]
  by_cases hp : p = id
  · subst hp
    simp only [update_self,Option.some.injEq,exists_eq_left',true_and]
    exact ⟨fun hor => hor.elim (fun ⟨cur,hc,hin⟩ => hcur cur hc net hin) fun hin => hin,.inr⟩
  · simp [hp]

theorem Listed.same (hl : Listed entries peers) (hid : peers id = some node)
    (hroutes : node.acceptedRoutes = new.acceptedRoutes) :
    Listed entries (update peers id (some new)) := by
  intro net p
  rw [hl net p]
  by_cases hp : p = id
  · subst hp
    simp [hid,routeNets,hroutes]
  · rw [update_of_ne hp]

/-- No other peer accepts a network that a node lists more than once. -/
def Alone (peers : PeerId → Option Node) (id : PeerId) (node : Node) : Prop :=
  ∀ net, 1 < (routeNets node).count net → ∀ p other, p ≠ id → peers p = some other →
    net ∉ routeNets other

theorem alone_of_nodup (h : (routeNets node).Nodup) : Alone peers id node :=
  fun net hnet => absurd (nodup_iff_count_le_one.mp h net) (Nat.not_le_of_lt hnet)

theorem removable_iff_alone (hl : Listed entries peers) (hid : peers id = some node) :
    Removable id (routeNets node) entries ↔ Alone peers id node := by
  have hmem (net : IpNet) (hnet : net ∈ routeNets node) : id ∈ entries net :=
    (hl net id).mpr ⟨node,hid,hnet⟩
  constructor
  · intro h net hcount p other hp hother hnet
    have hin := hmem net (count_pos_iff.mp (by omega))
    rcases h net (count_pos_iff.mp (by omega)) with hnil | ⟨-,hnil⟩
    · rw [hnil] at hin
      cases hin
    · have := filter_eq_nil_iff.mp (hnil hcount) p ((hl net p).mpr ⟨other,hother,hnet⟩)
      simp [hp] at this
  · intro h net hnet
    refine .inr ⟨hmem net hnet,fun hcount => filter_eq_nil_iff.mpr fun p hp => ?_⟩
    obtain ⟨other,hother,hin⟩ := (hl net p).mp hp
    simpa using fun hne => h net hcount p other hne hother hin

theorem removeRoutes_listed (h : EntryRep t entries) (hl : Listed entries peers)
    (hid : peers id = some node) (hnodup : (routeNets node).Nodup) :
    ∃ t' entries', node.acceptedRoutes.foldlM
        (fun idx route => IndexState.removeRoute idx route id) t = .ok t' ∧
      EntryRep t' entries' ∧ Listed entries' (update peers id none) ∧
      ((∀ net, (entries net).Nodup) → ∀ net, (entries' net).Nodup) := by
  have hrem := (removable_iff_alone hl hid).mpr (alone_of_nodup hnodup)
  obtain ⟨t',ht',h'⟩ := ((removeRoutes_cases h node.acceptedRoutes id).resolve_right
    fun hno => hno.1 hrem).2
  exact ⟨t',_,ht',h',hl.drop hid,nodup_dropId⟩

/-- The update of the routes of a peer fails exactly if it removes the routes of an old version
that shares a network it lists twice. A peer that was taken out of the map before the update has
its routes added once more. -/
theorem updateRoutes_spec (h : EntryRep t entries) (hl : Listed entries peers)
    (hold : old = peers id ∨
      old = none ∧ ∀ cur, peers id = some cur → ∀ net ∈ routeNets cur, net ∈ routeNets new) :
    ((∃ t', IndexState.updateRoutes new old id t = .ok t') ↔
        ∀ x, old = some x → x.acceptedRoutes ≠ new.acceptedRoutes → Alone peers id x) ∧
      ∀ t', IndexState.updateRoutes new old id t = .ok t' → ∃ entries', EntryRep t' entries' ∧
        Listed entries' (update peers id (some new)) ∧ OthersKept id entries entries' ∧
        ((routeNets new).Nodup → (∀ net, (entries net).Nodup) → old = peers id ∨ routeNets new = [] →
          ∀ net, (entries' net).Nodup) := by
  cases old with
  | none =>
    obtain ⟨t',entries',ht',h',hkept,hmem,hnodup⟩ := insertRoutes_spec h new.acceptedRoutes id
    have hup : IndexState.updateRoutes new none id t = .ok t' := ht'
    rw [hup]
    refine ⟨iff_of_true ⟨t',rfl⟩ (fun x hx => by cases hx),fun t1 ht1 => ?_⟩
    cases ht1
    refine ⟨entries',h',hl.add (fun cur hc => ?_) hmem,hkept,fun hnew hn hfree => ?_⟩
    · rcases hold with hnone | ⟨-,hcur⟩
      · cases hnone.trans hc
      · exact hcur cur hc
    · refine hnodup hnew hn fun net hnet hin => ?_
      rcases hfree with hnone | hnil
      · obtain ⟨cur,hc,-⟩ := (hl net id).mp hin
        cases hnone.trans hc
      · rw [show new.acceptedRoutes.map IpNet.trunc = [] from hnil] at hnet
        cases hnet
  | some x =>
    have hx : peers id = some x := by
      rcases hold with heq | ⟨hnone,-⟩
      · exact heq.symm
      · cases hnone
    by_cases hacc : x.acceptedRoutes = new.acceptedRoutes
    · have hup : IndexState.updateRoutes new (some x) id t = .ok t := if_pos hacc
      rw [hup]
      refine ⟨iff_of_true ⟨t,rfl⟩ fun y hy hne => ?_,fun t1 ht1 => ?_⟩
      · cases hy
        exact absurd hacc hne
      · cases ht1
        exact ⟨entries,h,hl.same hx hacc,fun _ => rfl,fun _ hn _ => hn⟩
    · have hiff : (∀ y, some x = some y → y.acceptedRoutes ≠ new.acceptedRoutes → Alone peers id y) ↔
          Removable id (routeNets x) entries := by
        rw [removable_iff_alone hl hx]
        refine ⟨fun hy => hy x rfl hacc,fun ha y hy _ => ?_⟩
        cases hy
        exact ha
      rw [hiff]
      simp only [IndexState.updateRoutes,maybeUpdate,if_neg hacc]
      rcases removeRoutes_cases h x.acceptedRoutes id with ⟨hrem,t1,ht1,h1⟩ | ⟨hrem,herr⟩
      · obtain ⟨t2,entries2,ht2,h2,hkept,hmem,hnodup⟩ := insertRoutes_spec h1 new.acceptedRoutes id
        rw [ht1,bind_of_ok,ht2]
        refine ⟨iff_of_true ⟨t2,rfl⟩ hrem,fun t3 ht3 => ?_⟩
        cases ht3
        have hl1 := hl.drop hx
        have hgone (cur : Node) : update peers id none id ≠ some cur := by simp
        have hl2 := hl1.add (fun cur hc => absurd hc (hgone cur)) hmem
        rw [update_idem] at hl2
        refine ⟨entries2,h2,hl2,fun net => (hkept net).trans (othersKept_dropId net),fun hnew hn _ => ?_⟩
        refine hnodup hnew (nodup_dropId hn) fun net _ hin => ?_
        obtain ⟨cur,hc,-⟩ := (hl1 net id).mp hin
        exact hgone cur hc
      · rw [herr]
        exact ⟨iff_of_false (not_exists_ok _) hrem,(fun _ ht => by cases ht)⟩

end Routes
section Keys
variable [IpNetOps]

/-- The keys of a node that no other node may have. Host names are among them only if
`hosts` is set. -/
def Owns (hosts : Bool) (node : Node) : Key → Prop
  | .nodeKey key => key = node.nodeKey
  | .discoKey key => key ∈ optionKeys node.discoKey
  | .stableId id => id = node.stableId
  | .nodeId id => id = node.id
  | .name name => node.fqdnOpt false = some name ∨ hosts = true ∧ name = node.hostname
  | .ip net => net ∈ ipKeys node

/-- The keys under which a node is stored, its host name among them. -/
def Bears (node : Node) : Key → Prop
  | .name name => name ∈ nameKeys node
  | key => Owns false node key

variable {node : Node}

theorem Owns.bears {hosts : Bool} {k : Key} (h : Owns hosts node k) : Bears node k := by
  cases k with
  | name name => exact h.elim .inr fun hhost => .inl hhost.2
  | _ => exact h

theorem bears_iff_owns {k : Key} : Bears node k ↔ Owns true node k := by
  refine ⟨fun h => ?_,Owns.bears⟩
  cases k with
  | name name => exact h.elim (fun hhost => .inr ⟨rfl,hhost⟩) .inl
  | _ => exact h

/-- The fields behind an index are the same in two nodes. -/
def Same (x new : Node) : Key → Prop
  | .nodeKey _ => x.nodeKey = new.nodeKey
  | .discoKey _ => x.discoKey = new.discoKey
  | .stableId _ => x.stableId = new.stableId
  | .nodeId _ => x.id = new.id
  | .name _ => (x.hostname,x.tailnet) = (new.hostname,new.tailnet)
  | .ip _ => x.tailnetAddress = new.tailnetAddress

omit [IpNetOps] in
theorem Same.fqdnOpt {x new : Node} {name : PeerName} (h : Same x new (.name name)) :
    x.fqdnOpt false = new.fqdnOpt false := by
  obtain ⟨hhost,htailnet⟩ := Prod.mk.inj h
  rw [Node.fqdnOpt,Node.fqdnOpt,hhost,htailnet]

theorem Same.owns_iff {hosts : Bool} {x new : Node} {k : Key} (h : Same x new k) :
    Owns hosts x k ↔ Owns hosts new k := by
  cases k with
  | nodeKey key => rw [Owns,Owns,show x.nodeKey = new.nodeKey from h]
  | discoKey key => rw [Owns,Owns,show x.discoKey = new.discoKey from h]
  | stableId id => rw [Owns,Owns,show x.stableId = new.stableId from h]
  | nodeId id => rw [Owns,Owns,show x.id = new.id from h]
  | name name => rw [Owns,Owns,h.fqdnOpt,(Prod.mk.inj h).1]
  | ip net => rw [Owns,Owns,ipKeys,ipKeys,show x.tailnetAddress = new.tailnetAddress from h]

theorem Same.bears_iff {x new : Node} {k : Key} (h : Same x new k) : Bears x k ↔ Bears new k := by
  rw [bears_iff_owns,bears_iff_owns]
  exact h.owns_iff

/-- What the indices have at a key. -/
def IndexState.at (s : IndexState) (ips : IpNet → Option PeerId) : Key → Option PeerId
  | .nodeKey key => s.nkIdx key
  | .discoKey key => s.discoIdx key
  | .stableId id => s.stableidIdx id
  | .nodeId id => s.controlIdx id
  | .name name => s.nameIdx name
  | .ip net => ips net

variable {hosts : Bool} {s : IndexState} {ips : IpNet → Option PeerId} {new : Node}
  {old : Option Node} {id : PeerId}

/-- All indices of keys are updated by one reassignment. -/
theorem IndexState.update_at (hip : IpRep s.ipIdx ips)
    (hold : ∀ x, old = some x → ∀ k, Owns hosts x k → s.at ips k = some id)
    {routes : SplitStackTable (List PeerId)}
    (hroutes : IndexState.updateRoutes new old id s.routeIdx = .ok routes) :
    ∃ s' ips', s.update new old id = .ok s' ∧ IpRep s'.ipIdx ips' ∧ s'.routeIdx = routes ∧
      s'.at ips' = reassign (s.at ips) id {k | ∃ x, old = some x ∧ ¬ Same x new k ∧ Bears x k}
        {k | Bears new k ∧ ∀ x, old = some x → ¬ Same x new k} := by
  have hnk : maybeUpdateIdx new old Node.nodeKey s.nkIdx id = .ok _ :=
    maybeUpdateIdx_spec fun x hx => hold x hx (.nodeKey x.nodeKey) rfl
  have hstable : maybeUpdateIdx new old Node.stableId s.stableidIdx id = .ok _ :=
    maybeUpdateIdx_spec fun x hx => hold x hx (.stableId x.stableId) rfl
  have hcontrol : maybeUpdateIdx new old Node.id s.controlIdx id = .ok _ :=
    maybeUpdateIdx_spec fun x hx => hold x hx (.nodeId x.id) rfl
  have hdisco : updateDisco new old id s.discoIdx = .ok _ :=
    updateDisco_spec fun x hx k hk => hold x hx (.discoKey k) hk
  have hnames : updateNames new old id s.nameIdx = .ok _ :=
    updateNames_spec fun x hx k hk => hold x hx (.name k) (.inl hk)
  have hips : ∃ t', updateIps new old id s.ipIdx = .ok t' ∧ IpRep t' _ :=
    updateIps_spec hip fun x hx net hnet => hold x hx (.ip net) hnet
  obtain ⟨t',ht',hip'⟩ := hips
  refine ⟨_,_,by simp only [update,hnk,hstable,hcontrol,hdisco,hnames,ht',hroutes,bind_of_ok]; rfl,
    hip',rfl,?_⟩
  funext k
  cases k <;> rfl

/-- The removal of a node is one reassignment, too. -/
theorem IndexState.remove_at (hip : IpRep s.ipIdx ips)
    (hnode : ∀ k, Owns hosts node k → s.at ips k = some id) {routes : SplitStackTable (List PeerId)}
    (hroutes : node.acceptedRoutes.foldlM
      (fun routes route => IndexState.removeRoute routes route id) s.routeIdx = .ok routes) :
    ∃ s' ips', s.remove id node = .ok s' ∧ IpRep s'.ipIdx ips' ∧ s'.routeIdx = routes ∧
      s'.at ips' = reassign (s.at ips) id {k | Bears node k} ∅ := by
  obtain ⟨t1,t2,ht1,ht2,hip'⟩ := hip.remove_both fun net hnet => hnode (.ip net) hnet
  refine ⟨_,_,by simp only [remove,ht1,ht2,hroutes,bind_of_ok]; rfl,hip',rfl,?_⟩
  funext k
  cases k with
  | nodeKey key =>
    have hk : s.nkIdx node.nodeKey = some id := hnode (.nodeKey node.nodeKey) rfl
    exact congrFun (update_none_eq_reassign hk) key
  | stableId i =>
    have hk : s.stableidIdx node.stableId = some id := hnode (.stableId node.stableId) rfl
    exact congrFun (update_none_eq_reassign hk) i
  | nodeId i =>
    have hk : s.controlIdx node.id = some id := hnode (.nodeId node.id) rfl
    exact congrFun (update_none_eq_reassign hk) i
  | ip net => rfl
  | discoKey key =>
    change _ = reassign s.discoIdx id (optionKeys node.discoKey) ∅ key
    simp only [IndexState.at]
    cases hk : node.discoKey with
    | none => rw [optionKeys_none,reassign_empty]
    | some disco =>
      have hat : s.discoIdx disco = some id := hnode (.discoKey disco) hk
      rw [optionKeys_some]
      exact congrFun (update_none_eq_reassign hat) key
  | name name =>
    change _ = reassign s.nameIdx id (nameKeys node) ∅ name
    simp only [IndexState.at]
    have hhost := ite_update_eq_reassign s.nameIdx id node.hostname
    cases hk : node.fqdnOpt false with
    | none =>
      rw [nameKeys_of_none hk]
      exact congrFun hhost name
    | some fqdn =>
      rw [← (drop_fqdn hk (hnode (.name fqdn) (.inl hk))).2,← hhost]
      rfl

end Keys
section Invariant
variable [IpNetOps]

/-- A live peer has a key. -/
def Live (peers : PeerId → Option Node) (has : Node → Key → Prop) (p : PeerId) (k : Key) : Prop :=
  ∃ node, peers p = some node ∧ has node k

/-- The keys that a partial update of a node cannot change. -/
def Key.Lasting : Key → Prop
  | .nodeKey _ => False
  | .discoKey _ => False
  | _ => True

/-- The indices of the live peers. Old node keys and disco keys may still lead to a peer,
and an id may stand twice in the entry of a route, unless the invariant is `strict`. -/
structure Indexed (hosts : Bool) (strict : Prop) (s : IndexState) (peers : PeerId → Option Node)
    (ips : IpNet → Option PeerId) (entries : IpNet → List PeerId) : Prop where
  ip : IpRep s.ipIdx ips
  route : EntryRep s.routeIdx entries
  resolves : Resolves (s.at ips) (Live peers (Owns hosts))
  notStale : NotStale (s.at ips) fun p k => strict ∨ k.Lasting → Live peers Bears p k
  listed : Listed entries peers
  nodup : ∀ p node, peers p = some node → (routeNets node).Nodup
  once : strict → ∀ net, (entries net).Nodup

variable {hosts : Bool} {strict : Prop} {s : IndexState} {peers : PeerId → Option Node}
  {ips : IpNet → Option PeerId} {entries : IpNet → List PeerId} {new node : Node}
  {old : Option Node} {id : PeerId}

/-- Nothing a node is stored under belongs to another live peer. -/
def FreeFor (hosts : Bool) (peers : PeerId → Option Node) (id : PeerId) (new : Node) : Prop :=
  ∀ q, q ≠ id → ∀ node, peers q = some node → ∀ k, Bears new k → ¬ Owns hosts node k

/-- A node that is put in the place of a live one without regard to what that one was keeps
what the invariant relies on. -/
structure Overwrites (strict : Prop) (cur new : Node) : Prop where
  nets : ∀ net ∈ routeNets cur, net ∈ routeNets new
  lasting : ∀ k, k.Lasting → Bears cur k → Bears new k
  bears : strict → ∀ k, Bears cur k → Bears new k
  noRoutes : strict → routeNets new = []

omit [IpNetOps] in
theorem live_update_self {has : Node → Key → Prop} {k : Key} :
    Live (update peers id (some new)) has id k ↔ has new k := by
  simp [Live]

omit [IpNetOps] in
theorem live_update_of_ne {has : Node → Key → Prop} {k : Key} {q : PeerId} {o : Option Node}
    (hq : q ≠ id) : Live (update peers id o) has q k ↔ Live peers has q k := by
  simp [Live,hq]

theorem nodup_update {o : Option Node} (h : ∀ p node, peers p = some node → (routeNets node).Nodup)
    (ho : ∀ node, o = some node → (routeNets node).Nodup) (p : PeerId) (node : Node)
    (hp : update peers id o p = some node) : (routeNets node).Nodup := by
  by_cases heq : p = id
  · subst heq
    rw [update_self] at hp
    exact ho node hp
  · rw [update_of_ne heq] at hp
    exact h p node hp

/-- The update of the indices for a node, whether its old version was found or not. -/
theorem Indexed.update (h : Indexed hosts strict s peers ips entries)
    (hold : old = peers id ∨ old = none ∧ ∃ cur, peers id = some cur ∧ Overwrites strict cur new)
    (hfree : FreeFor hosts peers id new) (hnew : (routeNets new).Nodup) :
    ∃ s' ips' entries', s.update new old id = .ok s' ∧
      Indexed hosts strict s' (Function.update peers id (some new)) ips' entries' := by
  have hlive : ∀ x, old = some x → peers id = some x := by
    intro x hx
    rcases hold with heq | ⟨hnone,_⟩
    · rw [← heq,hx]
    · rw [hnone] at hx
      cases hx
  have hroutes : old = peers id ∨ old = none ∧
      ∀ cur, peers id = some cur → ∀ net ∈ routeNets cur, net ∈ routeNets new := by
    refine hold.imp_right fun ⟨hnone,cur,hcur,hover⟩ => ⟨hnone,fun x hx => ?_⟩
    rw [hcur] at hx
    cases hx
    exact hover.nets
  have hspec := updateRoutes_spec h.route h.listed hroutes
  obtain ⟨t',ht'⟩ := hspec.1.mpr fun x hx _ => alone_of_nodup (h.nodup id x (hlive x hx))
  obtain ⟨entries',hroute',hlisted',-,honce'⟩ := hspec.2 t' ht'
  obtain ⟨s',ips',hs',hip',rfl,hat⟩ := IndexState.update_at h.ip
    (fun x hx k hk => h.resolves id k ⟨x,hlive x hx,hk⟩) ht'
  refine ⟨s',ips',entries',hs',hip',hroute',?_,?_,hlisted',?_,?_⟩
  · rw [hat]
    apply h.resolves.reassign
    · exact fun q hq k hk => (live_update_of_ne hq).mp hk
    · rintro q hq k ⟨hk,_⟩ hqk
      obtain ⟨node,hnode,hown⟩ := (live_update_of_ne hq).mp hqk
      exact hfree q hq node hnode k hk hown
    · intro k hk
      rw [live_update_self] at hk
      by_cases hsame : ∃ x, old = some x ∧ Same x new k
      · obtain ⟨x,hx,hs⟩ := hsame
        refine .inr ⟨?_,x,hlive x hx,hs.owns_iff.mpr hk⟩
        rintro ⟨y,hy,hne,_⟩
        rw [hx] at hy
        cases hy
        exact hne hs
      · exact .inl ⟨hk.bears,fun x hx hs => hsame ⟨x,hx,hs⟩⟩
  · rw [hat]
    refine NotStale.reassign h.notStale ?_ ?_ ?_
    · exact fun q hq k hk hlast => (live_update_of_ne hq).mpr (hk hlast)
    · exact fun k hk _ => live_update_self.mpr hk.1
    · intro k hk hd hlast
      rw [live_update_self]
      obtain ⟨x,hx,hbears⟩ := hk hlast
      rcases hold with heq | ⟨_,cur,hcur,hover⟩
      · by_contra hno
        refine hd ⟨x,heq.trans hx,fun hs => hno (hs.bears_iff.mp hbears),hbears⟩
      · rw [hcur] at hx
        cases hx
        exact hlast.elim (fun hstrict => hover.bears hstrict k hbears)
          fun hk => hover.lasting k hk hbears
  · exact nodup_update h.nodup fun node hnode => by cases hnode; exact hnew
  · intro hstrict
    exact honce' hnew (h.once hstrict) (hold.imp_right fun ⟨_,_,_,hover⟩ => hover.noRoutes hstrict)

theorem Indexed.remove (h : Indexed hosts strict s peers ips entries) (hid : peers id = some node) :
    ∃ s' ips' entries', s.remove id node = .ok s' ∧
      Indexed hosts strict s' (Function.update peers id none) ips' entries' := by
  obtain ⟨t',entries',ht',hroute',hlisted',honce'⟩ :=
    removeRoutes_listed h.route h.listed hid (h.nodup id node hid)
  obtain ⟨s',ips',hs',hip',rfl,hat⟩ := IndexState.remove_at h.ip
    (fun k hk => h.resolves id k ⟨node,hid,hk⟩) ht'
  have hgone : ∀ k, ¬ Live (Function.update peers id none) (Owns hosts) id k := by
    rintro k ⟨x,hx,_⟩
    rw [update_self] at hx
    cases hx
  refine ⟨s',ips',entries',hs',hip',hroute',?_,?_,hlisted',?_,fun hstrict => honce' (h.once hstrict)⟩
  · rw [hat]
    apply h.resolves.reassign
    · exact fun q hq k hk => (live_update_of_ne hq).mp hk
    · exact fun q hq k hk => hk.elim
    · exact fun k hk => absurd hk (hgone k)
  · rw [hat]
    refine NotStale.reassign h.notStale ?_ ?_ ?_
    · exact fun q hq k hk hlast => (live_update_of_ne hq).mpr (hk hlast)
    · exact fun k hk => hk.elim
    · intro k hk hd hlast
      obtain ⟨x,hx,hbears⟩ := hk hlast
      rw [hid] at hx
      cases hx
      exact absurd hbears hd
  · exact nodup_update h.nodup fun node hnode => by cases hnode

theorem indexed_empty : Indexed hosts strict .empty (fun _ => none) (fun _ => none) (fun _ => []) where
  ip := ⟨∅,SplitStackTable.empty_rep,rfl⟩
  route := ⟨∅,SplitStackTable.empty_rep,fun _ => rfl⟩
  resolves := by
    rintro p k ⟨node,hnode,_⟩
    cases hnode
  notStale := by
    intro p k hk
    cases k <;> cases hk
  listed := by
    intro net p
    simp
  nodup := by
    intro p node hnode
    cases hnode
  once := fun _ _ => nodup_nil

end Invariant
end Tailnet.Runtime

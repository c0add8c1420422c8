import Tailnet.Control.Node

/-! The update of the peers that a map response stands for. A response either lists all
peers, or changes of some of them in several lists, which are merged by node. -/
namespace Tailnet.Control
open OrdMap

/-- A change of a node as control sends it. -/
structure PeerChange where
  nodeId : NodeId
  derpRegion : Option RegionId
  cap : Option CapabilityVersion
  capMap : Option CapMap
  endpoints : Option (List SocketAddr)
  key : Option NodePublicKey
  keySignature : Option (List UInt8)
  discoKey : Option DiscoPublicKey
  online : Option Bool
  lastSeen : Option DateTime
  keyExpiry : Option DateTime

/-- The parts of a map response about peers. -/
structure MapResponse where
  peers : Option (List Node)
  peersChanged : Option (List Node)
  peersRemoved : Option (List NodeId)
  peersChangedPatch : Option (List PeerChange)
  peerSeenChange : OrdMap NodeId Bool
  onlineChange : OrdMap NodeId Bool

inductive PeerUpdate
  | full (nodes : List Node)
  | delta (patch : List NodeUpdate) (upsert : List Node) (remove : List NodeId)

/-- The occasions on which the local clock is read: for the entries of the seen and online
changes by their node, and for the patches by their place. -/
inductive ClockRead
  | seen (id : NodeId)
  | online (id : NodeId)
  | patch (place : ℕ)

/-- The update of a change, made at an instant. -/
def NodeUpdate.ofChange (now : DateTime) (value : PeerChange) : NodeUpdate where
  id := value.nodeId
  status := .new now value.online value.lastSeen
  derpRegion := value.derpRegion
  cap := value.cap
  capMap := value.capMap.map fun m => .ofList m.entries
  nodeKey := value.key
  nodeKeyExpiry := value.keyExpiry
  discoKey := value.discoKey
  tailnetLockKeySignature := value.keySignature
  underlayAddresses := value.endpoints

def nonempty {T : Type} : Option (List T) → Bool
  | some l => !l.isEmpty
  | none => false

/-- Whether a response without a list of all peers is about peers at all. -/
def MapResponse.hasChanges (r : MapResponse) : Bool :=
  nonempty r.peersRemoved || nonempty r.peersChanged || !r.peerSeenChange.entries.isEmpty ||
    !r.onlineChange.entries.isEmpty || nonempty r.peersChangedPatch

section
variable (clock : ClockRead → DateTime) (r : MapResponse)

def seenStatus (id : NodeId) (seen : Bool) : NodeStatus :=
  if seen then .new (clock (.seen id)) (some false) none else .unknown

def onlineStatus (id : NodeId) (online : Bool) : NodeStatus :=
  .new (clock (.online id)) (some online) none

/-- Set the status in the update of a node, which is created if there is none. -/
def setStatus (updates : OrdMap NodeId NodeUpdate) (id : NodeId) (status : NodeStatus) :
    OrdMap NodeId NodeUpdate :=
  match updates.get id with
  | some u => updates.insert id { u with status }
  | none => updates.insert id (.default id status)

/-- The loops over the seen and the online changes. -/
def setStatuses (status : NodeId → Bool → NodeStatus) :
    List (NodeId × Bool) → OrdMap NodeId NodeUpdate → OrdMap NodeId NodeUpdate
  | [],updates => updates
  | (id,value)::l,updates => setStatuses status l (setStatus updates id (status id value))

/-- The updates of the patches, in their order. -/
def patchUpdates : List NodeUpdate :=
  (r.peersChangedPatch.getD []).zipIdx.map fun (change,place) =>
    .ofChange (clock (.patch place)) change

def updates : OrdMap NodeId NodeUpdate :=
  let updates := setStatuses (seenStatus clock) r.peerSeenChange.entries .empty
  let updates := setStatuses (onlineStatus clock) r.onlineChange.entries updates
  updates.append (.ofList ((patchUpdates clock r).map fun u => (u.id,u)))

def peerUpdate : Option PeerUpdate :=
  match r.peers with
  | some fullMap => some (.full fullMap)
  | none =>
    if r.hasChanges then
      some (.delta (updates clock r).values (r.peersChanged.getD []) (r.peersRemoved.getD []))
    else none

/-- The updates for a node that the stream emits. -/
def emittedUpdates (id : NodeId) : List NodeUpdate :=
  match peerUpdate clock r with
  | some (.delta patch _ _) => patch.filter fun u => u.id = id
  | _ => []

/-- The changes of a node in a response, in the order in which they apply. -/
def changesOf (id : NodeId) : List NodeUpdate :=
  ((r.peerSeenChange.get id).map fun seen => .default id (seenStatus clock id seen)).toList ++
  ((r.onlineChange.get id).map fun online => .default id (onlineStatus clock id online)).toList ++
  (patchUpdates clock r).filter fun u => u.id = id

end

def Node.applyUpdates : List NodeUpdate → Node → Result Node
  | [],node => .ok node
  | u::us,node => do
    let node ← node.applyUpdate u
    node.applyUpdates us

namespace Node
variable {us : List NodeUpdate} {id : NodeId} {node : Node} {f : UpdateField}

theorem applyUpdates_eq (hus : ∀ u ∈ us, u.id = id) (hnode : node.id = id) :
    node.applyUpdates us = .ok (us.foldl patched node) := by
  induction us generalizing node with
  | nil => rfl
  | cons u us ih =>
    have hu := hus u List.mem_cons_self
    rw [applyUpdates,applyUpdate_of_id (hnode.trans hu.symm)]
    exact ih (fun v hv => hus v (List.mem_cons_of_mem u hv)) (by rw [patched_id,hnode])

theorem fixed_foldl_patched (us : List NodeUpdate) (node : Node) :
    (us.foldl patched node).fixed = node.fixed := by
  induction us generalizing node with
  | nil => rfl
  | cons u us ih => exact ih (node.patched u)

theorem sameAt_foldl_of_not_sets (h : ∀ u ∈ us, u.sets f = false) (node : Node) :
    SameAt (us.foldl patched node) node f := by
  induction us generalizing node with
  | nil => exact SameAt.refl node f
  | cons u us ih =>
    have hu := sameAt_patched_of_not_sets (a := node) (h u List.mem_cons_self)
    exact (ih (fun v hv => h v (List.mem_cons_of_mem u hv)) (node.patched u)).trans hu

/-- A field that some update sets is in the end as the last such update sets it. -/
theorem sameAt_foldl_of_sets (h : ∃ u ∈ us, u.sets f = true) :
    ∃ u ∈ us, u.sets f = true ∧ ∀ node, SameAt (us.foldl patched node) (node.patched u) f := by
  induction us with
  | nil => obtain ⟨u,hu,_⟩ := h; cases hu
  | cons v us ih =>
    by_cases hrest : ∃ u ∈ us, u.sets f = true
    · obtain ⟨u,hu,hsets,hsame⟩ := ih hrest
      refine ⟨u,List.mem_cons_of_mem v hu,hsets,fun node => ?_⟩
      exact (hsame (node.patched v)).trans (sameAt_patched_of_sets hsets)
    · obtain ⟨u,hu,hsets⟩ := h
      have huv : u = v := (List.mem_cons.mp hu).resolve_right fun hu => hrest ⟨u,hu,hsets⟩
      subst huv
      refine ⟨u,hu,hsets,fun node => sameAt_foldl_of_not_sets (fun w hw => ?_) (node.patched u)⟩
      cases hw' : w.sets f with
      | false => rfl
      | true => exact absurd ⟨w,hw,hw'⟩ hrest

/-- An update alone does what it does after other updates, exactly if it sets all that they
set. -/
theorem patched_eq_foldl_iff (w : NodeUpdate) (id : NodeId) :
    (∀ node : Node, node.id = id → node.patched w = (us.foldl patched node).patched w) ↔
      ∀ u ∈ us, ∀ f, u.sets f = true → w.sets f = true := by
  constructor
  · intro h u hu f hsets
    by_contra hw
    have hw : w.sets f = false := by simpa using hw
    obtain ⟨v,_,hvsets,hsame⟩ := sameAt_foldl_of_sets ⟨u,hu,hsets⟩
    obtain ⟨node,hid,hne⟩ := exists_not_sameAt (blank id) hvsets
    have heq := SameAt.refl (node.patched w) f
    nth_rewrite 2 [h node hid] at heq
    refine hne ((hsame node).symm.trans ?_)
    exact (sameAt_patched_of_not_sets hw).symm.trans (heq.symm.trans (sameAt_patched_of_not_sets hw))
  · intro h node _
    refine ext_of_sameAt (fixed_foldl_patched (us ++ [w]) node ▸ ?_) fun f => ?_
    · rw [List.foldl_append]
      rfl
    · cases hw : w.sets f with
      | true => exact sameAt_patched_of_sets hw
      | false =>
        refine SameAt.patched (sameAt_foldl_of_not_sets (fun u hu => ?_) node).symm w
        cases hu' : u.sets f with
        | false => rfl
        | true => rw [h u hu f hu'] at hw; cases hw

end Node

/-- Every update stands under its own id. -/
def ById (m : OrdMap NodeId NodeUpdate) : Prop := ∀ e ∈ m.entries, e.2.id = e.1

section
variable {m : OrdMap NodeId NodeUpdate}

theorem ById.insert (h : ById m) (u : NodeUpdate) : ById (m.insert u.id u) := by
  intro e he
  rcases mem_insertEntry he with rfl | he
  · rfl
  · exact h e he

theorem ById.insertAll (h : ById m) {l : List (NodeId × NodeUpdate)} (hl : ∀ e ∈ l, e.2.id = e.1) :
    ById (m.insertAll l) := by
  induction l generalizing m with
  | nil => exact h
  | cons e l ih =>
    refine ih ?_ fun f hf => hl f (List.mem_cons_of_mem e hf)
    rw [← hl e List.mem_cons_self]
    exact h.insert e.2

/-- What `setStatus` leaves for a node. -/
def withStatus (u : Option NodeUpdate) (id : NodeId) (status : NodeStatus) : NodeUpdate :=
  match u with
  | some u => { u with status }
  | none => .default id status

theorem ById.get (h : ById m) {k : NodeId} {u : NodeUpdate} (hu : m.get k = some u) : u.id = k :=
  h (k,u) (mem_of_getEntry hu)

theorem setStatus_eq (m : OrdMap NodeId NodeUpdate) (id : NodeId) (status : NodeStatus) :
    setStatus m id status = m.insert id (withStatus (m.get id) id status) := by
  rw [setStatus]
  cases m.get id <;> rfl

theorem ById.setStatus (h : ById m) (id : NodeId) (status : NodeStatus) :
    ById (setStatus m id status) := by
  have hid : (withStatus (m.get id) id status).id = id := by
    cases hu : m.get id with
    | none => rfl
    | some u => exact ById.get (u := u) h hu
  rw [setStatus_eq]
  have hinsert := h.insert (withStatus (m.get id) id status)
  rwa [hid] at hinsert

theorem ById.setStatuses (h : ById m) (status : NodeId → Bool → NodeStatus)
    (l : List (NodeId × Bool)) : ById (setStatuses status l m) := by
  induction l generalizing m with
  | nil => exact h
  | cons e l ih => exact ih (h.setStatus e.1 _)

theorem get_setStatuses (status : NodeId → Bool → NodeStatus) {l : List (NodeId × Bool)}
    (hl : l.Pairwise fun a b => a.1 < b.1) (m : OrdMap NodeId NodeUpdate) (k : NodeId) :
    (setStatuses status l m).get k = match OrdMap.getEntry k l with
      | some v => some (withStatus (m.get k) k (status k v))
      | none => m.get k := by
  induction l generalizing m with
  | nil => rfl
  | cons e l ih =>
    obtain ⟨hhead,htail⟩ := List.pairwise_cons.mp hl
    rw [setStatuses,ih htail,setStatus_eq,get_insert,OrdMap.getEntry]
    by_cases hk : e.1 = k
    · have hnone : OrdMap.getEntry k l = none :=
        getEntry_eq_none fun f hf heq => absurd (hhead f hf) (by rw [hk,heq]; exact lt_irrefl k)
      simp [hk,hnone]
    · simp [hk]

theorem last_map_id (us : List NodeUpdate) (id : NodeId) :
    OrdMap.last id (us.map fun u => (u.id,u)) = (us.filter fun u => u.id = id).getLast? := by
  induction us with
  | nil => rfl
  | cons u us ih =>
    rw [List.map_cons,OrdMap.last,ih]
    by_cases hu : u.id = id
    · rw [List.filter_cons_of_pos (by simpa using hu),List.getLast?_cons]
      cases (us.filter fun u => u.id = id).getLast? <;> simp [hu]
    · rw [List.filter_cons_of_neg (by simpa using hu)]
      simp [hu]

end

section
variable (clock : ClockRead → DateTime) (r : MapResponse) (id : NodeId)

theorem byId_updates : ById (updates clock r) := by
  have hempty : ById .empty := fun e he => by cases he
  have hpatches : ById (.ofList ((patchUpdates clock r).map fun u => (u.id,u))) := by
    refine hempty.insertAll fun e he => ?_
    obtain ⟨u,_,rfl⟩ := List.mem_map.mp he
    rfl
  exact ((hempty.setStatuses _ _).setStatuses _ _).insertAll hpatches

/-- The update of a node from the seen and the online changes. -/
def statusUpdate : Option NodeUpdate :=
  match r.onlineChange.get id with
  | some online => some (.default id (onlineStatus clock id online))
  | none => (r.peerSeenChange.get id).map fun seen => .default id (seenStatus clock id seen)

theorem get_updates : (updates clock r).get id =
    ((patchUpdates clock r).filter fun u => u.id = id).getLast?.or (statusUpdate clock r id) := by
  rw [updates,get_append,get_ofList,last_map_id,
    get_setStatuses _ r.onlineChange.ascending,get_setStatuses _ r.peerSeenChange.ascending,
    statusUpdate]
  simp only [OrdMap.get]
  cases OrdMap.getEntry id r.onlineChange.entries <;>
    cases OrdMap.getEntry id r.peerSeenChange.entries <;> rfl

theorem emittedUpdates_eq (hpeers : r.peers = none) :
    emittedUpdates clock r id = ((updates clock r).get id).toList := by
  have hfilter : (updates clock r).values.filter (fun u => u.id = id) =
      ((updates clock r).get id).toList := by
    rw [← filter_entries,OrdMap.values,List.filter_map]
    congr 1
    refine List.filter_congr fun e he => ?_
    simp [byId_updates clock r e he]
  rw [emittedUpdates,peerUpdate,hpeers]
  cases hc : r.hasChanges with
  | true => exact hfilter
  | false =>
    simp only [MapResponse.hasChanges,Bool.or_eq_false_iff,Bool.not_eq_false',List.isEmpty_iff] at hc
    obtain ⟨⟨⟨_,hseen⟩,honline⟩,hpatch⟩ := hc
    have hpatches : patchUpdates clock r = [] := by
      rw [patchUpdates]
      cases hl : r.peersChangedPatch with
      | none => rfl
      | some l =>
        simp only [nonempty,hl,Bool.not_eq_false',List.isEmpty_iff] at hpatch
        simp [hpatch]
    rw [get_updates,hpatches,statusUpdate,OrdMap.get,OrdMap.get,hseen,honline]
    rfl

theorem id_of_mem_changesOf {u : NodeUpdate} (h : u ∈ changesOf clock r id) : u.id = id := by
  simp only [changesOf,List.mem_append,Option.mem_toList,Option.map_eq_some_iff,List.mem_filter,
    decide_eq_true_eq] at h
  rcases h with (⟨_,_,rfl⟩ | ⟨_,_,rfl⟩) | ⟨_,hid⟩
  · rfl
  · rfl
  · exact hid

theorem onlineStatus_ne_unknown (online : Bool) : onlineStatus clock id online ≠ .unknown := by
  cases online <;> simp [onlineStatus,NodeStatus.new]

/-- The seen and the online change alone are merged without a loss. -/
theorem foldl_status (node : Node) :
    (statusUpdate clock r id).toList.foldl Node.patched node =
      (((r.peerSeenChange.get id).map fun seen =>
          NodeUpdate.default id (seenStatus clock id seen)).toList ++
        ((r.onlineChange.get id).map fun online =>
          NodeUpdate.default id (onlineStatus clock id online)).toList).foldl Node.patched node := by
  rw [statusUpdate]
  cases honline : r.onlineChange.get id with
  | none => simp
  | some online =>
    have hknown := onlineStatus_ne_unknown clock id online
    cases hseen : r.peerSeenChange.get id with
    | none => simp
    | some seen => simp [Node.patched,NodeUpdate.default,hknown]

end

/-- A response without a list of all peers loses no change of a node exactly if the last patch
of the node, where there is one, sets every field that some change of the node sets. -/
theorem response_keeps_changes_iff (clock : ClockRead → DateTime) (r : MapResponse)
    (hpeers : r.peers = none) (id : NodeId) :
    (∀ node : Node, node.id = id →
      node.applyUpdates (emittedUpdates clock r id) = node.applyUpdates (changesOf clock r id)) ↔
    ∀ last ∈ ((patchUpdates clock r).filter fun u => u.id = id).getLast?,
      ∀ u ∈ changesOf clock r id, ∀ f, u.sets f = true → last.sets f = true := by
  have hemitted := emittedUpdates_eq clock r id hpeers
  have happly : ∀ node : Node, node.id = id →
      (node.applyUpdates (emittedUpdates clock r id) = node.applyUpdates (changesOf clock r id) ↔
        (emittedUpdates clock r id).foldl Node.patched node =
          (changesOf clock r id).foldl Node.patched node) := by
    intro node hnode
    rw [Node.applyUpdates_eq (fun u hu => ?_) hnode,
      Node.applyUpdates_eq (fun u hu => id_of_mem_changesOf clock r id hu) hnode,Except.ok.injEq]
    rw [hemitted,Option.mem_toList] at hu
    exact (byId_updates clock r).get hu
  rw [get_updates] at hemitted
  rcases List.eq_nil_or_concat ((patchUpdates clock r).filter fun u => u.id = id) with hnil | ⟨us,w,hlast⟩
  · rw [hnil] at hemitted ⊢
    refine iff_of_true (fun node hnode => (happly node hnode).mpr ?_) fun _ h => by cases h
    rw [hemitted,changesOf,hnil,List.append_nil]
    exact foldl_status clock r id node
  · obtain ⟨earlier,hchanges⟩ : ∃ earlier, changesOf clock r id = earlier ++ [w] :=
      ⟨_,by rw [changesOf,hlast,List.concat_eq_append,← List.append_assoc]⟩
    have hw : (us.concat w).getLast? = some w := by simp
    rw [hlast,hw] at hemitted
    have hiff : (∀ node : Node, node.id = id → node.applyUpdates (emittedUpdates clock r id) =
        node.applyUpdates (changesOf clock r id)) ↔
        ∀ node : Node, node.id = id → node.patched w = (earlier.foldl Node.patched node).patched w := by
      refine forall_congr' fun node => imp_congr_right fun hnode => ?_
      rw [happly node hnode,hemitted,hchanges,List.foldl_append]
      rfl
    rw [hiff,Node.patched_eq_foldl_iff,hlast,hw,hchanges]
    constructor
    · intro h last hmem u hu f hsets
      cases hmem
      rcases List.mem_append.mp hu with hu | hu
      · exact h u hu f hsets
      · rwa [← List.mem_singleton.mp hu]
    · intro h u hu f hsets
      exact h w rfl u (List.mem_append_left _ hu) f hsets

/-- A node goes offline and changes its key, in one response. -/
def patchAfterOffline : MapResponse where
  peers := none
  peersChanged := none
  peersRemoved := none
  peersChangedPatch := some [⟨7,none,none,none,none,some (List.Vector.replicate 32 1),none,none,none,
    none,none⟩]
  peerSeenChange := .empty
  onlineChange := .ofList [(7,false)]

/-- The update that is emitted has the new key only: the node stays online. -/
theorem patch_hides_offline :
    let node := { Node.blank 7 with status := .online }
    (node.applyUpdates (emittedUpdates (fun _ => 0) patchAfterOffline 7)).map Node.status =
      .ok .online ∧
    (node.applyUpdates (changesOf (fun _ => 0) patchAfterOffline 7)).map Node.status =
      .ok (.offline ⟨none,0⟩) := by
  constructor <;> rfl

/-- A response whose only patch of a node sets its status keeps the changes of the node. -/
theorem response_keeps_changes_iff_online :
    let r := { patchAfterOffline with
      peersChangedPatch := some [⟨7,none,none,none,none,none,none,none,some true,none,none⟩] }
    ∀ node : Node, node.id = 7 →
      node.applyUpdates (emittedUpdates (fun _ => 0) r 7) = node.applyUpdates (changesOf (fun _ => 0) r 7) := by
  refine (response_keeps_changes_iff (fun _ => 0) _ rfl 7).mpr ?_
  intro last hlast u hu f hsets
  cases hlast
  have hu : u ∈ [NodeUpdate.default 7 (.offline ⟨none,0⟩),.default 7 .online] := hu
  simp only [List.mem_cons,List.not_mem_nil,or_false] at hu
  rcases hu with rfl | rfl <;> cases f <;> first | rfl | cases hsets

end Tailnet.Control

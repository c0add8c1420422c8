import Tailnet.Lib.OrdMap
import Tailnet.Lib.Bytes
import Tailnet.Net

/-! Nodes of a tailnet and partial updates of nodes, as they are made from the messages of
the control plane. -/
namespace Tailnet.Control
open Option

abbrev NodeId := ℤ
abbrev StableNodeId := String
abbrev NodePublicKey := Bytes 32
abbrev DiscoPublicKey := Bytes 32
abbrev MachinePublicKey := Bytes 32
abbrev RegionId := ℕ
abbrev CapabilityVersion := ℕ

/-- Points in time, in nanoseconds of the Unix time. -/
abbrev DateTime := ℤ

/-- Capabilities with their values. -/
abbrev CapMap := OrdMap String (List String)

instance : DecidableEq CapMap := fun a b =>
  decidable_of_iff (a.entries = b.entries) ⟨fun h => by cases a; cases b; cases h; rfl,congrArg _⟩

structure SocketAddr where
  ip : IpAddr
  port : UInt16
  deriving DecidableEq

structure NodeLastSeen where
  control : Option DateTime
  estimated : DateTime
  deriving DecidableEq

inductive NodeStatus
  | unknown
  | online
  | offline (lastSeen : NodeLastSeen)
  deriving DecidableEq

/-- The status from the fields of a message, at an instant. -/
def NodeStatus.new (now : DateTime) : Option Bool → Option DateTime → NodeStatus
  | some true,none => online
  | some false,none => offline ⟨none,now⟩
  | some false,some t => offline ⟨some t,now⟩
  | none,some t => offline ⟨some t,now⟩
  | none,none => unknown
  | some true,some _ => unknown

structure TailnetAddress where
  ipv4 : IpNet
  ipv6 : IpNet
  family_ipv4 : ipv4.addr.family = .v4
  family_ipv6 : ipv6.addr.family = .v6
  deriving DecidableEq

structure Node where
  id : NodeId
  stableId : StableNodeId
  hostname : String
  capabilityVersion : CapabilityVersion
  status : NodeStatus
  tailnet : Option String
  nodeCapabilities : CapMap
  tags : List String
  tailnetAddress : TailnetAddress
  nodeKey : NodePublicKey
  nodeKeyExpiry : Option DateTime
  machineKey : Option MachinePublicKey
  discoKey : Option DiscoPublicKey
  tailnetLockKeySignature : Option (List UInt8)
  acceptedRoutes : List IpNet
  underlayAddresses : List SocketAddr
  derpRegion : Option RegionId
  deriving DecidableEq

/-- A partial update to a node. What is absent has not changed. -/
structure NodeUpdate where
  id : NodeId
  status : NodeStatus
  derpRegion : Option RegionId
  cap : Option CapabilityVersion
  capMap : Option CapMap
  nodeKey : Option NodePublicKey
  nodeKeyExpiry : Option DateTime
  discoKey : Option DiscoPublicKey
  tailnetLockKeySignature : Option (List UInt8)
  underlayAddresses : Option (List SocketAddr)
  deriving DecidableEq

def NodeUpdate.default (id : NodeId) (status : NodeStatus) : NodeUpdate :=
  ⟨id,status,none,none,none,none,none,none,none,none⟩

namespace Node

/-- The changes of an update, without the check of the id. -/
def patched (node : Node) (update : NodeUpdate) : Node :=
  { node with
    status := if update.status ≠ .unknown then update.status else node.status
    capabilityVersion := update.cap.getD node.capabilityVersion
    nodeCapabilities := update.capMap.getD node.nodeCapabilities
    derpRegion := update.derpRegion.or node.derpRegion
    discoKey := update.discoKey.or node.discoKey
    nodeKey := update.nodeKey.getD node.nodeKey
    nodeKeyExpiry := update.nodeKeyExpiry.or node.nodeKeyExpiry
    tailnetLockKeySignature := update.tailnetLockKeySignature.or node.tailnetLockKeySignature
    underlayAddresses := update.underlayAddresses.getD node.underlayAddresses }

/-- Apply a partial update, which has to be one of this node. -/
def applyUpdate (node : Node) (update : NodeUpdate) : Result Node :=
  if node.id = update.id then .ok (node.patched update)
  else .error (.message "node update ID != node ID")

/-- The fully-qualified domain name, if the tailnet is known. -/
def fqdnOpt (node : Node) (trailingDot : Bool) : Option String := do
  let tailnet ← node.tailnet
  return node.hostname ++ "." ++ tailnet ++ (if trailingDot then "." else "")

theorem applyUpdate_of_id {node : Node} {update : NodeUpdate} (h : node.id = update.id) :
    node.applyUpdate update = .ok (node.patched update) := by
  rw [applyUpdate,if_pos h]

@[simp] theorem patched_id (node : Node) (update : NodeUpdate) : (node.patched update).id = node.id :=
  rfl

end Node

/-- The parts of a node that an update may set. -/
inductive UpdateField
  | status | derpRegion | cap | capMap | nodeKey | nodeKeyExpiry | discoKey
  | tailnetLockKeySignature | underlayAddresses
  deriving DecidableEq

/-- The fields that an update sets. -/
def NodeUpdate.sets (u : NodeUpdate) : UpdateField → Bool
  | .status => u.status ≠ .unknown
  | .derpRegion => u.derpRegion.isSome
  | .cap => u.cap.isSome
  | .capMap => u.capMap.isSome
  | .nodeKey => u.nodeKey.isSome
  | .nodeKeyExpiry => u.nodeKeyExpiry.isSome
  | .discoKey => u.discoKey.isSome
  | .tailnetLockKeySignature => u.tailnetLockKeySignature.isSome
  | .underlayAddresses => u.underlayAddresses.isSome

namespace Node
variable {a b : Node} {u : NodeUpdate} {f : UpdateField}

/-- Two nodes agree in a field. -/
def SameAt (a b : Node) : UpdateField → Prop
  | .status => a.status = b.status
  | .derpRegion => a.derpRegion = b.derpRegion
  | .cap => a.capabilityVersion = b.capabilityVersion
  | .capMap => a.nodeCapabilities = b.nodeCapabilities
  | .nodeKey => a.nodeKey = b.nodeKey
  | .nodeKeyExpiry => a.nodeKeyExpiry = b.nodeKeyExpiry
  | .discoKey => a.discoKey = b.discoKey
  | .tailnetLockKeySignature => a.tailnetLockKeySignature = b.tailnetLockKeySignature
  | .underlayAddresses => a.underlayAddresses = b.underlayAddresses

theorem SameAt.refl (a : Node) (f : UpdateField) : SameAt a a f := by cases f <;> rfl

theorem SameAt.symm (h : SameAt a b f) : SameAt b a f := by cases f <;> exact Eq.symm h

theorem SameAt.trans {c : Node} (h : SameAt a b f) (h' : SameAt b c f) : SameAt a c f := by
  cases f <;> exact Eq.trans h h'

theorem sameAt_patched_of_not_sets (h : u.sets f = false) : SameAt (a.patched u) a f := by
  cases f <;> simp_all [NodeUpdate.sets,SameAt,patched]

/-- A field that an update sets does not depend on the node any more. -/
theorem sameAt_patched_of_sets (h : u.sets f = true) : SameAt (a.patched u) (b.patched u) f := by
  cases f with
  | status => simp_all [NodeUpdate.sets,SameAt,patched]
  | _ =>
    obtain ⟨x,hx⟩ := isSome_iff_exists.mp h
    simp [SameAt,patched,hx]

theorem SameAt.patched (h : SameAt a b f) (u : NodeUpdate) : SameAt (a.patched u) (b.patched u) f := by
  cases hs : u.sets f with
  | true => exact sameAt_patched_of_sets hs
  | false =>
    exact (sameAt_patched_of_not_sets hs).trans (h.trans (sameAt_patched_of_not_sets hs).symm)

/-- What no update sets. -/
def fixed (node : Node) : NodeId × StableNodeId × String × Option String × List String ×
    TailnetAddress × Option MachinePublicKey × List IpNet :=
  (node.id,node.stableId,node.hostname,node.tailnet,node.tags,node.tailnetAddress,node.machineKey,
    node.acceptedRoutes)

theorem ext_of_sameAt (hfixed : a.fixed = b.fixed) (h : ∀ f, SameAt a b f) : a = b := by
  have h1 : a.status = b.status := h .status
  have h2 : a.derpRegion = b.derpRegion := h .derpRegion
  have h3 : a.capabilityVersion = b.capabilityVersion := h .cap
  have h4 : a.nodeCapabilities = b.nodeCapabilities := h .capMap
  have h5 : a.nodeKey = b.nodeKey := h .nodeKey
  have h6 : a.nodeKeyExpiry = b.nodeKeyExpiry := h .nodeKeyExpiry
  have h7 : a.discoKey = b.discoKey := h .discoKey
  have h8 : a.tailnetLockKeySignature = b.tailnetLockKeySignature := h .tailnetLockKeySignature
  have h9 : a.underlayAddresses = b.underlayAddresses := h .underlayAddresses
  simp only [fixed,Prod.mk.injEq] at hfixed
  cases a
  cases b
  simp_all

def anyAddr : IpAddr := ⟨.v4,[0,0,0,0],rfl⟩

theorem exists_not_sameAt (a : Node) (h : u.sets f = true) :
    ∃ b : Node, b.id = a.id ∧ ¬ SameAt (b.patched u) b f := by
  cases f with
  | status =>
    refine ⟨{ a with status := .unknown },rfl,?_⟩
    simpa [NodeUpdate.sets,SameAt,patched] using h
  | cap =>
    obtain ⟨v,hv⟩ := isSome_iff_exists.mp h
    exact ⟨{ a with capabilityVersion := v+1 },rfl,by simp [SameAt,patched,hv]⟩
  | capMap =>
    obtain ⟨v,hv⟩ := isSome_iff_exists.mp h
    by_cases hempty : v = .empty
    · refine ⟨{ a with nodeCapabilities := .ofList [("",[])] },rfl,?_⟩
      simp only [SameAt,patched,hv,getD_some,hempty]
      exact fun heq => by cases congrArg OrdMap.entries heq
    · exact ⟨{ a with nodeCapabilities := .empty },rfl,by simpa [SameAt,patched,hv] using hempty⟩
  | nodeKey =>
    obtain ⟨v,hv⟩ := isSome_iff_exists.mp h
    by_cases hzero : v = List.Vector.replicate 32 0
    · refine ⟨{ a with nodeKey := List.Vector.replicate 32 1 },rfl,?_⟩
      simp only [SameAt,patched,hv,getD_some,hzero]
      decide
    · refine ⟨{ a with nodeKey := List.Vector.replicate 32 0 },rfl,?_⟩
      simpa [SameAt,patched,hv] using hzero
  | underlayAddresses =>
    obtain ⟨v,hv⟩ := isSome_iff_exists.mp h
    refine ⟨{ a with underlayAddresses := ⟨anyAddr,0⟩::v },rfl,?_⟩
    simp [SameAt,patched,hv]
  | derpRegion =>
    obtain ⟨v,hv⟩ := isSome_iff_exists.mp h
    exact ⟨{ a with derpRegion := none },rfl,by simp [SameAt,patched,hv]⟩
  | nodeKeyExpiry =>
    obtain ⟨v,hv⟩ := isSome_iff_exists.mp h
    exact ⟨{ a with nodeKeyExpiry := none },rfl,by simp [SameAt,patched,hv]⟩
  | discoKey =>
    obtain ⟨v,hv⟩ := isSome_iff_exists.mp h
    exact ⟨{ a with discoKey := none },rfl,by simp [SameAt,patched,hv]⟩
  | tailnetLockKeySignature =>
    obtain ⟨v,hv⟩ := isSome_iff_exists.mp h
    exact ⟨{ a with tailnetLockKeySignature := none },rfl,by simp [SameAt,patched,hv]⟩

def blank (id : NodeId) : Node where
  id
  stableId := ""
  hostname := ""
  capabilityVersion := 0
  status := .unknown
  tailnet := none
  nodeCapabilities := .empty
  tags := []
  tailnetAddress := ⟨⟨anyAddr,32,by decide⟩,⟨⟨.v6,List.replicate 16 0,rfl⟩,128,by decide⟩,rfl,rfl⟩
  nodeKey := List.Vector.replicate 32 0
  nodeKeyExpiry := none
  machineKey := none
  discoKey := none
  tailnetLockKeySignature := none
  acceptedRoutes := []
  underlayAddresses := []
  derpRegion := none

end Node
end Tailnet.Control

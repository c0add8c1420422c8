import Tailnet.Array256
import Tailnet.Net

/-! Trie nodes of one octet. A route below a node lives in one of three shapes:
as a base index of the node, as a fringe entry at an octet, or as a leaf entry
that keeps its whole prefix. The abstract content of a node is the partial map
from keys to values, and the invariant fixes the shape by the content. -/
namespace Tailnet
open Function

inductive Child (N T : Type)
  | path (node : N)
  | leaf (pfx : IpNet) (value : T)
  | fringe (value : T)

inductive Node (T : Type)
  | mk (prefixes : Array256 T) (children : Array256 (Child (Node T) T))

namespace Child

variable {N T : Type}

def intoValue : Child N T → Option T
  | .leaf _ v => some v
  | .fringe v => some v
  | .path _ => none

def intoNode : Child N T → Option N
  | .path n => some n
  | _ => none

end Child

namespace Node

variable {T : Type}

def prefixes : Node T → Array256 T
  | mk p _ => p

def children : Node T → Array256 (Child (Node T) T)
  | mk _ c => c

def empty : Node T := mk .empty .empty

variable (node : Node T)

def prefixCount : ℕ := node.prefixes.len

def childCount : ℕ := node.children.len

variable (idx : BaseIndex)

def getPrefixExact : Result (Option T) :=
  node.prefixes.get idx.val

def lookupIndex : Result (Option (BaseIndex × T)) :=
  match node.prefixes.intersectionTop (lpm idx) with
  | none => return none
  | some top =>
    match BaseIndex.tryNew top with
    | none => return none
    | some i => do
      let v ← node.prefixes.get top
      return v.map fun v => (i,v)

def insertPrefix (value : T) : Result (Option T × Node T) := do
  let (old,prefixes) ← node.prefixes.insert idx.val value
  return (old,mk prefixes node.children)

def removePrefix : Result (Option T × Node T) := do
  let (old,prefixes) ← node.prefixes.remove idx.val
  return (old,mk prefixes node.children)

def getChild (addr : UInt8) : Result (Option (Child (Node T) T)) :=
  node.children.get addr

/-- Insert a child; writing through `get_child_mut` is the case of an old child. -/
def insertChild (addr : UInt8) (child : Child (Node T) T) :
    Result (Option (Child (Node T) T) × Node T) := do
  let (old,children) ← node.children.insert addr child
  return (old,mk node.prefixes children)

def removeChild (addr : UInt8) :
    Result (Option (Child (Node T) T) × Node T) := do
  let (old,children) ← node.children.remove addr
  return (old,mk node.prefixes children)

def supersetsPrefix : Bool :=
  node.prefixes.bitset.intersects (lpm idx)

/-- The value a node holds at a key. `w` are the octets on the way to the node. -/
def find (w : List UInt8) (node : Node T) : List UInt8 → BaseIndex → Option T
  | [],i => node.prefixes.lookup i.val
  | o::os,i =>
    match node.children.lookup o with
    | none => none
    | some (.path n) => find (w ++ [o]) n os i
    | some (.leaf p v) => if p.key = (w ++ [o] ++ os,i) then some v else none
    | some (.fringe v) => if os = [] ∧ i = .one then some v else none

/-- The abstract content of a node. -/
def routes (w : List UInt8) (node : Node T) : RouteKey → Option T :=
  fun k => node.find w k.1 k.2

end Node

/-- The keys at which a partial map is defined. -/
def live {T : Type} (f : RouteKey → Option T) : Set RouteKey := {k | f k ≠ none}

/-- The content of a child; `w` ends with the octet of the child. -/
def Child.routes {T : Type} (w : List UInt8) : Child (Node T) T → RouteKey → Option T
  | .path n => n.routes w
  | .leaf p v => fun k => if p.key = (w ++ k.1,k.2) then some v else none
  | .fringe v => fun k => if k = ([],.one) then some v else none

/-- The content below one octet of a node. -/
def childRoutes {T : Type} (w : List UInt8) (o : UInt8) (c : Option (Child (Node T) T)) :
    RouteKey → Option T :=
  fun k => c.bind fun c => c.routes (w ++ [o]) k

namespace Node

variable {T : Type} {node node' : Node T} {w : List UInt8}

@[simp] theorem prefixes_mk (p : Array256 T) (c : Array256 (Child (Node T) T)) :
    (mk p c).prefixes = p := rfl

@[simp] theorem children_mk (p : Array256 T) (c : Array256 (Child (Node T) T)) :
    (mk p c).children = c := rfl

theorem routes_nil (i : BaseIndex) : node.routes w ([],i) = node.prefixes.lookup i.val := rfl

theorem routes_cons (o : UInt8) (os : List UInt8) (i : BaseIndex) :
    node.routes w (o::os,i) = childRoutes w o (node.children.lookup o) (os,i) := by
  simp only [routes,find,childRoutes]
  cases node.children.lookup o with
  | none => rfl
  | some c =>
    cases c with
    | path n => rfl
    | leaf p v => rfl
    | fringe v => simp [Child.routes]

/-- Two contents agree when they do in the node, below `o` and below other octets. -/
theorem ext_below {f g : RouteKey → Option T} (o : UInt8) (hn : ∀ i, f ([],i) = g ([],i))
    (ho : ∀ o' os i, o' ≠ o → f (o'::os,i) = g (o'::os,i))
    (hb : (fun k : RouteKey => f (o::k.1,k.2)) = fun k => g (o::k.1,k.2)) : f = g := by
  funext ⟨os,i⟩
  cases os with
  | nil => exact hn i
  | cons o' os =>
    by_cases h : o' = o
    · subst h
      exact congrFun hb (os,i)
    · exact ho o' os i h

theorem update_below (f : RouteKey → Option T) (o : UInt8) (k : RouteKey) (v : Option T) :
    (fun k' : RouteKey => update f (o::k.1,k.2) v (o::k'.1,k'.2)) =
      update (fun k' => f (o::k'.1,k'.2)) k v := by
  funext k'
  by_cases h : k' = k
  · subst h
    simp
  · rw [update_of_ne h,update_of_ne]
    intro hc
    apply h
    simpa [Prod.ext_iff] using hc

theorem routes_below (o : UInt8) : (fun k : RouteKey => node.routes w (o::k.1,k.2)) =
    childRoutes w o (node.children.lookup o) := by
  funext k
  exact routes_cons o k.1 k.2

@[simp] theorem routes_empty : (empty : Node T).routes w = fun _ => none := by
  funext ⟨os,i⟩
  cases os with
  | nil => exact Array256.lookup_empty i.val
  | cons o os =>
    rw [routes_cons]
    simp [empty,childRoutes]

/-- Only the child at `o` differs, and it is `c` now. -/
structure ChildUpd (node node' : Node T) (o : UInt8) (c : Option (Child (Node T) T)) : Prop where
  prefixes : node'.prefixes = node.prefixes
  wf : node'.children.WF
  lookup : ∀ j, node'.children.lookup j = if j = o then c else node.children.lookup j

/-- Only the prefix at `i` differs, and its value is `v` now. -/
structure PrefixUpd (node node' : Node T) (i : BaseIndex) (v : Option T) : Prop where
  children : node'.children = node.children
  wf : node'.prefixes.WF
  lookup : ∀ j, node'.prefixes.lookup j = if j = i.val then v else node.prefixes.lookup j

theorem getChild_eq (h : node.children.WF) (o : UInt8) :
    node.getChild o = .ok (node.children.lookup o) :=
  Array256.get_eq h o

theorem getPrefixExact_eq (h : node.prefixes.WF) (i : BaseIndex) :
    node.getPrefixExact i = .ok (node.prefixes.lookup i.val) :=
  Array256.get_eq h i.val

theorem insertChild_spec (h : node.children.WF) (o : UInt8) (c : Child (Node T) T) :
    ∃ node', node.insertChild o c = .ok (node.children.lookup o,node') ∧
      ChildUpd node node' o (some c) := by
  obtain ⟨a,ha,hwf,hl⟩ := Array256.insert_spec h o c
  exact ⟨mk node.prefixes a,by simp [insertChild,ha],rfl,hwf,hl⟩

theorem removeChild_spec (h : node.children.WF) (o : UInt8) :
    ∃ node', node.removeChild o = .ok (node.children.lookup o,node') ∧
      ChildUpd node node' o none := by
  obtain ⟨a,ha,hwf,hl⟩ := Array256.remove_spec h o
  exact ⟨mk node.prefixes a,by simp [removeChild,ha],rfl,hwf,hl⟩

theorem insertPrefix_spec (h : node.prefixes.WF) (i : BaseIndex) (v : T) :
    ∃ node', node.insertPrefix i v = .ok (node.prefixes.lookup i.val,node') ∧
      PrefixUpd node node' i (some v) := by
  obtain ⟨a,ha,hwf,hl⟩ := Array256.insert_spec h i.val v
  exact ⟨mk a node.children,by simp [insertPrefix,ha],rfl,hwf,hl⟩

theorem removePrefix_spec (h : node.prefixes.WF) (i : BaseIndex) :
    ∃ node', node.removePrefix i = .ok (node.prefixes.lookup i.val,node') ∧
      PrefixUpd node node' i none := by
  obtain ⟨a,ha,hwf,hl⟩ := Array256.remove_spec h i.val
  exact ⟨mk a node.children,by simp [removePrefix,ha],rfl,hwf,hl⟩

theorem PrefixUpd.routes {i : BaseIndex} {v : Option T} (h : PrefixUpd node node' i v) :
    node'.routes w = update (node.routes w) ([],i) v := by
  funext ⟨os,j⟩
  cases os with
  | nil =>
    rw [routes_nil,h.lookup]
    by_cases hj : j = i
    · subst hj
      simp
    · rw [if_neg (fun he => hj (BaseIndex.ext he)),update_of_ne (by simpa using hj),
        routes_nil]
  | cons o os =>
    rw [routes_cons,h.children,update_of_ne (by simp),routes_cons]

theorem ChildUpd.routes_cons_of_ne {o o' : UInt8} {c : Option (Child (Node T) T)}
    (h : ChildUpd node node' o c) (ho : o' ≠ o) (os : List UInt8) (i : BaseIndex) :
    node'.routes w (o'::os,i) = node.routes w (o'::os,i) := by
  rw [routes_cons,h.lookup,if_neg ho,routes_cons]

/-- An update of the content below one octet is an update of the whole content. -/
theorem ChildUpd.routes {o : UInt8} {c : Option (Child (Node T) T)} {k : RouteKey} {v : Option T}
    (h : ChildUpd node node' o c)
    (hc : childRoutes w o c = update (childRoutes w o (node.children.lookup o)) k v) :
    node'.routes w = update (node.routes w) (o::k.1,k.2) v := by
  apply ext_below o
  · intro i
    rw [routes_nil,h.prefixes,update_of_ne (by simp),routes_nil]
  · intro o' os i ho
    rw [h.routes_cons_of_ne ho,update_of_ne (by simp [ho])]
  · rw [update_below,routes_below,routes_below,h.lookup,if_pos rfl,hc]

end Node

section
variable [IpNetOps] {T : Type}

/-- The invariant of a node with `left` octets of the family left below it. A leaf
agrees with its path and could not be stored as a fringe or in this node; a path
node below the root holds at least two routes. -/
def Node.WF (fam : Family) : ℕ → List UInt8 → Node T → Prop
  | 0,_,_ => False
  | left+1,w,node => node.prefixes.WF ∧ node.children.WF ∧ node.prefixes.test 0 = false ∧
      ∀ o c, node.children.lookup o = some c → match c with
        | .path n => Node.WF fam left (w ++ [o]) n ∧ (live (n.routes (w ++ [o]))).Nontrivial
        | .leaf p _ => p.Canonical ∧ p.addr.family = fam ∧ w ++ [o] <+: p.key.1 ∧
            p.key ≠ (w ++ [o],.one)
        | .fringe _ => True

/-- The invariant of a child; `w` ends with its octet. -/
def Child.WF (fam : Family) (left : ℕ) (w : List UInt8) : Child (Node T) T → Prop
  | .path n => n.WF fam left w ∧ (live (n.routes w)).Nontrivial
  | .leaf p _ => p.Canonical ∧ p.addr.family = fam ∧ w <+: p.key.1 ∧ p.key ≠ (w,.one)
  | .fringe _ => True

end

namespace Node

variable [IpNetOps] {T : Type} {node node' : Node T} {w : List UInt8} {fam : Family} {left : ℕ}

theorem wf_succ : node.WF fam (left+1) w ↔ node.prefixes.WF ∧ node.children.WF ∧
    node.prefixes.test 0 = false ∧
    ∀ o c, node.children.lookup o = some c → c.WF fam left (w ++ [o]) := by
  rw [WF]
  refine and_congr_right fun _ => and_congr_right fun _ => and_congr_right fun _ => ?_
  refine forall_congr' fun o => forall_congr' fun c => imp_congr_right fun _ => ?_
  cases c <;> rfl

theorem WF.pos (h : node.WF fam left w) : 0 < left := by
  cases left with
  | zero => exact h.elim
  | succ n => omega

theorem empty_wf : (empty : Node T).WF fam (left+1) w := by
  rw [wf_succ]
  refine ⟨Array256.empty_wf,Array256.empty_wf,?_,?_⟩
  · simp [empty,Array256.empty,Array256.test]
  · intro o c h
    simp [empty] at h

theorem ChildUpd.wf_some {o : UInt8} {c : Child (Node T) T} (h : ChildUpd node node' o (some c))
    (hn : node.WF fam (left+1) w) (hc : c.WF fam left (w ++ [o])) : node'.WF fam (left+1) w := by
  rw [wf_succ] at hn ⊢
  obtain ⟨hp,_,h0,hch⟩ := hn
  refine ⟨h.prefixes ▸ hp,h.wf,h.prefixes ▸ h0,?_⟩
  intro o' c' hl
  rw [h.lookup] at hl
  split at hl
  · rename_i ho
    cases hl
    exact ho ▸ hc
  · exact hch o' c' hl

theorem ChildUpd.wf_none {o : UInt8} (h : ChildUpd node node' o none)
    (hn : node.WF fam (left+1) w) : node'.WF fam (left+1) w := by
  rw [wf_succ] at hn ⊢
  obtain ⟨hp,_,h0,hch⟩ := hn
  refine ⟨h.prefixes ▸ hp,h.wf,h.prefixes ▸ h0,?_⟩
  intro o' c' hl
  rw [h.lookup] at hl
  split at hl
  · cases hl
  · exact hch o' c' hl

theorem PrefixUpd.node_wf {i : BaseIndex} {v : Option T} (h : PrefixUpd node node' i v)
    (hn : node.WF fam (left+1) w) : node'.WF fam (left+1) w := by
  rw [wf_succ] at hn ⊢
  obtain ⟨hp,hc,h0,hch⟩ := hn
  refine ⟨h.wf,h.children ▸ hc,?_,h.children ▸ hch⟩
  rw [← Array256.isSome_lookup h.wf,h.lookup,if_neg (Ne.symm i.ne_zero),
    Array256.isSome_lookup hp,h0]

end Node
end Tailnet

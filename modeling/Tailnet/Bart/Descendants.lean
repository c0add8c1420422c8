import Tailnet.Bart.ModifyRuns

/-! The traversal of a trie. The iterator keeps the nodes on the way to the current one on a stack, each with
its address in the node above, and one cursor for the next address to consider, which is set back to zero on
the way down and recovered from the address of the node that is left on the way up. -/
namespace Tailnet
open List Array256 Node Nat

section Definitions
variable {T : Type}

/-- A child with the octets on the way to it. -/
abbrev Entry (T : Type) := List UInt8 × Child (Node T) T

/-- The nodes on the way to the current one, the current one first; the address of the root is ignored. -/
abbrev NodePath (T : Type) := List (UInt8 × Node T)

structure DescendantIter (T : Type) where
  nodePath : NodePath T
  nextChild : UInt8
  yieldSelf : Bool

/-- The octets on the way to the current node. -/
def NodePath.octets (path : NodePath T) : List UInt8 := (path.map Prod.fst).reverse.drop 1

/-- Append to a list of octets of fixed capacity. -/
def pushOctet (path : List UInt8) (addr : UInt8) : Result (List UInt8) :=
  if path.length < maxDepth then .ok (path ++ [addr]) else .error .unwrapNone

/-- The nodes whose last address was just considered are left. -/
def unwind : NodePath T → UInt8 → NodePath T × UInt8
  | [],nextChild => ([],nextChild)
  | (popped,node)::path,nextChild =>
    if nextChild = 255 then unwind path popped else ((popped,node)::path,nextChild)

/-- The cursor goes to the address after the one that was considered last. -/
def advance (path : NodePath T) (nextChild : UInt8) : Result (NodePath T × UInt8) :=
  let (path,nextChild) := unwind path nextChild
  if nextChild = 255 then .error .overflow else .ok (path,nextChild + 1)

namespace DescendantIter

def new (node : Node T) (includeSelf : Bool) : DescendantIter T := ⟨[(0,node)],0,includeSelf⟩

/-- The loop of `next`; every round that yields nothing leaves a node. -/
def nextLoop : ℕ → NodePath T → UInt8 → Result (Option (Entry T) × DescendantIter T)
  | 0,_,_ => .error .divergence
  | _+1,[],nextChild => return (none,⟨[],nextChild,false⟩)
  | rounds+1,(thisAddr,node)::rest,nextChild =>
    match node.children.iter.find? fun e => decide (nextChild ≤ e.1) with
    | some (addr,child) => do
      let path ← pushOctet (NodePath.octets ((thisAddr,node)::rest)) addr
      match child with
      | .path n =>
        let nodePath ← pushVisited ((thisAddr,node)::rest) (addr,n)
        return (some (path,child),⟨nodePath,0,false⟩)
      | _ =>
        let (nodePath,nextChild) ← advance ((thisAddr,node)::rest) addr
        return (some (path,child),⟨nodePath,nextChild,false⟩)
    | none => do
      let (nodePath,nextChild) ← advance rest thisAddr
      nextLoop rounds nodePath nextChild

def next (it : DescendantIter T) : Result (Option (Entry T) × DescendantIter T) :=
  if it.yieldSelf then do
    let (_,node) ← Result.unwrap it.nodePath.getLast?
    return (some ([],.path node),{ it with yieldSelf := false })
  else nextLoop (it.nodePath.length + 1) it.nodePath it.nextChild

end DescendantIter

structure Stats where
  prefixCount : ℕ
  childCount : ℕ
  nodeCount : ℕ
  leafCount : ℕ
  fringeCount : ℕ

namespace Node

/-- All that the iterator yields, in at most so many calls. -/
def descendants (rounds : ℕ) (node : Node T) (includeSelf : Bool) : Result (List (Entry T)) :=
  drain DescendantIter.next rounds (.new node includeSelf)

def descendantNodes (rounds : ℕ) (node : Node T) (includeSelf : Bool) : Result (List (List UInt8 × Node T)) := do
  let entries ← node.descendants rounds includeSelf
  return entries.filterMap fun e => e.2.intoNode.map fun n => (e.1,n)

/-- One more child, counted as a leaf or as a fringe. -/
def tally : ℕ × ℕ → UInt8 × Child (Node T) T → ℕ × ℕ
  | (leaves,fringes),(_,.fringe _) => (leaves,fringes + 1)
  | (leaves,fringes),(_,.leaf _ _) => (leaves + 1,fringes)
  | (leaves,fringes),(_,.path _) => (leaves,fringes)

def leavesAndFringes (node : Node T) : ℕ × ℕ := node.children.iter.foldl tally (0,0)

def countIn (stats : Stats) (node : Node T) : Stats :=
  let (leaves,fringes) := node.leavesAndFringes
  ⟨stats.prefixCount + node.prefixCount,stats.childCount + node.childCount,stats.nodeCount + 1,
    stats.leafCount + leaves,stats.fringeCount + fringes⟩

def stats (rounds : ℕ) (node : Node T) : Result Stats := do
  let nodes ← node.descendantNodes rounds true
  return nodes.foldl (fun stats e => countIn stats e.2) ⟨0,0,0,0,0⟩

/-- The children of the nodes of a trie with the octets on the way to them. -/
inductive EntryAt : Node T → List UInt8 → Child (Node T) T → Prop
  | own {node : Node T} {o : UInt8} {c : Child (Node T) T} (child : node.getChild o = .ok (some c)) :
    EntryAt node [o] c
  | deeper {node n : Node T} {o : UInt8} {os : List UInt8} {c : Child (Node T) T}
    (child : node.getChild o = .ok (some (.path n))) (rest : EntryAt n os c) : EntryAt node (o::os) c

end Node
end Definitions
section Preorder
variable {T : Type}

/-- A child and, if it is a node, what is below it. -/
def block (below : Node T → List (Entry T)) (e : UInt8 × Child (Node T) T) : List (Entry T) :=
  ([e.1],e.2)::(e.2.intoNode.toList.flatMap below).map fun x => (e.1::x.1,x.2)

/-- The children of a node from an address on, with what is below them. -/
def Node.blocksFrom (below : Node T → List (Entry T)) (node : Node T) (k : ℕ) : List (Entry T) :=
  (node.children.iter.filter fun e => decide (k ≤ e.1.toNat)).flatMap (block below)

/-- All entries of a trie of bounded depth, a node before what is below it and siblings by their address. -/
def Node.entries : ℕ → Node T → List (Entry T)
  | 0,_ => []
  | left+1,node => node.blocksFrom (entries left) 0

/-- What the iterator has still to yield; `left` octets are left below the children of the current node. -/
def NodePath.remaining : ℕ → NodePath T → ℕ → List (Entry T)
  | _,[],_ => []
  | left,(addr,node)::rest,k =>
    (node.blocksFrom (Node.entries left) k).map (fun e => (octets ((addr,node)::rest) ++ e.1,e.2)) ++
      remaining (left+1) rest (addr.toNat + 1)

/-- The first member from a key on begins the members from there on. -/
theorem filter_of_find {α : Type} {key : α → ℕ} {l : List α} (hs : l.Pairwise fun x y => key x < key y) {k : ℕ}
    {e : α} (h : l.find? (fun x => decide (k ≤ key x)) = some e) :
    l.filter (fun x => decide (k ≤ key x)) = e::l.filter (fun x => decide (key e + 1 ≤ key x)) := by
  induction l with
  | nil => cases h
  | cons a l ih =>
    obtain ⟨ha,hl⟩ := pairwise_cons.mp hs
    by_cases hk : k ≤ key a
    · rw [List.find?_cons_of_pos (by simpa using hk)] at h
      cases h
      rw [filter_cons_of_pos (by simpa using hk),filter_cons_of_neg (by simp)]
      congr 1
      apply filter_congr
      intro x hx
      have := ha x hx
      simp only [decide_eq_decide]
      omega
    · rw [List.find?_cons_of_neg (by simpa using hk)] at h
      have he : k ≤ key e := by simpa using List.find?_some h
      rw [filter_cons_of_neg (by simpa using hk),ih hl h,filter_cons_of_neg]
      simp only [decide_eq_true_eq]
      omega

variable {below : Node T → List (Entry T)} {node : Node T}

theorem Node.blocksFrom_of_find (hwf : node.children.WF)
    {nextChild : UInt8} {e : UInt8 × Child (Node T) T}
    (h : node.children.iter.find? (fun e => decide (nextChild ≤ e.1)) = some e) :
    node.blocksFrom below nextChild.toNat = block below e ++ node.blocksFrom below (e.1.toNat + 1) := by
  simp only [UInt8.le_iff_toNat_le] at h
  have hs : node.children.iter.Pairwise fun x y => x.1.toNat < y.1.toNat :=
    (iter_sorted hwf).imp fun hlt => UInt8.lt_iff_toNat_lt.mp hlt
  rw [blocksFrom,filter_of_find hs h,flatMap_cons]
  rfl

theorem Node.blocksFrom_of_find_none {nextChild : UInt8}
    (h : node.children.iter.find? (fun e => decide (nextChild ≤ e.1)) = none) :
    node.blocksFrom below nextChild.toNat = [] := by
  have hnone : node.children.iter.filter (fun e => decide (nextChild.toNat ≤ e.1.toNat)) = [] := by
    rw [filter_eq_nil_iff]
    intro e he
    have := List.find?_eq_none.mp h e he
    simpa [UInt8.le_iff_toNat_le] using this
  rw [blocksFrom,hnone]
  rfl

theorem Node.blocksFrom_last : node.blocksFrom below 256 = [] := by
  have hnone : node.children.iter.filter (fun e => decide (256 ≤ e.1.toNat)) = [] := by
    rw [filter_eq_nil_iff]
    intro e _
    have := e.1.toNat_lt
    simp only [decide_eq_true_eq]
    omega
  rw [blocksFrom,hnone]
  rfl

theorem NodePath.octets_cons {addr : UInt8} {n : Node T} {path : NodePath T} (h : path ≠ []) :
    octets ((addr,n)::path) = octets path ++ [addr] := by
  have hlen : 1 ≤ (path.map Prod.fst).reverse.length := by
    rw [length_reverse,length_map]
    exact length_pos_iff.mpr h
  rw [octets,octets,map_cons,reverse_cons,drop_append_of_le_length hlen]

theorem NodePath.length_octets {path : NodePath T} : (octets path).length = path.length - 1 := by
  rw [octets,length_drop,length_reverse,length_map]

end Preorder
section Traversal
variable [IpNetOps] {T : Type} {fam : Family} {left : ℕ} {path rest : NodePath T}

/-- The nodes on the stack are nodes of a trie of the family, and the root has the address zero. -/
def NodePath.Visits (fam : Family) : ℕ → NodePath T → Prop
  | _,[] => True
  | left,(addr,node)::rest => node.WF fam (left+1) (octets ((addr,node)::rest)) ∧ (rest = [] → addr = 0) ∧
      rest.length + (left+1) = fam.octetCount ∧ Visits fam (left+1) rest

/-- Going to the next address changes nothing of what remains. -/
theorem advance_spec {addr : UInt8} (h : path.Visits fam left) (hroot : path = [] → addr = 0) :
    ∃ left' path' nextChild, advance path addr = .ok (path',nextChild) ∧ path'.length ≤ path.length ∧
      NodePath.Visits fam left' path' ∧
      path.remaining left (addr.toNat + 1) = NodePath.remaining left' path' nextChild.toNat := by
  induction path generalizing left addr with
  | nil => exact ⟨left,[],1,by simp [advance,unwind,hroot rfl],le_rfl,trivial,rfl⟩
  | cons e rest ih =>
    obtain ⟨popped,node⟩ := e
    by_cases hlast : addr = 255
    · obtain ⟨-,hzero,-,hrest⟩ := h
      obtain ⟨left',path',nextChild,hadv,hlen,hv,hrem⟩ := ih hrest hzero
      refine ⟨left',path',nextChild,?_,by rw [length_cons]; omega,hv,?_⟩
      · rw [← hadv]
        simp [advance,unwind,hlast]
      · rw [NodePath.remaining,hlast,show (255 : UInt8).toNat + 1 = 256 from rfl,blocksFrom_last,← hrem]
        rfl
    · refine ⟨left,(popped,node)::rest,addr + 1,by simp [advance,unwind,hlast],le_rfl,h,?_⟩
      have hlt : addr.toNat ≠ 255 := fun he => hlast (UInt8.toNat_inj.mp he)
      have hadd : (addr + 1).toNat = addr.toNat + 1 := by
        have := addr.toNat_lt
        rw [UInt8.toNat_add,show (1 : UInt8).toNat = 1 from rfl]
        omega
      rw [hadd]

/-- The iterator stands for what it has still to yield. -/
def DescendantIter.Rep (fam : Family) (it : DescendantIter T) (l : List (Entry T)) : Prop :=
  it.yieldSelf = false ∧ ∃ left, it.nodePath.Visits fam left ∧
    l = it.nodePath.remaining left it.nextChild.toNat

theorem DescendantIter.nextLoop_spec (rounds : ℕ) {nextChild : UInt8} (hr : path.length < rounds)
    (h : path.Visits fam left) : ∃ it', nextLoop rounds path nextChild =
        .ok ((path.remaining left nextChild.toNat).head?,it') ∧
      it'.Rep fam (path.remaining left nextChild.toNat).tail := by
  induction rounds generalizing path left nextChild with
  | zero => omega
  | succ rounds ih =>
    cases path with
    | nil => exact ⟨⟨[],nextChild,false⟩,rfl,rfl,left,trivial,rfl⟩
    | cons e rest =>
      obtain ⟨thisAddr,node⟩ := e
      obtain ⟨hwf,hzero,hdepth,hrest⟩ := h
      obtain ⟨-,hcwf,-,hch⟩ := wf_succ.mp hwf
      have hfam : fam.octetCount ≤ maxDepth := by cases fam <;> decide
      rw [length_cons] at hr
      cases hf : node.children.iter.find? fun e => decide (nextChild ≤ e.1) with
      | none =>
        obtain ⟨left',path',next',hadv,hlen,hv,hrem⟩ := advance_spec hrest hzero
        have hloop : nextLoop (rounds+1) ((thisAddr,node)::rest) nextChild = nextLoop rounds path' next' := by
          simp only [nextLoop,hf,hadv,Result.bind_of_ok]
        rw [hloop,NodePath.remaining,blocksFrom_of_find_none hf,map_nil,nil_append,hrem]
        exact ih (by omega) hv
      | some e =>
        obtain ⟨addr,child⟩ := e
        have hpush : pushOctet (NodePath.octets ((thisAddr,node)::rest)) addr =
            .ok (NodePath.octets ((thisAddr,node)::rest) ++ [addr]) := by
          rw [pushOctet,if_pos]
          rw [NodePath.length_octets,length_cons]
          omega
        have hlook : node.children.lookup addr = some child :=
          (mem_iter hcwf).mp (mem_of_find?_eq_some hf)
        have hrem : NodePath.remaining left ((thisAddr,node)::rest) nextChild.toNat =
            (NodePath.octets ((thisAddr,node)::rest) ++ [addr],child)::
              ((child.intoNode.toList.flatMap (Node.entries left)).map fun x =>
                (NodePath.octets ((thisAddr,node)::rest) ++ addr::x.1,x.2)) ++
              NodePath.remaining left ((thisAddr,node)::rest) (addr.toNat + 1) := by
          rw [NodePath.remaining,blocksFrom_of_find hcwf hf,block,NodePath.remaining]
          simp
        have hother : (∀ n, child ≠ .path n) → ∃ it',
            nextLoop (rounds+1) ((thisAddr,node)::rest) nextChild =
              .ok (some (NodePath.octets ((thisAddr,node)::rest) ++ [addr],child),it') ∧
            it'.Rep fam (NodePath.remaining left ((thisAddr,node)::rest) (addr.toNat + 1)) := by
          intro hnot
          have hv : NodePath.Visits fam left ((thisAddr,node)::rest) := ⟨hwf,hzero,hdepth,hrest⟩
          obtain ⟨left',path',next',hadv,-,hv',hrest'⟩ := advance_spec hv (show _ → addr = 0 by simp)
          refine ⟨⟨path',next',false⟩,?_,rfl,left',hv',hrest'⟩
          cases child with
          | path n => exact absurd rfl (hnot n)
          | leaf p v => simp [nextLoop,hf,hpush,hadv]
          | fringe v => simp [nextLoop,hf,hpush,hadv]
        rw [hrem]
        cases child with
        | leaf p v => simpa [Child.intoNode] using hother (by simp)
        | fringe v => simpa [Child.intoNode] using hother (by simp)
        | path n =>
          have hn : n.WF fam left (NodePath.octets ((thisAddr,node)::rest) ++ [addr]) := (hch addr _ hlook).1
          obtain ⟨k,rfl⟩ : ∃ k, left = k+1 := ⟨left - 1,by have := hn.pos; omega⟩
          have hoctets : NodePath.octets ((addr,n)::(thisAddr,node)::rest) =
              NodePath.octets ((thisAddr,node)::rest) ++ [addr] := NodePath.octets_cons (by simp)
          have hvisit : pushVisited ((thisAddr,node)::rest) (addr,n) = .ok ((addr,n)::(thisAddr,node)::rest) := by
            rw [pushVisited,if_pos]
            rw [length_cons]
            omega
          refine ⟨⟨(addr,n)::(thisAddr,node)::rest,0,false⟩,by simp [nextLoop,hf,hpush,hvisit],rfl,k,?_,?_⟩
          · refine ⟨?_,by simp,by rw [length_cons]; omega,hwf,hzero,hdepth,hrest⟩
            rwa [hoctets]
          · have hnew : NodePath.remaining k ((addr,n)::(thisAddr,node)::rest) 0 =
                ((Node.entries (k+1) n).map fun x => (NodePath.octets ((thisAddr,node)::rest) ++ addr::x.1,x.2)) ++
                  NodePath.remaining (k+1) ((thisAddr,node)::rest) (addr.toNat + 1) := by
              rw [NodePath.remaining,hoctets]
              simp [Node.entries]
            change _ = NodePath.remaining k ((addr,n)::(thisAddr,node)::rest) 0
            rw [hnew]
            simp [Child.intoNode]

variable {node : Node T}

theorem Node.RootWF.visits (h : node.RootWF fam) :
    ∃ left, fam.octetCount = left + 1 ∧ NodePath.Visits fam left [(0,node)] := by
  obtain ⟨left,hleft⟩ : ∃ left, fam.octetCount = left + 1 := ⟨fam.octetCount - 1,by cases fam <;> rfl⟩
  rw [Node.RootWF,hleft] at h
  exact ⟨left,hleft,h,fun _ => rfl,by rw [length_nil]; omega,trivial⟩

theorem DescendantIter.yields_of_rep {it : DescendantIter T} {l : List (Entry T)} (h : it.Rep fam l) :
    Yields next it l := by
  refine yields_of_step (fun it l => DescendantIter.Rep fam it l) (fun it l h => ?_) h
  obtain ⟨hself,left,hv,rfl⟩ := h
  rw [next,hself]
  exact nextLoop_spec _ (lt_succ_self _) hv

theorem DescendantIter.new_yields (h : node.RootWF fam) :
    Yields next (new node false) (node.entries fam.octetCount) := by
  obtain ⟨left,hleft,hv⟩ := h.visits
  refine yields_of_rep ⟨rfl,left,hv,?_⟩
  have hroot : NodePath.remaining left [(0,node)] 0 = node.blocksFrom (Node.entries left) 0 := by
    simp [NodePath.remaining,NodePath.octets]
  rw [hleft,Node.entries]
  exact hroot.symm

theorem DescendantIter.new_yields_self (h : node.RootWF fam) :
    Yields next (new node true) (([],.path node)::node.entries fam.octetCount) :=
  ⟨new node false,rfl,new_yields h⟩

omit [IpNetOps] in
theorem Node.mem_blocksFrom {below : Node T → List (Entry T)} (hwf : node.children.WF)
    {os : List UInt8} {c : Child (Node T) T} : (os,c) ∈ node.blocksFrom below 0 ↔
      (∃ o, node.children.lookup o = some c ∧ os = [o]) ∨
        ∃ o n os', node.children.lookup o = some (.path n) ∧ (os',c) ∈ below n ∧ os = o::os' := by
  simp only [blocksFrom,zero_le,decide_true,filter_true,mem_flatMap,block,mem_cons,mem_map,
    Option.mem_toList]
  constructor
  · rintro ⟨⟨o,c'⟩,he,hx | ⟨⟨os',c''⟩,⟨n,hn,hx⟩,heq⟩⟩
    · cases hx
      exact .inl ⟨o,(mem_iter hwf).mp he,rfl⟩
    · cases heq
      cases c' with
      | path n' =>
        cases hn
        exact .inr ⟨o,n,os',(mem_iter hwf).mp he,hx,rfl⟩
      | leaf p v => cases hn
      | fringe v => cases hn
  · rintro (⟨o,hl,rfl⟩ | ⟨o,n,os',hl,hx,rfl⟩)
    · exact ⟨(o,c),(mem_iter hwf).mpr hl,.inl rfl⟩
    · exact ⟨(o,.path n),(mem_iter hwf).mpr hl,.inr ⟨(os',c),⟨n,rfl,hx⟩,rfl⟩⟩

/-- The entries are the children of the nodes. -/
theorem Node.WF.mem_entries {w os : List UInt8} {c : Child (Node T) T} (h : node.WF fam left w) :
    (os,c) ∈ node.entries left ↔ node.EntryAt os c := by
  induction left generalizing node w os with
  | zero => exact h.elim
  | succ left ih =>
    obtain ⟨-,hcwf,-,hch⟩ := wf_succ.mp h
    rw [Node.entries,mem_blocksFrom hcwf]
    constructor
    · rintro (⟨o,hl,rfl⟩ | ⟨o,n,os',hl,hx,rfl⟩)
      · exact .own (by rw [getChild_eq hcwf,hl])
      · exact .deeper (by rw [getChild_eq hcwf,hl]) ((ih (hch o _ hl).1).mp hx)
    · intro hat
      cases hat with
      | own hchild =>
        rw [getChild_eq hcwf] at hchild
        exact .inl ⟨_,Except.ok.inj hchild,rfl⟩
      | deeper hchild hrest =>
        rw [getChild_eq hcwf] at hchild
        have hl := Except.ok.inj hchild
        exact .inr ⟨_,_,_,hl,(ih (hch _ _ hl).1).mpr hrest,rfl⟩

/-- They stand in the order of their octets, a node before what is below it. -/
theorem Node.WF.entries_sorted {w : List UInt8} (h : node.WF fam left w) :
    (node.entries left).Pairwise fun x y => x.1 < y.1 := by
  induction left generalizing node w with
  | zero => exact h.elim
  | succ left ih =>
    obtain ⟨-,hcwf,-,hch⟩ := wf_succ.mp h
    have hblock : ∀ e ∈ node.children.iter, ∀ x ∈ block (Node.entries left) e, ∃ os, x.1 = e.1::os := by
      intro e _ x hx
      rw [block,mem_cons,mem_map] at hx
      rcases hx with rfl | ⟨y,-,rfl⟩
      · exact ⟨[],rfl⟩
      · exact ⟨y.1,rfl⟩
    have hiter : (node.children.iter.filter fun e => decide (0 ≤ e.1.toNat)) = node.children.iter := by simp
    rw [Node.entries,Node.blocksFrom,hiter,pairwise_flatMap]
    constructor
    · rintro ⟨o,c⟩ he
      have hl := (mem_iter hcwf).mp he
      cases c with
      | leaf p v => exact pairwise_singleton _ _
      | fringe v => exact pairwise_singleton _ _
      | path n =>
        have hn := (hch o _ hl).1
        have hflat : (Child.path n : Child (Node T) T).intoNode.toList.flatMap (Node.entries left) =
            n.entries left := by simp [Child.intoNode]
        rw [block,hflat,pairwise_cons,pairwise_map]
        constructor
        · intro x hx
          obtain ⟨⟨os,c⟩,hy,rfl⟩ := mem_map.mp hx
          refine cons_lt_cons_iff.mpr (.inr ⟨rfl,?_⟩)
          cases hn.mem_entries.mp hy with
          | own => exact nil_lt_cons _ _
          | deeper => exact nil_lt_cons _ _
        · exact (ih hn).imp fun hlt => cons_lt_cons_iff.mpr (.inr ⟨rfl,hlt⟩)
    · refine (iter_sorted hcwf).imp_of_mem fun {e e'} he he' hlt x hx y hy => ?_
      obtain ⟨os,hos⟩ := hblock e he x hx
      obtain ⟨os',hos'⟩ := hblock e' he' y hy
      rw [hos,hos']
      exact cons_lt_cons_iff.mpr (.inl hlt)

end Traversal
section Counts
variable {T : Type} {left : ℕ} {w : List UInt8} {node : Node T}

/-- The keys of a child; `w` ends with its octet. -/
def Child.keys (below : List UInt8 → Node T → List RouteKey) (w : List UInt8) :
    Child (Node T) T → List RouteKey
  | .path n => below w n
  | .leaf p _ => [relKey w p]
  | .fringe _ => [([],.one)]

/-- The keys of the routes of a trie of bounded depth. -/
def Node.keys : ℕ → List UInt8 → Node T → List RouteKey
  | 0,_,_ => []
  | left+1,w,node => (node.prefixes.iter.filterMap fun e => (BaseIndex.tryNew e.1).map fun i => ([],i)) ++
      node.children.iter.flatMap fun e => (Child.keys (keys left) (w ++ [e.1]) e.2).map fun k => (e.1::k.1,k.2)

/-- The routes that a node holds itself, as the statistics count them. -/
def Node.ownRoutes (node : Node T) : ℕ :=
  node.prefixCount + (node.leavesAndFringes.1 + node.leavesAndFringes.2)

/-- The routes that the nodes among some entries hold. -/
def heldBy (l : List (Entry T)) : ℕ := ((l.filterMap fun e => e.2.intoNode).map Node.ownRoutes).sum

theorem heldBy_append (l l' : List (Entry T)) : heldBy (l ++ l') = heldBy l + heldBy l' := by
  simp [heldBy]

theorem heldBy_path (os : List UInt8) (n : Node T) (l : List (Entry T)) :
    heldBy ((os,.path n)::l) = n.ownRoutes + heldBy l := by
  simp [heldBy,Child.intoNode]

theorem heldBy_flatMap {α : Type} (l : List α) (f : α → List (Entry T)) :
    heldBy (l.flatMap f) = (l.map fun a => heldBy (f a)).sum := by
  induction l with
  | nil => rfl
  | cons a l ih => rw [flatMap_cons,heldBy_append,ih,map_cons,sum_cons]

theorem heldBy_map (l : List (Entry T)) (f : List UInt8 → List UInt8) :
    heldBy (l.map fun x => (f x.1,x.2)) = heldBy l := by
  simp [heldBy,filterMap_map]

theorem leavesAndFringes_eq (node : Node T) : node.leavesAndFringes.1 + node.leavesAndFringes.2 =
    (node.children.iter.map fun e => if e.2.intoNode.isSome then 0 else 1).sum := by
  have hfold : ∀ (l : List (UInt8 × Child (Node T) T)) (a b : ℕ),
      (l.foldl Node.tally (a,b)).1 + (l.foldl Node.tally (a,b)).2 =
        a + b + (l.map fun e => if e.2.intoNode.isSome then 0 else 1).sum := by
    intro l
    induction l with
    | nil => simp
    | cons e l ih =>
      intro a b
      obtain ⟨o,c⟩ := e
      cases c with
      | path n => simp [Node.tally,ih,Child.intoNode]
      | leaf p v => simp [Node.tally,ih,Child.intoNode]; omega
      | fringe v => simp [Node.tally,ih,Child.intoNode]; omega
  rw [Node.leavesAndFringes,hfold,add_zero,zero_add]

theorem stats_fold (l : List (List UInt8 × Node T)) (st : Stats) :
    let st' := l.foldl (fun st e => Node.countIn st e.2) st
    st'.prefixCount + st'.leafCount + st'.fringeCount =
      st.prefixCount + st.leafCount + st.fringeCount + (l.map fun e => e.2.ownRoutes).sum := by
  induction l generalizing st with
  | nil => simp
  | cons e l ih =>
    simp only [foldl_cons,map_cons,sum_cons] at ih ⊢
    rw [ih]
    simp only [Node.countIn,Node.ownRoutes]
    omega

variable [IpNetOps] {fam : Family}

omit [IpNetOps] in
theorem BaseIndex.tryNew_eq_some {o : UInt8} {i : BaseIndex} : tryNew o = some i ↔ o = i.val := by
  rw [tryNew]
  split
  · rw [Option.some.injEq]
    exact ⟨fun he => congrArg BaseIndex.val he,fun he => BaseIndex.ext he⟩
  · rename_i h
    exact iff_of_false (by simp) fun he => h (he ▸ i.ne_zero)

variable {k : RouteKey}

theorem Node.WF.mem_own (h : node.WF fam (left+1) w) :
    k ∈ (node.prefixes.iter.filterMap fun e => (BaseIndex.tryNew e.1).map fun i => (([],i) : RouteKey)) ↔
      k.1 = [] ∧ k ∈ live (node.routes w) := by
  obtain ⟨hpwf,-,-,-⟩ := wf_succ.mp h
  obtain ⟨os,i⟩ := k
  simp only [mem_filterMap,Option.map_eq_some_iff,BaseIndex.tryNew_eq_some]
  constructor
  · rintro ⟨⟨o,v⟩,he,j,rfl,heq⟩
    cases heq
    refine ⟨rfl,?_⟩
    change node.routes w ([],i) ≠ none
    rw [routes_nil,(mem_iter hpwf).mp he]
    simp
  · rintro ⟨rfl,hk⟩
    obtain ⟨v,hv⟩ := Option.ne_none_iff_exists'.mp hk
    exact ⟨(i.val,v),(mem_iter hpwf).mpr hv,i,rfl,rfl⟩

theorem Child.WF.mem_keys {c : Child (Node T) T} (h : c.WF fam left w)
    (hnode : ∀ n, c = .path n → ∀ k, k ∈ n.keys left w ↔ k ∈ live (n.routes w)) :
    k ∈ c.keys (Node.keys left) w ↔ k ∈ live (c.routes w) := by
  have hsingle : ∀ (k0 : RouteKey) (v : T), k ∈ [k0] ↔ k ∈ live (Function.update (fun _ => none) k0 (some v)) := by
    intro k0 v
    rw [live_update_some,mem_singleton,Set.mem_insert_iff]
    simp [live]
  cases c with
  | path n => exact hnode n rfl k
  | leaf p v =>
    rw [Child.routes_leaf h.2.2.1]
    exact hsingle _ v
  | fringe v =>
    rw [Child.routes_fringe]
    exact hsingle _ v

theorem Node.WF.mem_keys (h : node.WF fam left w) :
    k ∈ node.keys left w ↔ k ∈ live (node.routes w) := by
  induction left generalizing node w k with
  | zero => exact h.elim
  | succ left ih =>
    obtain ⟨-,hcwf,-,hch⟩ := wf_succ.mp h
    obtain ⟨os,i⟩ := k
    rw [Node.keys,mem_append,h.mem_own,mem_flatMap]
    have hchild : ∀ o c, node.children.lookup o = some c → ∀ k,
        k ∈ c.keys (Node.keys left) (w ++ [o]) ↔ k ∈ live (c.routes (w ++ [o])) := by
      intro o c hl k
      refine (hch o c hl).mem_keys fun n hn k => ?_
      subst hn
      exact ih (hch o _ hl).1
    constructor
    · rintro (⟨-,hk⟩ | ⟨⟨o,c⟩,he,hk⟩)
      · exact hk
      · obtain ⟨k',hk',heq⟩ := mem_map.mp hk
        cases heq
        have hl := (mem_iter hcwf).mp he
        change node.routes w (o::k'.1,k'.2) ≠ none
        rw [routes_cons,hl]
        exact (hchild o c hl k').mp hk'
    · intro hk
      cases os with
      | nil => exact .inl ⟨rfl,hk⟩
      | cons o os =>
        change node.routes w (o::os,i) ≠ none at hk
        rw [routes_cons] at hk
        cases hl : node.children.lookup o with
        | none =>
          rw [hl] at hk
          exact absurd rfl hk
        | some c =>
          rw [hl] at hk
          exact .inr ⟨(o,c),(mem_iter hcwf).mpr hl,
            mem_map.mpr ⟨(os,i),(hchild o c hl (os,i)).mpr hk,rfl⟩⟩

theorem Node.WF.nodup_keys (h : node.WF fam left w) : (node.keys left w).Nodup := by
  induction left generalizing node w with
  | zero => exact h.elim
  | succ left ih =>
    obtain ⟨hpwf,hcwf,-,hch⟩ := wf_succ.mp h
    rw [Node.keys,nodup_append]
    refine ⟨?_,?_,?_⟩
    · -- the indices of the prefixes differ
      rw [List.Nodup,pairwise_filterMap]
      refine (iter_sorted hpwf).imp fun {e e'} hlt k hk k' hk' => ?_
      obtain ⟨i,hi,rfl⟩ := Option.map_eq_some_iff.mp hk
      obtain ⟨i',hi',rfl⟩ := Option.map_eq_some_iff.mp hk'
      rw [BaseIndex.tryNew_eq_some.mp hi,BaseIndex.tryNew_eq_some.mp hi'] at hlt
      intro he
      cases he
      exact absurd hlt (UInt8.lt_irrefl _)
    · rw [nodup_flatMap]
      constructor
      · rintro ⟨o,c⟩ he
        have hl := (mem_iter hcwf).mp he
        refine List.Nodup.map (fun k k' heq => by simpa [Prod.ext_iff] using heq) ?_
        cases c with
        | path n => exact ih (hch o _ hl).1
        | leaf p v => exact nodup_singleton _
        | fringe v => exact nodup_singleton _
      · refine (iter_sorted hcwf).imp fun {e e'} hlt k hk hk' => ?_
        obtain ⟨k1,-,rfl⟩ := mem_map.mp hk
        obtain ⟨k2,-,heq⟩ := mem_map.mp hk'
        simp only [Prod.mk.injEq,List.cons.injEq] at heq
        exact absurd heq.1.1.symm (UInt8.ne_of_lt hlt)
    · intro k hk k' hk' heq
      subst heq
      obtain ⟨e,-,hk'⟩ := mem_flatMap.mp hk'
      obtain ⟨k2,-,rfl⟩ := mem_map.mp hk'
      cases (h.mem_own.mp hk).1

/-- The nodes of a trie hold as many routes as it has keys. -/
theorem Node.WF.length_keys (h : node.WF fam left w) :
    (node.keys left w).length = node.ownRoutes + heldBy (node.entries left) := by
  induction left generalizing node w with
  | zero => exact h.elim
  | succ left ih =>
    obtain ⟨hpwf,hcwf,h0,hch⟩ := wf_succ.mp h
    have hown : (node.prefixes.iter.filterMap fun e =>
        (BaseIndex.tryNew e.1).map fun i => (([],i) : RouteKey)).length = node.prefixCount := by
      rw [Node.prefixCount,← length_iter hpwf,length_filterMap_eq_countP,countP_eq_length]
      rintro ⟨o,v⟩ he
      have ho : o ≠ 0 := by
        rintro rfl
        have hv := (mem_iter hpwf).mp he
        rw [lookup_of_not_test h0] at hv
        cases hv
      simp [BaseIndex.tryNew,ho]
    have hsum : ∀ l : List (UInt8 × Child (Node T) T), (∀ e ∈ l, node.children.lookup e.1 = some e.2) →
        (l.map fun e => (Child.keys (Node.keys left) (w ++ [e.1]) e.2).length).sum =
          (l.map fun e => if e.2.intoNode.isSome then 0 else 1).sum +
            (l.map fun e => heldBy (block (Node.entries left) e)).sum := by
      intro l hl
      induction l with
      | nil => rfl
      | cons e l ihl =>
        obtain ⟨o,c⟩ := e
        have hlook := hl (o,c) mem_cons_self
        simp only [map_cons,sum_cons]
        rw [ihl fun e he => hl e (mem_cons_of_mem _ he)]
        have hblock : (Child.keys (Node.keys left) (w ++ [o]) c).length =
            (if c.intoNode.isSome then 0 else 1) + heldBy (block (Node.entries left) (o,c)) := by
          cases c with
          | leaf p v => rfl
          | fringe v => rfl
          | path n =>
            have hn := ih (hch o _ hlook).1
            rw [block,heldBy_path,heldBy_map]
            simp [Child.keys,hn,Child.intoNode]
        rw [hblock]
        omega
    have hiter : (node.children.iter.filter fun e => decide (0 ≤ e.1.toNat)) = node.children.iter := by simp
    rw [Node.keys,length_append,hown,length_flatMap,Node.ownRoutes,leavesAndFringes_eq,Node.entries,
      Node.blocksFrom,hiter,heldBy_flatMap,add_assoc,
      ← hsum _ fun e he => (mem_iter hcwf).mp he]
    simp only [length_map]

theorem Node.RootWF.ncard_stored (h : node.RootWF fam) :
    (node.stored fam).ncard = (node.keys fam.octetCount []).length := by
  have hlook : ∀ q : IpNet, q.Canonical → q.addr.family = fam →
      lookupPrefixExact node q = .ok (node.routes [] q.key) := fun q hq hf =>
    lookupExactLoop_spec h ⟨hq,hf, nil_prefix⟩ (zero_add _)
  have himage : IpNet.key '' node.stored fam = ↑(node.keys fam.octetCount []).toFinset := by
    ext k
    rw [coe_toFinset,Set.mem_ofPred_eq,Node.WF.mem_keys h]
    constructor
    · rintro ⟨q,⟨hq,hf,v,hv⟩,rfl⟩
      rw [hlook q hq hf] at hv
      change node.routes [] q.key ≠ none
      rw [Except.ok.inj hv]
      simp
    · intro hk
      obtain ⟨v,hv⟩ := Option.ne_none_iff_exists'.mp hk
      obtain ⟨q,hq,hf,hkey⟩ := Node.WF.exists_net h (zero_add _) hv
      replace hkey : q.key = k := hkey
      exact ⟨q,⟨hq,hf,v,by rw [hlook q hq hf,hkey,hv]⟩,hkey⟩
  have hinj : Set.InjOn IpNet.key (node.stored fam) := fun q hq q' hq' hkey =>
    hq.1.ext hq'.1 (hq.2.1.trans hq'.2.1.symm) hkey
  rw [← hinj.ncard_image,himage,Set.ncard_coe_finset,
    toFinset_card_of_nodup (Node.WF.nodup_keys h)]

/-- The statistics count every route once. -/
theorem Node.RootWF.stats_spec (h : node.RootWF fam) : ∃ st,
    (∀ rounds, (node.entries fam.octetCount).length + 1 < rounds → node.stats rounds = .ok st) ∧
      st.prefixCount + st.leafCount + st.fringeCount = (node.stored fam).ncard := by
  let nodes : List (List UInt8 × Node T) :=
    (([],.path node)::node.entries fam.octetCount).filterMap fun e => e.2.intoNode.map fun n => (e.1,n)
  refine ⟨nodes.foldl (fun stats e => Node.countIn stats e.2) ⟨0,0,0,0,0⟩,fun rounds hr => ?_,?_⟩
  · rw [Node.stats,Node.descendantNodes,Node.descendants,drain_of_yields (DescendantIter.new_yields_self h) hr]
    rfl
  · rw [stats_fold,h.ncard_stored,Node.WF.length_keys h,← heldBy_path [],heldBy]
    simp only [nodes,map_filterMap,Option.map_map]
    simp [Function.comp_def]

end Counts
section Runs
variable [IpNetOps]

/-- The traversal of a trie of one family yields the children of all nodes, each once and in the order of
their octets, and the statistics count the routes. -/
theorem descendants_complete (fam : Family) (T : Type) :
    (∀ ops : List (TrieOp fam T), ∃ os node l, TrieOp.run ops = .ok (os,node) ∧
      (∀ rounds, l.length < rounds → node.descendants rounds false = .ok l) ∧
      l.Pairwise (fun x y => x.1 < y.1) ∧ (∀ octets c, (octets,c) ∈ l ↔ node.EntryAt octets c) ∧
      ∃ st, (∀ rounds, l.length + 1 < rounds → node.stats rounds = .ok st) ∧
        st.prefixCount + st.leafCount + st.fringeCount = (node.stored fam).ncard) ∧
    ∀ ops : List (TrieOp fam T), ∃ os s enough st, SimpleTable.run ops = .ok (os,s) ∧
      (∀ rounds, enough < rounds → s.root.stats rounds = .ok st) ∧
      st.prefixCount + st.leafCount + st.fringeCount = s.size := by
  constructor
  · intro ops
    obtain ⟨os,node,hrun,h⟩ := TrieOp.run_spec ops
    exact ⟨os,node,node.entries fam.octetCount,hrun,
      fun rounds hr => drain_of_yields (DescendantIter.new_yields h.wf) hr,Node.WF.entries_sorted h.wf,
      fun octets c => Node.WF.mem_entries h.wf,h.wf.stats_spec⟩
  · intro ops
    obtain ⟨os,s,hrun,h⟩ := SimpleTable.run_carries ops
    obtain ⟨t,m,hrep,hs⟩ := h
    obtain ⟨st,hst,hsum⟩ := (hrep.stack fam).wf.stats_spec
    rw [hs] at hst hsum
    exact ⟨os,s,_,st,hrun,hst,hsum.trans (SimpleTable.Carries.size ⟨t,m,hrep,hs⟩).symm⟩

end Runs
end Tailnet

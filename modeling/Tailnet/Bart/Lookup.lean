import Tailnet.Lib.Descending
import Tailnet.Bart.Insert

/-! Lookups by address. The walk down the octets of an address keeps the nodes it
passes on a stack; the prefixes of these nodes that cover the address are then
visited from the last node up, and in each node from the longest one down. -/
namespace Tailnet
open List Result Bitset Node

section Definitions
variable {T : Type}

/-- The loop of `lookup_prefix_exact` over the octets from `depth` on. -/
def lookupExactLoop (p : IpNet) : List UInt8 → ℕ → Node T → Result (Option T)
  | [],_,_ => throw .unreachable
  | octet::rest,depth,node =>
    let (lastOctetPlusOne,lastBits) := strideCountAndOverflow p
    if depth = lastOctetPlusOne then do
      node.getPrefixExact (← BaseIndex.fromPrefix octet lastBits)
    else do
      match ← node.getChild octet with
      | none => return none
      | some (.path child) => lookupExactLoop p rest (depth+1) child
      | some (.leaf leafPfx value) => return if p = leafPfx then some value else none
      | some (.fringe value) => return if ← isFringe depth p then some value else none

def lookupPrefixExact (node : Node T) (p : IpNet) : Result (Option T) :=
  lookupExactLoop p p.addr.octets 0 node

/-- Iterator over the prefixes of one node that cover an octet. -/
structure NodePrefixIter (T : Type) where
  node : Node T
  yieldState : Bitset256

def NodePrefixIter.forOctet (node : Node T) (octet : UInt8) : Result (NodePrefixIter T) := do
  let idx ← BaseIndex.fromPfx7 octet
  return ⟨node,node.prefixes.bitset.intersect (lpm idx)⟩

/-- Each round of the loop clears one of the 256 bits. -/
def NodePrefixIter.nextLoop (node : Node T) :
    ℕ → Bitset256 → Result (Option (BaseIndex × T) × Bitset256)
  | 0,yieldState => return (none,yieldState)
  | rounds+1,yieldState =>
    match yieldState.lastSet with
    | none => return (none,yieldState)
    | some bit => do
      let yieldState := yieldState.clear bit
      let index ← BaseIndex.new (UInt8.ofNat bit)
      match ← node.getPrefixExact index with
      | some val => return (some (index,val),yieldState)
      | none => nextLoop node rounds yieldState

def NodePrefixIter.next (it : NodePrefixIter T) :
    Result (Option (BaseIndex × T) × NodePrefixIter T) := do
  let (item,yieldState) ← nextLoop it.node 256 it.yieldState
  return (item,⟨it.node,yieldState⟩)

/-- Pushing on a stack of visited nodes. Its capacity is fixed. -/
def pushVisited {α : Type} (stack : List α) (entry : α) : Result (List α) :=
  if stack.length < maxDepth then .ok (entry::stack) else .error .unwrapNone

/-- The stack of visited nodes, the last one first. -/
abbrev Stack (T : Type) := List (Node T × UInt8)

/-- The iterator over the last node: the one left from the call before, or a new one. -/
def resume (node : Node T) (octet : UInt8) : Option (NodePrefixIter T) → Result (NodePrefixIter T)
  | some iter => .ok iter
  | none => NodePrefixIter.forOctet node octet

/-- One call of `walk_stack`: the next prefix of the last node, or those of the
node before it when the last one is exhausted. -/
def walkStack : Stack T → Option (NodePrefixIter T) →
    Result (Option T × Stack T × Option (NodePrefixIter T))
  | [],prefixIter => return (none,[],prefixIter)
  | (node,octet)::rest,prefixIter => do
    let iter ← resume node octet prefixIter
    let (item,iter) ← iter.next
    match item with
    | some (_,val) => return (some val,(node,octet)::rest,some iter)
    | none => walkStack rest none

structure LookupIter (T : Type) where
  value : Option T
  stack : Stack T
  prefixIter : Option (NodePrefixIter T)

def LookupIter.next (it : LookupIter T) : Result (Option T × LookupIter T) :=
  match it.value with
  | some val => return (some val,{ it with value := none })
  | none => do
    let (val,stack,prefixIter) ← walkStack it.stack it.prefixIter
    return (val,⟨none,stack,prefixIter⟩)

variable [IpNetOps]

/-- The walk down the octets of an address: the route of a leaf or fringe at its
end that covers the address, and the stack of visited nodes. -/
def descend (ip : IpAddr) : List UInt8 → Stack T → Node T → Result (Option T × Stack T)
  | [],stack,_ => return (none,stack)
  | octet::rest,stack,node => do
    let stack ← pushVisited stack (node,octet)
    match ← node.getChild octet with
    | none => return (none,stack)
    | some (.path n) => descend ip rest stack n
    | some (.fringe val) => return (some val,stack)
    | some (.leaf p val) => return (if p.contains ip then some val else none,stack)

def lookupAddress (node : Node T) (ip : IpAddr) : Result (Option T) := do
  let (value,stack) ← descend ip ip.octets [] node
  match value with
  | some val => return some val
  | none => do
    let (val,_,_) ← walkStack stack none
    return val

def lookupAddressAll (node : Node T) (ip : IpAddr) : Result (LookupIter T) := do
  let (value,stack) ← descend ip ip.octets [] node
  return ⟨value,stack,none⟩

def containsLoop (ip : IpAddr) : List UInt8 → Node T → Result Bool
  | [],_ => return false
  | octet::rest,node => do
    let index ← BaseIndex.fromPfx7 octet
    if node.prefixCount != 0 && node.supersetsPrefix index then
      return true
    else
      match ← node.getChild octet with
      | none => return false
      | some (.path n) => containsLoop ip rest n
      | some (.fringe _) => return true
      | some (.leaf p _) => return p.contains ip

def Node.contains (node : Node T) (ip : IpAddr) : Result Bool :=
  containsLoop ip ip.octets node

/-- The stack of `lookup_prefix_lpm`, with the depth of each node. -/
abbrev LpmStack (T : Type) := List (Node T × UInt8 × ℕ)

/-- The loop of `lookup_prefix_lpm` over the octets from `depth` on: the route it
returns at once, or the stack to search. -/
def lpmDescend (p : IpNet) : List UInt8 → ℕ → LpmStack T → Node T →
    Result (Option (IpNet × T) × LpmStack T)
  | [],_,stack,_ => return (none,stack)
  | octet::rest,depth,stack,node =>
    if depth > (strideCountAndOverflow p).1 then return (none,stack)
    else do
      let stack ← pushVisited stack (node,octet,depth)
      match ← node.getChild octet with
      | none => return (none,stack)
      | some (.path n) => lpmDescend p rest (depth+1) stack n
      | some (.leaf leafPfx value) =>
        -- in this arm the name of the query is bound to the prefix of the leaf
        if leafPfx.prefixLen > leafPfx.prefixLen || !leafPfx.contains leafPfx.addr then
          return (none,stack)
        else return (some (leafPfx,value),stack)
      | some (.fringe val) =>
        if (depth+1)*8 > p.prefixLen then return (none,stack)
        else do
          let fringePfx ← IpNet.newAssert p.addr ((depth+1)*8)
          return (some (fringePfx,val),stack)

omit [IpNetOps] in
/-- The index to look up in a node: the query ends in its last octet. -/
def lpmIndex (p : IpNet) (octet : UInt8) (depth : ℕ) : Result BaseIndex :=
  if depth = (strideCountAndOverflow p).1 then
    BaseIndex.fromPrefix octet (strideCountAndOverflow p).2
  else BaseIndex.fromPfx7 octet

omit [IpNetOps] in
def lpmBacktrack (p : IpNet) : LpmStack T → Result (Option (IpNet × T))
  | [] => return none
  | (node,octet,depth)::rest =>
    if node.prefixCount = 0 then lpmBacktrack p rest
    else do
      let idx ← lpmIndex p octet depth
      match ← node.lookupIndex idx with
      | none => lpmBacktrack p rest
      | some (top,val) => do
        let lpmPfx ← IpNet.newAssert p.addr (top.prefixBits depth)
        return some (lpmPfx,val)

def lookupPrefixLpm (node : Node T) (p : IpNet) : Result (Option (IpNet × T)) := do
  let p := p.trunc
  let (ret,stack) ← lpmDescend p p.addr.octets 0 [] node
  match ret with
  | some r => return some r
  | none => lpmBacktrack p stack

end Definitions

section Exact
variable [IpNetOps] {T : Type} {fam : Family} {left : ℕ} {w : List UInt8} {p : IpNet}
  {node : Node T}

theorem lookupExactLoop_spec (hn : node.WF fam left w) (h : Below fam w p)
    (hw : w.length + left = fam.octetCount) :
    lookupExactLoop p (p.addr.octets.drop w.length) w.length node =
      .ok (node.routes w (relKey w p)) := by
  induction left generalizing w node with
  | zero => exact hn.elim
  | succ left ih =>
    obtain ⟨hpwf,hcwf,_,hch⟩ := wf_succ.mp hn
    rcases hk : relKey w p with ⟨_ | ⟨o,os⟩,i⟩
    · obtain ⟨hlen,o,ho,hidx⟩ := h.last (by rw [hk]) hw
      obtain ⟨hlt,hget⟩ := List.getElem?_eq_some_iff.mp ho
      rw [hk] at hidx
      rw [drop_eq_getElem_cons hlt,hget]
      simp only [lookupExactLoop,strideCountAndOverflow,hlen,if_true,hidx,bind_of_ok,
        getPrefixExact_eq hpwf]
      rfl
    · obtain ⟨ho,hne⟩ := h.next hk
      obtain ⟨hb,hk'⟩ := h.cons hk
      have hw' : (w ++ [o]).length + left = fam.octetCount := by
        rw [length_append,length_singleton]
        omega
      rw [h.drop_octets hk,routes_cons]
      simp only [lookupExactLoop,strideCountAndOverflow,if_neg hne,getChild_eq hcwf,
        bind_of_ok]
      cases hl : node.children.lookup o with
      | none => rfl
      | some ch =>
        have hcw := hch o ch hl
        change _ = Except.ok (ch.routes (w ++ [o]) (os,i))
        rw [← hk']
        cases ch with
        | path n =>
          have hrec := ih hcw.1 hb hw'
          rw [length_append,length_singleton] at hrec ⊢
          exact hrec
        | leaf q v =>
          obtain ⟨hcan,hfam,hsub,_⟩ := hcw
          rw [Child.routes_leaf hsub,Function.update_apply]
          apply congrArg Except.ok
          exact if_congr ⟨fun he => by rw [he],hb.ext ⟨hcan,hfam,hsub⟩⟩ rfl rfl
        | fringe v =>
          have hkey := hb.key
          simp only [isFringe_eq (show p.key.1 = w ++ o::(relKey (w ++ [o]) p).1 by simp [hkey]),
            Child.routes_fringe,Function.update_apply,bind_of_ok,decide_eq_true_eq]
          rfl

end Exact
section Keys

@[simp] theorem keyOf_zero (os : List UInt8) : keyOf os 0 = ([],.one) := by
  rw [keyOf]
  exact Prod.ext rfl (BaseIndex.ofBits_zero _)

theorem keyOf_cons_of_lt (o : UInt8) (os : List UInt8) (l : Fin 8) :
    keyOf (o::os) l.val = ([],.ofBits o l) := by
  have hd : l.val/8 = 0 := Nat.div_eq_of_lt l.isLt
  have hm : l.val%8 = l.val := Nat.mod_eq_of_lt l.isLt
  simp [keyOf,hd,hm]

theorem keyOf_append (w os : List UInt8) (n : ℕ) :
    keyOf (w ++ os) (n + 8*w.length) = (w ++ (keyOf os n).1,(keyOf os n).2) := by
  have hd : (n + 8*w.length)/8 = n/8 + w.length := by omega
  have hm : (n + 8*w.length)%8 = n%8 := by omega
  simp only [keyOf,hd,hm]
  rw [add_comm,take_length_add_append,getD_append_right _ _ _ _ (by omega)]
  simp

theorem keyOf_cons (o : UInt8) (os : List UInt8) (n : ℕ) :
    keyOf (o::os) (n+8) = (o::(keyOf os n).1,(keyOf os n).2) :=
  keyOf_append [o] os n

end Keys
section Iterators
variable {T : Type} {node : Node T} {octet : UInt8}

/-- The prefix of a node made of the first `n` bits of an octet. -/
def Node.ownAt (node : Node T) (octet : UInt8) (n : ℕ) : Option T :=
  if h : n < 8 then node.prefixes.lookup (BaseIndex.ofBits octet ⟨n,h⟩).val else none

theorem Node.ownAt_fin (l : Fin 8) :
    node.ownAt octet l.val = node.prefixes.lookup (BaseIndex.ofBits octet l).val := by
  simp [Node.ownAt]

/-- The bits of a set are the prefixes of a node among the first bits of an octet
that are shorter than `m`. -/
def Node.Marks (node : Node T) (octet : UInt8) (m : ℕ) (b : Bitset256) : Prop :=
  m ≤ 8 ∧ ∀ j, b.test j = true ↔ ∃ l : Fin 8, l.val < m ∧
    node.prefixes.test (BaseIndex.ofBits octet l).val = true ∧
    j = (BaseIndex.ofBits octet l).val.toNat

/-- The iterator still has to yield the prefixes shorter than `m` bits. -/
def NodePrefixIter.Rep (it : NodePrefixIter T) (octet : UInt8) (m : ℕ) : Prop :=
  it.node.Marks octet m it.yieldState

/-- The entries of an array that cover the first bits of an octet. -/
theorem test_covering (a : Array256 T) (octet : UInt8) (last : Fin 8) (j : ℕ) :
    (a.bitset.intersect (lpm (.ofBits octet last))).test j = true ↔
      ∃ l ≤ last, a.test (BaseIndex.ofBits octet l).val = true ∧
        j = (BaseIndex.ofBits octet l).val.toNat := by
  rw [test_intersect,Bool.and_eq_true]
  constructor
  · rintro ⟨ht,hl⟩
    have hj : j ≠ 0 := by
      rintro rfl
      rw [lpm_zero] at hl
      cases hl
    have hjj : (UInt8.ofNat j).toNat = j := by simpa using Nat.mod_eq_of_lt (test_lt ht)
    have hne : UInt8.ofNat j ≠ 0 := by
      intro h0
      rw [h0] at hjj
      exact hj hjj.symm
    obtain ⟨l,hlast,hle⟩ := (test_lpm octet last ⟨UInt8.ofNat j,hne⟩).mp (by rwa [hjj])
    refine ⟨l,hlast,?_,?_⟩
    · rw [← hle,Array256.test,hjj]
      exact ht
    · rw [← hle,hjj]
  · rintro ⟨l,hlast,ht,rfl⟩
    exact ⟨ht,(test_lpm octet last _).mpr ⟨l,hlast,rfl⟩⟩

theorem Node.marks_covering (node : Node T) (octet : UInt8) (last : Fin 8) :
    node.Marks octet (last.val+1) (node.prefixes.bitset.intersect (lpm (.ofBits octet last))) := by
  refine ⟨by omega,fun j => ?_⟩
  rw [test_covering]
  exact exists_congr fun l => and_congr_left' Nat.lt_succ_iff.symm

theorem Node.Marks.eq_nil {m : ℕ} {b : Bitset256} (h : node.Marks octet m b)
    (hlast : IsLast b.toSet none) : downTo (node.ownAt octet) m = [] := by
  rw [downTo_eq_nil]
  intro n hn
  have hn8 : n < 8 := lt_of_lt_of_le hn h.1
  have hf : node.prefixes.test (BaseIndex.ofBits octet ⟨n,hn8⟩).val = false := by
    rw [← Bool.not_eq_true]
    intro ht
    have hmem := mem_toSet.mpr ((h.2 _).mpr ⟨⟨n,hn8⟩,hn,ht,rfl⟩)
    rw [show b.toSet = ∅ from hlast] at hmem
    exact absurd hmem (Finset.notMem_empty _)
  rw [Node.ownAt,dif_pos hn8]
  exact Array256.lookup_of_not_test hf

/-- The last bit of the set is the longest prefix. -/
theorem Node.Marks.eq_cons {m bit : ℕ} {b : Bitset256} (hwf : node.prefixes.WF)
    (h : node.Marks octet m b) (hlast : IsLast b.toSet (some bit)) :
    ∃ (l : Fin 8) (v : T), l.val < m ∧ bit = (BaseIndex.ofBits octet l).val.toNat ∧
      node.prefixes.lookup (BaseIndex.ofBits octet l).val = some v ∧
      downTo (node.ownAt octet) m = v::downTo (node.ownAt octet) l.val ∧
      ∀ l' : Fin 8, l < l' → l'.val < m →
        node.prefixes.test (BaseIndex.ofBits octet l').val = false := by
  obtain ⟨l,hl,ht,rfl⟩ := (h.2 bit).mp (mem_toSet.mp hlast.mem)
  obtain ⟨v,_,hv⟩ := Array256.lookup_of_test hwf ht
  -- longer prefixes would have a greater bit
  have hgreatest : ∀ l' : Fin 8, l < l' → l'.val < m →
      node.prefixes.test (BaseIndex.ofBits octet l').val = false := by
    intro l' hlt hlm
    rw [← Bool.not_eq_true]
    intro ht'
    have hle := hlast.2 (mem_toSet.mpr ((h.2 _).mpr ⟨l',hlm,ht',rfl⟩))
    exact absurd hle (not_le.mpr (BaseIndex.ofBits_lt hlt))
  refine ⟨l,v,hl,rfl,hv,downTo_of_greatest hl ?_ ?_,hgreatest⟩
  · rw [ownAt_fin,hv]
  · intro n hln hnm
    have hn8 : n < 8 := lt_of_lt_of_le hnm h.1
    rw [Node.ownAt,dif_pos hn8]
    exact Array256.lookup_of_not_test (hgreatest ⟨n,hn8⟩ hln hnm)

theorem NodePrefixIter.forOctet_rep (node : Node T) (octet : UInt8) :
    ∃ it, NodePrefixIter.forOctet node octet = .ok it ∧ it.node = node ∧ it.Rep octet 8 := by
  refine ⟨⟨node,node.prefixes.bitset.intersect (lpm (.ofBits octet 7))⟩,?_,rfl,
    node.marks_covering octet 7⟩
  simp [forOctet,BaseIndex.fromPfx7_eq]

theorem NodePrefixIter.next_spec {it : NodePrefixIter T} {m : ℕ} (hwf : it.node.prefixes.WF)
    (h : it.Rep octet m) :
    ∃ it' m' idx, it.next = .ok ((downTo (it.node.ownAt octet) m).head?.map (Prod.mk idx),it') ∧
      it'.node = it.node ∧ it'.Rep octet m' ∧
      downTo (it.node.ownAt octet) m' = (downTo (it.node.ownAt octet) m).tail := by
  have hlast := it.yieldState.isLast_lastSet
  cases hs : it.yieldState.lastSet with
  | none =>
    rw [hs] at hlast
    have hnil := h.eq_nil hlast
    refine ⟨it,m,.one,?_,rfl,h,by rw [hnil]; rfl⟩
    rw [next,show (256 : ℕ) = 255+1 from rfl,nextLoop,hs,hnil]
    rfl
  | some bit =>
    rw [hs] at hlast
    obtain ⟨l,v,hl,rfl,hv,hlist,hgreatest⟩ := h.eq_cons hwf hlast
    obtain ⟨hm,hrep⟩ := h
    refine ⟨⟨it.node,it.yieldState.clear (BaseIndex.ofBits octet l).val.toNat⟩,l.val,.ofBits octet l,
      ?_,rfl,⟨by omega,?_⟩,by rw [hlist]; rfl⟩
    · rw [next,show (256 : ℕ) = 255+1 from rfl,nextLoop,hs]
      simp [getPrefixExact_eq hwf,hv,hlist]
    · intro j
      rw [test_clear _ (Array256.toNat_lt _),Bool.and_eq_true,decide_eq_true_eq,hrep]
      constructor
      · rintro ⟨hne,l',hl',ht',rfl⟩
        refine ⟨l',?_,ht',rfl⟩
        rcases lt_trichotomy l' l with hlt | rfl | hgt
        · exact hlt
        · exact absurd rfl hne
        · rw [hgreatest l' hgt hl'] at ht'
          cases ht'
      · rintro ⟨l',hl',ht',rfl⟩
        refine ⟨?_,l',by omega,ht',rfl⟩
        exact (BaseIndex.ofBits_lt (show l' < l from hl')).ne

/-- The prefixes on a stack that cover the octets they were pushed with. -/
def Stack.matches : Stack T → List T
  | [] => []
  | (node,octet)::rest => downTo (node.ownAt octet) 8 ++ Stack.matches rest

def Stack.WF (stack : Stack T) : Prop := ∀ entry ∈ stack, entry.1.prefixes.WF

/-- The walk has the values `l` left. -/
def WalkRep (stack : Stack T) : Option (NodePrefixIter T) → List T → Prop
  | none,l => stack.WF ∧ l = stack.matches
  | some it,l => ∃ octet rest m, stack = (it.node,octet)::rest ∧ stack.WF ∧ it.Rep octet m ∧
      l = downTo (it.node.ownAt octet) m ++ Stack.matches rest

theorem walkStack_spec {stack : Stack T} {prefixIter : Option (NodePrefixIter T)} {l : List T}
    (h : WalkRep stack prefixIter l) :
    ∃ stack' prefixIter', walkStack stack prefixIter = .ok (l.head?,stack',prefixIter') ∧
      WalkRep stack' prefixIter' l.tail := by
  induction stack generalizing prefixIter l with
  | nil =>
    cases prefixIter with
    | none =>
      obtain ⟨hwf,rfl⟩ := h
      exact ⟨[],none,rfl,hwf,rfl⟩
    | some it =>
      obtain ⟨octet,rest,m,hs,_⟩ := h
      cases hs
  | cons entry rest ih =>
    obtain ⟨node,octet⟩ := entry
    -- the iterator of the last node, new or resumed
    have hiter : ∃ it m, resume node octet prefixIter = .ok it ∧ it.node = node ∧
        Stack.WF ((node,octet)::rest) ∧ it.Rep octet m ∧
        l = downTo (node.ownAt octet) m ++ Stack.matches rest := by
      cases prefixIter with
      | none =>
        obtain ⟨hwf,rfl⟩ := h
        obtain ⟨it,hit,hnode,hrep⟩ := NodePrefixIter.forOctet_rep node octet
        exact ⟨it,8,hit,hnode,hwf,hrep,rfl⟩
      | some it =>
        obtain ⟨octet',rest',m,hs,hwf,hrep,hl⟩ := h
        cases hs
        exact ⟨it,m,rfl,rfl,hwf,hrep,hl⟩
    obtain ⟨it,m,hit,rfl,hwf,hrep,rfl⟩ := hiter
    obtain ⟨it',m',idx,hnext,hnode,hrep',htail⟩ :=
      NodePrefixIter.next_spec (hwf _ mem_cons_self) hrep
    rw [walkStack,hit,bind_of_ok,hnext,bind_of_ok]
    cases hd : downTo (it.node.ownAt octet) m with
    | nil =>
      obtain ⟨stack',prefixIter',hrec,hrep''⟩ :=
        ih (show WalkRep rest none _ from ⟨fun e he => hwf e (mem_cons_of_mem _ he),rfl⟩)
      exact ⟨stack',prefixIter',hrec,hrep''⟩
    | cons v vs =>
      refine ⟨(it.node,octet)::rest,some it',rfl,octet,rest,m',by rw [hnode],hwf,hrep',?_⟩
      rw [hnode,htail,hd]
      rfl

theorem LookupIter.yields {it : LookupIter T} {l : List T}
    (h : ∃ l', WalkRep it.stack it.prefixIter l' ∧ l = it.value.toList ++ l') :
    Yields LookupIter.next it l := by
  apply yields_of_step
    (fun it l => ∃ l', WalkRep it.stack it.prefixIter l' ∧ l = it.value.toList ++ l') _ h
  rintro ⟨value,stack,prefixIter⟩ l ⟨l',hrep,rfl⟩
  cases value with
  | some v => exact ⟨⟨none,stack,prefixIter⟩,rfl,l',hrep,rfl⟩
  | none =>
    obtain ⟨stack',prefixIter',hw,hrep'⟩ := walkStack_spec hrep
    exact ⟨⟨none,stack',prefixIter'⟩,by simp [next,hw],l'.tail,hrep',rfl⟩

end Iterators
section Descent
variable {T : Type} {fam : Family} {left : ℕ} {w os : List UInt8} {o : UInt8}
  {node : Node T} {ip : IpAddr}

/-- The values of a node at the prefixes of the octets `rest` that have less than
`bits` bits, the longest first. -/
def Node.covering (w : List UInt8) (node : Node T) (rest : List UInt8) (bits : ℕ) : List T :=
  downTo (fun n => node.routes w (keyOf rest n)) bits

/-- The values below one octet at the prefixes of the octets `rest`. -/
def childCovering (w : List UInt8) (o : UInt8) (c : Option (Child (Node T) T))
    (rest : List UInt8) (bits : ℕ) : List T :=
  downTo (fun n => childRoutes w o c (keyOf rest n)) bits

theorem covering_bits_sub (o : UInt8) (os : List UInt8) :
    8*(o::os).length+1-8 = 8*os.length+1 := by
  rw [length_cons]
  omega

theorem covering_bits_min (o : UInt8) (os : List UInt8) : min (8*(o::os).length+1) 8 = 8 := by
  rw [length_cons]
  omega

/-- The covering routes below the next octet come before those of the node. -/
theorem Node.covering_cons (node : Node T) (w os : List UInt8) (o : UInt8) (bits : ℕ) :
    node.covering w (o::os) bits =
      childCovering w o (node.children.lookup o) os (bits - 8) ++
        downTo (node.ownAt o) (min bits 8) := by
  have hown : ∀ n < 8, node.routes w (keyOf (o::os) n) = node.ownAt o n := by
    intro n hn
    rw [show n = (⟨n,hn⟩ : Fin 8).val from rfl,keyOf_cons_of_lt,ownAt_fin,routes_nil]
  rw [Node.covering,childCovering]
  rcases le_total bits 8 with hle | hle
  · rw [Nat.sub_eq_zero_of_le hle,min_eq_left hle]
    exact downTo_congr fun n hn => hown n (by omega)
  · rw [min_eq_right hle,show downTo _ bits = downTo _ (bits - 8 + 8) by rw [Nat.sub_add_cancel hle],
      downTo_add]
    refine congrArg₂ (· ++ ·) ?_ ?_
    · apply downTo_congr
      intro n _
      rw [keyOf_cons,routes_cons]
    · exact downTo_congr hown

theorem childCovering_none (w : List UInt8) (o : UInt8) (os : List UInt8) (bits : ℕ) :
    childCovering (T := T) w o none os bits = [] :=
  downTo_eq_nil.mpr fun _ _ => rfl

theorem keyOf_ne_root {os : List UInt8} {n : ℕ} (hn : n ≠ 0) (hle : n ≤ 8*os.length) :
    keyOf os n ≠ ([],.one) := by
  intro he
  have hb := congrArg RouteKey.bits he
  rw [keyOf_bits hle,← keyOf_zero os,keyOf_bits (Nat.zero_le _)] at hb
  exact hn hb

theorem childCovering_fringe (w : List UInt8) (o : UInt8) (v : T) {os : List UInt8} {bits : ℕ}
    (hpos : 0 < bits) (hle : bits ≤ 8*os.length+1) :
    childCovering w o (some (.fringe v)) os bits = [v] := by
  apply downTo_single hpos
  · simp [childRoutes,Child.routes]
  · intro m hm hne
    simp [childRoutes,Child.routes,keyOf_ne_root hne (show m ≤ 8*os.length by omega)]

theorem pushVisited_ok {α : Type} {stack : List α} (h : stack.length < fam.octetCount) (entry : α) :
    pushVisited stack entry = .ok (entry::stack) := by
  have : fam.octetCount ≤ maxDepth := by cases fam <;> decide
  rw [pushVisited,if_pos (by omega)]

/-- The test of the ancestor mask finds the covering prefixes of a node. -/
theorem supersets_eq (hwf : node.prefixes.WF) (o : UInt8) :
    (node.prefixCount != 0 && node.supersetsPrefix (.ofBits o 7)) =
      !(downTo (node.ownAt o) 8).isEmpty := by
  have hiff : node.supersetsPrefix (.ofBits o 7) = true ↔
      ∃ l : Fin 8, node.prefixes.test (BaseIndex.ofBits o l).val = true := by
    rw [Node.supersetsPrefix,intersects_iff]
    constructor
    · rintro ⟨j,h1,h2⟩
      obtain ⟨l,_,ht,_⟩ := (test_covering node.prefixes o 7 j).mp (by
        rw [test_intersect,h1,h2]
        rfl)
      exact ⟨l,ht⟩
    · rintro ⟨l,ht⟩
      have hm := (test_covering node.prefixes o 7 _).mpr ⟨l,Fin.le_last l,ht,rfl⟩
      rw [test_intersect,Bool.and_eq_true] at hm
      exact ⟨_,hm⟩
  rw [Bool.eq_iff_iff]
  simp only [Bool.and_eq_true,bne_iff_ne,hiff,Bool.not_eq_true',isEmpty_eq_false_iff,ne_eq,
    downTo_eq_nil,not_forall]
  constructor
  · rintro ⟨_,l,ht⟩
    refine ⟨l.val,l.isLt,?_⟩
    obtain ⟨v,_,hv⟩ := Array256.lookup_of_test hwf ht
    rw [ownAt_fin,hv]
    simp
  · rintro ⟨n,hn,hne⟩
    rw [show n = (⟨n,hn⟩ : Fin 8).val from rfl,ownAt_fin] at hne
    refine ⟨fun h0 => hne ((Array256.len_eq_zero hwf).mp h0 _),⟨n,hn⟩,?_⟩
    rw [← Array256.isSome_lookup hwf]
    exact Option.isSome_iff_ne_none.mpr hne

theorem isEmpty_append (a b : List T) : (a ++ b).isEmpty = (a.isEmpty && b.isEmpty) := by
  cases a <;> rfl

variable [IpNetOps]

theorem childCovering_leaf {p : IpNet} {v : T} (hip : ip.octets = w ++ o::os)
    (hfam : p.addr.family = ip.family) (hsub : w ++ [o] <+: p.key.1) :
    childCovering w o (some (.leaf p v)) os (8*os.length+1) =
      if p.contains ip then [v] else [] := by
  -- the bits of the prefix below the octet
  obtain ⟨n,hn⟩ : ∃ n, p.prefixLen = n + 8*(w ++ [o]).length := by
    have := hsub.length_le
    rw [p.length_key] at this
    exact ⟨p.prefixLen - 8*(w ++ [o]).length,by omega⟩
  have hlen : n ≤ 8*os.length := by
    have := p.prefixLen_le
    rw [p.addr.length_octets,hfam,← ip.length_octets,hip] at this
    simp only [length_append,length_cons] at this hn
    omega
  have hkey : keyOf ip.octets p.prefixLen = (w ++ [o] ++ (keyOf os n).1,(keyOf os n).2) := by
    rw [hip,hn,← keyOf_append]
    simp
  have hroutes : ∀ m ≤ 8*os.length, childRoutes w o (some (.leaf p v)) (keyOf os m) =
      if m = n ∧ p.contains ip = true then some v else none := by
    intro m hm
    have hb : RouteKey.bits (w ++ [o] ++ (keyOf os m).1,(keyOf os m).2) =
        m + 8*(w ++ [o]).length := by
      have hl : (w ++ [o] ++ os).length = (w ++ [o]).length + os.length := length_append
      rw [← keyOf_append,keyOf_bits (by omega)]
    change (if p.key = (w ++ [o] ++ (keyOf os m).1,(keyOf os m).2) then some v else none) = _
    refine if_congr ⟨?_,?_⟩ rfl rfl
    · intro hk
      have hmn : m = n := by
        have := p.key_bits
        rw [hk,hb,hn] at this
        omega
      subst hmn
      exact ⟨rfl,IpNet.contains_iff.mpr ⟨hfam,hk.trans hkey.symm⟩⟩
    · rintro ⟨rfl,hc⟩
      exact (IpNet.contains_iff.mp hc).2.trans hkey
  split
  · rename_i hc
    apply downTo_single (Nat.lt_succ_of_le hlen)
    · rw [hroutes n hlen,if_pos ⟨rfl,hc⟩]
    · intro m hm hne
      rw [hroutes m (by omega),if_neg (fun h => hne h.1)]
  · rename_i hc
    rw [childCovering,downTo_eq_nil]
    intro m hm
    rw [hroutes m (by omega),if_neg (fun h => hc h.2)]

/-- The end of the walk and the stack together hold the covering routes. -/
theorem descend_spec {rest : List UInt8} {stack : Stack T} (hn : node.WF fam left w)
    (hip : ip.octets = w ++ rest) (hfam : ip.family = fam)
    (hw : w.length + left = fam.octetCount) (hst : stack.length = w.length) (hwf : stack.WF) :
    ∃ value stack', descend ip rest stack node = .ok (value,stack') ∧ Stack.WF stack' ∧
      value.toList ++ Stack.matches stack' =
        node.covering w rest (8*rest.length+1) ++ stack.matches := by
  induction left generalizing w node rest stack with
  | zero => exact hn.elim
  | succ left ih =>
    obtain ⟨hpwf,hcwf,_,hch⟩ := wf_succ.mp hn
    have hlen := ip.length_octets
    rw [hip,hfam,length_append] at hlen
    cases rest with
    | nil =>
      rw [length_nil] at hlen
      omega
    | cons o os =>
      have hpush : pushVisited stack (node,o) = .ok ((node,o)::stack) :=
        pushVisited_ok (show stack.length < fam.octetCount by omega) _
      have hwf' : Stack.WF ((node,o)::stack) := by
        intro e he
        rcases mem_cons.mp he with rfl | he
        · exact hpwf
        · exact hwf e he
      rw [covering_cons,covering_bits_sub,covering_bits_min,append_assoc]
      simp only [descend,hpush,bind_of_ok,getChild_eq hcwf]
      cases hl : node.children.lookup o with
      | none => exact ⟨none,_,rfl,hwf',by rw [childCovering_none]; rfl⟩
      | some c =>
        have hcw := hch o c hl
        cases c with
        | fringe v => exact ⟨some v,_,rfl,hwf',by rw [childCovering_fringe _ _ _ (by omega) le_rfl]; rfl⟩
        | leaf p v =>
          refine ⟨_,_,rfl,hwf',?_⟩
          rw [childCovering_leaf hip (hcw.2.1.trans hfam.symm) hcw.2.2.1]
          split <;> rfl
        | path n =>
          have hip' : ip.octets = (w ++ [o]) ++ os := by
            rw [hip]
            simp
          have hwl : (w ++ [o]).length = w.length + 1 := by simp
          exact ih hcw.1 hip' (by omega) (by rw [length_cons,hwl,hst]) hwf'

theorem containsLoop_spec {rest : List UInt8} (hn : node.WF fam left w)
    (hip : ip.octets = w ++ rest) (hfam : ip.family = fam)
    (hw : w.length + left = fam.octetCount) :
    containsLoop ip rest node = .ok (!(node.covering w rest (8*rest.length+1)).isEmpty) := by
  induction left generalizing w node rest with
  | zero => exact hn.elim
  | succ left ih =>
    obtain ⟨hpwf,hcwf,_,hch⟩ := wf_succ.mp hn
    have hlen := ip.length_octets
    rw [hip,hfam,length_append] at hlen
    cases rest with
    | nil =>
      rw [length_nil] at hlen
      omega
    | cons o os =>
      rw [covering_cons,covering_bits_sub,covering_bits_min,isEmpty_append,Bool.not_and]
      simp only [containsLoop,BaseIndex.fromPfx7_eq,bind_of_ok,supersets_eq hpwf,
        getChild_eq hcwf]
      cases hown : (downTo (node.ownAt o) 8).isEmpty with
      | false => simp
      | true =>
        simp only [Bool.not_true,Bool.false_eq_true,if_false,Bool.or_false]
        cases hl : node.children.lookup o with
        | none => rw [childCovering_none]; rfl
        | some c =>
          have hcw := hch o c hl
          cases c with
          | fringe v => rw [childCovering_fringe _ _ _ (by omega) le_rfl]; rfl
          | leaf p v =>
            rw [childCovering_leaf hip (hcw.2.1.trans hfam.symm) hcw.2.2.1]
            change Except.ok (p.contains ip) = _
            cases p.contains ip <;> rfl
          | path n =>
            have hip' : ip.octets = (w ++ [o]) ++ os := by
              rw [hip]
              simp
            have hwl : (w ++ [o]).length = w.length + 1 := by simp
            exact ih hcw.1 hip' (by omega)

variable {node : Node T} (hn : node.WF ip.family ip.family.octetCount [])
include hn

theorem lookupAddressAll_spec : ∃ it, lookupAddressAll node ip = .ok it ∧
    Yields LookupIter.next it (node.covering [] ip.octets (8*ip.octets.length+1)) := by
  obtain ⟨value,stack,hrun,hwf,heq⟩ := descend_spec hn rfl rfl (Nat.zero_add _)
    (show List.length ([] : Stack T) = 0 from rfl) (fun e he => by cases he)
  refine ⟨⟨value,stack,none⟩,by simp [lookupAddressAll,hrun],?_⟩
  rw [show (Stack.matches ([] : Stack T)) = [] from rfl,append_nil] at heq
  exact LookupIter.yields ⟨_,⟨hwf,rfl⟩,heq.symm⟩

theorem lookupAddress_spec :
    lookupAddress node ip = .ok (node.covering [] ip.octets (8*ip.octets.length+1)).head? := by
  obtain ⟨value,stack,hrun,hwf,heq⟩ := descend_spec hn rfl rfl (Nat.zero_add _)
    (show List.length ([] : Stack T) = 0 from rfl) (fun e he => by cases he)
  rw [show (Stack.matches ([] : Stack T)) = [] from rfl,append_nil] at heq
  rw [lookupAddress,hrun,bind_of_ok,← heq]
  cases value with
  | some v => rfl
  | none =>
    obtain ⟨stack',prefixIter',hw,_⟩ := walkStack_spec (show WalkRep stack none _ from ⟨hwf,rfl⟩)
    simp [hw]

theorem contains_spec :
    node.contains ip = .ok (!(node.covering [] ip.octets (8*ip.octets.length+1)).isEmpty) :=
  containsLoop_spec hn rfl rfl (Nat.zero_add _)

end Descent
end Tailnet

import Tailnet.Bart.Node

/-! Insertion into the trie. The loop walks down the octets of the prefix; a leaf
or fringe in the way is turned into a path node that holds its old route, and the
walk goes on below it. Insertion updates the content at the key of the prefix. -/
namespace Tailnet
open Function List Node Child

def maxDepth : ℕ := 16

def strideCountAndOverflow (p : IpNet) : ℕ × ℕ := (p.prefixLen/8,p.prefixLen%8)

/-- Whether a prefix ends at the octet boundary below `depth`. The subtraction of
the source underflows for a prefix shorter than one octet. -/
def isFringe (depth : ℕ) (p : IpNet) : Result Bool :=
  match strideCountAndOverflow p with
  | (0,_) => .error .overflow
  | (n+1,overflowBits) => .ok (depth == n && overflowBits == 0)

section Definitions
variable {T : Type}

/-- The immediate child a route becomes at `depth`. -/
def Child.ofRoute (depth : ℕ) (p : IpNet) (value : T) : Result (Child (Node T) T) := do
  if ← isFringe depth p then
    return .fringe value
  else
    return .leaf p value

/-- Replace the value of a child that is the route itself. -/
def Child.replaceValue (depth : ℕ) (p : IpNet) (value : T) :
    Child (Node T) T → Result (Option (T × Child (Node T) T))
  | .leaf leafPfx old => return if p = leafPfx then some (old,.leaf leafPfx value) else none
  | .fringe old => do
    if ← isFringe depth p then
      return some (old,.fringe value)
    else
      return none
  | .path _ => return none

variable (reinsert : Node T → IpNet → T → Result (Option T × Node T))

/-- Put the route of a displaced child into the new path node `n`. -/
def Node.adopt (n : Node T) :
    Child (Node T) T → Result (Node T)
  | .fringe old => do Prod.snd <$> n.insertPrefix (← BaseIndex.new 1) old
  | .leaf leafPfx leafValue => Prod.snd <$> reinsert n leafPfx leafValue
  | .path _ => .error .unreachable

/-- Turn a leaf or fringe into a path node that holds its route. -/
def Node.splitChild (node : Node T)
    (octet : UInt8) : Result (Node T) := do
  let (removed,node) ← node.insertChild octet (.path .empty)
  let removed ← Result.unwrap removed
  let n ← match ← node.getChild octet with
    | some (.path n) => pure n
    | _ => throw .unreachable
  let n ← n.adopt reinsert removed
  Prod.snd <$> node.insertChild octet (.path n)

/-- Afterwards the child at `octet` is a path node. -/
def Node.ensurePath (node : Node T)
    (octet : UInt8) : Child (Node T) T → Result (Node T)
  | .path _ => .ok node
  | .leaf _ _ => node.splitChild reinsert octet
  | .fringe _ => node.splitChild reinsert octet

/-- The loop of `insert_inner` from `depth` on. An address has at most `maxDepth`
octets, so `maxDepth - depth` rounds are enough. -/
def insertLoop : ℕ → Node T → IpNet → T → ℕ → Result (Option T × Node T)
  | 0,node,_,_,_ => return (none,node)
  | rounds+1,node,pfx,value,depth =>
    match pfx.addr.octets[depth]? with
    | none => return (none,node)
    | some octet =>
      let (strides,overflowBits) := strideCountAndOverflow pfx
      if depth = strides then do
        node.insertPrefix (← BaseIndex.fromPrefix octet overflowBits) value
      else if !node.children.test octet then do
        let (old,node) ← node.insertChild octet (← Child.ofRoute depth pfx value)
        return (old.bind Child.intoValue,node)
      else do
        let child ← Result.unwrap (← node.getChild octet)
        match ← child.replaceValue depth pfx value with
        | some (old,child) => do
          let (_,node) ← node.insertChild octet child
          return (some old,node)
        | none => do
          let node ← node.ensurePath (fun n p v => insertLoop rounds n p v (depth+1)) octet child
          let next ← Result.unwrap (← node.getChild octet)
          let next ← Result.unwrap next.intoNode
          let (old,next) ← insertLoop rounds next pfx value (depth+1)
          let (_,node) ← node.insertChild octet (.path next)
          return (old,node)

def insertInner (node : Node T) (pfx : IpNet) (value : T) (depth : ℕ) :
    Result (Option T × Node T) :=
  insertLoop (maxDepth - depth) node pfx value depth

end Definitions

def Node.insert [IpNetOps] {T : Type} (node : Node T) (pfx : IpNet) (value : T) :
    Result (Option T × Node T) :=
  insertInner node pfx.trunc value 0

/-- A canonical prefix of the family that passes through the octets `w`. -/
structure Below [IpNetOps] (fam : Family) (w : List UInt8) (p : IpNet) : Prop where
  canonical : p.Canonical
  family : p.addr.family = fam
  sub : w <+: p.key.1

/-- The key of a prefix relative to a node reached by the octets `w`. -/
def relKey (w : List UInt8) (p : IpNet) : RouteKey := (p.key.1.drop w.length,p.key.2)

section Keys
variable {T : Type} {p : IpNet}

theorem IpNet.length_key (p : IpNet) : p.key.1.length = p.prefixLen/8 := by
  have := p.prefixLen_le
  simp only [IpNet.key,keyOf,length_take]
  omega

theorem IpNet.key_snd_eq_one : p.key.2 = .one ↔ p.prefixLen%8 = 0 := by
  rw [IpNet.key,keyOf,← BaseIndex.ofBits_zero (p.addr.octets.getD (p.prefixLen/8) 0),
    BaseIndex.ofBits_inj]
  constructor
  · rintro ⟨h,_⟩
    exact congrArg Fin.val h
  · intro h
    exact ⟨Fin.ext h,rfl⟩

variable {o : UInt8}

theorem IpNet.octets_of_key {w os : List UInt8} (h : p.key.1 = w ++ o::os) :
    p.addr.octets[w.length]? = some o := by
  have hg : p.key.1[w.length]? = some o := by
    rw [h]
    simp
  have hlt := (List.getElem?_eq_some_iff.mp hg).1
  rw [p.length_key] at hlt
  rw [IpNet.key,keyOf] at hg
  simpa [List.getElem?_take,hlt] using hg

theorem isFringe_eq {w os : List UInt8} (h : p.key.1 = w ++ o::os) :
    isFringe w.length p = .ok (decide ((os,p.key.2) = ([],BaseIndex.one))) := by
  have hlen := p.length_key
  rw [h,length_append,length_cons] at hlen
  rw [isFringe,strideCountAndOverflow,show p.prefixLen/8 = w.length + os.length + 1 by omega]
  simp only [Except.ok.injEq,Prod.mk.injEq,IpNet.key_snd_eq_one]
  rw [Bool.eq_iff_iff]
  simp

theorem Child.routes_leaf {w : List UInt8} {v : T} (h : w <+: p.key.1) :
    Child.routes w (.leaf p v) = update (fun _ => none) (relKey w p) (some v) := by
  funext k
  obtain ⟨os,hos⟩ := h
  have hr : relKey w p = (os,p.key.2) := by
    rw [relKey,← hos]
    simp
  have hiff : p.key = (w ++ k.1,k.2) ↔ k = (os,p.key.2) := by
    rw [Prod.ext_iff,Prod.ext_iff,← hos]
    simp only [append_cancel_left_eq]
    rw [eq_comm (a := os),eq_comm (a := p.key.2)]
  simp only [Child.routes,hr,update_apply,hiff]

theorem Child.routes_fringe {w : List UInt8} {v : T} :
    Child.routes w (.fringe v) = update (fun _ => none) ([],.one) (some v) := by
  funext k
  simp only [Child.routes,update_apply]

theorem live_update_some {f : RouteKey → Option T} {k : RouteKey} {v : T} :
    live (update f k (some v)) = insert k (live f) := by
  ext k'
  by_cases h : k' = k
  · simp [live,h]
  · simp [live,h]

theorem live_update_nontrivial {f : RouteKey → Option T} {k : RouteKey} {v : T}
    (hk : k ∉ live f) (hf : (live f).Nonempty) :
    (live (update f k (some v))).Nontrivial := by
  obtain ⟨k',hk'⟩ := hf
  rw [live_update_some]
  refine ⟨k,by simp,k',by simp [hk'],?_⟩
  rintro rfl
  exact hk hk'

theorem Node.ChildUpd.trans {node node1 node2 : Node T}
    {c1 c2 : Option (Child (Node T) T)} (h1 : ChildUpd node node1 o c1)
    (h2 : ChildUpd node1 node2 o c2) : ChildUpd node node2 o c2 := by
  refine ⟨h2.prefixes.trans h1.prefixes,h2.wf,?_⟩
  intro j
  rw [h2.lookup,h1.lookup]
  split <;> rfl

theorem Node.ChildUpd.refl {node : Node T} (h : node.children.WF) :
    ChildUpd node node o (node.children.lookup o) := by
  refine ⟨rfl,h,?_⟩
  intro j
  split
  · rename_i hj
    rw [hj]
  · rfl

end Keys

section
variable [IpNetOps] {T : Type} {fam : Family} {w : List UInt8} {p : IpNet}

theorem Below.key (h : Below fam w p) : p.key = (w ++ (relKey w p).1,(relKey w p).2) := by
  obtain ⟨os,hos⟩ := h.sub
  have hd : p.key.1.drop w.length = os := by
    rw [← hos]
    simp
  rw [relKey,hd,hos]

variable {os : List UInt8} {i : BaseIndex}

theorem Below.cons {o : UInt8} (h : Below fam w p)
    (hk : relKey w p = (o::os,i)) : Below fam (w ++ [o]) p ∧ relKey (w ++ [o]) p = (os,i) := by
  have hkey := h.key
  rw [hk] at hkey
  refine ⟨⟨h.canonical,h.family,?_⟩,?_⟩
  · rw [hkey]
    exact ⟨os,by simp⟩
  · rw [relKey,hkey]
    simp

theorem Below.ext {q : IpNet} (hp : Below fam w p) (hq : Below fam w q)
    (hk : relKey w p = relKey w q) : p = q :=
  hp.canonical.ext hq.canonical (hp.family.trans hq.family.symm) (by rw [hp.key,hq.key,hk])

variable {left : ℕ}

/-- A prefix that is not the fringe of its path leaves room for one more octet. -/
theorem Below.left_pos (h : Below fam w p) (hw : w.length + left = fam.octetCount)
    (hk : relKey w p ≠ ([],.one)) : 0 < left := by
  by_contra hc
  have hlen := p.prefixLen_le
  rw [p.addr.length_octets,h.family] at hlen
  have hsub := h.sub.length_le
  rw [p.length_key] at hsub
  apply hk
  rw [relKey,IpNet.key_snd_eq_one.mpr (by omega),drop_of_length_le (by rw [p.length_key]; omega)]

theorem Child.live_nonempty {c : Child (Node T) T} (h : c.WF fam left w) :
    (live (c.routes w)).Nonempty := by
  cases c with
  | path n => exact h.2.nonempty
  | leaf p v =>
    refine ⟨relKey w p,?_⟩
    rw [live,routes_leaf h.2.2.1]
    simp
  | fringe v =>
    refine ⟨([],.one),?_⟩
    rw [live,routes_fringe]
    simp

theorem Child.ofRoute_spec {o : UInt8} (h : Below fam (w ++ [o]) p) (v : T) :
    ∃ c : Child (Node T) T, Child.ofRoute w.length p v = .ok c ∧ c.WF fam left (w ++ [o]) ∧
      c.routes (w ++ [o]) = update (fun _ => none) (relKey (w ++ [o]) p) (some v) := by
  have hk := h.key
  rw [Child.ofRoute,isFringe_eq (show p.key.1 = w ++ o::(relKey (w ++ [o]) p).1 by simp [hk])]
  by_cases hf : relKey (w ++ [o]) p = ([],.one)
  · refine ⟨.fringe v,?_,trivial,?_⟩
    · simp [← hf,relKey]
    · rw [hf,routes_fringe]
  · refine ⟨.leaf p v,?_,⟨h.canonical,h.family,h.sub,?_⟩,routes_leaf h.sub⟩
    · have : ¬((relKey (w ++ [o]) p).1,p.key.2) = ([],BaseIndex.one) := hf
      simp [this]
    · rw [hk]
      intro he
      apply hf
      simpa [Prod.ext_iff] using he

/-- A child either is the route itself and gets the new value, or it is a path
node, or it is another route. -/
theorem Child.replaceValue_spec {o : UInt8} {c : Child (Node T) T}
    (hc : c.WF fam left (w ++ [o])) (h : Below fam (w ++ [o]) p) (v : T) :
    (∃ old c', c.replaceValue w.length p v = .ok (some (old,c')) ∧ c'.WF fam left (w ++ [o]) ∧
      c.routes (w ++ [o]) (relKey (w ++ [o]) p) = some old ∧
      c'.routes (w ++ [o]) =
        update (c.routes (w ++ [o])) (relKey (w ++ [o]) p) (some v)) ∨
    c.replaceValue w.length p v = .ok none ∧
      (c.intoNode = none → relKey (w ++ [o]) p ∉ live (c.routes (w ++ [o]))) := by
  cases c with
  | path n => exact .inr ⟨rfl,fun h => by cases h⟩
  | leaf q old =>
    obtain ⟨hcan,hfam,hsub,hne⟩ := hc
    by_cases hq : p = q
    · subst hq
      refine .inl ⟨old,.leaf p v,?_,⟨hcan,hfam,hsub,hne⟩,?_,?_⟩
      · simp [replaceValue]
      · rw [routes_leaf hsub]
        simp
      · rw [routes_leaf hsub,routes_leaf hsub,update_idem]
    · refine .inr ⟨?_,fun _ => ?_⟩
      · simp [replaceValue,hq]
      · have hk : relKey (w ++ [o]) p ≠ relKey (w ++ [o]) q :=
          fun he => hq (h.ext ⟨hcan,hfam,hsub⟩ he)
        simp [live,routes_leaf hsub,hk]
  | fringe old =>
    have hk := h.key
    rw [replaceValue,isFringe_eq (show p.key.1 = w ++ o::(relKey (w ++ [o]) p).1 by simp [hk])]
    by_cases hf : relKey (w ++ [o]) p = ([],.one)
    · refine .inl ⟨old,.fringe v,?_,trivial,?_,?_⟩
      · simp [← hf,relKey]
      · rw [hf,routes_fringe]
        simp
      · rw [hf,routes_fringe,routes_fringe,update_idem]
    · refine .inr ⟨?_,fun _ => ?_⟩
      · have : ¬((relKey (w ++ [o]) p).1,p.key.2) = ([],BaseIndex.one) := hf
        simp [this]
      · simp [live,routes_fringe,hf]

variable {node : Node T}

/-- Splitting a child keeps its content. -/
theorem Node.splitChild_spec {o : UInt8} {c : Child (Node T) T}
    {reinsert : Node T → IpNet → T → Result (Option T × Node T)}
    (hn : node.children.WF) (hl : node.children.lookup o = some c)
    (hc : c.WF fam (left+1) (w ++ [o])) (hnode : c.intoNode = none)
    (hins : ∀ q v, Below fam (w ++ [o]) q → ∃ n, reinsert .empty q v = .ok (none,n) ∧
      n.WF fam (left+1) (w ++ [o]) ∧ n.routes (w ++ [o]) =
        update (fun _ => none) (relKey (w ++ [o]) q) (some v)) :
    ∃ node' n, node.splitChild reinsert o = .ok node' ∧ ChildUpd node node' o (some (.path n)) ∧
      n.WF fam (left+1) (w ++ [o]) ∧ n.routes (w ++ [o]) = c.routes (w ++ [o]) := by
  obtain ⟨node1,h1,hu1⟩ := insertChild_spec hn o (.path .empty)
  have hg : node1.getChild o = .ok (some (.path .empty)) := by
    rw [getChild_eq hu1.wf,hu1.lookup,if_pos rfl]
  -- the new node holds exactly the displaced route
  have hnew : ∃ n, (empty : Node T).adopt reinsert c = .ok n ∧ n.WF fam (left+1) (w ++ [o]) ∧
      n.routes (w ++ [o]) = c.routes (w ++ [o]) := by
    cases c with
    | path n => cases hnode
    | fringe old =>
      obtain ⟨n,hi,hu⟩ := insertPrefix_spec
        (show (empty : Node T).prefixes.WF from Array256.empty_wf) .one old
      refine ⟨n,by simp [adopt,hi],hu.node_wf empty_wf,?_⟩
      rw [hu.routes,routes_empty,routes_fringe]
    | leaf q v =>
      obtain ⟨n,hi,hwf,hr⟩ := hins q v ⟨hc.1,hc.2.1,hc.2.2.1⟩
      exact ⟨n,by simp [adopt,hi],hwf,by rw [hr,routes_leaf hc.2.2.1]⟩
  obtain ⟨n,hn',hwf,hr⟩ := hnew
  obtain ⟨node2,h2,hu2⟩ := insertChild_spec hu1.wf o (.path n)
  refine ⟨node2,n,?_,⟨hu2.prefixes.trans hu1.prefixes,hu2.wf,?_⟩,hwf,hr⟩
  · rw [splitChild,h1,hl]
    simp [hg,hn',h2]
  · intro j
    rw [hu2.lookup,hu1.lookup]
    split <;> rfl

omit [IpNetOps] in
theorem IpNet.fromPrefix_key {p : IpNet} {n : ℕ} (hlen : p.prefixLen/8 = n) (hlt : n < p.addr.octets.length) :
    BaseIndex.fromPrefix p.addr.octets[n] (p.prefixLen%8) = .ok p.key.2 := by
  have hr : p.key.2 = .ofBits p.addr.octets[n] ⟨p.prefixLen%8,Nat.mod_lt _ (by decide)⟩ := by
    rw [IpNet.key,keyOf,hlen]
    simp [getD_eq_getElem?_getD,hlt]
  rw [hr]
  exact BaseIndex.fromPrefix_eq _ ⟨p.prefixLen%8,Nat.mod_lt _ (by decide)⟩

/-- A prefix that ends in the stride of the node. -/
theorem Below.last (h : Below fam w p) (hk : (relKey w p).1 = [])
    (hw : w.length + (left+1) = fam.octetCount) :
    p.prefixLen/8 = w.length ∧ ∃ o, p.addr.octets[w.length]? = some o ∧
      BaseIndex.fromPrefix o (p.prefixLen%8) = .ok (relKey w p).2 := by
  have hlen : p.prefixLen/8 = w.length := by
    have := congrArg (fun k : RouteKey => k.1.length) h.key
    rw [hk] at this
    simpa [p.length_key] using this
  have hlt : w.length < p.addr.octets.length := by
    rw [p.addr.length_octets,h.family]
    omega
  exact ⟨hlen,p.addr.octets[w.length],List.getElem?_eq_getElem hlt,IpNet.fromPrefix_key hlen hlt⟩

/-- A prefix that goes on below the node. -/
theorem Below.next {o : UInt8} (h : Below fam w p) (hk : relKey w p = (o::os,i)) :
    p.addr.octets[w.length]? = some o ∧ w.length ≠ p.prefixLen/8 := by
  have hkey := h.key
  rw [hk] at hkey
  refine ⟨IpNet.octets_of_key (congrArg Prod.fst hkey),?_⟩
  have := congrArg (fun k : RouteKey => k.1.length) hkey
  simp only [p.length_key,length_append,length_cons] at this
  omega

theorem Below.drop_octets {o : UInt8} (h : Below fam w p) (hk : relKey w p = (o::os,i)) :
    p.addr.octets.drop w.length = o::p.addr.octets.drop (w ++ [o]).length := by
  obtain ⟨hlt,hget⟩ := List.getElem?_eq_some_iff.mp (h.next hk).1
  rw [drop_eq_getElem_cons hlt,hget,length_append,length_singleton]

/-- Below a path node, or a child made one, the content is that of the child. -/
theorem Node.ensurePath_spec {o : UInt8} {c : Child (Node T) T}
    (reinsert : Node T → IpNet → T → Result (Option T × Node T))
    (hn : node.children.WF) (hl : node.children.lookup o = some c)
    (hc : c.WF fam left (w ++ [o])) (h : Below fam (w ++ [o]) p)
    (hw : (w ++ [o]).length + left = fam.octetCount)
    (hnot : c.intoNode = none → relKey (w ++ [o]) p ∉ live (c.routes (w ++ [o])))
    (hins : 0 < left → ∀ q v, Below fam (w ++ [o]) q → ∃ n, reinsert .empty q v = .ok (none,n) ∧
      n.WF fam left (w ++ [o]) ∧ n.routes (w ++ [o]) =
        update (fun _ => none) (relKey (w ++ [o]) q) (some v)) (v : T) :
    ∃ node' n, node.ensurePath reinsert o c = .ok node' ∧
      ChildUpd node node' o (some (.path n)) ∧ n.WF fam left (w ++ [o]) ∧
      n.routes (w ++ [o]) = c.routes (w ++ [o]) ∧
      (live (update (c.routes (w ++ [o])) (relKey (w ++ [o]) p) (some v))).Nontrivial := by
  rcases hnode : c.intoNode with _ | n
  · have hnt := live_update_nontrivial (v := v) (hnot hnode) (live_nonempty hc)
    -- of two different routes at most one is the fringe of the path
    have hpos : 0 < left := by
      cases c with
      | path n => cases hnode
      | leaf q u =>
        have hq : Below fam (w ++ [o]) q := ⟨hc.1,hc.2.1,hc.2.2.1⟩
        refine hq.left_pos hw fun he => hc.2.2.2 ?_
        rw [hq.key,he]
        simp
      | fringe u =>
        refine h.left_pos hw fun he => hnot hnode ?_
        simp [live,routes_fringe,he]
    obtain ⟨left,rfl⟩ : ∃ m, left = m+1 := ⟨left - 1,by omega⟩
    obtain ⟨node',n,hs,hu,hwf,hr⟩ := splitChild_spec hn hl hc hnode (hins hpos)
    refine ⟨node',n,?_,hu,hwf,hr,hnt⟩
    cases c with
    | path n => cases hnode
    | leaf q u => exact hs
    | fringe u => exact hs
  · cases c with
    | leaf q u => cases hnode
    | fringe u => cases hnode
    | path n =>
      refine ⟨node,n,rfl,hl ▸ .refl hn,hc.1,rfl,?_⟩
      rw [live_update_some]
      exact hc.2.mono (Set.subset_insert _ _)

/-- Insertion returns the old value at the key and updates the content there. -/
theorem insertLoop_spec {rounds left : ℕ} (hn : node.WF fam left w)
    (h : Below fam w p) (hw : w.length + left = fam.octetCount) (hr : left ≤ rounds) (v : T) :
    ∃ node', insertLoop rounds node p v w.length = .ok (node.routes w (relKey w p),node') ∧
      node'.WF fam left w ∧
      node'.routes w = update (node.routes w) (relKey w p) (some v) := by
  induction rounds generalizing left w node p v with
  | zero =>
    have := hn.pos
    omega
  | succ rounds ih =>
    obtain ⟨left,rfl⟩ : ∃ m, left = m+1 := ⟨left - 1,by have := hn.pos; omega⟩
    obtain ⟨hpwf,hcwf,h0,hch⟩ := wf_succ.mp hn
    rcases hk : relKey w p with ⟨_ | ⟨o,os⟩,i⟩
    · -- the prefix ends in this stride
      obtain ⟨hlen,o,ho,hidx⟩ := h.last (by rw [hk]) hw
      obtain ⟨node',hi,hu⟩ := insertPrefix_spec hpwf i v
      refine ⟨node',?_,hu.node_wf hn,hu.routes⟩
      rw [hk] at hidx
      simp only [insertLoop,ho,strideCountAndOverflow,hlen,if_true,hidx,Result.bind_of_ok,hi]
      rfl
    · obtain ⟨ho,hne⟩ := h.next hk
      obtain ⟨hb,hk'⟩ := h.cons hk
      have hw' : (w ++ [o]).length + left = fam.octetCount := by
        rw [length_append,length_singleton]
        omega
      simp only [insertLoop,ho,strideCountAndOverflow,if_neg hne,getChild_eq hcwf,
        Result.bind_of_ok]
      cases hl : node.children.lookup o with
      | none =>
        -- no child yet: the route becomes a leaf or a fringe
        have ht : node.children.test o = false := by
          rw [← Array256.isSome_lookup hcwf,hl]
          rfl
        obtain ⟨c,hc,hwf,hroutes⟩ := ofRoute_spec hb v
        obtain ⟨node',hi,hu⟩ := insertChild_spec hcwf o c
        refine ⟨node',?_,hu.wf_some hn hwf,?_⟩
        · simp [ht,hc,hi,hl,routes_cons,childRoutes]
        · apply hu.routes (k := (os,i))
          rw [hl]
          exact hroutes.trans (by rw [hk']; rfl)
      | some c =>
        have ht : node.children.test o = true := by
          rw [← Array256.isSome_lookup hcwf,hl]
          rfl
        have hcw := hch o c hl
        simp only [ht,Bool.not_true,Bool.false_eq_true,if_false,Result.unwrap_some,
          Result.bind_of_ok]
        rcases replaceValue_spec hcw hb v with ⟨old,c',hrep,hwf,hold,hroutes⟩ | ⟨hrep,hnot⟩
        · obtain ⟨node',hi,hu⟩ := insertChild_spec hcwf o c'
          refine ⟨node',?_,hu.wf_some hn hwf,?_⟩
          · rw [hk'] at hold
            simp [hrep,hi,routes_cons,childRoutes,hl,hold]
          · apply hu.routes (k := (os,i))
            rw [hl]
            exact hroutes.trans (by rw [hk']; rfl)
        · -- below a path node, which the child becomes if it is not one already
          obtain ⟨node1,n,h1,hu1,hnwf,hnr,hnt⟩ := ensurePath_spec
            (fun n p v => insertLoop rounds n p v (w.length+1)) hcwf hl hcw hb hw' hnot (fun hpos q u hq => by
              obtain ⟨left,rfl⟩ : ∃ m, left = m+1 := ⟨left - 1,by omega⟩
              obtain ⟨n,hi,hwf,hr⟩ := ih
                (show (Node.empty : Node T).WF fam (left+1) (w ++ [o]) from empty_wf) hq hw' (by omega) u
              rw [routes_empty] at hi hr
              rw [length_append,length_singleton] at hi
              exact ⟨n,hi,hwf,hr⟩) v
          obtain ⟨n',hins,hnwf',hnr'⟩ := ih hnwf hb hw' (by omega) v
          obtain ⟨node2,h2,hu2⟩ := insertChild_spec hu1.wf o (.path n')
          have hu := hu1.trans hu2
          have hg : node1.getChild o = .ok (some (.path n)) := by
            rw [getChild_eq hu1.wf,hu1.lookup,if_pos rfl]
          rw [hnr] at hnr' hins
          rw [length_append,length_singleton] at hins
          refine ⟨node2,?_,hu.wf_some hn ⟨hnwf',hnr' ▸ hnt⟩,?_⟩
          · rw [routes_cons,hl,← hk']
            simp [hrep,h1,hg,Child.intoNode,hins,h2,childRoutes]
          · apply hu.routes (k := (os,i))
            rw [hl,← hk']
            exact hnr'

end
end Tailnet

import Tailnet.Bart.Insert

/-! Removal from the trie. The loop walks down to the route and takes it out; if
the node it was in then holds a single route, the chain of nodes above it that
hold nothing else is cut off and the surviving route moves up. -/
namespace Tailnet
open Function Array256 Node

/-- The octets of a path: those above `depth`, then `octet`, then zeros. -/
def stridePath (pathOctets : List UInt8) (depth : ℕ) (octet : UInt8) : Vector UInt8 16 :=
  Vector.ofFn fun i =>
    if depth < i.val then 0 else if i.val = depth then octet else pathOctets.getD i.val 0

def ipFromPath (path : Vector UInt8 16) (is4 : Bool) : IpAddr :=
  if is4 then ⟨.v4,path.toList.take 4,by simp [Family.octetCount]⟩
  else ⟨.v6,path.toList,by simp [Family.octetCount]⟩

def prefixFromPath (pathOctets : List UInt8) (depth : ℕ) (ipv4 : Bool) (idx : BaseIndex) :
    Result IpNet :=
  let depth := depth &&& (maxDepth - 1)
  let (octet,idxLen) := idx.octetPrefix
  IpNet.newAssert (ipFromPath (stridePath pathOctets depth octet) ipv4) (depth*8 + idxLen)

def fringePrefix (pathOctets : List UInt8) (depth : ℕ) (ipv4 : Bool) (lastOctet : UInt8) :
    Result IpNet :=
  let depth := depth &&& (maxDepth - 1)
  IpNet.newAssert (ipFromPath (stridePath pathOctets depth lastOctet) ipv4) ((depth+1)*8)

/-- A route taken out of its node, to be put back at the compression root. -/
structure RemovalInfo (T : Type) where
  value : T
  compressionRootDepth : ℕ
  nodePrefix : IpNet

/-- How the child at the next octet relates to a prefix: it is another route, it
is the route itself, or the route may be below it. -/
inductive ChildMatch
  | other | route | below

section Definitions
variable {T : Type}

def Child.matchRoute (depth : ℕ) (p : IpNet) : Child (Node T) T → Result ChildMatch
  | .leaf leafPfx _ => return if leafPfx ≠ p then .other else .route
  | .fringe _ => do return if !(← isFringe depth p) then .other else .route
  | .path _ => return .below

/-- The only prefix of a node, as the route it stands for. -/
def takeLastPrefix (node : Node T) (octets : List UInt8) (depth : ℕ) (ipv4 : Bool)
    (compressionRootDepth : ℕ) : Result (Option (RemovalInfo T) × Node T) := do
  let idx ← Result.unwrap node.prefixes.bitset.firstSet
  let idx ← BaseIndex.new (UInt8.ofNat idx)
  let (value,node) ← node.removePrefix idx
  let value ← Result.unwrap value
  let nodePrefix ← prefixFromPath octets depth ipv4 idx
  return (some ⟨value,compressionRootDepth,nodePrefix⟩,node)

/-- The only child of a node, unless it is a path node. -/
def takeLastChild (node : Node T) (octets : List UInt8) (depth : ℕ) (ipv4 : Bool)
    (compressionRootDepth : ℕ) : Result (Option (RemovalInfo T) × Node T) := do
  let addr ← Result.unwrap node.children.bitset.firstSet
  let addr := UInt8.ofNat addr
  match ← Result.unwrap (← node.getChild addr) with
  | .path _ => return (none,node)
  | _ => do
    let (child,node) ← node.removeChild addr
    match ← Result.unwrap child with
    | .fringe value => do
      let nodePrefix ← fringePrefix octets depth ipv4 addr
      return (some ⟨value,compressionRootDepth,nodePrefix⟩,node)
    | .leaf leafPfx value => return (some ⟨value,compressionRootDepth,leafPfx⟩,node)
    | .path _ => throw .unreachable

def tryRemoveLastChild (node : Node T) (octets : List UInt8) (depth : ℕ) (ipv4 : Bool)
    (compressionRootDepth : ℕ) : Result (Option (RemovalInfo T) × Node T) :=
  if depth = compressionRootDepth then return (none,node)
  else match node.childCount,node.prefixCount with
    | 0,1 => takeLastPrefix node octets depth ipv4 compressionRootDepth
    | 1,0 => takeLastChild node octets depth ipv4 compressionRootDepth
    | _,_ => return (none,node)

/-- A node with one child and no prefix goes away with its child. -/
def Node.isDeletable (node : Node T) : Bool := node.childCount == 1 && node.prefixCount == 0

/-- The loop of `remove_inner` over the octets from `depth` on. -/
def removeLoop (octets : List UInt8) (pfx : IpNet) : List UInt8 → ℕ → ℕ → Node T →
    Result (Option T × Option (RemovalInfo T) × Node T)
  | [],_,_,node => return (none,none,node)
  | octet::rest,depth,compressionRootDepth,node =>
    let (strides,overflowBits) := strideCountAndOverflow pfx
    if depth = strides then do
      let (ret,node) ← node.removePrefix (← BaseIndex.fromPrefix octet overflowBits)
      let (info,node) ← tryRemoveLastChild node octets depth pfx.addr.isIpv4 compressionRootDepth
      return (ret,info,node)
    else do
      match ← node.getChild octet with
      | none => return (none,none,node)
      | some child =>
        match ← child.matchRoute depth pfx with
        | .other => return (none,none,node)
        | .route => do
          let (child,node) ← node.removeChild octet
          let child ← Result.unwrap child
          let (info,node) ←
            tryRemoveLastChild node octets depth pfx.addr.isIpv4 compressionRootDepth
          return (child.intoValue,info,node)
        | .below => do
          let compressionRootDepth := if node.isDeletable then compressionRootDepth else depth
          let next ← Result.unwrap (← node.getChild octet)
          let next ← Result.unwrap next.intoNode
          let (ret,info,next) ← removeLoop octets pfx rest (depth+1) compressionRootDepth next
          let (_,node) ← node.insertChild octet (.path next)
          return (ret,info,node)

/-- Walk down to the compression root, cut the chain off and insert the route. -/
def compressLoop (info : RemovalInfo T) (octets : List UInt8) : List UInt8 → Node T →
    Result (Node T)
  | [],node => do
    let addr ← Result.index octets info.compressionRootDepth
    let (removed,node) ← node.removeChild addr
    Result.assert removed.isSome
    Prod.snd <$> insertInner node info.nodePrefix info.value info.compressionRootDepth
  | octet::rest,node => do
    let next ← Result.unwrap (← node.getChild octet)
    let next ← Result.unwrap next.intoNode
    let next ← compressLoop info octets rest next
    Prod.snd <$> node.insertChild octet (.path next)

def compressRemovalPath (root : Node T) (info : RemovalInfo T) : Result (Node T) := do
  let octets := info.nodePrefix.addr.octets
  if info.compressionRootDepth ≤ octets.length then
    compressLoop info octets (octets.take info.compressionRootDepth) root
  else
    throw .indexOutOfBounds

/-- Finish a removal or modification at the root. -/
def compressRemoval (root : Node T) : Option (RemovalInfo T) → Result (Node T)
  | none => .ok root
  | some info => compressRemovalPath root info

end Definitions

def Node.remove [IpNetOps] {T : Type} (node : Node T) (pfx : IpNet) :
    Result (Option T × Node T) := do
  let pfx := pfx.trunc
  let octets := pfx.addr.octets
  let (ret,removal,node) ← removeLoop octets pfx octets 0 0 node
  let node ← compressRemoval node removal
  return (ret,node)

section Reconstruct
variable {fam : Family}

theorem getD_ipFromPath (os : List UInt8) (d : ℕ) (o : UInt8) {i : ℕ} (hi : i < fam.octetCount) :
    (ipFromPath (stridePath os d o) (fam == .v4)).octets.getD i 0 =
      if d < i then 0 else if i = d then o else os.getD i 0 := by
  cases fam with
  | v4 =>
    have hi' : i < 4 := hi
    simp [ipFromPath,stridePath,List.getD_eq_getElem?_getD,hi']
  | v6 =>
    have hi' : i < 16 := hi
    simp [ipFromPath,stridePath,List.getD_eq_getElem?_getD,hi']

theorem family_ipFromPath (path : Vector UInt8 16) : (ipFromPath path (fam == .v4)).family = fam := by
  cases fam <;> rfl

theorem take_ipFromPath {os : List UInt8} {d m : ℕ} {o : UInt8} (hd : d < fam.octetCount)
    (hm : m ≤ d) (hos : d ≤ os.length) :
    (ipFromPath (stridePath os d o) (fam == .v4)).octets.take m = os.take m := by
  have hlen := (ipFromPath (stridePath os d o) (fam == .v4)).length_octets
  rw [family_ipFromPath] at hlen
  apply List.ext_getElem
  · rw [List.length_take,List.length_take]
    omega
  · intro i h₁ h₂
    rw [List.length_take] at h₁ h₂
    have hg := getD_ipFromPath os d o (show i < fam.octetCount by omega)
    rw [if_neg (by omega),if_neg (by omega),List.getD_eq_getElem?_getD,List.getD_eq_getElem?_getD,
      List.getElem?_eq_getElem (by omega),List.getElem?_eq_getElem (by omega)] at hg
    simpa using hg

theorem bit_octetPrefix (i : BaseIndex) {j : ℕ} (hj : i.octetPrefix.2 ≤ j) (hj8 : j < 8) :
    i.octetPrefix.1.toNat.testBit (7 - j) = false := by
  rw [BaseIndex.octetPrefix_fst,Nat.testBit_mul_two_pow]
  rw [BaseIndex.octetPrefix_snd] at hj
  have := i.len_bounds
  simp only [Bool.and_eq_false_imp,decide_eq_true_eq]
  omega

theorem depth_mask {d : ℕ} (hd : d < fam.octetCount) : d &&& (maxDepth - 1) = d := by
  have h16 : d < 16 := lt_of_lt_of_le hd (by cases fam <;> decide)
  rw [show maxDepth - 1 = 2^4 - 1 from rfl,Nat.and_two_pow_sub_one_eq_mod,Nat.mod_eq_of_lt h16]

variable [IpNetOps]

theorem canonical_ipFromPath {os : List UInt8} {d n : ℕ} {o : UInt8}
    (hle : n ≤ 8*(ipFromPath (stridePath os d o) (fam == .v4)).octets.length) (hn : 8*d ≤ n)
    (ho : ∀ j < 8, n ≤ 8*d + j → o.toNat.testBit (7 - j) = false) :
    (IpNet.mk (ipFromPath (stridePath os d o) (fam == .v4)) n hle).Canonical := by
  have hlen := (ipFromPath (stridePath os d o) (fam == .v4)).length_octets
  rw [family_ipFromPath] at hlen
  rw [IpNet.canonical_iff]
  intro k hk
  simp only at hk
  rw [IpAddr.bit,bitAt]
  rcases Nat.lt_or_ge (k/8) fam.octetCount with hlt | hge
  · rw [getD_ipFromPath _ _ _ hlt]
    split
    · simp
    · rw [if_pos (by omega)]
      exact ho _ (by omega) (by omega)
  · rw [List.getD_eq_default _ _ (hlen.trans_le hge)]
    simp

/-- The route a prefix entry stands for, from the octets on the way to its node. -/
theorem prefixFromPath_spec {octets w : List UInt8} (hd : w.length < fam.octetCount)
    (hw : w <+: octets) (idx : BaseIndex) :
    ∃ q, prefixFromPath octets w.length (fam == .v4) idx = .ok q ∧ q.Canonical ∧
      q.addr.family = fam ∧ q.key = (w,idx) := by
  have hlen := (ipFromPath (stridePath octets w.length idx.octetPrefix.1) (fam == .v4)).length_octets
  rw [family_ipFromPath] at hlen
  have hl8 : idx.octetPrefix.2 < 8 := by
    rw [BaseIndex.octetPrefix_snd]
    have := idx.len_bounds
    omega
  have hle : w.length*8 + idx.octetPrefix.2 ≤
      8*(ipFromPath (stridePath octets w.length idx.octetPrefix.1) (fam == .v4)).octets.length := by
    omega
  refine ⟨⟨_,w.length*8 + idx.octetPrefix.2,hle⟩,?_,canonical_ipFromPath hle (by omega) ?_,
    family_ipFromPath _,?_⟩
  · simp only [prefixFromPath,depth_mask hd,IpNet.newAssert,dif_pos hle]
  · intro j hj hle'
    exact bit_octetPrefix idx (by omega) hj
  · have hdiv : (w.length*8 + idx.octetPrefix.2)/8 = w.length := by omega
    have hmod : (w.length*8 + idx.octetPrefix.2)%8 = idx.octetPrefix.2 := by omega
    rw [IpNet.key,keyOf]
    simp only [hdiv,hmod]
    rw [take_ipFromPath hd le_rfl hw.length_le,← List.prefix_iff_eq_take.mp hw,
      getD_ipFromPath _ _ _ hd,if_neg (by omega),if_pos rfl,
      BaseIndex.ofBits_octetPrefix idx hl8]

theorem fringePrefix_spec {octets w : List UInt8} (hd : w.length < fam.octetCount)
    (hw : w <+: octets) (o : UInt8) :
    ∃ q, fringePrefix octets w.length (fam == .v4) o = .ok q ∧ q.Canonical ∧
      q.addr.family = fam ∧ q.key = (w ++ [o],.one) := by
  have hlen := (ipFromPath (stridePath octets w.length o) (fam == .v4)).length_octets
  rw [family_ipFromPath] at hlen
  have hle : (w.length+1)*8 ≤
      8*(ipFromPath (stridePath octets w.length o) (fam == .v4)).octets.length := by
    omega
  refine ⟨⟨_,(w.length+1)*8,hle⟩,?_,canonical_ipFromPath hle (by omega) ?_,
    family_ipFromPath _,?_⟩
  · simp only [fringePrefix,depth_mask hd,IpNet.newAssert,dif_pos hle]
  · intro j hj hle'
    omega
  · have hdiv : (w.length+1)*8/8 = w.length+1 := by omega
    have hmod : (w.length+1)*8%8 = 0 := by omega
    rw [IpNet.key,keyOf]
    simp only [hdiv,hmod]
    have hg := getD_ipFromPath octets w.length o hd
    rw [if_neg (by omega),if_pos rfl,List.getD_eq_getElem?_getD,
      List.getElem?_eq_getElem (by omega),Option.getD_some] at hg
    rw [List.take_succ_eq_append_getElem (by omega),hg,take_ipFromPath hd le_rfl hw.length_le,
      ← List.prefix_iff_eq_take.mp hw]
    exact Prod.ext rfl (BaseIndex.ofBits_zero _)

end Reconstruct
section Content
variable {T : Type} {fam : Family} {left : ℕ} {w : List UInt8} {node : Node T}

theorem live_update_none {f : RouteKey → Option T} {k : RouteKey} :
    live (update f k none) = live f \ {k} := by
  ext k'
  by_cases h : k' = k
  · simp [live,h]
  · simp [live,h]

theorem mem_live_own {i : UInt8} {v : T} (h : node.prefixes.lookup i = some v) (hi : i ≠ 0) :
    ([],BaseIndex.mk i hi) ∈ live (node.routes w) := by
  simp [live,routes_nil,h]

variable {o : UInt8}

theorem mem_live_child {c : Child (Node T) T} (h : node.children.lookup o = some c)
    {k : RouteKey} (hk : k ∈ live (c.routes (w ++ [o]))) :
    (o::k.1,k.2) ∈ live (node.routes w) := by
  change node.routes w (o::k.1,k.2) ≠ none
  rw [routes_cons,h]
  exact hk

theorem Node.childRoutes_of_notMem (h : node.children.lookup o = none) :
    childRoutes w o (node.children.lookup o) = fun _ => none := by
  rw [h]
  rfl

/-- A node whose entries are all below one octet has the content of that child. -/
theorem Node.update_single (hp : ∀ i, node.prefixes.lookup i = none)
    (ho : ∀ j, j ≠ o → node.children.lookup j = none) {k k' : RouteKey} {v : Option T} {u : T}
    (hr : update (childRoutes w o (node.children.lookup o)) k v =
      update (fun _ => none) k' (some u)) :
    update (node.routes w) (o::k.1,k.2) v =
      update (fun _ => none) (o::k'.1,k'.2) (some u) := by
  apply ext_below o
  · intro i
    rw [update_of_ne (by simp),update_of_ne (by simp)]
    exact hp i.val
  · intro o' os i he
    rw [update_of_ne (by simp [he]),update_of_ne (by simp [he]),
      routes_cons,childRoutes_of_notMem (ho o' he)]
  · rw [update_below,update_below,routes_below,hr]

theorem Node.routes_single {ch : Child (Node T) T}
    (hp : ∀ i, node.prefixes.lookup i = none) (hl : node.children.lookup o = some ch)
    (ho : ∀ j, j ≠ o → node.children.lookup j = none) {k : RouteKey} {v : T}
    (hr : ch.routes (w ++ [o]) = update (fun _ => none) k (some v)) :
    node.routes w = update (fun _ => none) (o::k.1,k.2) (some v) := by
  have hc : childRoutes w o (node.children.lookup o) k = some v := by
    rw [hl]
    exact (congrFun hr k).trans (by simp)
  rw [← update_eq_self (o::k.1,k.2) (node.routes w),routes_cons,hc]
  apply update_single hp ho
  rw [← hc,update_eq_self,hc,hl]
  exact hr

theorem live_nontrivial_of_child {node' n : Node T}
    (hu : Node.ChildUpd node node' o (some (.path n)))
    (h : (live (n.routes (w ++ [o]))).Nontrivial) : (live (node'.routes w)).Nontrivial := by
  obtain ⟨k,hk,k',hk',hne⟩ := h
  have hl : node'.children.lookup o = some (.path n) := by rw [hu.lookup,if_pos rfl]
  refine ⟨_,mem_live_child hl hk,_,mem_live_child hl hk',?_⟩
  intro he
  apply hne
  simpa [Prod.ext_iff] using he

variable [IpNetOps]

theorem Node.WF.lookup_zero (h : node.WF fam (left+1) w) : node.prefixes.lookup 0 = none := by
  obtain ⟨_,_,h0,_⟩ := wf_succ.mp h
  exact lookup_of_not_test h0

theorem Node.WF.child_live (h : node.WF fam (left+1) w) {c : Child (Node T) T}
    (hl : node.children.lookup o = some c) : ∃ k : RouteKey, (o::k.1,k.2) ∈ live (node.routes w) := by
  obtain ⟨_,_,_,hch⟩ := wf_succ.mp h
  obtain ⟨k,hk⟩ := Child.live_nonempty (hch o c hl)
  exact ⟨k,mem_live_child hl hk⟩

theorem Node.WF.prefix_live (h : node.WF fam (left+1) w) {i : UInt8} {v : T}
    (hl : node.prefixes.lookup i = some v) : ∃ j : BaseIndex, j.val = i ∧ ([],j) ∈ live (node.routes w) := by
  have hi : i ≠ 0 := by
    rintro rfl
    rw [h.lookup_zero] at hl
    cases hl
  exact ⟨⟨i,hi⟩,rfl,mem_live_own hl hi⟩

theorem Node.WF.live_nontrivial (h : node.WF fam (left+1) w)
    (h2 : 2 ≤ node.childCount + node.prefixCount) : (live (node.routes w)).Nontrivial := by
  obtain ⟨hp,hc,_,_⟩ := wf_succ.mp h
  rcases Nat.eq_zero_or_pos node.childCount with h0 | h0
  · have hpc : 2 ≤ node.prefixes.len := by
      rw [h0,Nat.zero_add] at h2
      exact h2
    obtain ⟨i,v,_,hi⟩ := exists_ne hp hpc 0
    obtain ⟨j,u,hji,hj⟩ := exists_ne hp hpc i
    obtain ⟨bi,rfl,hbi⟩ := h.prefix_live hi
    obtain ⟨bj,rfl,hbj⟩ := h.prefix_live hj
    refine ⟨_,hbi,_,hbj,?_⟩
    intro he
    cases he
    exact hji rfl
  · obtain ⟨o,c,ho⟩ := exists_of_len_ne_zero hc (Nat.pos_iff_ne_zero.mp h0)
    obtain ⟨k,hk⟩ := h.child_live ho
    rcases Nat.eq_zero_or_pos node.prefixCount with hp0 | hp0
    · obtain ⟨o',c',hne,ho'⟩ := exists_ne hc (show 2 ≤ node.children.len by
        rw [hp0,Nat.add_zero] at h2
        exact h2) o
      obtain ⟨k',hk'⟩ := h.child_live ho'
      refine ⟨_,hk,_,hk',?_⟩
      intro he
      exact hne (List.cons.inj (congrArg Prod.fst he)).1.symm
    · obtain ⟨i,v,hi⟩ := exists_of_len_ne_zero hp (Nat.pos_iff_ne_zero.mp hp0)
      obtain ⟨bi,_,hbi⟩ := h.prefix_live hi
      exact ⟨_,hk,_,hbi,by simp⟩

theorem Node.WF.eq_empty (h : node.WF fam (left+1) w) (hc : node.childCount = 0)
    (hp : node.prefixCount = 0) : live (node.routes w) = ∅ := by
  obtain ⟨hpwf,hcwf,_,_⟩ := wf_succ.mp h
  rw [Set.eq_empty_iff_forall_notMem]
  rintro ⟨os,i⟩ hk
  apply hk
  cases os with
  | nil => exact (len_eq_zero hpwf).mp hp i.val
  | cons o os =>
    rw [routes_cons,childRoutes_of_notMem ((len_eq_zero hcwf).mp hc o)]

end Content

/-- What a removal or modification leaves at a node: the content `f` of the node
with the key `k` set to `v`, at once (`done`) or after the walk from this node down
to the compression root (`compress`); or, when the root is above, the information
about the single route that is left (`pending`). -/
inductive Outcome [IpNetOps] {T : Type} (fam : Family) (left : ℕ) (w : List UInt8) (c : ℕ)
    (f : RouteKey → Option T) (k : RouteKey) (v : Option T) : Option (RemovalInfo T) → Node T → Prop
  | done (node : Node T) (wf : node.WF fam left w) (routes : node.routes w = update f k v)
      (two : c < w.length → (live (update f k v)).Nontrivial) :
      Outcome fam left w c f k v none node
  | compress (info : RemovalInfo T) (node node' : Node T) (depth : w.length ≤ info.compressionRootDepth)
      (lt : info.compressionRootDepth < fam.octetCount) (below : Below fam w info.nodePrefix)
      (run : compressLoop info info.nodePrefix.addr.octets
        ((info.nodePrefix.addr.octets.take info.compressionRootDepth).drop w.length) node = .ok node')
      (wf : node'.WF fam left w) (routes : node'.routes w = update f k v)
      (two : c < w.length → (live (update f k v)).Nontrivial) :
      Outcome fam left w c f k v (some info) node
  | pending (info : RemovalInfo T) (node : Node T) (root : info.compressionRootDepth = c)
      (lt : c < w.length) (below : Below fam w info.nodePrefix)
      (single : update f k v =
        update (fun _ => none) (relKey w info.nodePrefix) (some info.value)) :
      Outcome fam left w c f k v (some info) node

section Last
variable [IpNetOps] {T : Type} {fam : Family} {left c : ℕ} {w octets : List UInt8} {node : Node T}

theorem Below.init {o : UInt8} {p : IpNet} (h : Below fam (w ++ [o]) p) :
    Below fam w p ∧ relKey w p = (o::(relKey (w ++ [o]) p).1,(relKey (w ++ [o]) p).2) := by
  refine ⟨⟨h.canonical,h.family,(List.prefix_append _ _).trans h.sub⟩,?_⟩
  rw [relKey,h.key]
  simp

theorem takeLastPrefix_spec (h : node.WF fam (left+1) w) (hw : w <+: octets)
    (hd : w.length < fam.octetCount) (hc : node.childCount = 0) (hp : node.prefixCount = 1) :
    ∃ info node', takeLastPrefix node octets w.length (fam == .v4) c = .ok (some info,node') ∧
      info.compressionRootDepth = c ∧ Below fam w info.nodePrefix ∧
      node.routes w = update (fun _ => none) (relKey w info.nodePrefix) (some info.value) := by
  obtain ⟨hpwf,hcwf,_,_⟩ := wf_succ.mp h
  obtain ⟨i,v,hfirst,hi,hother⟩ := len_eq_one hpwf hp
  obtain ⟨idx,rfl,_⟩ := h.prefix_live hi
  obtain ⟨node',hrem,_⟩ := removePrefix_spec hpwf idx
  obtain ⟨q,hq,hcan,hfam,hkey⟩ := prefixFromPath_spec hd hw idx
  have hrel : relKey w q = ([],idx) := by
    rw [relKey,hkey]
    simp
  refine ⟨⟨v,c,q⟩,node',?_,rfl,⟨hcan,hfam,by rw [hkey]⟩,?_⟩
  · simp [takeLastPrefix,hfirst,hrem,hi,hq]
  · rw [hrel]
    funext k
    obtain ⟨os,j⟩ := k
    cases os with
    | nil =>
      by_cases hj : j = idx
      · subst hj
        simp [routes_nil,hi]
      · rw [update_of_ne (by simpa using hj)]
        exact hother j.val (fun he => hj (BaseIndex.ext he))
    | cons o os =>
      rw [update_of_ne (by simp),routes_cons,
        childRoutes_of_notMem ((len_eq_zero hcwf).mp hc o)]

theorem takeLastChild_spec (h : node.WF fam (left+1) w) (hw : w <+: octets)
    (hd : w.length < fam.octetCount) (hc : node.childCount = 1) (hp : node.prefixCount = 0) :
    (takeLastChild node octets w.length (fam == .v4) c = .ok (none,node) ∧
      (live (node.routes w)).Nontrivial) ∨
    ∃ info node', takeLastChild node octets w.length (fam == .v4) c = .ok (some info,node') ∧
      info.compressionRootDepth = c ∧ Below fam w info.nodePrefix ∧
      node.routes w = update (fun _ => none) (relKey w info.nodePrefix) (some info.value) := by
  obtain ⟨hpwf,hcwf,_,hch⟩ := wf_succ.mp h
  obtain ⟨o,ch,hfirst,ho,hother⟩ := len_eq_one hcwf hc
  have hnone := (len_eq_zero hpwf).mp hp
  have hcw := hch o ch ho
  have hof : UInt8.ofNat o.toNat = o := by simp
  obtain ⟨node',hrem,_⟩ := removeChild_spec hcwf o
  cases ch with
  | path n =>
    refine .inl ⟨by simp [takeLastChild,hfirst,getChild_eq hcwf,ho],?_⟩
    obtain ⟨k,hk,k',hk',hne⟩ := hcw.2
    refine ⟨_,mem_live_child ho hk,_,mem_live_child ho hk',?_⟩
    intro he
    apply hne
    simpa [Prod.ext_iff] using he
  | leaf q v =>
    obtain ⟨hcan,hfam,hsub,_⟩ := hcw
    have hb : Below fam w q := ⟨hcan,hfam,(List.prefix_append _ _).trans hsub⟩
    refine .inr ⟨⟨v,c,q⟩,node',?_,rfl,hb,?_⟩
    · simp [takeLastChild,hfirst,getChild_eq hcwf,ho,hrem]
    · rw [(Below.init ⟨hcan,hfam,hsub⟩).2]
      apply routes_single hnone ho hother
      exact Child.routes_leaf hsub
  | fringe v =>
    obtain ⟨q,hq,hcan,hfam,hkey⟩ := fringePrefix_spec hd hw o
    refine .inr ⟨⟨v,c,q⟩,node',?_,rfl,⟨hcan,hfam,by rw [hkey]; exact List.prefix_append _ _⟩,?_⟩
    · simp [takeLastChild,hfirst,getChild_eq hcwf,ho,hrem,hq]
    · have hr : relKey w q = ([o],.one) := by
        rw [relKey,hkey]
        simp
      rw [hr]
      exact routes_single hnone ho hother Child.routes_fringe

/-- After the route is gone from its node, the node keeps its content or gives its
last route up. -/
theorem tryRemoveLastChild_outcome {f : RouteKey → Option T} {k : RouteKey}
    (h : node.WF fam (left+1) w) (hw : w <+: octets) (hd : w.length < fam.octetCount)
    (hr : node.routes w = update f k none) (hc : c ≤ w.length)
    (hf : c < w.length → (live f).Nontrivial) :
    ∃ info node', tryRemoveLastChild node octets w.length (fam == .v4) c = .ok (info,node') ∧
      Outcome fam (left+1) w c f k none info node' := by
  rw [tryRemoveLastChild]
  split
  · rename_i he
    exact ⟨none,node,rfl,.done node h hr (fun hlt => by omega)⟩
  · rename_i hne
    have hlt : c < w.length := by omega
    have hne : (live (node.routes w)).Nonempty := by
      rw [hr,live_update_none]
      obtain ⟨k',hk',hkk⟩ := (hf hlt).exists_ne k
      exact ⟨k',hk',hkk⟩
    split
    · rename_i hc0 hp1
      obtain ⟨info,node',hrun,hroot,hb,hs⟩ := takeLastPrefix_spec (c := c) h hw hd hc0 hp1
      exact ⟨some info,node',hrun,.pending info node' hroot hlt hb (hr ▸ hs)⟩
    · rename_i hc1 hp0
      rcases takeLastChild_spec (c := c) h hw hd hc1 hp0 with ⟨hrun,hnt⟩ | ⟨info,node',hrun,hroot,hb,hs⟩
      · exact ⟨none,node,hrun,.done node h hr (fun _ => hr ▸ hnt)⟩
      · exact ⟨some info,node',hrun,.pending info node' hroot hlt hb (hr ▸ hs)⟩
    · rename_i h01 h10
      refine ⟨none,node,rfl,.done node h hr (fun _ => hr ▸ ?_)⟩
      rcases Nat.lt_or_ge (node.childCount + node.prefixCount) 2 with h2 | h2
      · -- the node would be empty, but a second route was left
        have hz : node.childCount = 0 ∧ node.prefixCount = 0 := by
          rcases Nat.eq_zero_or_pos node.childCount with h0 | h0
          · rcases Nat.eq_zero_or_pos node.prefixCount with h0' | h0'
            · exact ⟨h0,h0'⟩
            · exact absurd (show node.prefixCount = 1 by omega) (h01 h0)
          · exact absurd (show node.prefixCount = 0 by omega) (h10 (by omega))
        rw [h.eq_empty hz.1 hz.2] at hne
        exact absurd hne Set.not_nonempty_empty
      · exact h.live_nontrivial h2

end Last
section Descend
variable [IpNetOps] {T : Type} {fam : Family} {left c : ℕ} {w : List UInt8} {o : UInt8}
  {node node' n : Node T} {k : RouteKey} {v : Option T} {info : RemovalInfo T}

theorem Below.octet {p : IpNet} (h : Below fam (w ++ [o]) p) :
    p.addr.octets[w.length]? = some o := by
  obtain ⟨hb,hk⟩ := h.init
  exact (hb.next hk).1

/-- The walk of the compression at its root: the child is cut off and the single
route below it comes back as an entry of this node. -/
theorem compressLoop_here (h : node.WF fam (left+1) w) (hl : node.children.lookup o = some (.path n))
    (hw : w.length + (left+1) = fam.octetCount) {ch : Option (Child (Node T) T)} (hch : ch.isSome)
    (hu : Node.ChildUpd node node' o ch) (hroot : info.compressionRootDepth = w.length)
    (hb : Below fam (w ++ [o]) info.nodePrefix)
    (hs : update (n.routes (w ++ [o])) k v = update (fun _ => none)
      (relKey (w ++ [o]) info.nodePrefix) (some info.value)) :
    ∃ node'', compressLoop info info.nodePrefix.addr.octets [] node' = .ok node'' ∧
      node''.WF fam (left+1) w ∧
      node''.routes w = update (node.routes w) (o::k.1,k.2) v := by
  obtain ⟨hb',hk⟩ := hb.init
  obtain ⟨node1,hrem,hu1⟩ := removeChild_spec hu.wf o
  have hu' := hu.trans hu1
  obtain ⟨node2,hins,hwf,hr⟩ := insertLoop_spec (hu'.wf_none h) hb' hw
    (show left+1 ≤ maxDepth - w.length by
      have : fam.octetCount ≤ maxDepth := by cases fam <;> decide
      omega) info.value
  refine ⟨node2,?_,hwf,?_⟩
  · simp [compressLoop,hroot,Result.index_of_getElem? hb.octet,hrem,hu.lookup,hch,insertInner,hins]
  · rw [hr,hk]
    apply ext_below o
    · intro i
      rw [update_of_ne (by simp),update_of_ne (by simp),routes_nil,
        hu'.prefixes,routes_nil]
    · intro o' os i ho
      rw [update_of_ne (by simp [ho]),update_of_ne (by simp [ho]),
        hu'.routes_cons_of_ne ho]
    · rw [update_below,update_below,routes_below,routes_below,hu'.lookup,
        if_pos rfl,hl]
      exact hs.symm

theorem live_nontrivial_of_not_deletable (h : node.WF fam (left+1) w)
    (hl : node.children.lookup o = some (.path n)) (hdel : node.isDeletable = false)
    (hne : (live (update (n.routes (w ++ [o])) k v)).Nonempty) :
    (live (update (node.routes w) (o::k.1,k.2) v)).Nontrivial := by
  obtain ⟨hpwf,hcwf,_,hch⟩ := wf_succ.mp h
  -- a route outside of the octet
  have hout : ∃ k' : RouteKey, k'.1.head? ≠ some o ∧ k' ∈ live (node.routes w) := by
    by_cases hp : node.prefixCount = 0
    · have h2 : 2 ≤ node.children.len := by
        have h0 : node.children.len ≠ 0 := by
          intro h0
          rw [(len_eq_zero hcwf).mp h0 o] at hl
          cases hl
        have h1 : node.children.len ≠ 1 := by
          intro h1
          simp [Node.isDeletable,Node.childCount,h1,hp] at hdel
        omega
      obtain ⟨o',c',hne',ho'⟩ := exists_ne hcwf h2 o
      obtain ⟨k',hk'⟩ := h.child_live ho'
      exact ⟨_,by simpa using hne',hk'⟩
    · obtain ⟨i,u,hi⟩ := exists_of_len_ne_zero hpwf hp
      obtain ⟨bi,_,hbi⟩ := h.prefix_live hi
      exact ⟨_,by simp,hbi⟩
  obtain ⟨k',hk',hlive⟩ := hout
  obtain ⟨⟨os,j⟩,hj⟩ := hne
  refine ⟨(o::os,j),?_,k',?_,?_⟩
  · change update (node.routes w) (o::k.1,k.2) v (o::os,j) ≠ none
    rw [congrFun (update_below _ o k v) (os,j),routes_below,hl]
    exact hj
  · change update (node.routes w) (o::k.1,k.2) v k' ≠ none
    rw [update_of_ne]
    · exact hlive
    · rintro rfl
      simp at hk'
  · rintro rfl
    simp at hk'

/-- The outcome below a path node gives the outcome at the node above it. -/
theorem Outcome.descend {c' : ℕ} {n' : Node T} {info : Option (RemovalInfo T)}
    (h : node.WF fam (left+1) w) (hl : node.children.lookup o = some (.path n))
    (hw : w.length + (left+1) = fam.octetCount) (hc : c ≤ w.length)
    (hc' : c' = if node.isDeletable then c else w.length)
    (hu : Node.ChildUpd node node' o (some (.path n')))
    (hout : Outcome fam left (w ++ [o]) c' (n.routes (w ++ [o])) k v info n') :
    Outcome fam (left+1) w c (node.routes w) (o::k.1,k.2) v info node' := by
  have hlt : c' < (w ++ [o]).length := by
    rw [hc',List.length_append,List.length_singleton]
    split <;> omega
  cases hout with
  | done _ wf routes two =>
    have hnt := two hlt
    rw [← routes] at hnt
    have hr : node'.routes w = update (node.routes w) (o::k.1,k.2) v := by
      apply hu.routes
      rw [hl]
      exact routes
    exact .done node' (hu.wf_some h ⟨wf,hnt⟩) hr (fun _ => hr ▸ live_nontrivial_of_child hu hnt)
  | compress inf _ n'' depth lt below run wf routes two =>
    have hnt := two hlt
    rw [← routes] at hnt
    obtain ⟨node'',hins,hu'⟩ := insertChild_spec hu.wf o (.path n'')
    have huu := hu.trans hu'
    have hr : node''.routes w = update (node.routes w) (o::k.1,k.2) v := by
      apply huu.routes
      rw [hl]
      exact routes
    rw [List.length_append,List.length_singleton] at depth run
    refine .compress inf node' node'' (by omega) lt below.init.1 ?_ (huu.wf_some h ⟨wf,hnt⟩) hr
      (fun _ => hr ▸ live_nontrivial_of_child huu hnt)
    -- the walk takes one step through this node first
    have hg : (inf.nodePrefix.addr.octets.take inf.compressionRootDepth)[w.length]? = some o := by
      rw [List.getElem?_take,if_pos (by omega),below.octet]
    obtain ⟨hlen,hget⟩ := List.getElem?_eq_some_iff.mp hg
    rw [List.drop_eq_getElem_cons hlen,hget]
    simp [compressLoop,getChild_eq hu.wf,hu.lookup,Child.intoNode,run,hins]
  | pending inf _ root lt below single =>
    obtain ⟨hb,hk⟩ := below.init
    by_cases hup : node.isDeletable = true ∧ c < w.length
    · -- this node holds nothing else, so it is cut off as well
      have hroot : inf.compressionRootDepth = c := by rw [root,hc',if_pos hup.1]
      refine .pending inf node' hroot hup.2 hb ?_
      obtain ⟨hdc,hdp⟩ : node.childCount = 1 ∧ node.prefixCount = 0 := by
        simpa [Node.isDeletable] using hup.1
      obtain ⟨hpwf,hcwf,_,_⟩ := wf_succ.mp h
      obtain ⟨o1,_,_,_,hother⟩ := len_eq_one hcwf hdc
      have ho1 : o1 = o := by
        by_contra hne
        rw [hother o (Ne.symm hne)] at hl
        cases hl
      rw [hk]
      refine update_single ((len_eq_zero hpwf).mp hdp) (ho1 ▸ hother) ?_
      rw [hl]
      exact single
    · have hroot : inf.compressionRootDepth = w.length := by
        rw [root,hc']
        split
        · rename_i hd
          have : ¬ c < w.length := fun hlt => hup ⟨hd,hlt⟩
          omega
        · rfl
      obtain ⟨node'',hrun,hwf,hr⟩ := compressLoop_here h hl hw rfl hu hroot below single
      refine .compress inf node' node'' (by omega) (by omega) hb ?_ hwf hr ?_
      · rw [hroot,List.drop_of_length_le (by simp)]
        exact hrun
      · intro hclt
        apply live_nontrivial_of_not_deletable h hl
        · rw [← Bool.not_eq_true]
          exact fun hd => hup ⟨hd,hclt⟩
        · rw [single]
          exact ⟨relKey (w ++ [o]) inf.nodePrefix,by simp [live]⟩

end Descend
section Loop
variable [IpNetOps] {T : Type} {fam : Family} {left : ℕ} {w : List UInt8} {o : UInt8} {p : IpNet}

theorem Child.matchRoute_spec {c : Child (Node T) T} (hc : c.WF fam left (w ++ [o]))
    (h : Below fam (w ++ [o]) p) :
    c.matchRoute w.length p = .ok .other ∧ c.routes (w ++ [o]) (relKey (w ++ [o]) p) = none ∨
    (∃ v, c.matchRoute w.length p = .ok .route ∧ c.intoValue = some v ∧
      c.routes (w ++ [o]) = update (fun _ => none) (relKey (w ++ [o]) p) (some v)) ∨
    ∃ n, c = .path n ∧ c.matchRoute w.length p = .ok .below := by
  cases c with
  | path n => exact .inr (.inr ⟨n,rfl,rfl⟩)
  | leaf q v =>
    obtain ⟨hcan,hfam,hsub,_⟩ := hc
    rw [routes_leaf hsub]
    by_cases hq : q = p
    · subst hq
      exact .inr (.inl ⟨v,by simp [matchRoute],rfl,rfl⟩)
    · refine .inl ⟨by simp [matchRoute,hq],?_⟩
      rw [update_of_ne]
      exact fun he => hq (h.ext ⟨hcan,hfam,hsub⟩ he).symm
  | fringe v =>
    have hk := h.key
    rw [routes_fringe,matchRoute,
      isFringe_eq (show p.key.1 = w ++ o::(relKey (w ++ [o]) p).1 by simp [hk])]
    by_cases hf : relKey (w ++ [o]) p = ([],.one)
    · have h2 : p.key.2 = .one := congrArg Prod.snd hf
      rw [hf]
      exact .inr (.inl ⟨v,by simp [h2],rfl,rfl⟩)
    · have hf' : ¬((relKey (w ++ [o]) p).1,p.key.2) = ([],BaseIndex.one) := hf
      exact .inl ⟨by simp [hf'],by simp [hf]⟩

variable {node : Node T}

theorem Outcome.unchanged {c : ℕ} {k : RouteKey} (h : node.WF fam left w)
    (hk : node.routes w k = none) (h2 : c < w.length → (live (node.routes w)).Nontrivial) :
    Outcome fam left w c (node.routes w) k none none node := by
  have hr : node.routes w = update (node.routes w) k none := by
    rw [← hk,update_eq_self]
  exact .done node h hr (hr ▸ h2)

theorem Below.prefix_octets (h : Below fam w p) : w <+: p.addr.octets :=
  h.sub.trans (List.take_prefix _ _)

theorem Below.isIpv4 (h : Below fam w p) : p.addr.isIpv4 = (fam == .v4) := by
  rw [IpAddr.isIpv4,h.family]

/-- Removal returns the old value at the key and erases the key. -/
theorem removeLoop_spec {c : ℕ} (hn : node.WF fam left w) (h : Below fam w p)
    (hw : w.length + left = fam.octetCount) (hc : c ≤ w.length)
    (h2 : c < w.length → (live (node.routes w)).Nontrivial) :
    ∃ info node', removeLoop p.addr.octets p (p.addr.octets.drop w.length) w.length c node =
        .ok (node.routes w (relKey w p),info,node') ∧
      Outcome fam left w c (node.routes w) (relKey w p) none info node' := by
  induction left generalizing w node c with
  | zero => exact hn.elim
  | succ left ih =>
    obtain ⟨hpwf,hcwf,h0,hch⟩ := wf_succ.mp hn
    rcases hk : relKey w p with ⟨_ | ⟨o,os⟩,i⟩
    · -- the prefix ends in this stride
      obtain ⟨hlen,o,ho,hidx⟩ := h.last (by rw [hk]) hw
      obtain ⟨node1,hrem,hu⟩ := removePrefix_spec hpwf i
      obtain ⟨info,node',hrun,hout⟩ := tryRemoveLastChild_outcome (hu.node_wf hn) h.prefix_octets
        (by omega) hu.routes hc h2
      refine ⟨info,node',?_,hout⟩
      obtain ⟨hlt,hget⟩ := List.getElem?_eq_some_iff.mp ho
      rw [hk] at hidx
      rw [List.drop_eq_getElem_cons hlt,hget]
      simp only [removeLoop,strideCountAndOverflow,hlen,if_true,hidx,Result.bind_of_ok,hrem,
        h.isIpv4,hrun]
      rfl
    · obtain ⟨ho,hne⟩ := h.next hk
      obtain ⟨hb,hk'⟩ := h.cons hk
      have hw' : (w ++ [o]).length + left = fam.octetCount := by
        rw [List.length_append,List.length_singleton]
        omega
      rw [h.drop_octets hk]
      simp only [removeLoop,strideCountAndOverflow,if_neg hne,getChild_eq hcwf,
        Result.bind_of_ok]
      cases hl : node.children.lookup o with
      | none =>
        have hnone : node.routes w (o::os,i) = none := by
          rw [routes_cons,childRoutes_of_notMem hl]
        exact ⟨none,node,by rw [hnone]; rfl,.unchanged hn hnone h2⟩
      | some ch =>
        have hcw := hch o ch hl
        have hroutes : node.routes w (o::os,i) = ch.routes (w ++ [o]) (os,i) := by
          rw [routes_cons,hl]
          rfl
        rcases Child.matchRoute_spec hcw hb with ⟨hm,hnone⟩ | ⟨v,hm,hv,hr⟩ | ⟨n,rfl,hm⟩
        · -- another route is in the way
          rw [hk',← hroutes] at hnone
          exact ⟨none,node,by simp [hm,hnone],.unchanged hn hnone h2⟩
        · -- the child is the route
          obtain ⟨node1,hrem,hu⟩ := removeChild_spec hcwf o
          rw [hk'] at hr
          have hr1 : node1.routes w = update (node.routes w) (o::os,i) none := by
            apply hu.routes (k := (os,i))
            rw [hl]
            change _ = update (ch.routes (w ++ [o])) (os,i) none
            rw [hr,update_idem,update_eq_self]
            rfl
          obtain ⟨info,node',hrun,hout⟩ := tryRemoveLastChild_outcome (hu.wf_none hn)
            h.prefix_octets (by omega) hr1 hc h2
          refine ⟨info,node',?_,hout⟩
          simp [hm,hrem,hl,h.isIpv4,hrun,hroutes,hr,hv]
        · -- the route may be further down
          have hlt : (if node.isDeletable then c else w.length) < (w ++ [o]).length := by
            rw [List.length_append,List.length_singleton]
            split <;> omega
          obtain ⟨info,n',hrun,hout⟩ := ih hcw.1 hb hw' hlt.le (fun _ => hcw.2)
          obtain ⟨node',hins,hu⟩ := insertChild_spec hcwf o (.path n')
          rw [hk'] at hrun hout
          refine ⟨info,node',?_,hout.descend hn hl hw hc rfl hu⟩
          rw [List.length_append,List.length_singleton] at hrun ⊢
          simp [hm,Child.intoNode,hrun,hins,hroutes,Child.routes]

/-- The invariant of the root of the trie of a family. -/
def Node.RootWF (fam : Family) (node : Node T) : Prop := node.WF fam fam.octetCount []

theorem Node.empty_rootWF : (Node.empty : Node T).RootWF fam := by
  cases fam <;> exact empty_wf

theorem Outcome.finish {f : RouteKey → Option T} {k : RouteKey} {v : Option T}
    {info : Option (RemovalInfo T)}
    (h : Outcome fam fam.octetCount [] 0 f k v info node) :
    ∃ node', compressRemoval node info = .ok node' ∧ node'.RootWF fam ∧
      node'.routes [] = update f k v := by
  cases h with
  | done _ wf routes two => exact ⟨node,rfl,wf,routes⟩
  | compress inf _ node' depth lt below run wf routes two =>
    refine ⟨node',?_,wf,routes⟩
    have hlen : inf.compressionRootDepth ≤ inf.nodePrefix.addr.octets.length := by
      rw [inf.nodePrefix.addr.length_octets,below.family]
      exact lt.le
    simpa [compressRemoval,compressRemovalPath,hlen] using run
  | pending inf _ root lt below single => cases lt

theorem below_nil (p : IpNet) : Below p.addr.family [] p.trunc :=
  ⟨p.trunc_canonical,p.trunc_family,List.nil_prefix⟩

theorem relKey_nil (p : IpNet) : relKey [] p.trunc = p.key := by
  rw [relKey,p.trunc_key]
  rfl

theorem Node.insert_spec (h : node.RootWF p.addr.family) (v : T) :
    ∃ node', node.insert p v = .ok (node.routes [] p.key,node') ∧ node'.RootWF p.addr.family ∧
      node'.routes [] = update (node.routes []) p.key (some v) := by
  have hr : p.addr.family.octetCount ≤ maxDepth - 0 := by cases p.addr.family <;> decide
  have hs := insertLoop_spec h (below_nil p) (Nat.zero_add _) hr v
  rwa [relKey_nil] at hs

theorem Node.remove_spec (h : node.RootWF p.addr.family) :
    ∃ node', node.remove p = .ok (node.routes [] p.key,node') ∧ node'.RootWF p.addr.family ∧
      node'.routes [] = update (node.routes []) p.key none := by
  obtain ⟨info,node1,hrun,hout⟩ := removeLoop_spec (c := 0) h (below_nil p) (Nat.zero_add _) le_rfl
    (fun hlt => by cases hlt)
  obtain ⟨node',hfin,hwf,hr⟩ := hout.finish
  rw [relKey_nil] at hrun hr
  refine ⟨node',?_,hwf,hr⟩
  simp only [List.length_nil,List.drop_zero] at hrun
  simp [remove,hrun,hfin]

end Loop
end Tailnet

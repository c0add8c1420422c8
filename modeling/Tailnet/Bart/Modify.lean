import Tailnet.Bart.Remove

/-! Modification of one route by a closure that sees the stored value, may change
it in place and decides whether the route is inserted, removed or kept. The walk
is that of removal; the content changes exactly as the closure decides. -/
namespace Tailnet
open Function List Node

inductive RouteModification (T : Type)
  | insert (value : T)
  | remove
  | noop

/-- A closure called once with the stored value: what it decides without one, and
the value it leaves in place together with its decision otherwise. -/
structure ModifyFn (T : Type) where
  absent : RouteModification T
  present : T → T × RouteModification T

namespace ModifyFn

variable {T : Type}

def call (f : ModifyFn T) : Option T → Option T × RouteModification T
  | none => (none,f.absent)
  | some v => (some (f.present v).1,(f.present v).2)

end ModifyFn

namespace RouteModification

variable {T : Type}

/-- What the call returns and what is stored afterwards, from the value in place. -/
def apply (cur : Option T) : RouteModification T → Option T × Option T
  | .insert t => (cur,some t)
  | .remove => (cur,none)
  | .noop => (none,cur)

end RouteModification

section Definitions
variable {T : Type}

/-- Write a value in place through the reference to a leaf or fringe. -/
def Child.setValue (value : T) : Child (Node T) T → Child (Node T) T
  | .leaf p _ => .leaf p value
  | .fringe _ => .fringe value
  | .path n => .path n

/-- The decision for a route in the prefixes of a node. -/
def modifyPrefix (octets : List UInt8) (pfx : IpNet) (depth compressionRootDepth : ℕ)
    (idx : BaseIndex) (node : Node T) :
    RouteModification T → Result (Option T × Option (RemovalInfo T) × Node T)
  | .remove => do
    let (ret,node) ← node.removePrefix idx
    let (info,node) ← tryRemoveLastChild node octets depth pfx.addr.isIpv4 compressionRootDepth
    return (ret,info,node)
  | .insert t => do
    let (ret,node) ← node.insertPrefix idx t
    return (ret,none,node)
  | .noop => return (none,none,node)

/-- The decision for a route that is not stored and has no child in its way. -/
def modifyAbsent (pfx : IpNet) (depth : ℕ) (octet : UInt8) (node : Node T) :
    RouteModification T → Result (Option T × Option (RemovalInfo T) × Node T)
  | .insert t => do
    let (_,node) ← node.insertChild octet (← Child.ofRoute depth pfx t)
    return (none,none,node)
  | .remove => return (none,none,node)
  | .noop => return (none,none,node)

/-- The decision for a route that is not stored when another child is in its way. -/
def modifyOther (pfx : IpNet) (depth : ℕ) (node : Node T) :
    RouteModification T → Result (Option T × Option (RemovalInfo T) × Node T)
  | .insert t => do
    let (ret,node) ← insertInner node pfx t depth
    return (ret,none,node)
  | .remove => return (none,none,node)
  | .noop => return (none,none,node)

/-- The decision for a route that is the child at `octet`. -/
def modifyChild (octets : List UInt8) (pfx : IpNet) (depth compressionRootDepth : ℕ)
    (octet : UInt8) (node : Node T) :
    RouteModification T → Result (Option T × Option (RemovalInfo T) × Node T)
  | .noop => return (none,none,node)
  | .insert t => do
    let (old,node) ← node.insertChild octet (← Child.ofRoute depth pfx t)
    let old ← Result.unwrap old
    return (old.intoValue,none,node)
  | .remove => do
    let (child,node) ← node.removeChild octet
    let child ← Result.unwrap child
    let (info,node) ← tryRemoveLastChild node octets depth pfx.addr.isIpv4 compressionRootDepth
    return (child.intoValue,info,node)

/-- What a modification returns: the decision of the closure if it was called, the
value returned, and the removal to finish at the root. -/
abbrev Modified (T : Type) :=
  Option (RouteModification T) × Option T × Option (RemovalInfo T) × Node T

/-- The loop of `modify_inner` over the octets from `depth` on. -/
def modifyLoop (octets : List UInt8) (pfx : IpNet) (f : ModifyFn T) :
    List UInt8 → ℕ → ℕ → Node T → Result (Modified T)
  | [],_,_,node => return (none,none,none,node)
  | octet::rest,depth,compressionRootDepth,node =>
    let (strides,overflowBits) := strideCountAndOverflow pfx
    if depth = strides then do
      let idx ← BaseIndex.fromPrefix octet overflowBits
      match ← node.getPrefixExact idx with
      | none =>
        Prod.mk (some f.absent) <$> modifyPrefix octets pfx depth compressionRootDepth idx node f.absent
      | some v => do
        let (v,decision) := f.present v
        let (_,node) ← node.insertPrefix idx v
        Prod.mk (some decision) <$> modifyPrefix octets pfx depth compressionRootDepth idx node decision
    else do
      match ← node.getChild octet with
      | none => Prod.mk (some f.absent) <$> modifyAbsent pfx depth octet node f.absent
      | some child =>
        match ← child.matchRoute depth pfx with
        | .other => Prod.mk (some f.absent) <$> modifyOther pfx depth node f.absent
        | .route => do
          let v ← Result.unwrap child.intoValue
          let (v,decision) := f.present v
          let (_,node) ← node.insertChild octet (child.setValue v)
          Prod.mk (some decision) <$>
            modifyChild octets pfx depth compressionRootDepth octet node decision
        | .below => do
          let compressionRootDepth := if node.isDeletable then compressionRootDepth else depth
          let next ← Result.unwrap (← node.getChild octet)
          let next ← Result.unwrap next.intoNode
          let (decision,ret,info,next) ←
            modifyLoop octets pfx f rest (depth+1) compressionRootDepth next
          let (_,node) ← node.insertChild octet (.path next)
          return (decision,ret,info,node)

end Definitions

def Node.modify [IpNetOps] {T : Type} (node : Node T) (pfx : IpNet) (f : ModifyFn T) :
    Result (Option (RouteModification T) × Option T × Node T) := do
  let pfx := pfx.trunc
  let octets := pfx.addr.octets
  let (decision,ret,removal,node) ← modifyLoop octets pfx f octets 0 0 node
  let node ← compressRemoval node removal
  return (decision,ret,node)

section Spec
variable [IpNetOps] {T : Type} {fam : Family} {left c : ℕ} {w : List UInt8} {o : UInt8}
  {p : IpNet} {node : Node T}

variable {f : RouteKey → Option T}

theorem Outcome.stored {k : RouteKey} {v : T} (h : node.WF fam left w)
    (hr : node.routes w = update f k (some v))
    (h2 : c < w.length → (live f).Nontrivial) : Outcome fam left w c f k (some v) none node := by
  refine .done node h hr fun hlt => ?_
  rw [live_update_some]
  exact (h2 hlt).mono (Set.subset_insert _ _)

variable {i : BaseIndex}

theorem modifyPrefix_spec {cur : Option T}
    (h : node.WF fam (left+1) w) (hr : node.routes w = update f ([],i) cur)
    (hcur : cur = none → f ([],i) = none) (hb : Below fam w p)
    (hw : w.length + (left+1) = fam.octetCount) (hc : c ≤ w.length)
    (h2 : c < w.length → (live f).Nontrivial) (m : RouteModification T) :
    ∃ info node', modifyPrefix p.addr.octets p w.length c i node m =
        .ok ((m.apply cur).1,info,node') ∧
      Outcome fam (left+1) w c f ([],i) (m.apply cur).2 info node' := by
  obtain ⟨hpwf,_,_,_⟩ := wf_succ.mp h
  have hold : node.prefixes.lookup i.val = cur := by
    rw [← routes_nil (w := w),hr,update_self]
  cases m with
  | noop =>
    refine ⟨none,node,rfl,?_⟩
    cases cur with
    | some v => exact .stored h hr h2
    | none =>
      have hf : update f ([],i) none = f := by rw [← hcur rfl,update_eq_self]
      exact .done node h hr (fun hlt => hf.symm ▸ h2 hlt)
  | insert t =>
    obtain ⟨node',hins,hu⟩ := insertPrefix_spec hpwf i t
    refine ⟨none,node',by simp [modifyPrefix,hins,hold,RouteModification.apply],?_⟩
    exact .stored (hu.node_wf h) (by rw [hu.routes,hr,update_idem]) h2
  | remove =>
    obtain ⟨node1,hrem,hu⟩ := removePrefix_spec hpwf i
    obtain ⟨info,node',hrun,hout⟩ := tryRemoveLastChild_outcome (hu.node_wf h) hb.prefix_octets
      (by omega) (show _ = update f ([],i) none by
        rw [hu.routes,hr,update_idem]) hc h2
    exact ⟨info,node',by simp [modifyPrefix,hrem,hb.isIpv4,hrun,hold,RouteModification.apply],hout⟩

theorem modifyAbsent_spec {os : List UInt8} (h : node.WF fam (left+1) w)
    (hl : node.children.lookup o = none) (hb : Below fam w p) (hk : relKey w p = (o::os,i))
    (h2 : c < w.length → (live (node.routes w)).Nontrivial) (m : RouteModification T) :
    ∃ node', modifyAbsent p w.length o node m = .ok ((m.apply none).1,none,node') ∧
      Outcome fam (left+1) w c (node.routes w) (o::os,i) (m.apply none).2 none node' := by
  obtain ⟨_,hcwf,_,_⟩ := wf_succ.mp h
  have hnone : node.routes w (o::os,i) = none := by
    rw [routes_cons,childRoutes_of_notMem hl]
  cases m with
  | noop => exact ⟨node,rfl,.unchanged h hnone h2⟩
  | remove => exact ⟨node,rfl,.unchanged h hnone h2⟩
  | insert t =>
    obtain ⟨hb',hk'⟩ := hb.cons hk
    obtain ⟨ch,hch,hwf,hroutes⟩ := Child.ofRoute_spec hb' t
    obtain ⟨node',hins,hu⟩ := insertChild_spec hcwf o ch
    refine ⟨node',by simp [modifyAbsent,hch,hins,RouteModification.apply],?_⟩
    refine .stored (hu.wf_some h hwf) ?_ h2
    apply hu.routes (k := (os,i))
    rw [hl,← hk']
    exact hroutes

theorem modifyOther_spec (h : node.WF fam left w) (hnone : node.routes w (relKey w p) = none)
    (hb : Below fam w p) (hw : w.length + left = fam.octetCount)
    (h2 : c < w.length → (live (node.routes w)).Nontrivial) (m : RouteModification T) :
    ∃ node', modifyOther p w.length node m = .ok ((m.apply none).1,none,node') ∧
      Outcome fam left w c (node.routes w) (relKey w p) (m.apply none).2 none node' := by
  cases m with
  | noop => exact ⟨node,rfl,.unchanged h hnone h2⟩
  | remove => exact ⟨node,rfl,.unchanged h hnone h2⟩
  | insert t =>
    obtain ⟨node',hins,hwf,hr⟩ := insertLoop_spec h hb hw (show left ≤ maxDepth - w.length by
      have : fam.octetCount ≤ maxDepth := by cases fam <;> decide
      omega) t
    refine ⟨node',?_,.stored hwf hr h2⟩
    simp [modifyOther,insertInner,hins,hnone,RouteModification.apply]

theorem modifyChild_spec {os : List UInt8}
    {ch : Child (Node T) T} {u : T} (h : node.WF fam (left+1) w)
    (hl : node.children.lookup o = some ch) (hu : ch.intoValue = some u)
    (hch : ch.routes (w ++ [o]) = update (fun _ => none) (os,i) (some u))
    (hr : node.routes w = update f (o::os,i) (some u)) (hb : Below fam w p)
    (hk : relKey w p = (o::os,i)) (hw : w.length + (left+1) = fam.octetCount) (hc : c ≤ w.length)
    (h2 : c < w.length → (live f).Nontrivial) (m : RouteModification T) :
    ∃ info node', modifyChild p.addr.octets p w.length c o node m =
        .ok ((m.apply (some u)).1,info,node') ∧
      Outcome fam (left+1) w c f (o::os,i) (m.apply (some u)).2 info node' := by
  obtain ⟨_,hcwf,_,_⟩ := wf_succ.mp h
  obtain ⟨hb',hk'⟩ := hb.cons hk
  cases m with
  | noop => exact ⟨none,node,rfl,.stored h hr h2⟩
  | insert t =>
    obtain ⟨ch',hch',hwf,hroutes⟩ := Child.ofRoute_spec hb' t
    obtain ⟨node',hins,hup⟩ := insertChild_spec hcwf o ch'
    refine ⟨none,node',by simp [modifyChild,hch',hins,hl,hu,RouteModification.apply],?_⟩
    refine .stored (hup.wf_some h hwf) ?_ h2
    rw [hup.routes (k := (os,i)) (v := some t) (w := w),hr,update_idem]
    rw [hl,← hk']
    refine hroutes.trans ?_
    change _ = update (ch.routes (w ++ [o])) (relKey (w ++ [o]) p) (some t)
    rw [hch,hk',update_idem]
  | remove =>
    obtain ⟨node1,hrem,hup⟩ := removeChild_spec hcwf o
    have hr1 : node1.routes w = update f (o::os,i) none := by
      rw [hup.routes (k := (os,i)) (v := none) (w := w),hr,update_idem]
      rw [hl]
      change _ = update (ch.routes (w ++ [o])) (os,i) none
      rw [hch,update_idem,update_eq_self]
      rfl
    obtain ⟨info,node',hrun,hout⟩ := tryRemoveLastChild_outcome (hup.wf_none h) hb.prefix_octets
      (by omega) hr1 hc h2
    refine ⟨info,node',?_,hout⟩
    simp [modifyChild,hrem,hl,hu,hb.isIpv4,hrun,RouteModification.apply]

omit [IpNetOps] in
theorem key_eq_of_update_eq {k k' : RouteKey} {u u' : T}
    (h : update (fun _ => none) k (some u) = update (fun _ => none) k' (some u')) :
    k = k' := by
  by_contra hne
  have := congrFun h k
  rw [update_self,update_of_ne hne] at this
  cases this

theorem Child.setValue_spec {ch : Child (Node T) T} {k : RouteKey} {u : T}
    (hwf : ch.WF fam left w) (hu : ch.intoValue = some u)
    (hr : ch.routes w = update (fun _ => none) k (some u)) (v : T) :
    (ch.setValue v).WF fam left w ∧ (ch.setValue v).intoValue = some v ∧
      (ch.setValue v).routes w = update (fun _ => none) k (some v) := by
  cases ch with
  | path n => cases hu
  | leaf q u' =>
    refine ⟨hwf,rfl,?_⟩
    rw [routes_leaf hwf.2.2.1] at hr
    rw [setValue,routes_leaf hwf.2.2.1,key_eq_of_update_eq hr]
  | fringe u' =>
    refine ⟨trivial,rfl,?_⟩
    rw [routes_fringe] at hr
    rw [setValue,routes_fringe,key_eq_of_update_eq hr]

/-- A modification changes the content at the key as the closure decides. -/
theorem modifyLoop_spec (f : ModifyFn T) (hn : node.WF fam left w) (h : Below fam w p)
    (hw : w.length + left = fam.octetCount) (hc : c ≤ w.length)
    (h2 : c < w.length → (live (node.routes w)).Nontrivial) :
    ∃ info node', modifyLoop p.addr.octets p f (p.addr.octets.drop w.length) w.length c node =
        .ok (some (f.call (node.routes w (relKey w p))).2,
          ((f.call (node.routes w (relKey w p))).2.apply
            (f.call (node.routes w (relKey w p))).1).1,info,node') ∧
      Outcome fam left w c (node.routes w) (relKey w p)
        ((f.call (node.routes w (relKey w p))).2.apply
          (f.call (node.routes w (relKey w p))).1).2 info node' := by
  induction left generalizing w node c with
  | zero => exact hn.elim
  | succ left ih =>
    obtain ⟨hpwf,hcwf,h0,hch⟩ := wf_succ.mp hn
    rcases hk : relKey w p with ⟨_ | ⟨o,os⟩,i⟩
    · -- the prefix ends in this stride
      obtain ⟨hlen,o,ho,hidx⟩ := h.last (by rw [hk]) hw
      obtain ⟨hlt,hget⟩ := List.getElem?_eq_some_iff.mp ho
      rw [hk] at hidx
      rw [drop_eq_getElem_cons hlt,hget,routes_nil]
      simp only [modifyLoop,strideCountAndOverflow,hlen,if_true,hidx,Result.bind_of_ok,
        getPrefixExact_eq hpwf]
      cases hv : node.prefixes.lookup i.val with
      | none =>
        have hr : node.routes w = update (node.routes w) ([],i) none := by
          rw [← hv,← routes_nil (w := w),update_eq_self]
        obtain ⟨info,node',hrun,hout⟩ :=
          modifyPrefix_spec hn hr (fun _ => hv) h hw hc h2 f.absent
        exact ⟨info,node',by simp [hrun,ModifyFn.call],hout⟩
      | some v =>
        obtain ⟨node1,hins,hu⟩ := insertPrefix_spec hpwf i (f.present v).1
        obtain ⟨info,node',hrun,hout⟩ := modifyPrefix_spec (hu.node_wf hn) hu.routes
          (fun h => by cases h) h hw hc h2 (f.present v).2
        exact ⟨info,node',by simp [hins,hrun,ModifyFn.call],hout⟩
    · obtain ⟨ho,hne⟩ := h.next hk
      obtain ⟨hb,hk'⟩ := h.cons hk
      have hw' : (w ++ [o]).length + left = fam.octetCount := by
        rw [length_append,length_singleton]
        omega
      rw [h.drop_octets hk]
      simp only [modifyLoop,strideCountAndOverflow,if_neg hne,getChild_eq hcwf,
        Result.bind_of_ok]
      cases hl : node.children.lookup o with
      | none =>
        have hnone : node.routes w (o::os,i) = none := by
          rw [routes_cons,childRoutes_of_notMem hl]
        rw [hnone]
        obtain ⟨node',hrun,hout⟩ := modifyAbsent_spec hn hl h hk h2 f.absent
        exact ⟨none,node',by simp [hrun,ModifyFn.call],hout⟩
      | some ch =>
        have hcw := hch o ch hl
        have hroutes : node.routes w (o::os,i) = ch.routes (w ++ [o]) (os,i) := by
          rw [routes_cons,hl]
          rfl
        rcases Child.matchRoute_spec hcw hb with ⟨hm,hnone⟩ | ⟨v,hm,hv,hr⟩ | ⟨n,rfl,hm⟩
        · -- another route is in the way
          rw [hk',← hroutes] at hnone
          rw [hnone]
          rw [← hk] at hnone ⊢
          obtain ⟨node',hrun,hout⟩ := modifyOther_spec hn hnone h hw h2 f.absent
          exact ⟨none,node',by simp [hm,hrun,ModifyFn.call],hout⟩
        · -- the child is the route
          rw [hk'] at hr
          obtain ⟨hwf,hv',hr'⟩ := Child.setValue_spec hcw hv hr (f.present v).1
          obtain ⟨node1,hins,hu⟩ := insertChild_spec hcwf o (ch.setValue (f.present v).1)
          have hval : node.routes w (o::os,i) = some v := by rw [hroutes,hr,update_self]
          have hr1 : node1.routes w =
              update (node.routes w) (o::os,i) (some (f.present v).1) := by
            apply hu.routes (k := (os,i))
            rw [hl]
            refine hr'.trans ?_
            change _ = update (ch.routes (w ++ [o])) (os,i) _
            rw [hr,update_idem]
          obtain ⟨info,node',hrun,hout⟩ := modifyChild_spec (hu.wf_some hn hwf)
            (by rw [hu.lookup,if_pos rfl]) hv' hr' hr1 h hk hw hc h2 (f.present v).2
          rw [hval]
          exact ⟨info,node',by simp [hm,hv,hins,hrun,ModifyFn.call],hout⟩
        · -- the route may be further down
          have hlt : (if node.isDeletable then c else w.length) < (w ++ [o]).length := by
            rw [length_append,length_singleton]
            split <;> omega
          obtain ⟨info,n',hrun,hout⟩ := ih hcw.1 hb hw' hlt.le (fun _ => hcw.2)
          obtain ⟨node',hins,hu⟩ := insertChild_spec hcwf o (.path n')
          rw [hk'] at hrun hout
          rw [hroutes]
          refine ⟨info,node',?_,hout.descend hn hl hw hc rfl hu⟩
          rw [length_append,length_singleton] at hrun ⊢
          simp [hm,Child.intoNode,hrun,hins,Child.routes]

theorem Node.modify_spec {node : Node T} (f : ModifyFn T) (h : node.RootWF p.addr.family) :
    ∃ node', node.modify p f = .ok (some (f.call (node.routes [] p.key)).2,
        ((f.call (node.routes [] p.key)).2.apply (f.call (node.routes [] p.key)).1).1,node') ∧
      node'.RootWF p.addr.family ∧
      node'.routes [] = update (node.routes []) p.key
        ((f.call (node.routes [] p.key)).2.apply (f.call (node.routes [] p.key)).1).2 := by
  obtain ⟨info,node1,hrun,hout⟩ := modifyLoop_spec (c := 0) f h (below_nil p) (Nat.zero_add _) le_rfl
    (fun hlt => by cases hlt)
  obtain ⟨node',hfin,hwf,hr⟩ := hout.finish
  rw [relKey_nil] at hrun hr
  refine ⟨node',?_,hwf,hr⟩
  simp only [length_nil,drop_zero] at hrun
  simp [modify,hrun,hfin]

end Spec
end Tailnet

import Tailnet.Bart.Shape

/-! Modification as a lookup followed by a change. In a trie of one family the closure is called with the
stored value, and the tree afterwards is the one that the plain calls make of the tree before: the shape of
a trie is determined by its routes, and the routes change in the same way. With prefixes of both families in
one trie the walk of a modification can run out of octets without calling the closure. -/
namespace Tailnet

section Definitions
variable [IpNetOps] {T : Type} {fam : Family}

/-- The tree with the value that a closure left in the place of the stored one; inserting at a stored route
replaces the value and nothing else. -/
def Node.keepInPlace (node : Node T) (p : IpNet) : Option T → Result (Node T)
  | none => return node
  | some v => do
    let (_,node) ← node.insert p v
    return node

/-- What a modification returns and leaves, from the plain calls: `cur` is the value stored before. The value
returned is the one that was replaced or removed, as the closure left it. -/
def Node.Mutated (node : Node T) (p : IpNet) (f : ModifyFn T) (cur ret : Option T) (node' : Node T) : Prop :=
  match (f.call cur).2 with
  | .noop => ret = none ∧ node.keepInPlace p (f.call cur).1 = .ok node'
  | .insert t => ret = (f.call cur).1 ∧ node.insert p t = .ok (cur,node')
  | .remove => ret = (f.call cur).1 ∧ node.remove p = .ok (cur,node')

/-- The truncated prefixes that an exact lookup finds. -/
def Node.stored (fam : Family) (node : Node T) : Set IpNet :=
  {q | q.Canonical ∧ q.addr.family = fam ∧ ∃ v, lookupPrefixExact node q = .ok (some v)}

namespace SimpleTable

def step : TrieOp fam T → SimpleTable T → Result (Option T × SimpleTable T)
  | .insert p val,s => s.insert p val
  | .remove p,s => s.remove p
  | .modify p f,s => s.modify p f

def run (ops : List (TrieOp fam T)) : Result (List (Option T) × SimpleTable T) := runAll step ops .empty

end SimpleTable
end Definitions
section Runs
variable [IpNetOps] {T : Type} {fam : Family} {m : RouteMap T} {node : Node T} {s : SimpleTable T}

theorem Node.Stands.lookupPrefixExact (h : node.Stands fam m) {q : IpNet} (hq : q.Canonical)
    (hf : q.addr.family = fam) : lookupPrefixExact node q = .ok (m.lookup q) := by
  rw [h.routes q hq hf]
  exact lookupExactLoop_spec h.wf ⟨hq,hf,List.nil_prefix⟩ (Nat.zero_add _)

omit [IpNetOps] in
theorem RouteMap.set_lookup (m : RouteMap T) (p : IpNet) : m.set p (m.lookup p) = m := by
  apply Finmap.ext_lookup
  intro q
  rw [RouteMap.lookup_set]
  split
  · rename_i hq
    rw [hq]
  · rfl

theorem Node.Stands.keepInPlace (h : node.Stands fam m) (p : FamNet fam) (f : ModifyFn T) :
    ∃ node', node.keepInPlace p (f.call (m.lookup p.val.trunc)).1 = .ok node' ∧
      node'.Stands fam (m.set p.val.trunc (f.call (m.lookup p.val.trunc)).1) := by
  cases hcur : m.lookup p.val.trunc with
  | none =>
    refine ⟨node,rfl,?_⟩
    have hset := m.set_lookup p.val.trunc
    rw [hcur] at hset
    exact hset.symm ▸ h
  | some v =>
    obtain ⟨node',hins,h'⟩ := TrieOp.step_spec (.insert p (f.present v).1) h
    have hins' : node.insert p (f.present v).1 = .ok (m.lookup p.val.trunc,node') := hins
    exact ⟨node',by simp [Node.keepInPlace,ModifyFn.call,hins'],h'⟩

/-- A modification is what the plain calls make of the tree. -/
theorem Node.Stands.modify (h : node.Stands fam m) (p : FamNet fam) (f : ModifyFn T) :
    ∃ ret node', node.modify p f = .ok (some (f.call (m.lookup p.val.trunc)).2,ret,node') ∧
      node.Mutated p f (m.lookup p.val.trunc) ret node' := by
  have hwf := h.wf
  rw [← p.property] at hwf
  obtain ⟨node',hrun,hwf',hr⟩ := Node.modify_spec f hwf
  rw [p.property] at hwf'
  rw [← h.lookup] at hrun hr
  have h' := h.set p _ hwf' hr
  refine ⟨_,node',hrun,?_⟩
  cases hd : (f.call (m.lookup p.val.trunc)).2 with
  | noop =>
    obtain ⟨node1,hkeep,h1⟩ := h.keepInPlace p f
    rw [hd] at h'
    simp only [Node.Mutated,hd]
    exact ⟨rfl,by rw [hkeep,h1.ext h']⟩
  | insert t =>
    obtain ⟨node1,hins,h1⟩ := TrieOp.step_spec (.insert p t) h
    rw [hd] at h'
    simp only [Node.Mutated,hd]
    refine ⟨rfl,?_⟩
    rw [← h1.ext h']
    exact hins
  | remove =>
    obtain ⟨node1,hrem,h1⟩ := TrieOp.step_spec (.remove p) h
    rw [hd] at h'
    simp only [Node.Mutated,hd]
    refine ⟨rfl,?_⟩
    rw [← h1.ext h']
    exact hrem

/-- A table of one family is that stack of a split table. -/
def SimpleTable.Carries (fam : Family) (s : SimpleTable T) : Prop :=
  ∃ (t : SplitStackTable T) (m : RouteMap T), t.Rep m ∧ t.stackTable (fam == .v4) = s

theorem SimpleTable.empty_carries : (empty : SimpleTable T).Carries fam :=
  ⟨.empty,∅,SplitStackTable.empty_rep,by cases fam <;> rfl⟩

theorem SimpleTable.step_carries (op : TrieOp fam T) (h : s.Carries fam) :
    ∃ ret s', step op s = .ok (ret,s') ∧ s'.Carries fam := by
  obtain ⟨t,m,hrep,rfl⟩ := h
  obtain ⟨t',hrun,hrep'⟩ := SplitStackTable.step_spec op.onMap hrep
  have hstack : ∀ (p : FamNet fam) (call : SimpleTable T → Result (Option T × SimpleTable T)) ret,
      (do
        let r ← call (t.stackTable p.val.addr.isIpv4)
        return (r.1,t.setStackTable p.val.addr.isIpv4 r.2)) = .ok (ret,t') →
      ∃ ret s', call (t.stackTable (fam == .v4)) = .ok (ret,s') ∧ s'.Carries fam := by
    intro p call ret hcall
    rw [IpAddr.isIpv4,p.property] at hcall
    obtain ⟨⟨ret',s'⟩,hs',heq⟩ := Result.bind_eq_ok.mp hcall
    cases heq
    exact ⟨_,s',hs',_,_,hrep',by rw [SplitStackTable.stackTable_set,if_pos rfl]⟩
  cases op with
  | insert p v => exact hstack p _ _ hrun
  | remove p => exact hstack p _ _ hrun
  | modify p f => exact hstack p _ _ hrun

theorem SimpleTable.run_carries (ops : List (TrieOp fam T)) :
    ∃ os s, run ops = .ok (os,s) ∧ s.Carries fam :=
  runAll_total (fun op _ h => step_carries op h) ops empty_carries

theorem SimpleTable.Carries.size (h : s.Carries fam) : s.size = (s.root.stored fam).ncard := by
  obtain ⟨t,m,hrep,rfl⟩ := h
  have hs := hrep.stack fam
  have hstored : (t.stackTable (fam == .v4)).root.stored fam = ↑(m.famKeys fam) := by
    ext q
    rw [Finset.mem_coe,RouteMap.mem_famKeys,Finmap.mem_iff]
    have hlook : q.Canonical → q.addr.family = fam →
        Tailnet.lookupPrefixExact (t.stackTable (fam == .v4)).root q = .ok (m.lookup q) := fun hq hf => Node.Stands.lookupPrefixExact ⟨hs.wf,hs.routes⟩ hq hf
    constructor
    · rintro ⟨hq,hf,v,hv⟩
      rw [hlook hq hf] at hv
      exact ⟨⟨v,Except.ok.inj hv⟩,hf⟩
    · rintro ⟨⟨v,hv⟩,hf⟩
      have hq := hrep.canonical q (Finmap.mem_iff.mpr ⟨v,hv⟩)
      exact ⟨hq,hf,v,by rw [hlook hq hf,hv]⟩
  rw [hstored,Set.ncard_coe_finset,hs.size]

/-- In a trie of one family a modification is a lookup and then the plain call that the closure decides, and
the table counts its routes. -/
theorem modify_is_lookup_then_mutate (fam : Family) (T : Type) :
    (∀ (ops : List (TrieOp fam T)) (p : FamNet fam), ∃ os node cur, TrieOp.run ops = .ok (os,node) ∧
      lookupPrefixExact node p.val.trunc = .ok cur ∧ ∀ f : ModifyFn T, ∃ ret node',
        node.modify p f = .ok (some (f.call cur).2,ret,node') ∧ node.Mutated p f cur ret node') ∧
    ∀ (ops : List (TrieOp fam T)) (p : FamNet fam) (f : ModifyFn T), ∃ os s ret s',
      SimpleTable.run ops = .ok (os,s) ∧ s.modify p f = .ok (ret,s') ∧
        s.size = (s.root.stored fam).ncard ∧ s'.size = (s'.root.stored fam).ncard := by
  constructor
  · intro ops p
    obtain ⟨os,node,hrun,h⟩ := TrieOp.run_spec ops
    refine ⟨os,node,_,hrun,h.lookupPrefixExact p.val.trunc_canonical ?_,fun f => h.modify p f⟩
    rw [IpNet.trunc_family,p.property]
  · intro ops p f
    obtain ⟨os,s,hrun,h⟩ := SimpleTable.run_carries ops
    obtain ⟨ret,s',hstep,h'⟩ := SimpleTable.step_carries (.modify p f) h
    exact ⟨os,s,ret,s',hrun,hstep,h.size,h'.size⟩

end Runs

/-- With two long prefixes of the sixth version in the trie, a host of the fourth version is not reached: the
closure that would insert it is not called. -/
theorem modify_skips_closure_in_mixed_trie :
    let first : IpNet := ⟨⟨.v6,[10,1,2,3,4,0,0,0,0,0,0,0,0,0,0,0],rfl⟩,40,by decide⟩
    let second : IpNet := ⟨⟨.v6,[10,1,2,3,5,0,0,0,0,0,0,0,0,0,0,0],rfl⟩,40,by decide⟩
    let host : IpNet := ⟨⟨.v4,[10,1,2,3],rfl⟩,32,by decide⟩
    let f : ModifyFn ℕ := ⟨.insert 3,fun v => (v,.insert 3)⟩
    (do
      let (_,node) ← @Node.insert maskOps ℕ .empty first 1
      let (_,node) ← @Node.insert maskOps ℕ node second 2
      let (decision,ret,_) ← @Node.modify maskOps ℕ node host f
      return (decision.isSome,ret)) = .ok (false,none) := by
  decide +kernel

end Tailnet

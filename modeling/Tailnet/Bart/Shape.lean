import Tailnet.Bart.PrefixMatch

/-! The shape of a trie is determined by its routes. A packed array is determined by its elements, a child
by the routes below its octet, and a well-formed node by its content; so the tree after a sequence of calls
does not depend on how the routes came to be there. -/
namespace Tailnet
open Function List Node Child Finmap

/-- Every position of the packed elements belongs to one of the set bits. -/
theorem Bitset.exists_rank {N : ℕ} (b : Bitset N) {k : ℕ} (h : k < b.countOnes) :
    ∃ i, b.test i = true ∧ b.rank i = k + 1 := by
  have hmaps : ∀ i ∈ b.toSet, b.rank i ∈ Finset.Icc 1 b.countOnes := by
    intro i hi
    rw [Finset.mem_Icc]
    exact ⟨b.rank_pos (mem_toSet.mp hi),b.rank_le_countOnes i⟩
  have hinj : ∀ i ∈ b.toSet, ∀ j ∈ b.toSet, b.rank i = b.rank j → i = j := by
    intro i hi j hj he
    rcases Nat.lt_trichotomy i j with hlt | rfl | hlt
    · exact absurd he (b.rank_lt hlt (mem_toSet.mp hj)).ne
    · rfl
    · exact absurd he (b.rank_lt hlt (mem_toSet.mp hi)).ne'
  have hcard : (Finset.Icc 1 b.countOnes).card ≤ b.toSet.card := by
    rw [Nat.card_Icc,Nat.add_sub_cancel,b.countOnes_eq_card]
  obtain ⟨i,hi,hr⟩ := Finset.surj_on_of_inj_on_of_card_le (fun i _ => b.rank i) hmaps
    (fun i j hi hj he => hinj i hi j hj he) hcard (k + 1) (Finset.mem_Icc.mpr ⟨by omega,h⟩)
  exact ⟨i,mem_toSet.mp hi,hr.symm⟩

theorem Array256.ext_lookup {α : Type} {a b : Array256 α} (ha : a.WF) (hb : b.WF)
    (h : ∀ i, a.lookup i = b.lookup i) : a = b := by
  obtain ⟨sa,xs⟩ := a
  obtain ⟨sb,ys⟩ := b
  have hset : sa = sb := by
    apply Bitset.ext_test
    intro i
    by_cases hi : i < 256
    · have ht : Array256.test ⟨sa,xs⟩ (UInt8.ofNat i) = Array256.test ⟨sb,ys⟩ (UInt8.ofNat i) := by
        rw [← isSome_lookup ha,← isSome_lookup hb,h]
      rwa [test,test,UInt8.toNat_ofNat_of_lt' hi] at ht
    · have hout : ∀ s : Bitset256, s.test i = false := by
        intro s
        rw [← Bool.not_eq_true]
        intro ht
        exact hi (Bitset.test_lt ht)
      rw [hout,hout]
  subst hset
  have hlen : xs.length = ys.length := Eq.trans ha (Eq.symm hb)
  have hxs : xs = ys := by
    apply ext_getElem?
    intro k
    by_cases hk : k < xs.length
    · obtain ⟨i,ht,hr⟩ := sa.exists_rank (lt_of_lt_of_eq hk ha)
      have hi : i < 256 := Bitset.test_lt ht
      have hl := h (UInt8.ofNat i)
      rwa [lookup,lookup,UInt8.toNat_ofNat_of_lt' hi,if_pos ht,if_pos ht,hr,Nat.add_sub_cancel] at hl
    · rw [List.getElem?_eq_none (by omega),List.getElem?_eq_none (by omega)]
  rw [hxs]

theorem specAll_snd {ι ο τ : Type} (step : ι → τ → ο × τ) (is : List ι) (a : τ) :
    (specAll step is a).2 = is.foldl (fun a i => (step i a).2) a := by
  induction is generalizing a with
  | nil => rfl
  | cons i is ih =>
    rw [specAll,foldl_cons,← ih]

section Content
variable {T : Type}

theorem single_injective {k k' : RouteKey} {v v' : T}
    (h : update (fun _ => none) k (some v) = update (fun _ => none) k' (some v')) :
    k = k' ∧ v = v' := by
  have hk := congrFun h k
  rw [update_self,update_apply] at hk
  split at hk
  · rename_i he
    exact ⟨he,Option.some.inj hk⟩
  · cases hk

theorem not_nontrivial_single (k : RouteKey) (v : T) :
    ¬(live (update (fun _ => none) k (some v))).Nontrivial := by
  rintro ⟨k1,h1,k2,h2,hne⟩
  have honly : ∀ k', k' ∈ live (update (fun _ => none) k (some v)) → k' = k := by
    intro k' hk'
    by_contra hk
    exact hk' (update_of_ne hk _ _)
  exact hne ((honly k1 h1).trans (honly k2 h2).symm)

variable [IpNetOps] {fam : Family} {left : ℕ} {w : List UInt8}

theorem Child.WF.exists_live {c : Child (Node T) T} (h : c.WF fam left w) : ∃ k, c.routes w k ≠ none := by
  cases c with
  | path n =>
    obtain ⟨k,hk,-⟩ := h.2
    exact ⟨k,hk⟩
  | leaf p v => exact ⟨relKey w p,by rw [routes_leaf h.2.2.1,update_self]; simp⟩
  | fringe v => exact ⟨([],.one),by rw [routes_fringe,update_self]; simp⟩

theorem Child.WF.path_ne_single {n : Node T} (h : Child.WF fam left w (.path n)) (k : RouteKey) (v : T) :
    Child.routes w (.path n) ≠ update (fun _ => none) k (some v) := by
  intro he
  have hn : (live (Child.routes w (.path n))).Nontrivial := h.2
  rw [he] at hn
  exact not_nontrivial_single k v hn

/-- A leaf is not stored where a fringe could be. -/
theorem Child.WF.relKey_ne {p : IpNet} {v : T} (h : Child.WF fam left w (.leaf p v)) :
    relKey w p ≠ ([],.one) := by
  obtain ⟨hcan,hfam,hpre,hne⟩ := h
  intro he
  have hkey := Below.key ⟨hcan,hfam,hpre⟩
  rw [he,append_nil] at hkey
  exact hne hkey

theorem Child.WF.ext {c c' : Child (Node T) T} (h : c.WF fam left w) (h' : c'.WF fam left w)
    (hnode : ∀ n n' : Node T, n.WF fam left w → n'.WF fam left w → n.routes w = n'.routes w → n = n')
    (hr : c.routes w = c'.routes w) : c = c' := by
  cases c with
  | path n =>
    cases c' with
    | path n' => rw [hnode n n' h.1 h'.1 hr]
    | leaf p v =>
      rw [routes_leaf h'.2.2.1] at hr
      exact absurd hr (h.path_ne_single _ _)
    | fringe v =>
      rw [routes_fringe] at hr
      exact absurd hr (h.path_ne_single _ _)
  | leaf p v =>
    rw [routes_leaf h.2.2.1] at hr
    cases c' with
    | path n' => exact absurd hr.symm (h'.path_ne_single _ _)
    | leaf q u =>
      rw [routes_leaf h'.2.2.1] at hr
      obtain ⟨hk,rfl⟩ := single_injective hr
      have hb : Below fam w p := ⟨h.1,h.2.1,h.2.2.1⟩
      rw [hb.ext ⟨h'.1,h'.2.1,h'.2.2.1⟩ hk]
    | fringe u =>
      rw [routes_fringe] at hr
      exact absurd (single_injective hr).1 h.relKey_ne
  | fringe v =>
    rw [routes_fringe] at hr
    cases c' with
    | path n' => exact absurd hr.symm (h'.path_ne_single _ _)
    | leaf q u =>
      rw [routes_leaf h'.2.2.1] at hr
      exact absurd (single_injective hr).1.symm h'.relKey_ne
    | fringe u =>
      rw [routes_fringe] at hr
      rw [(single_injective hr).2]

/-- A well-formed node is determined by its routes. -/
theorem Node.WF.ext {node node' : Node T} (h : node.WF fam left w) (h' : node'.WF fam left w)
    (hr : node.routes w = node'.routes w) : node = node' := by
  induction left generalizing w node node' with
  | zero => exact h.elim
  | succ left ih =>
    obtain ⟨hpwf,hcwf,h0,hch⟩ := wf_succ.mp h
    obtain ⟨hpwf',hcwf',h0',hch'⟩ := wf_succ.mp h'
    have hprefixes : node.prefixes = node'.prefixes := by
      apply Array256.ext_lookup hpwf hpwf'
      intro i
      by_cases hi : i = 0
      · rw [hi,Array256.lookup_of_not_test h0,Array256.lookup_of_not_test h0']
      · exact congrFun hr ([],⟨i,hi⟩)
    have hchildren : node.children = node'.children := by
      apply Array256.ext_lookup hcwf hcwf'
      intro o
      have hbelow : childRoutes w o (node.children.lookup o) = childRoutes w o (node'.children.lookup o) := by
        rw [← routes_below,← routes_below,hr]
      cases hl : node.children.lookup o with
      | none =>
        cases hl' : node'.children.lookup o with
        | none => rfl
        | some c' =>
          obtain ⟨k,hk⟩ := (hch' o c' hl').exists_live
          rw [hl,hl'] at hbelow
          exact absurd (congrFun hbelow k).symm hk
      | some c =>
        cases hl' : node'.children.lookup o with
        | none =>
          obtain ⟨k,hk⟩ := (hch o c hl).exists_live
          rw [hl,hl'] at hbelow
          exact absurd (congrFun hbelow k) hk
        | some c' =>
          rw [hl,hl'] at hbelow
          rw [(hch o c hl).ext (hch' o c' hl') (fun n n' hn hn' => ih hn hn') hbelow]
    cases node
    cases node'
    cases hprefixes
    cases hchildren
    rfl

end Content
section History
variable [IpNetOps] {T : Type} {fam : Family} {m : RouteMap T} {node : Node T}

/-- A prefix of one family. -/
abbrev FamNet (fam : Family) := { p : IpNet // p.addr.family = fam }

inductive TrieOp (fam : Family) (T : Type)
  | insert (p : FamNet fam) (val : T)
  | remove (p : FamNet fam)
  | modify (p : FamNet fam) (f : ModifyFn T)

namespace TrieOp

/-- The call on the map of routes. -/
def onMap : TrieOp fam T → TableOp T
  | insert p val => .insert p val
  | remove p => .remove p
  | modify p f => .modify p f

def step : TrieOp fam T → Node T → Result (Option T × Node T)
  | insert p val,node => node.insert p val
  | remove p,node => node.remove p
  | modify p f,node => do
    let (_,ret,node) ← node.modify p f
    return (ret,node)

def run (ops : List (TrieOp fam T)) : Result (List (Option T) × Node T) := runAll step ops .empty

/-- The routes, by their truncated prefixes, after a sequence of calls. -/
def routes (ops : List (TrieOp fam T)) : RouteMap T := (specAll (fun op => RouteMap.step op.onMap) ops ∅).2

end TrieOp

/-- A trie of one family and the routes it stands for. -/
structure Node.Stands (fam : Family) (node : Node T) (m : RouteMap T) : Prop where
  wf : node.RootWF fam
  routes : ∀ p, p.Canonical → p.addr.family = fam → m.lookup p = node.routes [] p.key

theorem Node.Stands.lookup (h : node.Stands fam m) (p : FamNet fam) :
    m.lookup p.val.trunc = node.routes [] p.val.key := by
  rw [h.routes _ p.val.trunc_canonical (by rw [IpNet.trunc_family,p.property]),IpNet.trunc_key]

theorem Node.Stands.set (h : node.Stands fam m) (p : FamNet fam) (new : Option T) {node' : Node T}
    (hwf : node'.RootWF fam)
    (hr : node'.routes [] = update (node.routes []) p.val.key new) :
    node'.Stands fam (m.set p.val.trunc new) := by
  refine ⟨hwf,fun q hq hqf => ?_⟩
  rw [RouteMap.lookup_set,hr,update_apply,h.routes q hq hqf]
  refine if_congr ⟨?_,?_⟩ rfl rfl
  · rintro rfl
    exact p.val.trunc_key
  · intro hk
    exact hq.ext p.val.trunc_canonical (by rw [hqf,IpNet.trunc_family,p.property]) (by simpa using hk)

theorem TrieOp.step_spec (op : TrieOp fam T) (h : node.Stands fam m) :
    ∃ node', op.step node = .ok ((RouteMap.step op.onMap m).1,node') ∧
      node'.Stands fam (RouteMap.step op.onMap m).2 := by
  cases op with
  | insert p v =>
    have hwf := h.wf
    rw [← p.property] at hwf
    obtain ⟨node',hrun,hwf',hr⟩ := insert_spec hwf v
    rw [p.property] at hwf'
    rw [← h.lookup] at hrun
    exact ⟨node',hrun,h.set p (some v) hwf' hr⟩
  | remove p =>
    have hwf := h.wf
    rw [← p.property] at hwf
    obtain ⟨node',hrun,hwf',hr⟩ := remove_spec hwf
    rw [p.property] at hwf'
    rw [← h.lookup] at hrun
    exact ⟨node',hrun,h.set p none hwf' hr⟩
  | modify p f =>
    have hwf := h.wf
    rw [← p.property] at hwf
    obtain ⟨node',hrun,hwf',hr⟩ := modify_spec f hwf
    rw [p.property] at hwf'
    rw [← h.lookup] at hrun hr
    exact ⟨node',by rw [step,hrun]; rfl,h.set p _ hwf' hr⟩

theorem Node.empty_stands : (Node.empty : Node T).Stands fam ∅ :=
  ⟨empty_rootWF,fun p _ _ => by simp⟩

/-- A trie is determined by the routes it stands for. -/
theorem Node.Stands.ext {node' : Node T} (h : node.Stands fam m) (h' : node'.Stands fam m) : node = node' := by
  have hle : ∀ {n n' : Node T}, n.Stands fam m → n'.Stands fam m → ∀ k v,
      n.routes [] k = some v → n'.routes [] k = some v := by
    intro n n' hn hn' k v hv
    obtain ⟨p,hcan,hfam,hkey⟩ := Node.WF.exists_net hn.wf (Nat.zero_add _) hv
    rw [nil_append] at hkey
    rw [← hv,← show p.key = k from hkey,← hn'.routes p hcan hfam,hn.routes p hcan hfam]
  apply h.wf.ext h'.wf
  funext k
  exact Option.ext fun v => ⟨hle h h' k v,hle h' h k v⟩

theorem TrieOp.run_spec (ops : List (TrieOp fam T)) :
    ∃ os node, run ops = .ok (os,node) ∧ node.Stands fam (routes ops) := by
  obtain ⟨node,hrun,h⟩ := runAll_refines (Node.Stands fam) (fun op _ _ h => TrieOp.step_spec op h) ops
    empty_stands
  exact ⟨_,node,hrun,h⟩

theorem RouteMap.lookup_foldl_erase (ps : List (FamNet fam)) (m : RouteMap T) (q : IpNet) :
    (ps.foldl (fun m p => m.erase p.val.trunc) m).lookup q =
      if ∃ p ∈ ps, p.val.trunc = q then none else m.lookup q := by
  induction ps generalizing m with
  | nil => simp
  | cons p ps ih =>
    rw [foldl_cons,ih]
    by_cases hp : p.val.trunc = q
    · subst hp
      simp
    · simp only [mem_cons,exists_eq_or_imp,hp,false_or]
      rw [lookup_erase_ne fun he => hp he.symm]

theorem RouteMap.lookup_foldl_insert (es : List (FamNet fam × T)) (m : RouteMap T) {q : IpNet}
    (h : ∀ e ∈ es, e.1.val.trunc ≠ q) :
    (es.foldl (fun m e => m.insert e.1.val.trunc e.2) m).lookup q = m.lookup q := by
  induction es generalizing m with
  | nil => rfl
  | cons e es ih =>
    rw [foldl_cons,ih _ fun e' he' => h e' (by simp [he']),
      lookup_insert_of_ne _ fun he => h e (by simp) he.symm]

/-- Prefixes that are inserted, and then removed in some order. -/
def TrieOp.insertRemove (es : List (FamNet fam × T)) (ps : List (FamNet fam)) : List (TrieOp fam T) :=
  es.map (fun e => .insert e.1 e.2) ++ ps.map .remove

theorem TrieOp.routes_insertRemove {es : List (FamNet fam × T)} {ps : List (FamNet fam)}
    (h : ∀ e ∈ es, e.1 ∈ ps) : routes (insertRemove es ps) = ∅ := by
  have hfold : routes (insertRemove es ps) = ps.foldl (fun m p => m.erase p.val.trunc)
      (es.foldl (fun m e => m.insert e.1.val.trunc e.2) ∅) := by
    rw [routes,specAll_snd,insertRemove,foldl_append,foldl_map,foldl_map]
    rfl
  apply ext_lookup
  intro q
  rw [hfold,RouteMap.lookup_foldl_erase,lookup_empty]
  split
  · rfl
  · rename_i hno
    rw [RouteMap.lookup_foldl_insert,lookup_empty]
    intro e he hq
    exact hno ⟨e.1,h e he,hq⟩

/-- The tree after a sequence of calls depends on the routes only: two sequences that end with the same
routes end with the same tree, all prefixes removed leave the empty node, and a route that is inserted and
removed leaves the tree as it was. -/
theorem trie_shape_of_routes (fam : Family) (T : Type) :
    (∀ ops ops' : List (TrieOp fam T), TrieOp.routes ops = TrieOp.routes ops' →
      ∃ os os' node, TrieOp.run ops = .ok (os,node) ∧ TrieOp.run ops' = .ok (os',node)) ∧
    (∀ (es : List (FamNet fam × T)) (ps : List (FamNet fam)), (∀ e ∈ es, e.1 ∈ ps) →
      ∃ os, TrieOp.run (TrieOp.insertRemove es ps) = .ok (os,Node.empty)) ∧
    ∀ (ops : List (TrieOp fam T)) (p : FamNet fam) (v : T),
      (TrieOp.routes ops).lookup p.val.trunc = none →
      ∃ os node node', TrieOp.run ops = .ok (os,node) ∧ node.insert p v = .ok (none,node') ∧
        node'.remove p = .ok (some v,node) := by
  refine ⟨fun ops ops' heq => ?_,fun es ps h => ?_,fun ops p v habs => ?_⟩
  · obtain ⟨os,node,hrun,hs⟩ := TrieOp.run_spec ops
    obtain ⟨os',node',hrun',hs'⟩ := TrieOp.run_spec ops'
    rw [heq] at hs
    rw [hs.ext hs'] at hrun
    exact ⟨os,os',node',hrun,hrun'⟩
  · obtain ⟨os,node,hrun,hs⟩ := TrieOp.run_spec (TrieOp.insertRemove es ps)
    rw [TrieOp.routes_insertRemove h] at hs
    rw [hs.ext empty_stands] at hrun
    exact ⟨os,hrun⟩
  · obtain ⟨os,node,hrun,hs⟩ := TrieOp.run_spec ops
    obtain ⟨node1,hins,hs1⟩ := TrieOp.step_spec (.insert p v) hs
    obtain ⟨node2,hrem,hs2⟩ := TrieOp.step_spec (.remove p) hs1
    have hback : (RouteMap.step (TrieOp.onMap (.remove p))
        (RouteMap.step (TrieOp.onMap (.insert p v)) (TrieOp.routes ops)).2).2 = TrieOp.routes ops := by
      apply ext_lookup
      intro q
      change (((TrieOp.routes ops).insert p.val.trunc v).erase p.val.trunc).lookup q = _
      by_cases hq : q = p.val.trunc
      · rw [hq,lookup_erase,habs]
      · rw [lookup_erase_ne hq,lookup_insert_of_ne _ hq]
    rw [hback] at hs2
    rw [hs2.ext hs] at hrem
    have hold : (RouteMap.step (TrieOp.onMap (.insert p v)) (TrieOp.routes ops)).1 = none := habs
    have hval : (RouteMap.step (TrieOp.onMap (.remove p))
        (RouteMap.step (TrieOp.onMap (.insert p v)) (TrieOp.routes ops)).2).1 = some v :=
      lookup_insert _
    rw [hold] at hins
    rw [hval] at hrem
    exact ⟨os,node,node1,hrun,hins,hrem⟩

end History
def tenNet : FamNet .v4 := ⟨⟨⟨.v4,[10,0,0,0],rfl⟩,8,by decide⟩,rfl⟩

theorem trie_shape_of_routes_ten :
    (@TrieOp.routes maskOps ℕ .v4 (TrieOp.insertRemove [(tenNet,1)] [tenNet]) =
        @TrieOp.routes maskOps ℕ .v4 [] ∧
      ∃ os os' node, @TrieOp.run maskOps ℕ .v4 (TrieOp.insertRemove [(tenNet,1)] [tenNet]) = .ok (os,node) ∧
        @TrieOp.run maskOps ℕ .v4 [] = .ok (os',node)) ∧
    ∃ os, @TrieOp.run maskOps ℕ .v4 (TrieOp.insertRemove [(tenNet,1)] [tenNet]) = .ok (os,Node.empty) := by
  have hroutes : @TrieOp.routes maskOps ℕ .v4 (TrieOp.insertRemove [(tenNet,1)] [tenNet]) =
      @TrieOp.routes maskOps ℕ .v4 [] := @TrieOp.routes_insertRemove maskOps ℕ .v4 _ _ (by simp)
  exact ⟨⟨hroutes,(@trie_shape_of_routes maskOps .v4 ℕ).1 _ _ hroutes⟩,
    (@trie_shape_of_routes maskOps .v4 ℕ).2.1 _ _ (by simp)⟩

end Tailnet

import Tailnet.Bart.PrefixMatch

/-! Exact lookups with host bits set. The walk and the routes of nodes and fringes only see the bits of the
prefix, but a leaf is compared with the argument as it is given, so a route that is kept in a leaf is not
found by a prefix whose host bits are set. A route is kept in a leaf when it is alone below some of its
octets and longer than they are. -/
namespace Tailnet
open List Result Node IpNet

section Walk
variable [IpNetOps] {T : Type} {fam : Family} {left : ℕ} {w : List UInt8} {p : IpNet} {node : Node T}

/-- A prefix is walked as its truncation, up to the octet in which it ends. -/
theorem Below.octets_drop {o : UInt8} {os : List UInt8} {i : BaseIndex} (h : Below fam w p.trunc)
    (hk : relKey w p.trunc = (o::os,i)) :
    p.addr.octets.drop w.length = o::p.addr.octets.drop (w ++ [o]).length := by
  have hkey := congrArg Prod.fst h.key
  rw [hk,trunc_key] at hkey
  obtain ⟨hlt,hget⟩ := List.getElem?_eq_some_iff.mp (octets_of_key hkey)
  rw [drop_eq_getElem_cons hlt,hget,length_append,length_singleton]

theorem Below.fromPrefix_last (h : Below fam w p.trunc) (hk : (relKey w p.trunc).1 = [])
    (hw : w.length + (left+1) = fam.octetCount) :
    p.prefixLen/8 = w.length ∧ ∃ o, p.addr.octets[w.length]? = some o ∧
      BaseIndex.fromPrefix o (p.prefixLen%8) = .ok (relKey w p.trunc).2 := by
  obtain ⟨hlen,-⟩ := h.last hk hw
  rw [trunc_prefixLen] at hlen
  have hfam : p.addr.family = fam := by rw [← p.trunc_family,h.family]
  have hlt : w.length < p.addr.octets.length := by
    rw [p.addr.length_octets,hfam]
    omega
  refine ⟨hlen,p.addr.octets[w.length],List.getElem?_eq_getElem hlt,?_⟩
  rw [fromPrefix_key hlen hlt,relKey,trunc_key]

/-- With host bits set the lookup finds what is stored, unless it is in a leaf. -/
theorem lookupExactLoop_hostBits (hn : node.WF fam left w) (h : Below fam w p.trunc) (hp : ¬ p.Canonical)
    (hw : w.length + left = fam.octetCount) :
    ((∃ v, Lone (node.routes w) p.prefixLen w.length (p.trunc.addr.octets.drop w.length) (relKey w p.trunc) v) ∧
        lookupExactLoop p (p.addr.octets.drop w.length) w.length node = .ok none) ∨
      (∀ v, ¬ Lone (node.routes w) p.prefixLen w.length (p.trunc.addr.octets.drop w.length) (relKey w p.trunc) v) ∧
        lookupExactLoop p (p.addr.octets.drop w.length) w.length node = .ok (node.routes w (relKey w p.trunc)) := by
  induction left generalizing w node with
  | zero => exact hn.elim
  | succ left ih =>
    obtain ⟨hpwf,hcwf,_,hch⟩ := wf_succ.mp hn
    rcases hk : relKey w p.trunc with ⟨_ | ⟨o,os⟩,i⟩
    · obtain ⟨hlen,o,ho,hidx⟩ := h.fromPrefix_last (by rw [hk]) hw
      obtain ⟨hlt,hget⟩ := List.getElem?_eq_some_iff.mp ho
      rw [hk] at hidx
      refine .inr ⟨?_,?_⟩
      · rintro v ⟨d,hd,-,-,-,hpre,-⟩
        have hlen := hpre.length_le
        rw [length_take,length_nil] at hlen
        omega
      · rw [drop_eq_getElem_cons hlt,hget]
        simp only [lookupExactLoop,strideCountAndOverflow,hlen,if_true,hidx,bind_of_ok,
          getPrefixExact_eq hpwf]
        rfl
    · have hne : w.length ≠ p.prefixLen/8 := by
        rw [← p.trunc_prefixLen]
        exact (h.next hk).2
      have hbits : 8*w.length ≤ p.prefixLen := by
        have := h.sub.length_le
        rw [length_key,p.trunc_prefixLen] at this
        omega
      obtain ⟨hb,hk'⟩ := h.cons hk
      have hw' : (w ++ [o]).length + left = fam.octetCount := by
        rw [length_append,length_singleton]
        omega
      rw [h.octets_drop hk,h.drop_octets hk]
      simp only [lookupExactLoop,strideCountAndOverflow,if_neg hne,getChild_eq hcwf,
        bind_of_ok]
      cases hl : node.children.lookup o with
      | none =>
        refine .inr ⟨fun v => not_lone_none hl,?_⟩
        rw [routes_cons,hl]
        rfl
      | some ch =>
        have hcw := hch o ch hl
        have hroutes : node.routes w (o::os,i) = ch.routes (w ++ [o]) (os,i) := by
          rw [routes_cons,hl]
          rfl
        rw [hroutes]
        cases ch with
        | path n =>
          have hlone : ∀ v, Lone (node.routes w) p.prefixLen w.length
              (o::p.trunc.addr.octets.drop (w ++ [o]).length) (o::os,i) v ↔
              Lone (n.routes (w ++ [o])) p.prefixLen (w ++ [o]).length
                (p.trunc.addr.octets.drop (w ++ [o]).length) (os,i) v := by
            intro v
            rw [lone_path hl hcw.2]
            simp [Prod.ext_iff]
          have hrec := ih hcw.1 hb hw'
          rw [hk'] at hrec
          simp only [hlone]
          change _ ∨ _ ∧ _ = Except.ok (n.routes (w ++ [o]) (os,i))
          simpa only [length_append,length_singleton] using hrec
        | leaf q v =>
          obtain ⟨hcan,hfam,hsub,hshort⟩ := hcw
          have hpq : p ≠ q := fun he => hp (he ▸ hcan)
          simp only [if_neg hpq]
          rw [Child.routes_leaf hsub,Function.update_apply]
          by_cases hkey : (os,i) = relKey (w ++ [o]) q
          · -- the route is here, but it is compared with its host bits
            refine .inl ⟨⟨v,?_⟩,rfl⟩
            have hlone := lone_leaf (p.trunc.addr.octets.drop (w ++ [o]).length) hl ⟨hcan,hfam,hsub⟩ hshort hbits
            rwa [← hkey] at hlone
          · refine .inr ⟨?_,by rw [if_neg hkey]; rfl⟩
            rintro u ⟨d,-,-,hu,-⟩
            rw [hroutes,Child.routes_leaf hsub,Function.update_of_ne hkey] at hu
            cases hu
        | fringe v =>
          refine .inr ⟨fun v => not_lone_fringe hl,?_⟩
          have hkey := congrArg Prod.fst hb.key
          rw [hk',trunc_key,append_assoc] at hkey
          have hsnd : p.key.2 = i := by
            have hsnd := congrArg Prod.snd hk'
            rwa [relKey,trunc_key] at hsnd
          simp only [isFringe_eq hkey,hsnd,Child.routes_fringe,Function.update_apply,bind_of_ok,
            decide_eq_true_eq]
          rfl

end Walk
section Table
variable [IpNetOps] {T : Type} {m : RouteMap T} {t : SplitStackTable T} {p : IpNet}

/-- What an exact lookup returns: a route kept in a leaf is only found without host bits. -/
theorem SplitStackTable.Rep.lookupPrefixExact_hostBits (h : t.Rep m) (hp : ¬ p.Canonical) :
    (Alone m p p.trunc ∧ t.lookupPrefixExact p = .ok none) ∨
      ¬ Alone m p p.trunc ∧ t.lookupPrefixExact p = .ok (m.lookup p.trunc) := by
  have hs := h.stack p.addr.family
  have hlone : ∀ v, Alone m p p.trunc ∧ m.lookup p.trunc = some v ↔ _ := fun v =>
    h.alone_key_iff p.trunc_canonical p.trunc_family
  have hwalk := lookupExactLoop_hostBits hs.wf (below_nil p) hp (Nat.zero_add _)
  simp only [length_nil,drop_zero,relKey_nil] at hwalk
  rw [trunc_key] at hlone
  rcases hwalk with ⟨⟨v,hv⟩,hrun⟩ | ⟨hno,hrun⟩
  · exact .inl ⟨((hlone v).mpr hv).1,hrun⟩
  · refine .inr ⟨fun halone => ?_,?_⟩
    · obtain ⟨v,hv⟩ := Finmap.mem_iff.mp halone.mem
      exact hno v ((hlone v).mp ⟨halone,hv⟩)
    · rw [hs.routes p.trunc p.trunc_canonical p.trunc_family,trunc_key]
      exact hrun

theorem SplitStackTable.Rep.lookupPrefixExact_iff (h : t.Rep m) (p : IpNet) :
    t.lookupPrefixExact p = .ok (m.lookup p.trunc) ↔ p.trunc = p ∨ ¬ Alone m p p.trunc := by
  by_cases hp : p.Canonical
  · refine iff_of_true ?_ (.inl hp)
    rw [h.lookupPrefixExact hp,show p.trunc = p from hp]
  · rcases h.lookupPrefixExact_hostBits hp with ⟨halone,hrun⟩ | ⟨hno,hrun⟩
    · obtain ⟨v,hv⟩ := Finmap.mem_iff.mp halone.mem
      rw [hrun,hv]
      refine iff_of_false (by simp) ?_
      rintro (hcan | hno)
      · exact hp hcan
      · exact hno halone
    · exact iff_of_true hrun (.inr hno)

/-- A prefix with host bits is looked up as its truncation exactly when the route is not kept in a leaf, also
right after it was inserted. -/
theorem lookupPrefixExact_hostBits_iff (ops : List (TableOp T)) :
    ∃ t, SplitStackTable.run ops = .ok ((RouteMap.run ops).1,t) ∧ ∀ p : IpNet,
      (t.lookupPrefixExact p = t.lookupPrefixExact p.trunc ↔
        p.trunc = p ∨ ¬ Alone (RouteMap.run ops).2 p p.trunc) ∧
      ∀ v, ∃ old t', t.insert p v = .ok (old,t') ∧
        (t'.lookupPrefixExact p = .ok (some v) ↔
          p.trunc = p ∨ ¬ Alone ((RouteMap.run ops).2.insert p.trunc v) p p.trunc) := by
  obtain ⟨t,hrun,h⟩ := SplitStackTable.run_spec ops
  refine ⟨t,hrun,fun p => ⟨?_,fun v => ?_⟩⟩
  · rw [h.lookupPrefixExact p.trunc_canonical]
    exact h.lookupPrefixExact_iff p
  · obtain ⟨t',hins,h'⟩ := SplitStackTable.insert_spec h p v
    refine ⟨_,t',hins,?_⟩
    rw [← h'.lookupPrefixExact_iff p,Finmap.lookup_insert]

end Table

/-- A route is not found by the prefix that it was just inserted with. -/
theorem lookupPrefixExact_misses_inserted :
    let given : IpNet := ⟨⟨.v4,[10,1,2,3],rfl⟩,16,by decide⟩
    let truncated : IpNet := ⟨⟨.v4,[10,1,0,0],rfl⟩,16,by decide⟩
    ∃ t, @SplitStackTable.run ℕ maskOps [.insert given 7] = .ok ([none],t) ∧ maskOps.trunc given = truncated ∧
      t.lookupPrefixExact given = .ok none ∧ t.lookupPrefixExact truncated = .ok (some 7) := by
  intro given truncated
  obtain ⟨t,hrun,-⟩ := @SplitStackTable.run_spec ℕ maskOps [.insert given 7]
  have hlookups : (do
      let (_,t) ← @SplitStackTable.run ℕ maskOps [.insert given 7]
      return (← t.lookupPrefixExact given,← t.lookupPrefixExact truncated)) = .ok (none,some 7) := by
    decide +kernel
  rw [hrun,bind_of_ok] at hlookups
  obtain ⟨a,ha,hlookups⟩ := bind_eq_ok.mp hlookups
  obtain ⟨b,hb,hlookups⟩ := bind_eq_ok.mp hlookups
  cases hlookups
  exact ⟨t,hrun,by decide,ha,hb⟩

end Tailnet

import Tailnet.Bart.LongestMatch

/-! Longest-prefix lookup by prefix. The walk down the octets of the query stops at
the first leaf and returns it, whether or not it covers the query; in every other
case the search through the visited nodes finds the longest covering route. A leaf
is met exactly where one stored prefix is alone below the octets walked so far. -/
namespace Tailnet
open List BaseIndex Node IpNet Finmap

section Backtrack
variable {T : Type} {node : Node T} {p : IpNet} {f : ℕ → Option T} {depth : ℕ}

/-- The greatest length up to some bits that has a value. -/
def LongestAt (f : ℕ → Option T) (bits n : ℕ) (v : T) : Prop :=
  n ≤ bits ∧ f n = some v ∧ ∀ m, n < m → m ≤ bits → f m = none

theorem Node.lookupIndex_longest (hwf : node.prefixes.WF) (octet : UInt8) (last : Fin 8) :
    (node.lookupIndex (.ofBits octet last) = .ok none ∧ ∀ n ≤ last.val, node.ownAt octet n = none) ∨
      ∃ (l : Fin 8) (v : T), node.lookupIndex (.ofBits octet last) = .ok (some (.ofBits octet l,v)) ∧
        LongestAt (node.ownAt octet) last.val l.val v := by
  have hmarks := node.marks_covering octet last
  have hlast := node.prefixes.bitset.isLast_intersectionTop (lpm (.ofBits octet last))
  cases hs : node.prefixes.bitset.intersectionTop (lpm (.ofBits octet last)) with
  | none =>
    rw [hs] at hlast
    refine .inl ⟨by rw [lookupIndex,Array256.intersectionTop,hs]; rfl,?_⟩
    intro n hn
    exact downTo_eq_nil.mp (hmarks.eq_nil hlast) n (by omega)
  | some bit =>
    rw [hs] at hlast
    obtain ⟨l,v,hl,rfl,hv,_,hgreatest⟩ := hmarks.eq_cons hwf hlast
    refine .inr ⟨l,v,?_,by omega,by rw [ownAt_fin,hv],?_⟩
    · rw [lookupIndex,Array256.intersectionTop,hs]
      simp [tryNew_val,Array256.get_eq hwf,hv]
    · intro n hln hn
      have hn8 : n < 8 := by omega
      rw [Node.ownAt,dif_pos hn8]
      exact Array256.lookup_of_not_test (hgreatest ⟨n,hn8⟩ hln (by change n < _; omega))

/-- The number of bits of a node's octet that belong to the query, and one more. -/
def lpmBits (p : IpNet) (depth : ℕ) : ℕ := min (p.prefixLen+1 - 8*depth) 8

theorem lpmIndex_spec (h : 8*depth ≤ p.prefixLen) (octet : UInt8) :
    ∃ last : Fin 8, last.val+1 = lpmBits p depth ∧
      lpmIndex p octet depth = .ok (.ofBits octet last) := by
  rw [lpmIndex,strideCountAndOverflow,lpmBits]
  split
  · rename_i hd
    have hlt : p.prefixLen%8 < 8 := Nat.mod_lt _ (by decide)
    exact ⟨⟨p.prefixLen%8,hlt⟩,by dsimp only at hd ⊢; omega,fromPrefix_eq octet ⟨_,hlt⟩⟩
  · rename_i hd
    exact ⟨7,by dsimp only at hd ⊢; omega,fromPfx7_eq octet⟩

def LpmStack.WF (p : IpNet) (stack : LpmStack T) : Prop :=
  ∀ e ∈ stack, e.1.prefixes.WF ∧ 8*e.2.2 ≤ p.prefixLen ∧ e.2.2 < p.addr.octets.length

/-- The visited nodes, the deepest first, hold the values at the lengths of their octets. -/
def LpmStack.Levels (f : ℕ → Option T) : LpmStack T → Prop
  | [] => True
  | (node,octet,depth)::rest =>
    depth = rest.length ∧ (∀ n < 8, f (8*depth + n) = node.ownAt octet n) ∧ LpmStack.Levels f rest

/-- The search through the visited nodes reports the greatest length with a value. -/
theorem lpmBacktrack_reports {stack : LpmStack T} (h : stack.WF p) (hl : stack.Levels f)
    (hnone : ∀ m, 8*stack.length ≤ m → m ≤ p.prefixLen → f m = none) :
    (lpmBacktrack p stack = .ok none ∧ ∀ m ≤ p.prefixLen, f m = none) ∨
      ∃ r v, lpmBacktrack p stack = .ok (some (r,v)) ∧ r.addr = p.addr ∧
        LongestAt f p.prefixLen r.prefixLen v := by
  induction stack with
  | nil => exact .inl ⟨rfl,fun m hm => hnone m (Nat.zero_le _) hm⟩
  | cons e rest ih =>
    obtain ⟨node,octet,depth⟩ := e
    obtain ⟨rfl,hown,hrest⟩ := hl
    obtain ⟨hwf,hle,hlt⟩ : node.prefixes.WF ∧ 8*rest.length ≤ p.prefixLen ∧
      rest.length < p.addr.octets.length := h _ mem_cons_self
    rw [length_cons] at hnone
    -- where this node has no values from some bit on, there are none at the lengths from there on
    have hfrom : ∀ j, (∀ n < 8, j ≤ n → 8*rest.length + n ≤ p.prefixLen → node.ownAt octet n = none) →
        ∀ m, 8*rest.length + j ≤ m → m ≤ p.prefixLen → f m = none := by
      intro j hempty m hm hmp
      by_cases h8 : m < 8*rest.length + 8
      · obtain ⟨n,rfl⟩ := Nat.exists_eq_add_of_le (Nat.le_of_add_right_le hm)
        rw [hown n (by omega)]
        exact hempty n (by omega) (by omega) hmp
      · exact hnone m (by omega) hmp
    have ih := fun hn => ih (fun e he => h e (mem_cons_of_mem _ he)) hrest (hfrom 0 hn)
    rw [lpmBacktrack]
    split
    · rename_i h0
      apply ih
      intro n hn _ _
      rw [Node.ownAt,dif_pos hn]
      exact (Array256.len_eq_zero hwf).mp h0 _
    · obtain ⟨last,hbits,hidx⟩ := lpmIndex_spec hle octet
      rw [lpmBits] at hbits
      rw [hidx,Result.bind_of_ok]
      obtain ⟨hl,hempty⟩ | ⟨l,v,hl,hlast,hv,hgreatest⟩ := lookupIndex_longest hwf octet last
      · rw [hl,Result.bind_of_ok]
        exact ih fun n hn _ hnp => hempty n (by omega)
      · have hlen : (BaseIndex.ofBits octet l).prefixBits rest.length = 8*rest.length + l.val := by
          rw [BaseIndex.prefixBits,len_ofBits]
          omega
        have hbound : 8*rest.length + l.val ≤ 8*p.addr.octets.length := by omega
        refine .inr ⟨⟨p.addr,_,hbound⟩,v,?_,rfl,?_,by rw [hown _ l.isLt,hv],?_⟩
        · rw [hl,Result.bind_of_ok]
          simp [IpNet.newAssert,hlen,hbound]
        · change 8*rest.length + l.val ≤ _
          omega
        · intro m hm hmp
          exact hfrom (l.val + 1) (fun n hn hln hnp => hgreatest n hln (by omega)) m hm hmp

end Backtrack
section Lone
variable {T : Type} {f : RouteKey → Option T} {bits depth : ℕ} {rest os w : List UInt8} {o : UInt8}
  {k : RouteKey} {v : T} {node : Node T}

/-- The route `k` is alone below some of the octets that a query of `bits` bits walks
through, and longer than they are. The walk has passed `depth` octets before. -/
def Lone (f : RouteKey → Option T) (bits depth : ℕ) (rest : List UInt8) (k : RouteKey)
    (v : T) : Prop :=
  ∃ d < rest.length, 8*(depth+d) ≤ bits ∧ f k = some v ∧ 8*(d+1) < k.bits ∧
    rest.take (d+1) <+: k.1 ∧ ∀ k' ∈ live f, rest.take (d+1) <+: k'.1 → k' = k

theorem RouteKey.bits_cons (o : UInt8) (k : RouteKey) :
    RouteKey.bits (o::k.1,k.2) = k.bits + 8 := by
  simp only [RouteKey.bits,length_cons]
  omega

theorem RouteKey.bits_pos (h : k ≠ ([],.one)) : 0 < k.bits := by
  obtain ⟨os,i⟩ := k
  rw [RouteKey.bits]
  by_contra h0
  apply h
  have hl := i.len_bounds
  have hos : os = [] := length_eq_zero_iff.mp (by dsimp only at h0; omega)
  have hi : i.octetPrefix.2 = 0 := by
    rw [octetPrefix_snd]
    dsimp only at h0
    omega
  rw [hos,← ofBits_octetPrefix i (by omega)]
  simp only [hi]
  exact Prod.ext rfl (ofBits_zero _)

/-- Below one octet a route is alone there or further down. -/
theorem lone_cons : Lone (node.routes w) bits depth (o::os) k v ↔
    ∃ k', k = (o::k'.1,k'.2) ∧
      (8*depth ≤ bits ∧ childRoutes w o (node.children.lookup o) k' = some v ∧ 0 < k'.bits ∧
          (∀ k'' ∈ live (childRoutes w o (node.children.lookup o)), k'' = k') ∨
        Lone (childRoutes w o (node.children.lookup o)) bits (depth+1) os k' v) := by
  have hcons : ∀ k' : RouteKey, node.routes w (o::k'.1,k'.2) =
      childRoutes w o (node.children.lookup o) k' := fun k' => routes_cons o k'.1 k'.2
  constructor
  · rintro ⟨d,hd,hbits,hk,hlen,hpre,huniq⟩
    obtain ⟨ks,i⟩ := k
    obtain ⟨t,ht⟩ := hpre
    rw [take_succ_cons,cons_append] at ht
    cases ht
    refine ⟨(os.take d ++ t,i),rfl,?_⟩
    have huniq' : ∀ k'' ∈ live (childRoutes w o (node.children.lookup o)),
        os.take d <+: k''.1 → k'' = (os.take d ++ t,i) := by
      intro k'' hk'' hpre
      have := huniq (o::k''.1,k''.2) (by change _ ≠ none; rw [hcons]; exact hk'')
        (cons_prefix_cons.mpr ⟨rfl,hpre⟩)
      simpa [Prod.ext_iff] using this
    have hk' := (hcons (os.take d ++ t,i)).symm.trans hk
    rw [RouteKey.bits_cons o (os.take d ++ t,i)] at hlen
    cases d with
    | zero =>
      exact .inl ⟨hbits,hk',by omega,fun k'' hk'' => huniq' k'' hk'' (by simp)⟩
    | succ d =>
      refine .inr ⟨d,by rw [length_cons] at hd; omega,by omega,hk',by omega,
        prefix_append _ _,huniq'⟩
  · rintro ⟨⟨ks,i⟩,rfl,h⟩
    -- other keys below the first octets begin with the octet as well
    have hstep : ∀ d, (∀ k'' ∈ live (childRoutes w o (node.children.lookup o)),
        os.take d <+: k''.1 → k'' = (ks,i)) →
        ∀ k'' ∈ live (node.routes w), (o::os).take (d+1) <+: k''.1 → k'' = (o::ks,i) := by
      rintro d huniq ⟨ks',i'⟩ hk'' hpre
      obtain ⟨t,ht⟩ := hpre
      rw [take_succ_cons,cons_append] at ht
      cases ht
      have := huniq (os.take d ++ t,i')
        (by change _ ≠ none; rw [← hcons]; exact hk'') (prefix_append _ _)
      simpa [Prod.ext_iff] using this
    rcases h with ⟨hbits,hk,hpos,huniq⟩ | ⟨d,hd,hbits,hk,hlen,hpre,huniq⟩
    · refine ⟨0,by simp,hbits,(hcons (ks,i)).trans hk,?_,by simp,
        hstep 0 fun k'' hk'' _ => huniq k'' hk''⟩
      rw [RouteKey.bits_cons o (ks,i)]
      omega
    · refine ⟨d+1,by rw [length_cons]; omega,by omega,(hcons (ks,i)).trans hk,?_,
        by simpa using hpre,hstep (d+1) huniq⟩
      rw [RouteKey.bits_cons o (ks,i)]
      omega

theorem not_lone_none (hl : node.children.lookup o = none) :
    ¬ Lone (node.routes w) bits depth (o::os) k v := by
  rw [lone_cons,hl]
  rintro ⟨k',_,⟨_,hk,_⟩ | ⟨_,_,_,hk,_⟩⟩ <;> cases hk

theorem not_lone_fringe {u : T} (hl : node.children.lookup o = some (.fringe u)) :
    ¬ Lone (node.routes w) bits depth (o::os) k v := by
  have hzero : ∀ k', childRoutes w o (some (.fringe u)) k' = some v → k'.bits = 0 := by
    intro k' hk
    change (if k' = ([],.one) then some u else none) = some v at hk
    split at hk
    · rename_i he
      rw [he]
      rfl
    · cases hk
  rw [lone_cons,hl]
  rintro ⟨k',_,⟨_,hk,hpos,_⟩ | ⟨_,_,_,hk,hpos,_⟩⟩ <;>
  · rw [hzero k' hk] at hpos
    omega

theorem lone_path {n : Node T} (hl : node.children.lookup o = some (.path n))
    (hnt : (live (n.routes (w ++ [o]))).Nontrivial) :
    Lone (node.routes w) bits depth (o::os) k v ↔
      ∃ k', k = (o::k'.1,k'.2) ∧ Lone (n.routes (w ++ [o])) bits (depth+1) os k' v := by
  rw [lone_cons,hl]
  refine exists_congr fun k' => and_congr_right fun _ => ⟨?_,.inr⟩
  rintro (⟨_,_,_,huniq⟩ | hlone)
  · obtain ⟨k1,h1,k2,h2,hne⟩ := hnt
    exact absurd ((huniq k1 h1).trans (huniq k2 h2).symm) hne
  · exact hlone

theorem lone_leaf [IpNetOps] {fam : Family} {p : IpNet} (os : List UInt8)
    (hl : node.children.lookup o = some (.leaf p v)) (hb : Below fam (w ++ [o]) p)
    (hne : p.key ≠ (w ++ [o],.one)) (hbits : 8*depth ≤ bits) :
    Lone (node.routes w) bits depth (o::os) (o::(relKey (w ++ [o]) p).1,(relKey (w ++ [o]) p).2) v := by
  have hroutes := Child.routes_leaf (v := v) hb.sub
  rw [lone_cons,hl]
  refine ⟨relKey (w ++ [o]) p,rfl,.inl ⟨hbits,?_,RouteKey.bits_pos ?_,?_⟩⟩
  · change Child.routes (w ++ [o]) (.leaf p v) _ = _
    rw [hroutes,Function.update_self]
  · intro he
    have hkey := hb.key
    rw [he] at hkey
    exact hne (by simpa using hkey)
  · intro k hk
    change Child.routes (w ++ [o]) (.leaf p v) k ≠ none at hk
    by_contra hne'
    rw [hroutes,Function.update_of_ne hne'] at hk
    exact hk rfl

end Lone
section Descent
variable [IpNetOps] {T : Type} {fam : Family} {left : ℕ} {w : List UInt8} {node : Node T} {p : IpNet}
  {routes : RouteKey → Option T}

/-- The values at the lengths of the network address of a query. -/
def valuesAt (routes : RouteKey → Option T) (p : IpNet) (n : ℕ) : Option T :=
  routes (keyOf p.addr.octets n)

/-- The end of the walk: a leaf with the route it stores, the greatest length with a value, or nothing at
the lengths behind the visited nodes. -/
inductive WalkEnds (routes : RouteKey → Option T) (p : IpNet) (lone : T → Prop) :
    Option (IpNet × T) → LpmStack T → Prop
  | leaf {stack : LpmStack T} (r : IpNet) (v : T) (hlone : lone v) (canonical : r.Canonical)
      (family : r.addr.family = p.addr.family) (route : routes r.key = some v) :
      WalkEnds routes p lone (some (r,v)) stack
  | fringe {stack : LpmStack T} (r : IpNet) (v : T) (hlone : ∀ u, ¬lone u) (addr : r.addr = p.addr)
      (longest : LongestAt (valuesAt routes p) p.prefixLen r.prefixLen v) :
      WalkEnds routes p lone (some (r,v)) stack
  | search {stack : LpmStack T} (hlone : ∀ u, ¬lone u) (wf : stack.WF p)
      (levels : stack.Levels (valuesAt routes p))
      (behind : ∀ m, 8*stack.length ≤ m → m ≤ p.prefixLen → valuesAt routes p m = none) :
      WalkEnds routes p lone none stack

theorem lpmDescend_reports {rest : List UInt8} {stack : LpmStack T} (hn : node.WF fam left w)
    (hp : p.addr.octets = w ++ rest) (hfam : p.addr.family = fam)
    (hw : w.length + left = fam.octetCount) (hst : stack.length = w.length) (hwf : stack.WF p)
    (hroutes : ∀ k, routes (w ++ k.1,k.2) = node.routes w k)
    (hlevels : stack.Levels (valuesAt routes p)) :
    ∃ value stack', lpmDescend p rest w.length stack node = .ok (value,stack') ∧
      WalkEnds routes p (fun v => ∃ k, Lone (node.routes w) p.prefixLen w.length rest k v) value stack' := by
  induction left generalizing w node rest stack with
  | zero => exact hn.elim
  | succ left ih =>
    obtain ⟨hpwf,hcwf,_,hch⟩ := wf_succ.mp hn
    have hlen := p.addr.length_octets
    rw [hp,hfam,length_append] at hlen
    have hple := p.prefixLen_le
    rw [hp,length_append] at hple
    have hkey : ∀ n, valuesAt routes p (8*w.length + n) = node.routes w (keyOf rest n) := by
      intro n
      rw [valuesAt,hp,add_comm,keyOf_append,hroutes]
    cases rest with
    | nil =>
      rw [length_nil] at hlen
      omega
    | cons o os =>
      rw [length_cons] at hlen hple
      rw [lpmDescend]
      split
      · -- the query ends before this node
        rename_i hd
        have hd' : p.prefixLen < 8*w.length := by
          rw [strideCountAndOverflow] at hd
          dsimp only at hd
          omega
        refine ⟨none,stack,rfl,.search ?_ hwf hlevels fun m hm hmp => ?_⟩
        · rintro u ⟨k,d,_,hbits,_⟩
          omega
        · omega
      · rename_i hd
        have hd' : 8*w.length ≤ p.prefixLen := by
          rw [strideCountAndOverflow] at hd
          dsimp only at hd
          omega
        have hpush := pushVisited_ok (show stack.length < fam.octetCount by omega) (node,o,w.length)
        have hwf' : LpmStack.WF p ((node,o,w.length)::stack) := by
          intro e he
          rcases mem_cons.mp he with rfl | he
          · exact ⟨hpwf,hd',by rw [hp]; simp⟩
          · exact hwf e he
        have hlevels' : LpmStack.Levels (valuesAt routes p) ((node,o,w.length)::stack) := by
          refine ⟨hst.symm,fun n hn => ?_,hlevels⟩
          rw [hkey,show n = (⟨n,hn⟩ : Fin 8).val from rfl,keyOf_cons_of_lt,ownAt_fin,routes_nil]
        have hbelow : ∀ n, valuesAt routes p (8*(w.length + 1) + n) =
            childRoutes w o (node.children.lookup o) (keyOf os n) := by
          intro n
          rw [show 8*(w.length + 1) + n = 8*w.length + (n + 8) by omega,hkey,keyOf_cons,routes_cons]
        have hlen' : ((node,o,w.length)::stack).length = w.length + 1 := by rw [length_cons,hst]
        simp only [hpush,Result.bind_of_ok,getChild_eq hcwf]
        cases hl : node.children.lookup o with
        | none =>
          refine ⟨none,_,rfl,.search ?_ hwf' hlevels' fun m hm _ => ?_⟩
          · rintro u ⟨k,hlone⟩
            exact not_lone_none hl hlone
          · rw [hlen'] at hm
            obtain ⟨n,rfl⟩ := Nat.exists_eq_add_of_le hm
            rw [hbelow,hl]
            rfl
        | some c =>
          have hcw := hch o c hl
          cases c with
          | path n =>
            have hp' : p.addr.octets = (w ++ [o]) ++ os := by
              rw [hp]
              simp
            have hwl : (w ++ [o]).length = w.length + 1 := by simp
            have hroutes' : ∀ k, routes ((w ++ [o]) ++ k.1,k.2) = n.routes (w ++ [o]) k := by
              intro k
              rw [append_assoc,singleton_append,hroutes (o::k.1,k.2),routes_cons,hl]
              rfl
            have hlone : (fun v => ∃ k, Lone (node.routes w) p.prefixLen w.length (o::os) k v) =
                fun v => ∃ k, Lone (n.routes (w ++ [o])) p.prefixLen (w.length + 1) os k v := by
              funext v
              simp only [lone_path hl hcw.2,eq_iff_iff]
              constructor
              · rintro ⟨_,k,_,h⟩
                exact ⟨k,h⟩
              · rintro ⟨k,h⟩
                exact ⟨_,k,rfl,h⟩
            have hrec := ih hcw.1 hp' (by omega) (by rw [length_cons,hwl,hst]) hwf' hroutes' hlevels'
            rw [hwl] at hrec
            rw [hlone]
            exact hrec
          | leaf r v =>
            obtain ⟨hcan,hrfam,hpre,hne⟩ := hcw
            have hb : Below fam (w ++ [o]) r := ⟨hcan,hrfam,hpre⟩
            have hself : r.contains r.addr = true := contains_iff.mpr ⟨rfl,rfl⟩
            have hk := lone_leaf os hl hb hne hd'
            refine ⟨some (r,v),(node,o,w.length)::stack,by simp [hself],
              .leaf r v ⟨_,hk⟩ hcan (hrfam.trans hfam.symm) ?_⟩
            have hkeyr := hb.key
            rw [append_assoc,singleton_append] at hkeyr
            rw [hkeyr,hroutes (o::(relKey (w ++ [o]) r).1,(relKey (w ++ [o]) r).2),routes_cons,hl]
            change Child.routes (w ++ [o]) (.leaf r v) _ = _
            rw [Child.routes_leaf hpre,Function.update_self]
          | fringe v =>
            have hlone : ∀ u, ¬∃ k, Lone (node.routes w) p.prefixLen w.length (o::os) k u := by
              rintro u ⟨k,h⟩
              exact not_lone_fringe hl h
            by_cases hlong : (w.length+1)*8 > p.prefixLen
            · refine ⟨none,(node,o,w.length)::stack,by simp [hlong],.search hlone hwf' hlevels' ?_⟩
              intro m hm hmp
              rw [hlen'] at hm
              omega
            · have hbound : (w.length+1)*8 ≤ 8*p.addr.octets.length := by
                rw [hp,length_append,length_cons]
                omega
              have hnew : IpNet.newAssert p.addr ((w.length+1)*8) = .ok ⟨p.addr,_,hbound⟩ := by
                rw [IpNet.newAssert,dif_pos]
              refine ⟨_,_,by simp [hlong,hnew]; rfl,.fringe ⟨p.addr,_,hbound⟩ v hlone rfl ⟨?_,?_,?_⟩⟩
              · exact not_lt.mp hlong
              · have h0 := hbelow 0
                rw [hl,keyOf_zero] at h0
                change valuesAt routes p ((w.length + 1)*8) = _
                rw [mul_comm]
                exact h0.trans (by simp [childRoutes,Child.routes])
              · intro m hm hmp
                change (w.length + 1)*8 < m at hm
                obtain ⟨n,rfl⟩ := Nat.exists_eq_add_of_le (show 8*(w.length + 1) ≤ m by omega)
                rw [hbelow,hl]
                have hroot : keyOf os n ≠ ([],.one) := keyOf_ne_root (by omega) (by omega)
                simp [childRoutes,Child.routes,hroot]

/-- What a lookup by prefix reports: a stored leaf, or the query cut to the greatest length with a value. -/
inductive Reports (routes : RouteKey → Option T) (q : IpNet) (lone : T → Prop) :
    Option (IpNet × T) → Prop
  | leaf (r : IpNet) (v : T) (hlone : lone v) (canonical : r.Canonical)
      (family : r.addr.family = q.addr.family) (route : routes r.key = some v) :
      Reports routes q lone (some (r,v))
  | cut (r : IpNet) (v : T) (hlone : ∀ u, ¬lone u) (addr : r.addr = q.trunc.addr)
      (longest : LongestAt (valuesAt routes q.trunc) q.prefixLen r.prefixLen v) :
      Reports routes q lone (some (r,v))
  | nothing (hlone : ∀ u, ¬lone u) (empty : ∀ m ≤ q.prefixLen, valuesAt routes q.trunc m = none) :
      Reports routes q lone none

theorem lookupPrefixLpm_reports {q : IpNet} (hn : node.RootWF q.addr.family) :
    ∃ res, lookupPrefixLpm node q = .ok res ∧ Reports (node.routes []) q
      (fun v => ∃ k, Lone (node.routes []) q.prefixLen 0 q.trunc.addr.octets k v) res := by
  obtain ⟨value,stack,hrun,hends⟩ := lpmDescend_reports (p := q.trunc) (w := []) hn rfl q.trunc_family
    (Nat.zero_add _) (show List.length ([] : LpmStack T) = 0 from rfl) (fun e he => by cases he)
    (fun k => rfl) trivial
  rw [trunc_prefixLen] at hends
  simp only [lookupPrefixLpm,show lpmDescend _ _ 0 [] _ = _ from hrun,Result.bind_of_ok]
  cases hends with
  | leaf r v hlone canonical family route =>
    exact ⟨_,rfl,.leaf r v hlone canonical (family.trans q.trunc_family) route⟩
  | fringe r v hlone addr longest =>
    rw [trunc_prefixLen] at longest
    exact ⟨_,rfl,.cut r v hlone addr longest⟩
  | search hlone wf levels behind =>
    obtain ⟨hb,hempty⟩ | ⟨r,v,hb,haddr,hlongest⟩ := lpmBacktrack_reports wf levels behind
    · rw [trunc_prefixLen] at hempty
      exact ⟨none,hb,.nothing hlone hempty⟩
    · rw [trunc_prefixLen] at hlongest
      exact ⟨_,hb,.cut r v hlone haddr hlongest⟩

theorem Node.WF.exists_net {k : RouteKey} {v : T} (hn : node.WF fam left w)
    (hw : w.length + left = fam.octetCount) (hk : node.routes w k = some v) :
    ∃ p : IpNet, p.Canonical ∧ p.addr.family = fam ∧ p.key = (w ++ k.1,k.2) := by
  obtain ⟨ks,i⟩ := k
  induction left generalizing w node ks with
  | zero => exact hn.elim
  | succ left ih =>
    obtain ⟨_,_,_,hch⟩ := wf_succ.mp hn
    cases ks with
    | nil =>
      obtain ⟨q,_,hq⟩ := prefixFromPath_spec (show w.length < fam.octetCount by omega)
        (prefix_refl w) i
      exact ⟨q,by simpa using hq⟩
    | cons o os =>
      rw [routes_cons] at hk
      cases hl : node.children.lookup o with
      | none =>
        rw [hl] at hk
        cases hk
      | some c =>
        rw [hl] at hk
        change c.routes (w ++ [o]) (os,i) = some v at hk
        have hcw := hch o c hl
        cases c with
        | path n =>
          obtain ⟨q,hq⟩ := ih hcw.1 (by simp; omega) os hk
          exact ⟨q,by simpa using hq⟩
        | leaf q u =>
          simp only [Child.routes] at hk
          split at hk
          · rename_i he
            exact ⟨q,hcw.1,hcw.2.1,by simpa using he⟩
          · cases hk
        | fringe u =>
          simp only [Child.routes] at hk
          split at hk
          · rename_i he
            cases he
            obtain ⟨q,_,hq⟩ := fringePrefix_spec (show w.length < fam.octetCount by omega)
              (prefix_refl w) o
            exact ⟨q,hq⟩
          · cases hk

end Descent
section Table
variable [IpNetOps] {T : Type} {m : RouteMap T} {t : SplitStackTable T} {q p r : IpNet} {d : ℕ} {v : T}

/-- A stored prefix that covers a prefix: it is not longer and contains its network
address. -/
def CoversNet (m : RouteMap T) (q p : IpNet) : Prop :=
  p ∈ m ∧ p.addr.family = q.addr.family ∧ p.prefixLen ≤ q.prefixLen ∧
    p.contains q.trunc.addr = true

/-- The longest stored prefix that covers a prefix. -/
def IsLongestNet (m : RouteMap T) (q p : IpNet) : Prop :=
  CoversNet m q p ∧ ∀ p', CoversNet m q p' → p'.prefixLen ≤ p.prefixLen

/-- A prefix lies below the first `d+1` octets of the network address of a query. -/
def Under (q : IpNet) (d : ℕ) (r : IpNet) : Prop :=
  r.addr.family = q.addr.family ∧ 8*(d+1) ≤ r.prefixLen ∧
    r.addr.octets.take (d+1) = q.trunc.addr.octets.take (d+1)

/-- A stored prefix is the only one below the first octets of a query and longer than
they are. The query has at least the bits of all of these octets but the last. -/
def Alone (m : RouteMap T) (q r : IpNet) : Prop :=
  ∃ d < q.addr.octets.length, 8*d ≤ q.prefixLen ∧ r ∈ m ∧ Under q d r ∧ 8*(d+1) < r.prefixLen ∧
    ∀ r' ∈ m, Under q d r' → r' = r

/-- The two lookups by prefix return the value of the longest covering prefix, and
nothing when there is none. -/
def PrefixLookupRight (t : SplitStackTable T) (m : RouteMap T) (q : IpNet) : Prop :=
  ∃ res, t.lookupPrefixLpm q = .ok res ∧ t.lookupPrefix q = .ok (res.map Prod.snd) ∧
    (res.isSome = true ↔ ∃ p, CoversNet m q p) ∧
    ∀ p, IsLongestNet m q p → res.map Prod.snd = m.lookup p

theorem coversNet_iff :
    CoversNet m q p ↔ Covers m q.trunc.addr p ∧ p.prefixLen < q.prefixLen+1 := by
  rw [CoversNet,Covers,trunc_family,Nat.lt_succ_iff]
  tauto

theorem under_iff (hd : d < q.addr.octets.length) :
    Under q d r ↔ r.addr.family = q.addr.family ∧ q.trunc.addr.octets.take (d+1) <+: r.key.1 := by
  refine and_congr_right fun _ => ?_
  have hlen : (q.trunc.addr.octets.take (d+1)).length = d+1 := by
    rw [length_take,length_trunc]
    omega
  have htake : d+1 ≤ r.prefixLen/8 → r.key.1.take (d+1) = r.addr.octets.take (d+1) := by
    intro h
    rw [IpNet.key,keyOf,take_take,min_eq_left h]
  constructor
  · rintro ⟨h8,he⟩
    rw [← he,← htake (by omega)]
    exact take_prefix _ _
  · intro hpre
    have hle := hpre.length_le
    rw [hlen,r.length_key] at hle
    refine ⟨by omega,?_⟩
    rw [← htake hle,prefix_iff_eq_take.mp hpre,hlen]

theorem Under.mono {d' : ℕ} (h : Under q d' r) (hle : d ≤ d') : Under q d r := by
  refine ⟨h.1,by have := h.2.1; omega,?_⟩
  have := congrArg (List.take (d+1)) h.2.2
  rwa [take_take,take_take,min_eq_left (by omega)] at this

theorem Alone.mem (h : Alone m q r) : r ∈ m := by
  obtain ⟨_,_,_,hr,_⟩ := h
  exact hr

theorem Alone.unique {r' : IpNet} (h : Alone m q r) (h' : Alone m q r') : r = r' := by
  obtain ⟨d,_,_,hr,hu,_,huniq⟩ := h
  obtain ⟨d',_,_,hr',hu',_,huniq'⟩ := h'
  rcases le_total d d' with hle | hle
  · exact (huniq r' hr' (hu'.mono hle)).symm
  · exact huniq' r hr (hu.mono hle)

/-- A covering prefix that is alone is the longest one. -/
theorem Alone.longest (h : Alone m q r) (hc : CoversNet m q r) : IsLongestNet m q r := by
  obtain ⟨d,hd,_,_,_,hlen,huniq⟩ := h
  refine ⟨hc,fun p hp => ?_⟩
  by_contra hlt
  have hkey := (contains_iff.mp hp.2.2.2).2
  have hu : Under q d p := by
    rw [under_iff hd,hkey,keyOf]
    refine ⟨hp.2.1,take_prefix_take_left ?_⟩
    omega
  exact hlt (by rw [huniq p hp.1 hu])

theorem IsLongestNet.unique (hm : ∀ p ∈ m, p.Canonical) (h : IsLongestNet m q p)
    (h' : IsLongestNet m q r) : p = r := by
  have hlen : p.prefixLen = r.prefixLen := le_antisymm (h'.2 p h.1) (h.2 r h'.1)
  have hp := ((hm p h.1.1).contains_iff.mp (coversNet_iff.mp h.1).1.2).2
  have hr := ((hm r h'.1.1).contains_iff.mp (coversNet_iff.mp h'.1).1.2).2
  rw [hp,hr,hlen]

theorem SplitStackTable.Rep.exists_mem (h : t.Rep m) {fam : Family} {k : RouteKey}
    (hk : k ∈ live ((t.stackTable (fam == .v4)).root.routes [])) :
    ∃ r ∈ m, r.addr.family = fam ∧ r.key = k := by
  have hs := h.stack fam
  obtain ⟨u,hu⟩ := Option.ne_none_iff_exists'.mp hk
  obtain ⟨r,hcan,hfam,hkey⟩ := Node.WF.exists_net hs.wf (Nat.zero_add _) hu
  refine ⟨r,mem_iff.mpr ⟨u,?_⟩,hfam,hkey⟩
  rw [hs.routes r hcan hfam,hkey]
  exact hu

theorem SplitStackTable.Rep.live_key (h : t.Rep m) (hr : r ∈ m) :
    r.key ∈ live ((t.stackTable r.addr.isIpv4).root.routes []) := by
  obtain ⟨u,hu⟩ := mem_iff.mp hr
  change _ ≠ none
  rw [IpAddr.isIpv4,← (h.stack r.addr.family).routes r (h.canonical r hr) rfl,hu]
  simp

theorem SplitStackTable.Rep.alone_key_iff (h : t.Rep m) (hcan : r.Canonical)
    (hfam : r.addr.family = q.addr.family) :
    Alone m q r ∧ m.lookup r = some v ↔
      Lone ((t.stackTable q.addr.isIpv4).root.routes []) q.prefixLen 0 q.trunc.addr.octets r.key v := by
  have hroute : m.lookup r = (t.stackTable q.addr.isIpv4).root.routes [] r.key :=
    (h.stack q.addr.family).routes r hcan hfam
  constructor
  · rintro ⟨⟨d,hd,hbits,hr,hu,hlen,huniq⟩,hv⟩
    refine ⟨d,by rwa [length_trunc],by omega,hroute.symm.trans hv,by rwa [r.key_bits],
      ((under_iff hd).mp hu).2,?_⟩
    intro k hk hpre
    obtain ⟨r',hr',hfam',rfl⟩ := h.exists_mem hk
    rw [huniq r' hr' ((under_iff hd).mpr ⟨hfam',hpre⟩)]
  · rintro ⟨d,hd,hbits,hv,hlen,hpre,huniq⟩
    rw [length_trunc] at hd
    rw [r.key_bits] at hlen
    have hlook := hroute.trans hv
    refine ⟨⟨d,hd,by omega,mem_iff.mpr ⟨v,hlook⟩,(under_iff hd).mpr ⟨hfam,hpre⟩,hlen,?_⟩,hlook⟩
    intro r' hr' hu
    obtain ⟨hfam',hpre'⟩ := (under_iff hd).mp hu
    have hlive := h.live_key hr'
    rw [IpAddr.isIpv4,hfam'] at hlive
    exact (h.canonical r' hr').ext hcan (hfam'.trans hfam.symm) (huniq _ hlive hpre')

/-- The prefixes that are alone in the map are the routes that are alone in the trie. -/
theorem SplitStackTable.Rep.alone_iff (h : t.Rep m) :
    (∃ r, Alone m q r ∧ m.lookup r = some v) ↔
      ∃ k, Lone ((t.stackTable q.addr.isIpv4).root.routes []) q.prefixLen 0
        q.trunc.addr.octets k v := by
  constructor
  · rintro ⟨r,hr⟩
    have hfam : r.addr.family = q.addr.family := by
      obtain ⟨d,-,-,-,hu,-⟩ := hr.1
      exact hu.1
    exact ⟨r.key,(h.alone_key_iff (h.canonical r hr.1.mem) hfam).mp hr⟩
  · rintro ⟨k,hk⟩
    have hlive : k ∈ live ((t.stackTable q.addr.isIpv4).root.routes []) := by
      obtain ⟨d,-,-,hv,-⟩ := hk
      change _ ≠ none
      rw [hv]
      simp
    obtain ⟨r,hr,hfam,rfl⟩ := h.exists_mem hlive
    exact ⟨r,(h.alone_key_iff (h.canonical r hr) hfam).mpr hk⟩

/-- The lookups are right exactly when what they return is the head of the walk. -/
theorem prefixLookupRight_iff (h : t.Rep m) {res : Option (IpNet × T)}
    (hres : t.lookupPrefixLpm q = .ok res) :
    PrefixLookupRight t m q ↔ (res.map Prod.snd = none ∧ ∀ p, ¬ CoversNet m q p) ∨
      ∃ p v, res.map Prod.snd = some v ∧ IsLongestNet m q p ∧ m.lookup p = some v := by
  have hb : q.prefixLen+1 ≤ 8*q.trunc.addr.octets.length+1 := by
    rw [length_trunc]
    exact Nat.succ_le_succ q.prefixLen_le
  have hbest := h.head_covering hb
  simp only [← coversNet_iff] at hbest
  constructor
  · rintro ⟨res',hres',_,hsome,hval⟩
    rw [hres] at hres'
    cases hres'
    rcases hbest with ⟨_,hno⟩ | ⟨p,v,_,hv,hp,hmax⟩
    · left
      refine ⟨?_,hno⟩
      cases res with
      | none => rfl
      | some x =>
        obtain ⟨p,hp⟩ := hsome.mp rfl
        exact absurd hp (hno p)
    · exact .inr ⟨p,v,(hval p ⟨hp,hmax⟩).trans hv,⟨hp,hmax⟩,hv⟩
  · intro hright
    refine ⟨res,hres,?_,?_⟩
    · change SimpleTable.lookupPrefix _ q = _
      rw [SimpleTable.lookupPrefix,show Tailnet.lookupPrefixLpm _ q = _ from hres]
      rfl
    · rcases hright with ⟨hnone,hno⟩ | ⟨p,v,hsome,hp,hv⟩
      · rw [Option.map_eq_none_iff] at hnone
        subst hnone
        exact ⟨⟨fun h => absurd h (by simp),fun ⟨p,hp⟩ => absurd hp (hno p)⟩,
          fun p hp => absurd hp.1 (hno p)⟩
      · refine ⟨⟨fun _ => ⟨p,hp.1⟩,fun _ => ?_⟩,fun p' hp' => ?_⟩
        · rw [← Option.isSome_map,hsome]
          rfl
        · rw [hsome,hp'.unique h.canonical hp,hv]

/-- The stored prefix whose value a lookup by prefix returns: the one that is alone below the
octets of the query, or else the longest covering one. -/
def PrefixHit (m : RouteMap T) (q : IpNet) : Option IpNet → Prop
  | some r => Alone m q r ∨ (∀ r', ¬ Alone m q r') ∧ IsLongestNet m q r
  | none => (∀ r', ¬ Alone m q r') ∧ ∀ r', ¬ CoversNet m q r'

theorem PrefixHit.congr {S : Type} {m' : RouteMap S} (h : ∀ p, p ∈ m ↔ p ∈ m') {o : Option IpNet} :
    PrefixHit m q o ↔ PrefixHit m' q o := by
  cases o with
  | none => simp only [PrefixHit,Alone,CoversNet,h]
  | some r => simp only [PrefixHit,Alone,IsLongestNet,CoversNet,h]

theorem PrefixHit.unique (hm : ∀ p ∈ m, p.Canonical) {o o' : Option IpNet} (h : PrefixHit m q o)
    (h' : PrefixHit m q o') : o = o' := by
  cases o with
  | none =>
    cases o' with
    | none => rfl
    | some r' =>
      rcases h' with ha | ⟨_,hl⟩
      · exact absurd ha (h.1 r')
      · exact absurd hl.1 (h.2 r')
  | some r =>
    rcases h with ha | ⟨hno,hl⟩
    · cases o' with
      | none => exact absurd ha (h'.1 r)
      | some r' =>
        rcases h' with ha' | ⟨hno',_⟩
        · rw [ha.unique ha']
        · exact absurd ha (hno' r)
    · cases o' with
      | none => exact absurd hl.1 (h'.2 r)
      | some r' =>
        rcases h' with ha' | ⟨_,hl'⟩
        · exact absurd ha' (hno r')
        · rw [hl.unique hm hl']

theorem SplitStackTable.Rep.valuesAt_of_covers (h : t.Rep m) (hc : CoversNet m q p) :
    valuesAt ((t.stackTable q.addr.isIpv4).root.routes []) q.trunc p.prefixLen ≠ none := by
  obtain ⟨hmem,hfam,-,hcont⟩ := hc
  obtain ⟨v,hv⟩ := mem_iff.mp hmem
  have hs := h.stack q.addr.family
  have hkey := (contains_iff.mp hcont).2
  rw [hs.routes p (h.canonical p hmem) hfam,hkey] at hv
  rw [valuesAt]
  exact Option.ne_none_iff_exists'.mpr ⟨v,hv⟩

/-- The stored prefix behind a reported one that was cut out of the query is the longest covering one. -/
theorem SplitStackTable.Rep.longest_of_cut (h : t.Rep m) (haddr : r.addr = q.trunc.addr)
    (hl : LongestAt (valuesAt ((t.stackTable q.addr.isIpv4).root.routes []) q.trunc) q.prefixLen
      r.prefixLen v) : m.lookup r.trunc = some v ∧ IsLongestNet m q r.trunc := by
  obtain ⟨hle,hv,hgreatest⟩ := hl
  have hs := h.stack q.addr.family
  have hfam : r.trunc.addr.family = q.addr.family := by
    rw [trunc_family,haddr,trunc_family]
  have hlook : m.lookup r.trunc = some v := by
    rw [hs.routes _ r.trunc_canonical hfam,r.trunc_key,IpNet.key,haddr]
    exact hv
  have hcov : CoversNet m q r.trunc := by
    refine ⟨mem_iff.mpr ⟨v,hlook⟩,hfam,by rwa [trunc_prefixLen],?_⟩
    rw [contains_iff,hfam,q.trunc_family,r.trunc_key,r.trunc_prefixLen,IpNet.key,haddr]
    exact ⟨rfl,rfl⟩
  refine ⟨hlook,hcov,fun p' hp' => ?_⟩
  rw [trunc_prefixLen]
  by_contra hlt
  exact h.valuesAt_of_covers hp' (hgreatest _ (not_le.mp hlt) hp'.2.2.1)

/-- A lookup by prefix returns the value of the prefix that is hit. -/
theorem SplitStackTable.Rep.lookupPrefix_hit (h : t.Rep m) (q : IpNet) :
    ∃ res o, t.lookupPrefixLpm q = .ok res ∧ PrefixHit m q o ∧
      res.map Prod.snd = o.bind fun r => m.lookup r := by
  obtain ⟨res,hres,hrep⟩ := lookupPrefixLpm_reports (h.stack q.addr.family).wf
  have halone (hno : ∀ u, ¬∃ k, Lone ((t.stackTable q.addr.isIpv4).root.routes []) q.prefixLen 0
      q.trunc.addr.octets k u) (r : IpNet) : ¬ Alone m q r := by
    intro hr
    obtain ⟨v,hv⟩ := mem_iff.mp hr.mem
    exact hno v (h.alone_iff.mp ⟨r,hr,hv⟩)
  cases hrep with
  | leaf r v hlone canonical family route =>
    obtain ⟨r',hr',hv⟩ := h.alone_iff.mpr hlone
    exact ⟨_,some r',hres,.inl hr',hv.symm⟩
  | cut r v hlone addr longest =>
    obtain ⟨hlook,hlongest⟩ := h.longest_of_cut addr longest
    exact ⟨_,some r.trunc,hres,.inr ⟨halone hlone,hlongest⟩,hlook.symm⟩
  | nothing hlone empty =>
    exact ⟨none,none,hres,⟨halone hlone,fun p hp => h.valuesAt_of_covers hp (empty _ hp.2.2.1)⟩,rfl⟩

/-- A lookup by prefix is right exactly when no stored prefix that is alone below the
octets of the query and does not cover the query holds another value than the
longest covering prefix. -/
theorem prefixLookup_right_iff_no_stray (ops : List (TableOp T)) :
    ∃ t, SplitStackTable.run ops = .ok ((RouteMap.run ops).1,t) ∧ ∀ q : IpNet,
      (PrefixLookupRight t (RouteMap.run ops).2 q ↔
        ∀ r v, Alone (RouteMap.run ops).2 q r → (RouteMap.run ops).2.lookup r = some v →
          ¬ CoversNet (RouteMap.run ops).2 q r →
          ∃ p, IsLongestNet (RouteMap.run ops).2 q p ∧
            (RouteMap.run ops).2.lookup p = some v) := by
  obtain ⟨t,hrun,h⟩ := SplitStackTable.run_spec ops
  refine ⟨t,hrun,fun q => ?_⟩
  obtain ⟨res,o,hres,hhit,hval⟩ := h.lookupPrefix_hit q
  rw [prefixLookupRight_iff h hres,hval]
  cases o with
  | none =>
    exact ⟨fun _ r _ hr => absurd hr (hhit.1 r),fun _ => .inl ⟨rfl,hhit.2⟩⟩
  | some r =>
    rw [Option.bind_some]
    rcases hhit with hr | ⟨hno,hl⟩
    · obtain ⟨v,hv⟩ := mem_iff.mp hr.mem
      rw [hv]
      constructor
      · rintro (⟨hn,_⟩ | ⟨p,u,hu,hp,hpu⟩) r' v' hr' hv' _
        · cases hn
        · cases hu
          rw [hr'.unique hr,hv] at hv'
          cases hv'
          exact ⟨p,hp,hpu⟩
      · intro hcond
        right
        by_cases hc : CoversNet (RouteMap.run ops).2 q r
        · exact ⟨r,v,rfl,hr.longest hc,hv⟩
        · obtain ⟨p,hp,hpv⟩ := hcond r v hr hv hc
          exact ⟨p,v,rfl,hp,hpv⟩
    · obtain ⟨v,hv⟩ := mem_iff.mp hl.1.1
      exact ⟨fun _ r' _ hr' => absurd hr' (hno r'),fun _ => .inr ⟨r,v,hv,hl,hv⟩⟩

end Table

/-- A table with one prefix returns it for a shorter one that it does not cover. -/
theorem lookupPrefix_returns_stray_leaf :
    let stored : IpNet := ⟨⟨.v4,[10,0,5,0],rfl⟩,24,by decide⟩
    let query : IpNet := ⟨⟨.v4,[10,0,0,0],rfl⟩,8,by decide⟩
    ∃ t, @SplitStackTable.run ℕ maskOps [.insert stored 1] = .ok ([none],t) ∧
      @SplitStackTable.lookupPrefixLpm ℕ maskOps t query = .ok (some (stored,1)) ∧
      ¬ @PrefixLookupRight maskOps ℕ t (@RouteMap.run ℕ maskOps [.insert stored 1]).2 query := by
  intro stored query
  obtain ⟨t,hrun,_⟩ := @SplitStackTable.run_spec ℕ maskOps [.insert stored 1]
  have hlpm : (do
      let (_,t) ← @SplitStackTable.run ℕ maskOps [.insert stored 1]
      @SplitStackTable.lookupPrefixLpm ℕ maskOps t query) = .ok (some (stored,1)) := by
    decide +kernel
  rw [hrun] at hlpm
  refine ⟨t,hrun,hlpm,?_⟩
  rintro ⟨res,hres,_,hsome,_⟩
  cases hlpm.symm.trans hres
  obtain ⟨p,hp,_,hlen,_⟩ := hsome.mp rfl
  -- the query is shorter than the one stored prefix
  have hp : p = @IpNet.trunc maskOps stored := by
    have hmem := RouteMap.mem_set.mp (show p ∈ RouteMap.set ∅ _ (some 1) from hp)
    by_contra hne
    rw [if_neg hne] at hmem
    exact notMem_empty hmem
  subst hp
  revert hlen
  decide

end Tailnet

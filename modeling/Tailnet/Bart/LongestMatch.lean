import Tailnet.Bart.Table

/-! Longest-prefix lookup by address. The stored prefixes that contain an address
are the truncations of the address to the lengths at which a route is stored, so
the lookups that walk the trie list them from the longest to the shortest. -/
namespace Tailnet
open IpAddr

section
variable {T : Type} [IpNetOps] {m : RouteMap T} {ip : IpAddr}

/-- A stored prefix of the family of an address that contains the address. -/
def Covers (m : RouteMap T) (ip : IpAddr) (p : IpNet) : Prop :=
  p ∈ m ∧ p.addr.family = ip.family ∧ p.contains ip = true

/-- The longest stored prefix that contains an address. -/
def IsLongest (m : RouteMap T) (ip : IpAddr) (p : IpNet) : Prop :=
  Covers m ip p ∧ ∀ q, Covers m ip q → q.prefixLen ≤ p.prefixLen

theorem Covers.prefixLen_lt {p : IpNet} (h : Covers m ip p) :
    p.prefixLen < 8*ip.octets.length+1 := by
  have := p.prefixLen_le
  rw [p.addr.length_octets,h.2.1,← ip.length_octets] at this
  omega

/-- The prefix made of the first `n` bits of an address. -/
def IpAddr.netOf (ip : IpAddr) (n : ℕ) : IpNet :=
  IpNet.trunc ⟨ip,min n (8*ip.octets.length),Nat.min_le_right _ _⟩

theorem IpAddr.netOf_key {n : ℕ} (h : n ≤ 8*ip.octets.length) :
    (ip.netOf n).key = keyOf ip.octets n := by
  rw [IpAddr.netOf,IpNet.trunc_key,IpNet.key]
  simp only [Nat.min_eq_left h]

theorem IpAddr.netOf_prefixLen {n : ℕ} (h : n ≤ 8*ip.octets.length) :
    (ip.netOf n).prefixLen = n := by
  rw [IpAddr.netOf,IpNet.trunc_prefixLen]
  exact Nat.min_eq_left h

theorem IpAddr.netOf_family (n : ℕ) : (ip.netOf n).addr.family = ip.family :=
  IpNet.trunc_family _

theorem IpAddr.netOf_canonical (n : ℕ) : (ip.netOf n).Canonical :=
  IpNet.trunc_canonical _

/-- A canonical prefix contains an address when it is the address cut to its length. -/
theorem IpNet.Canonical.contains_iff {p : IpNet} (hp : p.Canonical) :
    p.addr.family = ip.family ∧ p.contains ip = true ↔
      p.prefixLen ≤ 8*ip.octets.length ∧ p = ip.netOf p.prefixLen := by
  constructor
  · rintro ⟨hf,hc⟩
    have hle : p.prefixLen ≤ 8*ip.octets.length := by
      have := p.prefixLen_le
      rwa [p.addr.length_octets,hf,← ip.length_octets] at this
    refine ⟨hle,hp.ext (netOf_canonical _) ?_ ?_⟩
    · rw [hf]
      exact (netOf_family _).symm
    · rw [(IpNet.contains_iff.mp hc).2]
      exact (netOf_key hle).symm
  · rintro ⟨hle,he⟩
    have hf : p.addr.family = ip.family := by
      rw [he]
      exact netOf_family _
    refine ⟨hf,IpNet.contains_iff.mpr ⟨hf,?_⟩⟩
    have hk := congrArg IpNet.key he
    rwa [netOf_key hle] at hk

/-- The stored prefix of an address of length `n`. -/
def storedNet (m : RouteMap T) (ip : IpAddr) (n : ℕ) : Option IpNet :=
  if (m.lookup (ip.netOf n)).isSome then some (ip.netOf n) else none

/-- The stored prefixes shorter than `bits` that contain an address, the longest first. -/
def coveringNets (m : RouteMap T) (ip : IpAddr) (bits : ℕ) : List IpNet :=
  downTo (storedNet m ip) bits

theorem storedNet_prefixLen {n : ℕ} {p : IpNet} (hn : n ≤ 8*ip.octets.length)
    (h : storedNet m ip n = some p) : p.prefixLen = n := by
  rw [storedNet] at h
  split at h
  · cases h
    exact netOf_prefixLen hn
  · cases h

section
variable {bits : ℕ} (hb : bits ≤ 8*ip.octets.length+1)
include hb

theorem mem_coveringNets (hm : ∀ p ∈ m, p.Canonical) {p : IpNet} :
    p ∈ coveringNets m ip bits ↔ Covers m ip p ∧ p.prefixLen < bits := by
  rw [coveringNets,mem_downTo,Covers]
  constructor
  · rintro ⟨n,hn,h⟩
    rw [storedNet_prefixLen (by omega) h]
    rw [storedNet] at h
    split at h
    · rename_i hs
      cases h
      have hmem : ip.netOf n ∈ m := Finmap.mem_iff.mpr (Option.isSome_iff_exists.mp hs)
      refine ⟨⟨hmem,(netOf_canonical n).contains_iff.mpr ?_⟩,hn⟩
      rw [netOf_prefixLen (by omega)]
      exact ⟨by omega,rfl⟩
    · cases h
  · rintro ⟨⟨hp,hc⟩,hlt⟩
    obtain ⟨hle,he⟩ := (hm p hp).contains_iff.mp hc
    refine ⟨p.prefixLen,hlt,?_⟩
    have hs : (m.lookup p).isSome = true := Option.isSome_iff_exists.mpr (Finmap.mem_iff.mp hp)
    rw [storedNet,← he,if_pos hs]

theorem coveringNets_pairwise (m : RouteMap T) :
    (coveringNets m ip bits).Pairwise fun p q => q.prefixLen < p.prefixLen :=
  downTo_pairwise _ fun _ hn _ hp => storedNet_prefixLen (by omega) hp

theorem head_coveringNets (hm : ∀ p ∈ m, p.Canonical) {p : IpNet} {ps : List IpNet}
    (h : coveringNets m ip bits = p::ps) :
    (Covers m ip p ∧ p.prefixLen < bits) ∧
      ∀ q, Covers m ip q ∧ q.prefixLen < bits → q.prefixLen ≤ p.prefixLen := by
  refine ⟨(mem_coveringNets hb hm).mp (by rw [h]; simp),?_⟩
  intro q hq
  have hpw := coveringNets_pairwise hb m
  have hmem := (mem_coveringNets hb hm).mpr hq
  rw [h] at hpw hmem
  rcases List.mem_cons.mp hmem with rfl | hmem
  · exact le_rfl
  · exact ((List.pairwise_cons.mp hpw).1 q hmem).le

theorem SplitStackTable.Rep.covering {t : SplitStackTable T} (h : t.Rep m) :
    (coveringNets m ip bits).map m.lookup =
      ((t.stackTable ip.isIpv4).root.covering [] ip.octets bits).map some := by
  apply downTo_map
  intro n hn
  have hl : m.lookup (ip.netOf n) =
      (t.stackTable ip.isIpv4).root.routes [] (keyOf ip.octets n) := by
    rw [(h.stack ip.family).routes _ (netOf_canonical n) (netOf_family n),
      netOf_key (by omega)]
    rfl
  rw [storedNet,← hl]
  cases hv : m.lookup (ip.netOf n) with
  | none => simp
  | some v => simp [hv]

/-- The walk of the trie is empty when no stored prefix covers the address; its
head is the value of the longest one otherwise. -/
theorem SplitStackTable.Rep.head_covering {t : SplitStackTable T} (h : t.Rep m) :
    (((t.stackTable ip.isIpv4).root.covering [] ip.octets bits).head? = none ∧
      ∀ p, ¬ (Covers m ip p ∧ p.prefixLen < bits)) ∨
    ∃ p v, ((t.stackTable ip.isIpv4).root.covering [] ip.octets bits).head? = some v ∧
      m.lookup p = some v ∧ (Covers m ip p ∧ p.prefixLen < bits) ∧
      ∀ q, Covers m ip q ∧ q.prefixLen < bits → q.prefixLen ≤ p.prefixLen := by
  have hmap := h.covering hb
  cases hps : coveringNets m ip bits with
  | nil =>
    rw [hps] at hmap
    refine .inl ⟨by rw [List.map_eq_nil_iff.mp hmap.symm]; rfl,fun p hp => ?_⟩
    have := (mem_coveringNets hb h.canonical).mpr hp
    rw [hps] at this
    cases this
  | cons p ps =>
    rw [hps] at hmap
    obtain ⟨v,vs,hvs,hv,_⟩ := List.map_eq_cons_iff.mp hmap.symm
    exact .inr ⟨p,v,by rw [hvs]; rfl,hv.symm,head_coveringNets hb h.canonical hps⟩

end

theorem SplitStackTable.Rep.lookups {t : SplitStackTable T} (h : t.Rep m) (ip : IpAddr) :
    ∃ (it : LookupIter T) (ps : List IpNet) (vs : List T), t.lookupAll ip = .ok it ∧ Yields LookupIter.next it vs ∧
      vs.length ≤ 8*ip.octets.length+1 ∧ (∀ p, p ∈ ps ↔ Covers m ip p) ∧
      ps.Pairwise (fun p q => q.prefixLen < p.prefixLen) ∧
      ps.map m.lookup = vs.map some ∧ t.lookup ip = .ok vs.head? ∧
      (t.lookup ip = .ok none ∧ (∀ p, ¬ Covers m ip p) ∨
        ∃ p v, IsLongest m ip p ∧ m.lookup p = some v ∧ t.lookup ip = .ok (some v)) ∧
      t.contains ip = .ok vs.head?.isSome := by
  have hwf : (t.stackTable ip.isIpv4).root.RootWF ip.family := (h.stack ip.family).wf
  have hb : 8*ip.octets.length+1 ≤ 8*ip.octets.length+1 := le_rfl
  have hall : ∀ p, Covers m ip p ↔ Covers m ip p ∧ p.prefixLen < 8*ip.octets.length+1 := fun p =>
    ⟨fun hp => ⟨hp,hp.prefixLen_lt⟩,fun hp => hp.1⟩
  obtain ⟨it,hit,hy⟩ := lookupAddressAll_spec hwf
  have hlook : t.lookup ip = _ := lookupAddress_spec hwf
  have hcont : t.contains ip = _ := contains_spec hwf
  refine ⟨it,coveringNets m ip _,_,hit,hy,length_downTo_le _ _,?_,coveringNets_pairwise hb _,
    h.covering hb,hlook,?_,?_⟩
  · intro p
    rw [mem_coveringNets hb h.canonical,← hall]
  · rw [hlook]
    rcases h.head_covering hb with ⟨hnone,hno⟩ | ⟨p,v,hhead,hv,hp,hmax⟩
    · exact .inl ⟨by rw [hnone],fun p hp => hno p ((hall p).mp hp)⟩
    · exact .inr ⟨p,v,⟨hp.1,fun q hq => hmax q ((hall q).mp hq)⟩,hv,by rw [hhead]⟩
  · rw [hcont]
    cases (t.stackTable ip.isIpv4).root.covering [] ip.octets (8*ip.octets.length+1) <;> rfl

/-- The three lookups by address agree with the stored prefixes: the values of all
prefixes that contain the address come in the order of decreasing length, `lookup`
returns the value of the longest one, and `contains` tells whether there is one. -/
theorem lookups_longest_first (ops : List (TableOp T)) :
    ∃ t, SplitStackTable.run ops = .ok ((RouteMap.run ops).1,t) ∧ ∀ ip : IpAddr,
      ∃ (it : LookupIter T) (ps : List IpNet) (vs : List T), t.lookupAll ip = .ok it ∧ Yields LookupIter.next it vs ∧
        (∀ p, p ∈ ps ↔ Covers (RouteMap.run ops).2 ip p) ∧
        ps.Pairwise (fun p q => q.prefixLen < p.prefixLen) ∧
        ps.map (RouteMap.run ops).2.lookup = vs.map some ∧
        t.lookup ip = .ok vs.head? ∧
        (t.lookup ip = .ok none ∧ (∀ p, ¬ Covers (RouteMap.run ops).2 ip p) ∨
          ∃ p v, IsLongest (RouteMap.run ops).2 ip p ∧ (RouteMap.run ops).2.lookup p = some v ∧
            t.lookup ip = .ok (some v)) ∧
        t.contains ip = .ok vs.head?.isSome := by
  obtain ⟨t,hrun,h⟩ := SplitStackTable.run_spec ops
  refine ⟨t,hrun,fun ip => ?_⟩
  obtain ⟨it,ps,vs,hit,hy,-,hrest⟩ := h.lookups ip
  exact ⟨it,ps,vs,hit,hy,hrest⟩

/-- All values that a lookup by address yields. -/
def SplitStackTable.lookupAllValues (t : SplitStackTable T) (ip : IpAddr) : Result (List T) := do
  drain LookupIter.next (8*ip.octets.length+2) (← t.lookupAll ip)

omit [IpNetOps] in
theorem mem_of_map_some {K : Type} {f : K → Option T} {ps : List K} {vs : List T}
    (h : ps.map f = vs.map some) (v : T) : v ∈ vs ↔ ∃ p ∈ ps, f p = some v := by
  have hmem : some v ∈ ps.map f ↔ some v ∈ vs.map some := by rw [h]
  simpa using hmem.symm

theorem SplitStackTable.Rep.lookupAllValues {t : SplitStackTable T} (h : t.Rep m) (ip : IpAddr) :
    ∃ vs, t.lookupAllValues ip = .ok vs ∧ ∀ v, v ∈ vs ↔ ∃ p, Covers m ip p ∧ m.lookup p = some v := by
  obtain ⟨it,ps,vs,hit,hy,hlen,hps,-,hmap,-⟩ := h.lookups ip
  refine ⟨vs,?_,fun v => ?_⟩
  · rw [SplitStackTable.lookupAllValues,hit]
    exact drain_of_yields hy (by omega)
  · rw [mem_of_map_some hmap]
    simp only [hps]

end
end Tailnet

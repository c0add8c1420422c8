import Tailnet.Lib.OrdMap
import Tailnet.PacketFilter.IdIndex
import Tailnet.PacketFilter.PortPrefix

/-! The trie of port prefixes. Two levels of base indices, one for each byte of a port, and the single ports
aside; a lookup returns the values of all prefixes whose range has the port. -/
namespace Tailnet
open Function List OrdMap Bitset

/-- Call the closure with the entry at an index and do what it decides. -/
def Array256.modifyAt {T : Type} (a : Array256 T) (index : UInt8) (f : ModifyFn T) : Result (Array256 T) := do
  match ← a.get index with
  | none => perform a f.absent
  | some v =>
    let (v,decision) := f.present v
    let (_,a) ← a.insert index v
    perform a decision
where
  perform (a : Array256 T) : RouteModification T → Result (Array256 T)
    | .insert val => Prod.snd <$> a.insert index val
    | .remove => Prod.snd <$> a.remove index
    | .noop => return a

theorem Array256.modifyAt_spec {T : Type} {a : Array256 T} (h : a.WF) (index : UInt8) (f : ModifyFn T) :
    ∃ a', a.modifyAt index f = .ok a' ∧ a'.WF ∧
      a'.lookup = update a.lookup index (f.result (a.lookup index)) := by
  have hdec : ∀ (b : Array256 T), b.WF → (∀ j, j ≠ index → b.lookup j = a.lookup j) → ∀ d : RouteModification T,
      ∃ a', Array256.modifyAt.perform index b d = .ok a' ∧ a'.WF ∧
        a'.lookup = update a.lookup index (d.apply (b.lookup index)).2 := by
    intro b hb hother d
    cases d with
    | insert val =>
      obtain ⟨a',ha',hwf,hl⟩ := Array256.insert_spec hb index val
      refine ⟨a',by simp [modifyAt.perform,ha'],hwf,funext fun j => ?_⟩
      rw [hl]
      by_cases hj : j = index
      · simp [hj,RouteModification.apply]
      · simp [hj,hother j hj]
    | remove =>
      obtain ⟨a',ha',hwf,hl⟩ := Array256.remove_spec hb index
      refine ⟨a',by simp [modifyAt.perform,ha'],hwf,funext fun j => ?_⟩
      rw [hl]
      by_cases hj : j = index
      · simp [hj,RouteModification.apply]
      · simp [hj,hother j hj]
    | noop =>
      refine ⟨b,rfl,hb,funext fun j => ?_⟩
      by_cases hj : j = index
      · simp [hj,RouteModification.apply]
      · simp [hj,hother j hj]
  rw [modifyAt,Array256.get_eq h]
  cases hv : a.lookup index with
  | none =>
    obtain ⟨a',ha',hwf,hl⟩ := hdec a h (fun _ _ => rfl) f.absent
    rw [hv] at hl
    exact ⟨a',ha',hwf,hl⟩
  | some v =>
    obtain ⟨b,hb,hbwf,hbl⟩ := Array256.insert_spec h index (f.present v).1
    have hbi : b.lookup index = some (f.present v).1 := by rw [hbl,if_pos rfl]
    obtain ⟨a',ha',hwf,hl⟩ := hdec b hbwf (fun j hj => by rw [hbl,if_neg hj]) (f.present v).2
    rw [hbi] at hl
    exact ⟨a',by simp [hb,ha'],hwf,hl⟩

/-- Call the closure with the entry at a key and do what it decides. -/
def OrdMap.modifyAt {K T : Type} [LinearOrder K] (m : OrdMap K T) (k : K) (f : ModifyFn T) : OrdMap K T :=
  match m.get k with
  | none => perform m f.absent
  | some v => perform (m.insert k (f.present v).1) (f.present v).2
where
  perform (m : OrdMap K T) : RouteModification T → OrdMap K T
    | .insert val => m.insert k val
    | .remove => m.erase k
    | .noop => m

theorem OrdMap.get_modifyAt {K T : Type} [LinearOrder K] (m : OrdMap K T) (k : K) (f : ModifyFn T) :
    (m.modifyAt k f).get = update m.get k (f.result (m.get k)) := by
  have hperf : ∀ (m' : OrdMap K T) (d : RouteModification T), (∀ j, j ≠ k → m'.get j = m.get j) →
      (OrdMap.modifyAt.perform k m' d).get = update m.get k (d.apply (m'.get k)).2 := by
    intro m' d hother
    funext j
    by_cases hj : j = k
    · subst hj
      cases d <;> simp [modifyAt.perform,get_insert,get_erase,RouteModification.apply]
    · have hne : ¬ k = j := fun h => hj h.symm
      cases d <;> simp [modifyAt.perform,get_insert,get_erase,hj,hne,hother j hj]
  rw [modifyAt]
  cases hv : m.get k with
  | none =>
    dsimp only
    rw [hperf m _ fun _ _ => rfl,hv]
    rfl
  | some v =>
    dsimp only
    rw [hperf _ _ fun j hj => by simp [get_insert,Ne.symm hj],get_insert,if_pos rfl]
    rfl

namespace PacketFilter

structure PortChild (T : Type) where
  prefixes : Array256 T

structure PortTrie (T : Type) where
  prefixes : Array256 T
  children : Array256 (PortChild T)
  singletons : OrdMap Port T

/-- The values at the prefixes of an octet of at most seven bits. -/
def prefixMatches {T : Type} (prefixes : Array256 T) (octet : UInt8) : Result (List T) := do
  let mask := (lpm (← BaseIndex.fromPfx7 octet)).intersect prefixes.bitset
  let found ← mask.bits.mapM fun bit => prefixes.get (UInt8.ofNat bit)
  return found.filterMap id

namespace PortTrie
variable {T : Type}

def empty : PortTrie T := ⟨.empty,.empty,.empty⟩

/-- The closure is called for one prefix. -/
def modifyPrefix (f : ModifyFn T) (trie : PortTrie T) : PortPrefix → Result (PortTrie T)
  | .pfx idx => do return { trie with prefixes := ← trie.prefixes.modifyAt idx.get f }
  | .childPrefix hi loPfx =>
    if !trie.children.test hi then
      match f.absent with
      | .insert val => do
        let (_,prefixes) ← Array256.empty.insert loPfx.get val
        let (_,children) ← trie.children.insert hi ⟨prefixes⟩
        return { trie with children }
      | _ => return trie
    else do
      match ← trie.children.get hi with
      | none => throw (.message "invariant violated: child missing")
      | some child =>
        let prefixes ← child.prefixes.modifyAt loPfx.get f
        let (_,children) ← trie.children.insert hi ⟨prefixes⟩
        return { trie with children }
  | .singleton port => return { trie with singletons := trie.singletons.modifyAt port f }

def modify (trie : PortTrie T) (ports : PortRange) (f : ModifyFn T) : Result (PortTrie T) := do
  (← iterPrefixes ports).foldlM (modifyPrefix f) trie

def childMatches (trie : PortTrie T) (port : Port) : Result (List T) := do
  match ← trie.children.get (portByte port) with
  | none => return []
  | some child => prefixMatches child.prefixes (childPortByte port)

/-- The values of all prefixes whose range has the port. -/
def lookup (trie : PortTrie T) (port : Port) : Result (List T) := do
  let pfx ← prefixMatches trie.prefixes (portByte port)
  let child ← trie.childMatches port
  return pfx ++ child ++ (trie.singletons.get port).toList

def view (trie : PortTrie T) : PortPrefix → Option T
  | .pfx idx => trie.prefixes.lookup idx.val
  | .childPrefix hi loPfx => (trie.children.lookup hi).bind fun child => child.prefixes.lookup loPfx.val
  | .singleton port => trie.singletons.get port

structure WF (trie : PortTrie T) : Prop where
  prefixes : trie.prefixes.WF
  children : trie.children.WF
  child : ∀ hi child, trie.children.lookup hi = some child → child.prefixes.WF

theorem empty_wf : (empty : PortTrie T).WF where
  prefixes := Array256.empty_wf
  children := Array256.empty_wf
  child hi child h := by simp [empty] at h

theorem view_empty : (empty : PortTrie T).view = fun _ => none := by
  funext p
  cases p <;> simp [view,empty,get_empty]

variable {trie : PortTrie T} {a : Array256 T}

/-- A child is replaced by one with another value at one of its prefixes. -/
theorem view_children {hi : UInt8} {lo : BaseIndex} {v : Option T}
    {children : Array256 (PortChild T)}
    (hc : ∀ j, children.lookup j = if j = hi then some ⟨a⟩ else trie.children.lookup j)
    (ha : ∀ j : BaseIndex, a.lookup j.val = if j = lo then v else trie.view (.childPrefix hi j)) :
    { trie with children := children }.view = update trie.view (.childPrefix hi lo) v := by
  funext p
  cases p with
  | pfx idx => simp [view]
  | singleton port => simp [view]
  | childPrefix hi' lo' =>
    simp only [view,hc]
    by_cases hhi : hi' = hi
    · subst hhi
      rw [if_pos rfl,Option.bind_some,ha]
      by_cases hlo : lo' = lo
      · simp [hlo]
      · rw [if_neg hlo,update_of_ne (by simpa using hlo)]
    · rw [if_neg hhi,update_of_ne (by simp [hhi])]
      rfl

theorem wf_of_insert (h : trie.WF) {hi : UInt8} {children : Array256 (PortChild T)}
    (hc : ∀ j, children.lookup j = if j = hi then some ⟨a⟩ else trie.children.lookup j) (ha : a.WF) :
    ∀ j child, children.lookup j = some child → child.prefixes.WF := by
  intro j child hj
  rw [hc] at hj
  split at hj
  · cases hj
    exact ha
  · exact h.child j child hj

theorem modifyPrefix_spec (h : trie.WF) (f : ModifyFn T) (p : PortPrefix) :
    ∃ trie', modifyPrefix f trie p = .ok trie' ∧ trie'.WF ∧
      trie'.view = update trie.view p (f.result (trie.view p)) := by
  cases p with
  | pfx idx =>
    obtain ⟨a,ha,hwf,hl⟩ := Array256.modifyAt_spec h.prefixes idx.get f
    refine ⟨{ trie with prefixes := a },by simp [modifyPrefix,ha],⟨hwf,h.children,h.child⟩,funext fun q => ?_⟩
    cases q with
    | pfx idx' =>
      simp only [view,hl]
      by_cases hi : idx' = idx
      · simp [hi,BaseIndex.get]
      · have hne : idx'.val ≠ idx.get := fun he => hi (BaseIndex.ext he)
        rw [update_of_ne hne,update_of_ne (by simpa using hi)]
        rfl
    | childPrefix hi lo => simp [view]
    | singleton port => simp [view]
  | singleton port =>
    refine ⟨_,rfl,⟨h.prefixes,h.children,h.child⟩,funext fun q => ?_⟩
    cases q with
    | pfx idx => simp [view]
    | childPrefix hi lo => simp [view]
    | singleton port' =>
      simp only [view,get_modifyAt]
      by_cases hp : port' = port
      · simp [hp]
      · rw [update_of_ne hp,update_of_ne (by simpa using hp)]
        rfl
  | childPrefix hi lo =>
    rw [modifyPrefix,← Array256.isSome_lookup h.children]
    cases hc : trie.children.lookup hi with
    | none =>
      have hview : ∀ j, trie.view (.childPrefix hi j) = none := fun j => by simp [view,hc]
      have hres : f.result (trie.view (.childPrefix hi lo)) = (f.absent.apply none).2 := by
        rw [hview]
        rfl
      rw [hres]
      cases hd : f.absent with
      | insert val =>
        obtain ⟨a,ha,hawf,hal⟩ := Array256.insert_spec (Array256.empty_wf (α := T)) lo.get val
        obtain ⟨children,hch,hcwf,hcl⟩ := Array256.insert_spec h.children hi ⟨a⟩
        refine ⟨{ trie with children := children },by simp [ha,hch],⟨h.prefixes,hcwf,?_⟩,
          view_children hcl fun j => ?_⟩
        · exact wf_of_insert h hcl hawf
        · rw [hal,hview]
          simp [BaseIndex.get,BaseIndex.ext_iff,RouteModification.apply]
      | remove => exact ⟨trie,by simp,h,by simp [RouteModification.apply,← hview lo]⟩
      | noop => exact ⟨trie,by simp,h,by simp [RouteModification.apply,← hview lo]⟩
    | some child =>
      obtain ⟨a,ha,hawf,hal⟩ := Array256.modifyAt_spec (h.child hi child hc) lo.get f
      obtain ⟨children,hch,hcwf,hcl⟩ := Array256.insert_spec h.children hi ⟨a⟩
      refine ⟨{ trie with children := children },?_,⟨h.prefixes,hcwf,wf_of_insert h hcl hawf⟩,
        view_children hcl fun j => ?_⟩
      · simp [Array256.get_eq h.children,hc,ha,hch]
      · have hview : ∀ j, trie.view (.childPrefix hi j) = child.prefixes.lookup j.val := fun j => by simp [view,hc]
        rw [hal,hview,hview]
        by_cases hj : j = lo
        · simp [hj,BaseIndex.get]
        · have hne : j.val ≠ lo.get := fun he => hj (BaseIndex.ext he)
          rw [update_of_ne hne,if_neg hj]

theorem modify_spec {trie : PortTrie RuleBitset} (h : trie.WF) (ports : PortRange) (f : ModifyFn RuleBitset)
    {pfxs : List PortPrefix} (hp : iterPrefixes ports = .ok pfxs) :
    ∃ trie', trie.modify ports f = .ok trie' ∧ trie'.WF ∧ trie'.view = applyAll f pfxs trie.view := by
  have hstep : ∀ (t : PortTrie RuleBitset) g p, WF t ∧ t.view = g → ∃ t', modifyPrefix f t p = .ok t' ∧
      WF t' ∧ t'.view = update g (id p) (f.result (g (id p))) := by
    rintro t g p ⟨hwf,rfl⟩
    exact modifyPrefix_spec hwf f p
  obtain ⟨trie',hrun,hwf,hview⟩ := foldlM_applyAll (fun t g => WF t ∧ t.view = g) id hstep pfxs ⟨h,rfl⟩
  refine ⟨trie',by simp [modify,hp,hrun],hwf,?_⟩
  rw [hview,map_id]

theorem mapM_get (h : a.WF) (l : List ℕ) :
    l.mapM (fun bit => a.get (UInt8.ofNat bit)) = .ok (l.map fun bit => a.lookup (UInt8.ofNat bit)) := by
  induction l with
  | nil => rfl
  | cons bit l ih =>
    rw [mapM_cons,Array256.get_eq h,Result.bind_of_ok,ih]
    rfl

/-- The indices that are found are those of the prefixes of the octet. -/
theorem prefixMatches_spec (h : a.WF) (octet : UInt8) :
    ∃ vs, prefixMatches a octet = .ok vs ∧ ∀ v, v ∈ vs ↔ ∃ l : Fin 8, a.lookup (BaseIndex.ofBits octet l).val = some v := by
  refine ⟨_,by simp only [prefixMatches,BaseIndex.fromPfx7_eq,Result.bind_of_ok,mapM_get h]; rfl,fun v => ?_⟩
  simp only [mem_filterMap,mem_map,id_eq,exists_eq_right]
  constructor
  · rintro ⟨bit,hbit,hv⟩
    rw [(enumerates_bits _).2,mem_toSet,test_intersect,Bool.and_eq_true] at hbit
    have hlt := test_lt hbit.1
    have hne : UInt8.ofNat bit ≠ 0 := by
      intro h0
      have hz := congrArg UInt8.toNat h0
      rw [UInt8.toNat_ofNat',Nat.mod_eq_of_lt (by omega)] at hz
      have h0' : bit = 0 := hz
      rw [h0',lpm_zero] at hbit
      cases hbit.1
    have hval : (BaseIndex.mk (UInt8.ofNat bit) hne).val.toNat = bit := by
      rw [UInt8.toNat_ofNat',Nat.mod_eq_of_lt (by omega)]
    have ht : (lpm (BaseIndex.ofBits octet 7)).test (BaseIndex.mk (UInt8.ofNat bit) hne).val.toNat = true := by
      rw [hval]
      exact hbit.1
    obtain ⟨l,-,hl⟩ := (test_lpm octet 7 _).mp ht
    exact ⟨l,by rw [← hl]; exact hv⟩
  · rintro ⟨l,hv⟩
    refine ⟨(BaseIndex.ofBits octet l).val.toNat,?_,by simpa using hv⟩
    rw [(enumerates_bits _).2,mem_toSet,test_intersect,Bool.and_eq_true]
    refine ⟨(test_lpm octet 7 _).mpr ⟨l,Fin.le_last l,rfl⟩,?_⟩
    have hs := Array256.isSome_lookup h (BaseIndex.ofBits octet l).val
    rw [hv] at hs
    exact hs.symm

/-- The prefixes in whose range an octet lies. -/
theorem exists_ofBits_iff {P : BaseIndex → Prop} (octet : UInt8) : (∃ l : Fin 8, P (.ofBits octet l)) ↔
    ∃ idx, idx = .ofBits octet ⟨idx.octetPrefix.2,octetPrefix_lt idx⟩ ∧ P idx := by
  constructor
  · rintro ⟨l,hl⟩
    refine ⟨_,?_,hl⟩
    congr 1
    apply Fin.ext
    simp [BaseIndex.octetPrefix_snd]
  · rintro ⟨idx,hidx,hp⟩
    exact ⟨_,hidx ▸ hp⟩

theorem childMatches_spec (h : trie.WF) (port : Port) :
    ∃ vs, trie.childMatches port = .ok vs ∧ ∀ v, v ∈ vs ↔
      ∃ l : Fin 8, trie.view (.childPrefix (portByte port) (.ofBits (childPortByte port) l)) = some v := by
  rw [childMatches,Array256.get_eq h.children]
  cases hc : trie.children.lookup (portByte port) with
  | none => exact ⟨[],rfl,fun v => by simp [view,hc]⟩
  | some child =>
    obtain ⟨vs,hvs,hvmem⟩ := prefixMatches_spec (h.child _ child hc) (childPortByte port)
    exact ⟨vs,hvs,fun v => by simp [hvmem,view,hc]⟩

theorem lookup_spec (h : trie.WF) (port : Port) :
    ∃ vs, trie.lookup port = .ok vs ∧ ∀ v, v ∈ vs ↔ ∃ p, p.contains port = true ∧ trie.view p = some v := by
  obtain ⟨pfx,hpfx,hmem⟩ := prefixMatches_spec h.prefixes (portByte port)
  obtain ⟨child,hchild,hcmem⟩ := childMatches_spec h port
  refine ⟨pfx ++ child ++ (trie.singletons.get port).toList,?_,fun v => ?_⟩
  · simp [lookup,hpfx,hchild]
  · rw [mem_append,mem_append,hmem,hcmem,
      exists_ofBits_iff (P := fun idx => trie.prefixes.lookup idx.val = some v),
      exists_ofBits_iff (P := fun idx => trie.view (.childPrefix (portByte port) idx) = some v),Option.mem_toList]
    constructor
    · rintro ((⟨idx,hidx,hv⟩ | ⟨lo,hlo,hv⟩) | hv)
      · exact ⟨.pfx idx,(PortPrefix.contains_pfx idx port).mpr hidx,hv⟩
      · exact ⟨.childPrefix _ lo,(PortPrefix.contains_childPrefix _ lo port).mpr ⟨rfl,hlo⟩,hv⟩
      · exact ⟨.singleton port,(PortPrefix.contains_singleton port port).mpr rfl,hv⟩
    · rintro ⟨p,hp,hv⟩
      cases p with
      | pfx idx => exact .inl (.inl ⟨idx,(PortPrefix.contains_pfx idx port).mp hp,hv⟩)
      | childPrefix hi lo =>
        obtain ⟨rfl,hlo⟩ := (PortPrefix.contains_childPrefix hi lo port).mp hp
        exact .inl (.inr ⟨lo,hlo,hv⟩)
      | singleton q =>
        cases (PortPrefix.contains_singleton q port).mp hp
        exact .inr hv

end PortTrie
end PacketFilter
end Tailnet

import Tailnet.Lib.Assoc
import Tailnet.PacketFilter.PortTrie
import Tailnet.PacketFilter.Rule

/-! The destination index. Each pair of a rule and one of its destination matches has an id of its own; a table
of prefixes and a trie of ports hold the ids, and a lookup resolves the ids found in both to their rules. -/
namespace Tailnet.PacketFilter
open Function List Result Slots DynBitset

structure DstMatchLookup where
  dsts : SplitStackTable RuleBitset
  ports : PortTrie RuleBitset
  dstmatchIds : Assoc DstMatch RuleBitset
  dstmatchIdToRuleId : List (Option ℕ)
  freelist : RuleBitset

namespace DstMatchLookup

def empty : DstMatchLookup := ⟨.empty,.empty,.empty,[],.empty⟩

def compact (s : DstMatchLookup) : DstMatchLookup :=
  let slots := Slots.compact s.dstmatchIdToRuleId
  { s with dstmatchIdToRuleId := slots, freelist := s.freelist.zeroFrom slots.length }

/-- The first of the ids that belongs to the rule. -/
def findRule (slots : List (Option ℕ)) (rule : ℕ) : List ℕ → Result (Option ℕ)
  | [] => return none
  | id::ids => do
    if (← Result.index slots id) = some rule then return some id else findRule slots rule ids

def lookupDstmatchId (s : DstMatchLookup) (rule : ℕ) (dst : DstMatch) : Result (Option ℕ) :=
  match s.dstmatchIds.get dst with
  | none => return none
  | some ids => findRule s.dstmatchIdToRuleId rule ids.bits

/-- The id of the pair, with a new one if it has none. -/
def allocateId (s : DstMatchLookup) (rule : ℕ) (dst : DstMatch) : Result (ℕ × DstMatchLookup) := do
  let addId (id : ℕ) : Assoc DstMatch RuleBitset :=
    s.dstmatchIds.insert dst (((s.dstmatchIds.get dst).getD .empty).set id)
  match ← s.lookupDstmatchId rule dst with
  | some allocatedId => return (allocatedId,s)
  | none =>
    match popFreelist s.freelist with
    | (some free,freelist) =>
      let _ ← Result.index s.dstmatchIdToRuleId free
      let slots := s.dstmatchIdToRuleId.set free (some rule)
      return (free,{ s with freelist, dstmatchIdToRuleId := slots, dstmatchIds := addId free })
    | (none,freelist) =>
      let idx := s.dstmatchIdToRuleId.length
      let slots := s.dstmatchIdToRuleId ++ [some rule]
      return (idx,{ s with freelist, dstmatchIdToRuleId := slots, dstmatchIds := addId idx })

/-- What is left of an entry without an id. -/
def dropId (ids : Assoc DstMatch RuleBitset) (dst : DstMatch) (entry : RuleBitset) (id : ℕ) :
    Assoc DstMatch RuleBitset :=
  let entry := entry.clear id
  if entry.isEmpty then (ids.insert dst entry).erase dst else ids.insert dst entry

def clear (_ : DstMatchLookup) : DstMatchLookup := empty

variable [IpNetOps]

def insert (s : DstMatchLookup) (rule : ℕ) (dst : DstMatch) : Result DstMatchLookup := do
  let (id,s) ← s.allocateId rule dst
  let dsts ← modifyAll (markId id) dst.ips s.dsts
  let ports ← s.ports.modify dst.ports (markId id)
  return compact { s with dsts, ports }

def remove (s : DstMatchLookup) (rule : ℕ) (dst : DstMatch) : Result DstMatchLookup := do
  match ← s.lookupDstmatchId rule dst with
  | none => return s
  | some id =>
    let dsts ← modifyAll (unmarkId id) dst.ips s.dsts
    let ports ← s.ports.modify dst.ports (unmarkId id)
    let entry ← Result.unwrap (s.dstmatchIds.get dst)
    let storedRuleId ← Result.index s.dstmatchIdToRuleId id
    Result.assert (decide (some rule = storedRuleId))
    return compact { s with
      dsts, ports
      dstmatchIds := dropId s.dstmatchIds dst entry id
      dstmatchIdToRuleId := s.dstmatchIdToRuleId.set id none
      freelist := s.freelist.set id }

/-- The rules with a match that has both the address and the port. -/
def lookup (s : DstMatchLookup) (dst : IpAddr) (port : Port) : Result RuleBitset := do
  let portMatches := unionAll (← s.ports.lookup port)
  let dstMatches := unionAll (← s.dsts.lookupAllValues dst)
  let rules ← (portMatches.intersect dstMatches).bits.mapM (Result.index s.dstmatchIdToRuleId)
  return .fromIter (rules.filterMap id)

/-- The prefixes of a match, truncated. -/
def HasNet (x : ℕ × DstMatch) (q : IpNet) : Prop := ∃ p ∈ x.2.ips, p.trunc = q

omit [IpNetOps] in
/-- The prefixes of the ports of a match. -/
def HasPorts (x : ℕ × DstMatch) (p : PortPrefix) : Prop := ∃ l, iterPrefixes x.2.ports = .ok l ∧ p ∈ l

/-- The ids belong to the pairs and are held where these are listed. -/
structure Core (s : DstMatchLookup) (owner : ℕ → Option (ℕ × DstMatch)) : Prop where
  slots : ∀ i, Slots.read s.dstmatchIdToRuleId i = (owner i).map Prod.fst
  ids : Marks s.dstmatchIds.get (Listed owner fun x d => x.2 = d)
  dsts : ∃ g, Holds s.dsts g ∧ Marks g (Listed owner HasNet)
  portsWF : s.ports.WF
  ports : Marks s.ports.view (Listed owner HasPorts)
  inj : ∀ i j x, owner i = some x → owner j = some x → i = j

/-- Moreover the free list holds the other ids. -/
structure Rep (s : DstMatchLookup) (owner : ℕ → Option (ℕ × DstMatch)) : Prop extends Core s owner where
  tidy : Slots.Tidy s.dstmatchIdToRuleId s.freelist.toSet

theorem Core.compact {s : DstMatchLookup} {owner : ℕ → Option (ℕ × DstMatch)} (h : Core s owner)
    (hfits : Slots.Fits s.dstmatchIdToRuleId s.freelist.toSet) : Rep s.compact owner where
  slots i := by
    rw [DstMatchLookup.compact,read_compact]
    exact h.slots i
  ids := h.ids
  dsts := h.dsts
  portsWF := h.portsWF
  ports := h.ports
  inj := h.inj
  tidy := hfits.compact fun i => mem_zeroFrom

theorem empty_rep : Rep empty fun _ => none where
  slots i := by simp [empty,Slots.read]
  tidy := Slots.Tidy.nil
  ids := Marks.none.congr fun i d => by simp [Listed]
  dsts := ⟨_,Holds.empty,Marks.none.congr fun i q => by simp [Listed]⟩
  portsWF := PortTrie.empty_wf
  ports := by
    rw [show empty.ports.view = fun _ => none from PortTrie.view_empty]
    exact Marks.none.congr fun i p => by simp [Listed]
  inj i j x h := by cases h

section
variable {s : DstMatchLookup} {owner : ℕ → Option (ℕ × DstMatch)} {rule : ℕ} {dst : DstMatch}

omit [IpNetOps] in
theorem findRule_spec (rule : ℕ) {slots : List (Option ℕ)} {ids : List ℕ} (h : ∀ i ∈ ids, i < slots.length) :
    ∃ o, findRule slots rule ids = .ok o ∧
      (∀ i, o = some i → i ∈ ids ∧ Slots.read slots i = some rule) ∧
      (o = none → ∀ i ∈ ids, Slots.read slots i ≠ some rule) := by
  induction ids with
  | nil => exact ⟨none,rfl,by simp,by simp⟩
  | cons id ids ih =>
    obtain ⟨v,hv⟩ : ∃ v, slots[id]? = some v := ⟨_,List.getElem?_eq_getElem (h id mem_cons_self)⟩
    have hread : Slots.read slots id = v := by rw [Slots.read,hv]; rfl
    rw [findRule,index_of_getElem? hv,bind_of_ok]
    by_cases hr : v = some rule
    · rw [if_pos hr]
      refine ⟨some id,rfl,fun i hi => ?_,fun hn => by cases hn⟩
      cases hi
      exact ⟨mem_cons_self,hread.trans hr⟩
    · rw [if_neg hr]
      obtain ⟨o,ho,hsome,hnone⟩ := ih fun i hi => h i (mem_cons_of_mem _ hi)
      refine ⟨o,ho,fun i hi => ⟨mem_cons_of_mem _ (hsome i hi).1,(hsome i hi).2⟩,fun hn i hi => ?_⟩
      rcases mem_cons.mp hi with rfl | hi
      · rwa [hread]
      · exact hnone hn i hi

/-- The id that is found belongs to the pair. -/
theorem Rep.lookupDstmatchId (h : Rep s owner) (rule : ℕ) (dst : DstMatch) :
    ∃ o, s.lookupDstmatchId rule dst = .ok o ∧ ∀ i, o = some i ↔ owner i = some (rule,dst) := by
  rw [DstMatchLookup.lookupDstmatchId]
  cases hd : s.dstmatchIds.get dst with
  | none =>
    refine ⟨none,rfl,fun i => ?_⟩
    simp only [reduceCtorEq,false_iff]
    exact fun hi => h.ids.eq_none_iff.mp hd i ⟨_,hi,rfl⟩
  | some ids =>
    have howner : ∀ i, i ∈ ids.bits ↔ ∃ r, owner i = some (r,dst) := fun i =>
      (mem_bits.trans (h.ids.mem_toSet hd i)).trans (by simp [Listed])
    have hread : ∀ {i r d}, owner i = some (r,d) → Slots.read s.dstmatchIdToRuleId i = some r := by
      intro i r d hi
      rw [h.slots,hi]
      rfl
    have hlt : ∀ i ∈ ids.bits, i < s.dstmatchIdToRuleId.length := by
      intro i hi
      obtain ⟨r,hr⟩ := (howner i).mp hi
      exact lt_of_read (hread hr)
    obtain ⟨o,ho,hsome,hnone⟩ := findRule_spec rule hlt
    have hfound : ∀ i, o = some i → owner i = some (rule,dst) := by
      intro i hi
      obtain ⟨hmem,hr⟩ := hsome i hi
      obtain ⟨r,hi⟩ := (howner i).mp hmem
      rw [hread hi,Option.some.injEq] at hr
      rwa [← hr]
    refine ⟨o,ho,fun i => ⟨hfound i,fun hi => ?_⟩⟩
    cases o with
    | none => exact absurd (hread hi) (hnone rfl i ((howner i).mpr ⟨rule,hi⟩))
    | some j => rw [h.inj i j _ hi (hfound j rfl)]

omit [IpNetOps] in
theorem get_addId (ids : Assoc DstMatch RuleBitset) (dst : DstMatch) (id : ℕ) :
    (ids.insert dst (((ids.get dst).getD .empty).set id)).get = applyAll (markId id) [dst] ids.get := by
  rw [Assoc.get_insert_eq,applyAll,foldl_cons,foldl_nil,result_markId]

omit [IpNetOps] in
theorem get_dropId {ids : Assoc DstMatch RuleBitset} {dst : DstMatch} {entry : RuleBitset} (h : ids.get dst = some entry)
    (id : ℕ) : (dropId ids dst entry id).get = applyAll (unmarkId id) [dst] ids.get := by
  rw [dropId,applyAll,foldl_cons,foldl_nil,result_unmarkId,h,Option.bind_some]
  split
  · rw [Assoc.get_erase_eq,Assoc.get_insert_eq,update_idem]
  · rw [Assoc.get_insert_eq]

/-- The pair gets the id it has already, or one that nobody has. -/
theorem Rep.allocateId (h : Rep s owner) (rule : ℕ) (dst : DstMatch) :
    ∃ id s1, s.allocateId rule dst = .ok (id,s1) ∧
      (owner id = none ∨ owner id = some (rule,dst)) ∧ (∀ j, owner j = some (rule,dst) → j = id) ∧
      s1.dsts = s.dsts ∧ s1.ports = s.ports ∧ Slots.Fits s1.dstmatchIdToRuleId s1.freelist.toSet ∧
      (∀ i, Slots.read s1.dstmatchIdToRuleId i = (update owner id (some (rule,dst)) i).map Prod.fst) ∧
      Marks s1.dstmatchIds.get (Listed (update owner id (some (rule,dst))) fun x d => x.2 = d) := by
  obtain ⟨o,ho,hid⟩ := h.lookupDstmatchId rule dst
  rw [DstMatchLookup.allocateId,ho,bind_of_ok]
  cases o with
  | some id =>
    have howner := (hid id).mp rfl
    have hsame : update owner id (some (rule,dst)) = owner := by rw [← howner,update_eq_self]
    refine ⟨id,s,rfl,.inr howner,fun j hj => h.inj j id _ hj howner,rfl,rfl,h.tidy.fits,?_,?_⟩
    · rw [hsame]
      exact h.slots
    · rw [hsame]
      exact h.ids
  | none =>
    have hnew : ∀ j, owner j ≠ some (rule,dst) := fun j hj => by cases (hid j).mpr hj
    have hread : ∀ {slots : List (Option ℕ)} {id : ℕ},
        Slots.read slots = update (Slots.read s.dstmatchIdToRuleId) id (some rule) →
        ∀ i, Slots.read slots i = (update owner id (some (rule,dst)) i).map Prod.fst := by
      intro slots id hslots i
      rw [hslots]
      by_cases hi : i = id
      · simp [hi]
      · simp [hi,h.slots]
    have hfree : ∀ {id : ℕ}, Slots.read s.dstmatchIdToRuleId id = none → owner id = none := by
      intro id hr
      rw [h.slots] at hr
      simpa using hr
    have hids : ∀ {id : ℕ}, owner id = none → Marks
        (s.dstmatchIds.insert dst (((s.dstmatchIds.get dst).getD .empty).set id)).get
        (Listed (update owner id (some (rule,dst))) fun x d => x.2 = d) := by
      intro id hn
      rw [get_addId]
      exact h.ids.assign (.inl hn) fun k => by simp [eq_comm]
    dsimp only
    rcases popFreelist_cases s.freelist with ⟨hpop,hfirst⟩ | ⟨id,hpop,hfirst⟩
    · have hn := hfree (h.tidy.fits.least_of_none hfirst).1
      rw [hpop]
      exact ⟨_,_,rfl,.inl hn,fun j hj => absurd hj (hnew j),rfl,rfl,h.tidy.fits.push rule,
        hread (read_push _),hids hn⟩
    · have hn := hfree (h.tidy.fits.least_of_some hfirst).1
      have hlt := ((h.tidy.fits id).mp hfirst.mem).1
      rw [hpop]
      dsimp only
      rw [index_of_getElem? (List.getElem?_eq_getElem hlt),bind_of_ok]
      exact ⟨id,_,rfl,.inl hn,fun j hj => absurd hj (hnew j),rfl,rfl,
        h.tidy.fits.set hlt rule fun j => mem_clear,hread (read_set hlt _),hids hn⟩

theorem Rep.insert (h : Rep s owner) (rule : ℕ) (dst : DstMatch) :
    ∃ s' id, s.insert rule dst = .ok s' ∧ Rep s' (update owner id (some (rule,dst))) ∧
      (owner id = none ∨ owner id = some (rule,dst)) := by
  obtain ⟨id,s1,halloc,hid,huniq,hdsts,hports,hfits,hslots,hids⟩ := h.allocateId rule dst
  obtain ⟨g,hg,hmarks⟩ := h.dsts
  obtain ⟨l,hl⟩ := iterPrefixes_ok dst.ports
  obtain ⟨dsts,hdrun,hdheld⟩ := hg.modifyAll (markId id) dst.ips
  obtain ⟨ports,hprun,hpwf,hpview⟩ := PortTrie.modify_spec h.portsWF dst.ports (markId id) hl
  have hcore : Core { s1 with dsts := dsts, ports := ports } (update owner id (some (rule,dst))) := {
    slots := hslots
    ids := hids
    dsts := ⟨_,hdheld,hmarks.assign hid fun q => by simp [HasNet]⟩
    portsWF := hpwf
    ports := by
      rw [hpview]
      exact h.ports.assign hid fun p => by simp [HasPorts,hl]
    inj := by
      intro i j x hi hj
      rw [update_apply] at hi hj
      split at hi <;> split at hj
      · simp_all
      · cases hi
        exact absurd (huniq j hj) ‹_›
      · cases hj
        exact absurd (huniq i hi) ‹_›
      · exact h.inj i j x hi hj }
  refine ⟨_,id,?_,hcore.compact hfits,hid⟩
  simp [DstMatchLookup.insert,halloc,hdsts,hports,hdrun,hprun]

theorem Rep.remove (h : Rep s owner) (rule : ℕ) (dst : DstMatch) :
    ∃ s' owner', s.remove rule dst = .ok s' ∧ Rep s' owner' ∧
      ∀ i, owner' i = if owner i = some (rule,dst) then none else owner i := by
  obtain ⟨o,ho,hid⟩ := h.lookupDstmatchId rule dst
  rw [DstMatchLookup.remove,ho,bind_of_ok]
  cases o with
  | none =>
    refine ⟨s,owner,rfl,h,fun i => ?_⟩
    rw [if_neg fun hi => by cases (hid i).mpr hi]
  | some id =>
    have howner := (hid id).mp rfl
    obtain ⟨g,hg,hmarks⟩ := h.dsts
    obtain ⟨l,hl⟩ := iterPrefixes_ok dst.ports
    obtain ⟨dsts,hdrun,hdheld⟩ := hg.modifyAll (unmarkId id) dst.ips
    obtain ⟨ports,hprun,hpwf,hpview⟩ := PortTrie.modify_spec h.portsWF dst.ports (unmarkId id) hl
    obtain ⟨entry,hentry,-⟩ := (h.ids.mem id dst).mp ⟨_,howner,rfl⟩
    have hread : Slots.read s.dstmatchIdToRuleId id = some rule := by
      rw [h.slots,howner]
      rfl
    have hlt := lt_of_read hread
    have hcore : Core { s with
        dsts := dsts, ports := ports
        dstmatchIds := dropId s.dstmatchIds dst entry id
        dstmatchIdToRuleId := s.dstmatchIdToRuleId.set id none
        freelist := s.freelist.set id } (update owner id none) := {
      slots := by
        intro i
        rw [read_set hlt]
        by_cases hi : i = id
        · simp [hi]
        · simp [hi,h.slots]
      ids := by
        rw [get_dropId hentry]
        exact h.ids.release howner fun d => by simp [eq_comm]
      dsts := ⟨_,hdheld,hmarks.release howner fun q => by simp [HasNet]⟩
      portsWF := hpwf
      ports := by
        rw [hpview]
        exact h.ports.release howner fun p => by simp [HasPorts,hl]
      inj := by
        intro i j x hi hj
        rw [update_apply] at hi hj
        split at hi <;> split at hj
        · cases hi
        · cases hi
        · cases hj
        · exact h.inj i j x hi hj }
    refine ⟨_,_,?_,hcore.compact (h.tidy.fits.release hlt fun j => mem_set),fun i => ?_⟩
    · simp [hdrun,hprun,hentry,index_of_getElem? (Slots.getElem?_of_read hread)]
    · rw [update_apply]
      refine if_congr ⟨?_,fun hi => h.inj i id _ hi howner⟩ rfl rfl
      rintro rfl
      exact howner

omit [IpNetOps] in
theorem mapM_index {slots : List (Option ℕ)} {l : List ℕ} (h : ∀ i ∈ l, i < slots.length) :
    l.mapM (Result.index slots) = .ok (l.map (Slots.read slots)) := by
  induction l with
  | nil => rfl
  | cons i l ih =>
    obtain ⟨v,hi⟩ : ∃ v, slots[i]? = some v := ⟨_,List.getElem?_eq_getElem (h i mem_cons_self)⟩
    have hread : Slots.read slots i = v := by
      rw [Slots.read,hi]
      rfl
    rw [mapM_cons,index_of_getElem? hi,bind_of_ok,ih fun j hj => h j (mem_cons_of_mem _ hj),
      map_cons,hread]
    rfl

/-- The match has the address and the port, as far as the index can tell. -/
def Finds (d : DstMatch) (dst : IpAddr) (port : Port) : Prop :=
  (∃ p ∈ d.ips, p.contains dst = true) ∧ ∃ l, iterPrefixes d.ports = .ok l ∧ ∃ q ∈ l, q.contains port = true

theorem Rep.lookup (h : Rep s owner) (dst : IpAddr) (port : Port) :
    ∃ b, s.lookup dst port = .ok b ∧ ∀ r, r ∈ b.toSet ↔ ∃ i d, owner i = some (r,d) ∧ Finds d dst port := by
  obtain ⟨g,hg,hmarks⟩ := h.dsts
  obtain ⟨vs,hvs,hvmem⟩ := PortTrie.lookup_spec h.portsWF port
  obtain ⟨ws,hws,hwmem⟩ := hg.lookupAllValues dst
  -- the ids found in both are those of the matches with the address and the port
  have hids : ∀ i, i ∈ ((unionAll vs).intersect (unionAll ws)).toSet ↔
      ∃ r d, owner i = some (r,d) ∧ Finds d dst port := by
    intro i
    rw [mem_intersect,h.ports.mem_unionAll hvmem,hmarks.mem_unionAll hwmem]
    constructor
    · rintro ⟨⟨q,hq,⟨r,d⟩,hi,l,hl,hql⟩,p,hp,x,hx,p',hp',rfl⟩
      cases hi.symm.trans hx
      rw [IpNet.contains_trunc] at hp
      exact ⟨r,d,hi,⟨p',hp',hp⟩,l,hl,q,hql,hq⟩
    · rintro ⟨r,d,hi,⟨p,hp,hc⟩,l,hl,q,hql,hq⟩
      exact ⟨⟨q,hq,_,hi,l,hl,hql⟩,p.trunc,(p.contains_trunc dst).trans hc,_,hi,p,hp,rfl⟩
  have hlt : ∀ i ∈ ((unionAll vs).intersect (unionAll ws)).bits, i < s.dstmatchIdToRuleId.length := by
    intro i hi
    obtain ⟨r,d,hr,-⟩ := (hids i).mp (mem_bits.mp hi)
    refine lt_of_read (v := r) ?_
    rw [h.slots,hr]
    rfl
  refine ⟨_,by simp only [DstMatchLookup.lookup,hvs,hws,bind_of_ok,mapM_index hlt]; rfl,fun r => ?_⟩
  simp only [mem_fromIter,mem_filterMap,mem_map,id_eq,exists_eq_right,mem_bits,hids,
    h.slots]
  constructor
  · rintro ⟨i,⟨r',d,hi,hf⟩,hr⟩
    rw [hi] at hr
    cases hr
    exact ⟨i,d,hi,hf⟩
  · rintro ⟨i,d,hi,hf⟩
    exact ⟨i,⟨r,d,hi,hf⟩,by rw [hi]; rfl⟩

end

/-- The id is kept for the match, and for the rule. -/
def HasId (s : DstMatchLookup) (x : ℕ × DstMatch) (i : ℕ) : Prop :=
  (∃ b, s.dstmatchIds.get x.2 = some b ∧ i ∈ b.toSet) ∧ s.dstmatchIdToRuleId[i]? = some (some x.1)

theorem Rep.hasId_iff {s : DstMatchLookup} {owner : ℕ → Option (ℕ × DstMatch)} (h : Rep s owner)
    (x : ℕ × DstMatch) (i : ℕ) : HasId s x i ↔ owner i = some x := by
  rw [HasId,← h.ids.mem]
  constructor
  · rintro ⟨⟨y,hy,hd⟩,hslot⟩
    have hread : Slots.read s.dstmatchIdToRuleId i = some x.1 := by
      rw [Slots.read,hslot]
      rfl
    rw [h.slots,hy] at hread
    rw [hy]
    exact congrArg some (Prod.ext (Option.some.inj hread) hd)
  · intro hi
    refine ⟨⟨x,hi,rfl⟩,Slots.getElem?_of_read ?_⟩
    rw [h.slots,hi]
    rfl

end DstMatchLookup

inductive DstOp
  | insert (rule : ℕ) (dst : DstMatch)
  | remove (rule : ℕ) (dst : DstMatch)
  | clear

namespace DstOp

def step [IpNetOps] : DstOp → DstMatchLookup → Result (Unit × DstMatchLookup)
  | .insert rule dst,s => Prod.mk () <$> s.insert rule dst
  | .remove rule dst,s => Prod.mk () <$> s.remove rule dst
  | .clear,s => return ((),s.clear)

/-- The pairs that were inserted and not removed since. -/
def live : DstOp → Finset (ℕ × DstMatch) → Unit × Finset (ℕ × DstMatch)
  | .insert rule dst,pairs => ((),Insert.insert (rule,dst) pairs)
  | .remove rule dst,pairs => ((),pairs.erase (rule,dst))
  | .clear,_ => ((),∅)

variable [IpNetOps]

/-- The live pairs are those with an id. -/
def Follows (s : DstMatchLookup) (pairs : Finset (ℕ × DstMatch)) : Prop :=
  ∃ owner, s.Rep owner ∧ ∀ x, x ∈ pairs ↔ ∃ i, owner i = some x

variable {pairs : Finset (ℕ × DstMatch)} {s : DstMatchLookup}

theorem Follows.insert (h : Follows s pairs) (rule : ℕ)
    (dst : DstMatch) : ∃ s', s.insert rule dst = .ok s' ∧ Follows s' (Insert.insert (rule,dst) pairs) := by
  obtain ⟨owner,hrep,hpairs⟩ := h
  obtain ⟨s',id,hrun,hrep',hid⟩ := hrep.insert rule dst
  refine ⟨s',hrun,_,hrep',fun x => ?_⟩
  rw [Finset.mem_insert,hpairs]
  constructor
  · rintro (rfl | ⟨i,hi⟩)
    · exact ⟨id,update_self ..⟩
    · by_cases hii : i = id
      · subst hii
        rcases hid with hn | hs
        · cases hn.symm.trans hi
        · exact ⟨i,by rw [update_self,← hs,hi]⟩
      · exact ⟨i,by rw [update_of_ne hii,hi]⟩
  · rintro ⟨i,hi⟩
    rw [update_apply] at hi
    split at hi
    · exact .inl (Option.some.inj hi).symm
    · exact .inr ⟨i,hi⟩

theorem Follows.remove (h : Follows s pairs) (rule : ℕ)
    (dst : DstMatch) : ∃ s', s.remove rule dst = .ok s' ∧ Follows s' (pairs.erase (rule,dst)) := by
  obtain ⟨owner,hrep,hpairs⟩ := h
  obtain ⟨s',owner',hrun,hrep',howner⟩ := hrep.remove rule dst
  refine ⟨s',hrun,_,hrep',fun x => ?_⟩
  rw [Finset.mem_erase,hpairs]
  simp only [howner]
  constructor
  · rintro ⟨hne,i,hi⟩
    exact ⟨i,by rw [hi,if_neg (by simpa using hne)]⟩
  · rintro ⟨i,hi⟩
    split at hi
    · cases hi
    · rename_i hne
      refine ⟨?_,i,hi⟩
      rintro rfl
      exact hne hi

theorem empty_follows : Follows .empty ∅ := ⟨_,DstMatchLookup.empty_rep,fun x => by simp⟩

theorem step_follows (op : DstOp) (s : DstMatchLookup) (pairs : Finset (ℕ × DstMatch)) (h : Follows s pairs) :
    ∃ s', step op s = .ok ((live op pairs).1,s') ∧ Follows s' (live op pairs).2 := by
  cases op with
  | insert rule dst =>
    obtain ⟨s',hrun,h'⟩ := h.insert rule dst
    exact ⟨s',by simp [step,hrun,live],h'⟩
  | remove rule dst =>
    obtain ⟨s',hrun,h'⟩ := h.remove rule dst
    exact ⟨s',by simp [step,hrun,live],h'⟩
  | clear => exact ⟨.empty,rfl,empty_follows⟩

theorem Follows.insertAll (h : Follows s pairs) (rule : ℕ)
    (ds : List DstMatch) : ∃ s' pairs', ds.foldlM (fun s d => s.insert rule d) s = .ok s' ∧ Follows s' pairs' ∧
      ∀ r d, (r,d) ∈ pairs' ↔ (r,d) ∈ pairs ∨ r = rule ∧ d ∈ ds := by
  induction ds generalizing s pairs with
  | nil => exact ⟨s,pairs,rfl,h,by simp⟩
  | cons d ds ih =>
    obtain ⟨s1,hs1,h1⟩ := h.insert rule d
    obtain ⟨s2,pairs2,hs2,h2,hmem⟩ := ih h1
    refine ⟨s2,pairs2,by simp [hs1,hs2],h2,fun r d' => ?_⟩
    rw [hmem,Finset.mem_insert,Prod.mk.injEq,mem_cons]
    tauto

theorem Follows.removeAll (h : Follows s pairs) (rule : ℕ)
    (ds : List DstMatch) : ∃ s' pairs', ds.foldlM (fun s d => s.remove rule d) s = .ok s' ∧ Follows s' pairs' ∧
      ∀ r d, (r,d) ∈ pairs' ↔ (r,d) ∈ pairs ∧ ¬(r = rule ∧ d ∈ ds) := by
  induction ds generalizing s pairs with
  | nil => exact ⟨s,pairs,rfl,h,by simp⟩
  | cons d ds ih =>
    obtain ⟨s1,hs1,h1⟩ := h.remove rule d
    obtain ⟨s2,pairs2,hs2,h2,hmem⟩ := ih h1
    refine ⟨s2,pairs2,by simp [hs1,hs2],h2,fun r d' => ?_⟩
    rw [hmem,Finset.mem_erase,Ne,Prod.mk.injEq,mem_cons]
    tauto

end DstOp

/-- In every run the index finds the rules of the live pairs that have the address and the port; every live pair
has an id, no two have the same, and the ids that nobody has are nowhere in the table and the trie. -/
theorem dstMatchLookup_exact [IpNetOps] (ops : List DstOp) :
    ∃ os s, runAll DstOp.step ops .empty = .ok (os,s) ∧
      let live := (specAll DstOp.live ops ∅).2
      (∀ dst port, ∃ b, s.lookup dst port = .ok b ∧
        ∀ r, r ∈ b.toSet ↔ ∃ d, (r,d) ∈ live ∧ (∃ p ∈ d.ips, p.contains dst = true) ∧
          ∃ l, iterPrefixes d.ports = .ok l ∧ ∃ q ∈ l, q.contains port = true) ∧
      (∀ x, x ∈ live ↔ ∃ i, s.HasId x i) ∧ (∀ x y i, s.HasId x i → s.HasId y i → x = y) ∧
      ∀ i, (∀ r, s.dstmatchIdToRuleId[i]? ≠ some (some r)) →
        (∀ q b, s.dsts.lookupPrefixExact q = .ok (some b) → q.trunc = q → i ∉ b.toSet) ∧
        ∀ p b, s.ports.view p = some b → i ∉ b.toSet := by
  obtain ⟨s,hrun,owner,hrep,hlive⟩ := runAll_refines DstOp.Follows DstOp.step_follows ops DstOp.empty_follows
  refine ⟨_,s,hrun,fun dst port => ?_,fun x => ?_,fun x y i hx hy => ?_,fun i hi => ?_⟩
  · obtain ⟨b,hb,hmem⟩ := hrep.lookup dst port
    refine ⟨b,hb,fun r => (hmem r).trans ?_⟩
    simp only [hlive]
    constructor
    · rintro ⟨i,d,hi,hf⟩
      exact ⟨d,⟨i,hi⟩,hf⟩
    · rintro ⟨d,⟨i,hi⟩,hf⟩
      exact ⟨i,d,hi,hf⟩
  · simp only [hlive,hrep.hasId_iff]
  · rw [hrep.hasId_iff] at hx hy
    exact Option.some.inj (hx.symm.trans hy)
  · have hnone : owner i = none := by
      cases ho : owner i with
      | none => rfl
      | some x => exact absurd ((hrep.hasId_iff x i).mpr ho).2 (hi x.1)
    obtain ⟨g,⟨m,hm,rfl⟩,hmarks⟩ := hrep.dsts
    refine ⟨fun q b hq hcan hib => ?_,fun p b hp hib => ?_⟩
    · rw [hm.lookupPrefixExact hcan] at hq
      obtain ⟨x,hx,-⟩ := (hmarks.mem i q).mpr ⟨b,Except.ok.inj hq,hib⟩
      cases hnone.symm.trans hx
    · obtain ⟨x,hx,-⟩ := (hrep.ports.mem i p).mpr ⟨b,hp,hib⟩
      cases hnone.symm.trans hx

end Tailnet.PacketFilter

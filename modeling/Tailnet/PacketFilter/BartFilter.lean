import Tailnet.PacketFilter.CapLookup
import Tailnet.PacketFilter.DstMatchLookup

/-! The filter that indexes the parts of its rules. Every rule has an id; its source prefixes, capabilities,
protocols and destinations are indexed apart, and the rules that match a packet are the ids found in all of
them. -/
namespace Tailnet.PacketFilter
open Function List Result OrdMap

structure RulesetEntry (Cap : Type) where
  ruleset : List (Rule Cap)
  ruleIds : RuleBitset

/-- The rules with their ids; the ids in increasing order. -/
def RulesetEntry.rulesAndIds {Cap : Type} (e : RulesetEntry Cap) : List (ℕ × Rule Cap) := e.ruleIds.bits.zip e.ruleset

structure BartFilter (Name Cap : Type) [LinearOrder Name] [LinearOrder Cap] where
  caps : CapLookup Cap
  srcs : SplitStackTable RuleBitset
  dsts : DstMatchLookup
  ipProtos : OrdMap ℤ RuleBitset
  rulesToRulesets : List (Option Name)
  ruleFreelist : RuleBitset
  rulesets : OrdMap Name (RulesetEntry Cap)

namespace BartFilter
variable {Name Cap : Type} [LinearOrder Name] [LinearOrder Cap]

def empty : BartFilter Name Cap := ⟨.empty,.empty,.empty,.empty,[],.empty,.empty⟩

def compact (s : BartFilter Name Cap) : BartFilter Name Cap :=
  let slots := Slots.compact s.rulesToRulesets
  { s with rulesToRulesets := slots, ruleFreelist := s.ruleFreelist.zeroFrom slots.length }

def clear (_ : BartFilter Name Cap) : BartFilter Name Cap := empty

/-- A free id, or a new one. -/
def claimId (s : BartFilter Name Cap) : ℕ × BartFilter Name Cap :=
  match popFreelist s.ruleFreelist with
  | (some idx,ruleFreelist) => (idx,{ s with ruleFreelist })
  | (none,ruleFreelist) =>
    (s.rulesToRulesets.length,{ s with ruleFreelist, rulesToRulesets := s.rulesToRulesets ++ [none] })

def setSlot (s : BartFilter Name Cap) (id : ℕ) (name : Option Name) : Result (BartFilter Name Cap) := do
  let _ ← Result.index s.rulesToRulesets id
  return { s with rulesToRulesets := s.rulesToRulesets.set id name }

def addProto (id : ℕ) (m : OrdMap ℤ RuleBitset) (proto : ℤ) : OrdMap ℤ RuleBitset :=
  m.insert proto (((m.get proto).getD .empty).set id)

def dropProto (id : ℕ) (m : OrdMap ℤ RuleBitset) (proto : ℤ) : OrdMap ℤ RuleBitset :=
  match m.get proto with
  | none => m
  | some rules =>
    let rules := rules.clear id
    let m := m.insert proto rules
    if rules.isEmpty then m.erase proto else m

variable [IpNetOps]

def addRule (s : BartFilter Name Cap) (id : ℕ) (rule : Rule Cap) : Result (BartFilter Name Cap) := do
  let ipProtos := rule.protos.foldl (addProto id) s.ipProtos
  let caps ← rule.src.caps.foldlM (fun caps cap => caps.insert cap id) s.caps
  let srcs ← modifyAll (markId id) rule.src.pfxs s.srcs
  let dsts ← rule.dst.foldlM (fun dsts dst => dsts.insert id dst) s.dsts
  return { s with ipProtos, caps, srcs, dsts }

def dropRule (s : BartFilter Name Cap) (id : ℕ) (rule : Rule Cap) : Result (BartFilter Name Cap) := do
  let ipProtos := rule.protos.foldl (dropProto id) s.ipProtos
  let dsts ← rule.dst.foldlM (fun dsts dst => dsts.remove id dst) s.dsts
  let caps := rule.src.caps.foldl (fun caps cap => caps.remove id cap) s.caps
  let srcs ← modifyAll (unmarkId id) rule.src.pfxs s.srcs
  return { s with ipProtos, caps, srcs, dsts }

def remove (s : BartFilter Name Cap) (name : Name) : Result (BartFilter Name Cap) :=
  match s.rulesets.get name with
  | none => return s
  | some entry => do
    let s := { s with
      rulesets := s.rulesets.erase name
      ruleFreelist := s.ruleFreelist.union entry.ruleIds }
    let s ← entry.ruleIds.bits.foldlM (fun s id => s.setSlot id none) s
    let s ← entry.rulesAndIds.foldlM (fun s e => s.dropRule e.1 e.2) s
    return s.compact

/-- One round of the loop over the rules: the id that the rule gets, the filter, and the ids so far. -/
def insertRule (name : Name) (rule : Rule Cap) (s : BartFilter Name Cap × RuleBitset) :
    Result (ℕ × BartFilter Name Cap × RuleBitset) := do
  let (id,f) := s.1.claimId
  let f ← f.setSlot id (some name)
  let f ← f.addRule id rule
  return (id,f,s.2.set id)

/-- Insert a ruleset; what is returned are the ids that its rules were put under. -/
def insert (s : BartFilter Name Cap) (name : Name) (ruleset : List (Rule Cap)) :
    Result (List ℕ × BartFilter Name Cap) := do
  let s ← s.remove name
  let (ids,s,ruleIds) ← runAll (insertRule name) ruleset (s,.empty)
  return (ids,compact { s with rulesets := s.rulesets.insert name ⟨ruleset,ruleIds⟩ })

/-- The rules found by the source address are added to those found by capabilities. -/
def addSources (found : RuleBitset) : Option RuleBitset → RuleBitset
  | none => found
  | some ipMatches => found.union ipMatches

def keepProto (found : RuleBitset) : Option RuleBitset → RuleBitset
  | some protoMatches => found.intersect protoMatches
  | none => found.clearAll

def lookup (s : BartFilter Name Cap) (info : PacketInfo) (caps : List Cap) : Result RuleBitset := do
  let srcMatches := addSources (s.caps.lookup caps) (← s.srcs.lookup info.src)
  if srcMatches.isEmpty then return srcMatches
  else
    let allMatches := keepProto srcMatches (s.ipProtos.get info.ipProto)
    if allMatches.isEmpty then return allMatches
    else return allMatches.intersect (← s.dsts.lookup info.dst info.port)

/-- The name of the ruleset of the first rule that matches. -/
def matchFor (s : BartFilter Name Cap) (info : PacketInfo) (caps : List Cap) : Result (Option Name) := do
  match (← s.lookup info caps).firstSet with
  | none => return none
  | some ruleId => return some (← Result.unwrap (← Result.index s.rulesToRulesets ruleId))

end BartFilter

def BartFilter.matches {Name Cap : Type} [LinearOrder Name] [LinearOrder Cap] [IpNetOps] (s : BartFilter Name Cap)
    (info : PacketInfo) (caps : List Cap) : Result Bool := do
  return !(← s.lookup info caps).isEmpty

namespace BartFilter
variable {Name Cap : Type} [LinearOrder Name] [LinearOrder Cap] {s : BartFilter Name Cap}
  {owner : ℕ → Option (Name × Rule Cap)} {id : ℕ} {name : Name} {rule : Rule Cap}

theorem get_foldl_addProto (id : ℕ) (ps : List ℤ) (m : OrdMap ℤ RuleBitset) :
    (ps.foldl (addProto id) m).get = applyAll (markId id) ps m.get := by
  induction ps generalizing m with
  | nil => rfl
  | cons p ps ih =>
    have hp : (addProto id m p).get = update m.get p ((markId id).result (m.get p)) := by
      rw [addProto,get_insert_eq,result_markId]
    rw [foldl_cons,ih,hp]
    rfl

theorem get_foldl_dropProto (id : ℕ) (ps : List ℤ) (m : OrdMap ℤ RuleBitset) :
    (ps.foldl (dropProto id) m).get = applyAll (unmarkId id) ps m.get := by
  induction ps generalizing m with
  | nil => rfl
  | cons p ps ih =>
    have hp : (dropProto id m p).get = update m.get p ((unmarkId id).result (m.get p)) := by
      rw [dropProto,result_unmarkId]
      cases hg : m.get p with
      | none =>
        change m.get = _
        rw [Option.bind_none,← hg,update_eq_self]
      | some rules =>
        rw [Option.bind_some]
        dsimp only
        split
        · rw [get_erase_eq,get_insert_eq,update_idem]
        · rw [get_insert_eq]
    rw [foldl_cons,ih,hp]
    rfl

theorem foldlM_caps (id : ℕ) (cs : List Cap) {caps : CapLookup Cap} (h : caps.WF) :
    ∃ caps', cs.foldlM (fun caps cap => caps.insert cap id) caps = .ok caps' ∧ caps'.WF ∧
      caps'.view = applyAll (markId id) cs caps.view := by
  have hstep : ∀ (caps : CapLookup Cap) g cap, caps.WF ∧ caps.view = g → ∃ caps', caps.insert cap id = .ok caps' ∧
      caps'.WF ∧ caps'.view = update g cap ((markId id).result (g cap)) := by
    rintro caps g cap ⟨hwf,rfl⟩
    exact hwf.insert cap id
  obtain ⟨caps',hrun,hwf,hview⟩ :=
    foldlM_applyAll (fun (caps : CapLookup Cap) g => caps.WF ∧ caps.view = g) (fun c => c) hstep cs ⟨h,rfl⟩
  rw [map_id'] at hview
  exact ⟨caps',hrun,hwf,hview⟩

theorem foldl_caps (id : ℕ) (cs : List Cap) {caps : CapLookup Cap} (h : caps.WF) :
    (cs.foldl (fun caps cap => caps.remove id cap) caps).WF ∧
      (cs.foldl (fun caps cap => caps.remove id cap) caps).view = applyAll (unmarkId id) cs caps.view := by
  induction cs generalizing caps with
  | nil => exact ⟨h,rfl⟩
  | cons c cs ih =>
    obtain ⟨hwf,hview⟩ := h.remove id c
    obtain ⟨hwf',hview'⟩ := ih hwf
    refine ⟨hwf',hview'.trans ?_⟩
    rw [hview]
    rfl

variable [IpNetOps]

/-- The indices hold the ids of the rules that list the keys. -/
structure Indices (s : BartFilter Name Cap) (owner : ℕ → Option (Name × Rule Cap)) : Prop where
  protos : Marks s.ipProtos.get (Listed owner fun x p => p ∈ x.2.protos)
  srcs : ∃ g, Holds s.srcs g ∧ Marks g (Listed owner fun x q => ∃ p ∈ x.2.src.pfxs, p.trunc = q)
  capsWF : s.caps.WF
  caps : Marks s.caps.view (Listed owner fun x c => c ∈ x.2.src.caps)
  dsts : ∃ pairs, DstOp.Follows s.dsts pairs ∧ ∀ r d, (r,d) ∈ pairs ↔ Listed owner (fun x d => d ∈ x.2.dst) r d

/-- What the indices leave alone. -/
structure SameIds (s s' : BartFilter Name Cap) : Prop where
  rulesToRulesets : s'.rulesToRulesets = s.rulesToRulesets
  ruleFreelist : s'.ruleFreelist = s.ruleFreelist
  rulesets : s'.rulesets = s.rulesets

theorem Indices.addRule (h : Indices s owner) (hid : owner id = none) (name : Name) (rule : Rule Cap) :
    ∃ s', s.addRule id rule = .ok s' ∧ Indices s' (update owner id (some (name,rule))) ∧ SameIds s s' := by
  obtain ⟨g,hg,hmarks⟩ := h.srcs
  obtain ⟨pairs,hfollows,hpairs⟩ := h.dsts
  obtain ⟨caps,hcaps,hcwf,hcview⟩ := foldlM_caps id rule.src.caps h.capsWF
  obtain ⟨srcs,hsrcs,hheld⟩ := hg.modifyAll (markId id) rule.src.pfxs
  obtain ⟨dsts,pairs',hdsts,hfollows',hpairs'⟩ := hfollows.insertAll id rule.dst
  refine ⟨⟨caps,srcs,dsts,rule.protos.foldl (addProto id) s.ipProtos,s.rulesToRulesets,s.ruleFreelist,s.rulesets⟩,
    by simp [BartFilter.addRule,hcaps,hsrcs,hdsts],?_,rfl,rfl,rfl⟩
  refine ⟨?_,⟨_,hheld,hmarks.assign (.inl hid) fun q => by simp⟩,hcwf,?_,pairs',hfollows',fun r d => ?_⟩
  · dsimp only
    rw [get_foldl_addProto]
    exact h.protos.assign (.inl hid) fun p => Iff.rfl
  · dsimp only
    rw [hcview]
    exact h.caps.assign (.inl hid) fun c => Iff.rfl
  · rw [hpairs',hpairs,listed_assign (.inl hid)]

theorem Indices.dropRule (h : Indices s owner) (hid : owner id = some (name,rule)) :
    ∃ s', s.dropRule id rule = .ok s' ∧ Indices s' (update owner id none) ∧ SameIds s s' := by
  obtain ⟨g,hg,hmarks⟩ := h.srcs
  obtain ⟨pairs,hfollows,hpairs⟩ := h.dsts
  obtain ⟨hcwf,hcview⟩ := foldl_caps id rule.src.caps h.capsWF
  obtain ⟨srcs,hsrcs,hheld⟩ := hg.modifyAll (unmarkId id) rule.src.pfxs
  obtain ⟨dsts,pairs',hdsts,hfollows',hpairs'⟩ := hfollows.removeAll id rule.dst
  refine ⟨⟨rule.src.caps.foldl (fun caps cap => caps.remove id cap) s.caps,srcs,dsts,
    rule.protos.foldl (dropProto id) s.ipProtos,s.rulesToRulesets,s.ruleFreelist,s.rulesets⟩,
    by simp [BartFilter.dropRule,hsrcs,hdsts],?_,rfl,rfl,rfl⟩
  refine ⟨?_,⟨_,hheld,hmarks.release hid fun q => by simp⟩,hcwf,?_,pairs',hfollows',fun r d => ?_⟩
  · dsimp only
    rw [get_foldl_dropProto]
    exact h.protos.release hid fun p => Iff.rfl
  · dsimp only
    rw [hcview]
    exact h.caps.release hid fun c => Iff.rfl
  · rw [hpairs',hpairs,listed_release hid]

/-- Every id has a rule or is free. -/
structure Numbered (s : BartFilter Name Cap) (owner : ℕ → Option (Name × Rule Cap)) : Prop where
  slots : ∀ i, Slots.read s.rulesToRulesets i = (owner i).map Prod.fst
  fits : Slots.Fits s.rulesToRulesets s.ruleFreelist.toSet
  indices : Indices s owner

theorem Numbered.read_eq_none (h : Numbered s owner) (i : ℕ) : Slots.read s.rulesToRulesets i = none ↔ owner i = none := by
  rw [h.slots,Option.map_eq_none_iff]

omit [IpNetOps] in
theorem setSlot_of_lt (hid : id < s.rulesToRulesets.length) (o : Option Name) :
    s.setSlot id o = .ok { s with rulesToRulesets := s.rulesToRulesets.set id o } := by
  rw [setSlot,index_of_getElem? (List.getElem?_eq_getElem hid),bind_of_ok]
  rfl

/-- The least free id gets a slot with the name. -/
theorem Numbered.claim (h : Numbered s owner) (name : Name) : ∃ id f, (s.claimId.2.setSlot s.claimId.1 (some name)) = .ok f ∧
    s.claimId.1 = id ∧ IsLeast {j | owner j = none} id ∧
    Slots.read f.rulesToRulesets = update (Slots.read s.rulesToRulesets) id (some name) ∧
    Slots.Fits f.rulesToRulesets f.ruleFreelist.toSet ∧ Indices f owner ∧ f.rulesets = s.rulesets := by
  have hset : {j | Slots.read s.rulesToRulesets j = none} = {j | owner j = none} := Set.ext h.read_eq_none
  have hind := h.indices
  rw [claimId]
  rcases popFreelist_cases s.ruleFreelist with ⟨hpop,hfirst⟩ | ⟨id,hpop,hfirst⟩
  · have hleast := h.fits.least_of_none hfirst
    rw [hpop]
    refine ⟨_,_,setSlot_of_lt (by simp) _,rfl,hset ▸ hleast,?_,?_,⟨hind.protos,hind.srcs,hind.capsWF,hind.caps,hind.dsts⟩,rfl⟩
    · rw [← Slots.read_push]
      congr 1
      simp
    · have hpush := h.fits.push name
      simpa using hpush
  · have hleast := h.fits.least_of_some hfirst
    have hlt := ((h.fits id).mp hfirst.mem).1
    rw [hpop]
    exact ⟨_,_,setSlot_of_lt (by exact hlt) _,rfl,hset ▸ hleast,Slots.read_set hlt _,
      h.fits.set hlt name fun j => DynBitset.mem_clear,⟨hind.protos,hind.srcs,hind.capsWF,hind.caps,hind.dsts⟩,rfl⟩

theorem Numbered.insertRule (h : Numbered s owner) (name : Name) (rule : Rule Cap) (b : RuleBitset) :
    ∃ id f, BartFilter.insertRule name rule (s,b) = .ok (id,f,b.set id) ∧ IsLeast {j | owner j = none} id ∧
      Numbered f (update owner id (some (name,rule))) ∧ f.rulesets = s.rulesets := by
  obtain ⟨id,f,hset,hid,hleast,hread,hfits,hind,hsets⟩ := h.claim name
  obtain ⟨f',hadd,hind',hsame⟩ := hind.addRule hleast.1 name rule
  refine ⟨id,f',?_,hleast,⟨fun i => ?_,?_,hind'⟩,hsame.rulesets.trans hsets⟩
  · rw [BartFilter.insertRule]
    dsimp only
    rw [hset,bind_of_ok,hid,hadd]
    rfl
  · rw [hsame.rulesToRulesets,hread]
    by_cases hi : i = id
    · simp [hi]
    · simp [hi,h.slots]
  · rw [hsame.rulesToRulesets,hsame.ruleFreelist]
    exact hfits

/-- The rules of a ruleset get increasing ids that were free. -/
theorem Numbered.insertRules (h : Numbered s owner) (name : Name) (rules : List (Rule Cap)) (b : RuleBitset) :
    ∃ ids f b' owner', runAll (BartFilter.insertRule name) rules (s,b) = .ok (ids,f,b') ∧ Numbered f owner' ∧
      f.rulesets = s.rulesets ∧ ids.length = rules.length ∧ ids.Pairwise (· < ·) ∧ (∀ i ∈ ids, owner i = none) ∧
      (∀ i, i ∈ b'.toSet ↔ i ∈ b.toSet ∨ i ∈ ids) ∧
      ∀ i x, owner' i = some x ↔ owner i = some x ∨ x.1 = name ∧ (i,x.2) ∈ ids.zip rules := by
  induction rules generalizing s owner b with
  | nil => exact ⟨[],s,b,owner,rfl,h,rfl,rfl,.nil,by simp,by simp,by simp⟩
  | cons rule rules ih =>
    obtain ⟨id,f1,hrun1,hleast,h1,hsets1⟩ := h.insertRule name rule b
    obtain ⟨ids,f,b',owner',hrun,hnum,hsets,hlen,hpw,hfree,hb',howner⟩ := ih h1 (b.set id)
    have hids : ∀ i ∈ ids, i ≠ id ∧ owner i = none := by
      intro i hi
      have hi' := hfree i hi
      rw [update_apply] at hi'
      split at hi'
      · cases hi'
      · exact ⟨‹_›,hi'⟩
    refine ⟨id::ids,f,b',owner',by simp [runAll,hrun1,hrun],hnum,hsets.trans hsets1,by simp [hlen],?_,?_,?_,?_⟩
    · refine pairwise_cons.mpr ⟨fun i hi => ?_,hpw⟩
      exact lt_of_le_of_ne (hleast.2 (hids i hi).2) (Ne.symm (hids i hi).1)
    · intro i hi
      rcases mem_cons.mp hi with rfl | hi
      · exact hleast.1
      · exact (hids i hi).2
    · intro i
      rw [hb',DynBitset.mem_set,mem_cons]
      tauto
    · intro i x
      rw [howner,zip_cons_cons,mem_cons,Prod.mk.injEq]
      by_cases hi : i = id
      · subst hi
        have hn : owner i = none := hleast.1
        rw [update_self,hn,Option.some.injEq]
        constructor
        · rintro (rfl | hx)
          · exact .inr ⟨rfl,.inl ⟨rfl,rfl⟩⟩
          · exact .inr ⟨hx.1,.inr hx.2⟩
        · rintro (hx | ⟨hx,⟨-,hr⟩ | hx'⟩)
          · cases hx
          · exact .inl (Prod.ext hx.symm hr.symm)
          · exact .inr ⟨hx,hx'⟩
      · rw [update_of_ne hi]
        simp [hi]

theorem Indices.dropRules {l : List (ℕ × Rule Cap)} (h : Indices s owner) (hnodup : (l.map Prod.fst).Nodup)
    (hown : ∀ e ∈ l, ∃ name, owner e.1 = some (name,e.2)) :
    ∃ f, l.foldlM (fun s e => s.dropRule e.1 e.2) s = .ok f ∧
      Indices f (fun i => if i ∈ l.map Prod.fst then none else owner i) ∧ SameIds s f := by
  induction l generalizing s owner with
  | nil => exact ⟨s,rfl,by simpa using h,rfl,rfl,rfl⟩
  | cons e l ih =>
    obtain ⟨name,hname⟩ := hown e mem_cons_self
    obtain ⟨f1,hrun1,h1,hsame1⟩ := h.dropRule hname
    rw [map_cons,nodup_cons] at hnodup
    have hown1 : ∀ e' ∈ l, ∃ name, update owner e.1 none e'.1 = some (name,e'.2) := by
      intro e' he'
      have hne : e'.1 ≠ e.1 := by
        intro heq
        exact hnodup.1 (heq ▸ mem_map_of_mem he')
      rw [update_of_ne hne]
      exact hown e' (mem_cons_of_mem _ he')
    obtain ⟨f,hrun,h',hsame⟩ := ih h1 hnodup.2 hown1
    refine ⟨f,by simp [hrun1,hrun],?_,?_⟩
    · convert h' using 2 with i
      by_cases hi : i = e.1
      · simp [hi]
      · simp only [map_cons,mem_cons,hi,false_or,update_of_ne,ne_eq,not_false_eq_true]
    · exact ⟨hsame.rulesToRulesets.trans hsame1.rulesToRulesets,hsame.ruleFreelist.trans hsame1.ruleFreelist,
        hsame.rulesets.trans hsame1.rulesets⟩

omit [IpNetOps] in
theorem clearSlots (l : List ℕ) {s : BartFilter Name Cap} (h : ∀ i ∈ l, i < s.rulesToRulesets.length) :
    ∃ slots, l.foldlM (fun s id => s.setSlot id none) s = .ok { s with rulesToRulesets := slots } ∧
      slots.length = s.rulesToRulesets.length ∧
      ∀ i, Slots.read slots i = if i ∈ l then none else Slots.read s.rulesToRulesets i := by
  induction l generalizing s with
  | nil => exact ⟨s.rulesToRulesets,rfl,rfl,by simp⟩
  | cons id l ih =>
    have hid := h id mem_cons_self
    obtain ⟨slots,hrun,hlen,hread⟩ := ih (s := { s with rulesToRulesets := s.rulesToRulesets.set id none })
      fun i hi => by simpa using h i (mem_cons_of_mem _ hi)
    refine ⟨slots,by simp [setSlot_of_lt hid,hrun],by simpa using hlen,fun i => ?_⟩
    rw [hread,Slots.read_set hid]
    by_cases hi : i = id <;> simp [hi]

/-- The ids are those of the stored rulesets. -/
structure Rep (s : BartFilter Name Cap) (owner : ℕ → Option (Name × Rule Cap)) : Prop extends Numbered s owner where
  last : s.rulesToRulesets.getLast? ≠ some none
  entries : ∀ i name rule, owner i = some (name,rule) ↔
    ∃ e, s.rulesets.get name = some e ∧ (i,rule) ∈ e.rulesAndIds
  lens : ∀ name e, s.rulesets.get name = some e → e.ruleIds.bits.length = e.ruleset.length

theorem empty_rep : Rep (empty : BartFilter Name Cap) fun _ => none where
  slots i := by simp [empty,Slots.read]
  fits := Slots.Tidy.nil.fits
  indices := {
    protos := Marks.none.congr fun i p => by simp [Listed]
    srcs := ⟨_,Holds.empty,Marks.none.congr fun i p => by simp [Listed]⟩
    capsWF := CapLookup.empty_wf
    caps := Marks.none.congr fun i p => by simp [Listed]
    dsts := ⟨∅,DstOp.empty_follows,by simp [Listed]⟩ }
  last := by simp [empty]
  entries i name rule := by simp [empty,get_empty]
  lens name e h := by simp [empty,get_empty] at h

theorem Numbered.compact (h : Numbered s owner) : Numbered s.compact owner ∧ s.compact.rulesToRulesets.getLast? ≠ some none := by
  have htidy := h.fits.compact fun i => DynBitset.mem_zeroFrom (b := s.ruleFreelist) (n := (Slots.compact s.rulesToRulesets).length)
  refine ⟨⟨fun i => ?_,htidy.fits,?_⟩,htidy.last⟩
  · rw [← h.slots]
    exact congrFun Slots.read_compact i
  · exact ⟨h.indices.protos,h.indices.srcs,h.indices.capsWF,h.indices.caps,h.indices.dsts⟩

omit [LinearOrder Cap] [IpNetOps] in
theorem map_fst_rulesAndIds {e : RulesetEntry Cap} (h : e.ruleIds.bits.length = e.ruleset.length) :
    e.rulesAndIds.map Prod.fst = e.ruleIds.bits := by
  rw [RulesetEntry.rulesAndIds,map_fst_zip h.le]

theorem Rep.mem_ruleIds (h : Rep s owner) {e : RulesetEntry Cap} (he : s.rulesets.get name = some e) (i : ℕ) :
    i ∈ e.ruleIds.bits ↔ (owner i).map Prod.fst = some name := by
  rw [← map_fst_rulesAndIds (h.lens name e he),mem_map,Option.map_eq_some_iff]
  constructor
  · rintro ⟨⟨j,rule⟩,hmem,rfl⟩
    exact ⟨(name,rule),(h.entries j name rule).mpr ⟨e,he,hmem⟩,rfl⟩
  · rintro ⟨⟨name',rule⟩,hi,rfl⟩
    obtain ⟨e',he',hmem⟩ := (h.entries i name' rule).mp hi
    cases he.symm.trans he'
    exact ⟨_,hmem,rfl⟩

/-- The owners without a ruleset. -/
def without (owner : ℕ → Option (Name × Rule Cap)) (name : Name) (i : ℕ) : Option (Name × Rule Cap) :=
  if (owner i).map Prod.fst = some name then none else owner i

omit [LinearOrder Cap] [IpNetOps] in
theorem without_eq_some {i : ℕ} {x : Name × Rule Cap} : without owner name i = some x ↔ owner i = some x ∧ x.1 ≠ name := by
  rw [without]
  split
  · rename_i h
    constructor
    · intro hx
      cases hx
    · rintro ⟨hx,hne⟩
      rw [hx] at h
      exact absurd (Option.some.inj h) hne
  · rename_i h
    refine ⟨fun hx => ⟨hx,?_⟩,fun hx => hx.1⟩
    rintro rfl
    exact h (by rw [hx]; rfl)

theorem Rep.remove (h : Rep s owner) (name : Name) : ∃ f, s.remove name = .ok f ∧ Rep f (without owner name) ∧
    f.rulesets.get = update s.rulesets.get name none := by
  rw [BartFilter.remove]
  cases he : s.rulesets.get name with
  | none =>
    have hsame : without owner name = owner := by
      funext i
      rw [without,if_neg]
      intro hi
      obtain ⟨⟨name',rule⟩,hx,rfl⟩ := Option.map_eq_some_iff.mp hi
      obtain ⟨e,he',-⟩ := (h.entries i name' rule).mp hx
      cases he.symm.trans he'
    rw [hsame]
    exact ⟨s,rfl,h,by rw [← he,update_eq_self]⟩
  | some e =>
    have hids := h.mem_ruleIds he
    have hread : ∀ i ∈ e.ruleIds.bits, i < s.rulesToRulesets.length := by
      intro i hi
      refine Slots.lt_of_read (v := name) ?_
      rw [h.slots,(hids i).mp hi]
    obtain ⟨slots,hslots,hlen,hsread⟩ := clearSlots e.ruleIds.bits
      (s := { s with rulesets := s.rulesets.erase name, ruleFreelist := s.ruleFreelist.union e.ruleIds }) hread
    have hown : ∀ x ∈ e.rulesAndIds, ∃ name, owner x.1 = some (name,x.2) := fun x hx =>
      ⟨name,(h.entries x.1 name x.2).mpr ⟨e,he,hx⟩⟩
    have hfst := map_fst_rulesAndIds (h.lens name e he)
    have hind : Indices { s with
        rulesets := s.rulesets.erase name, ruleFreelist := s.ruleFreelist.union e.ruleIds
        rulesToRulesets := slots } owner :=
      ⟨h.indices.protos,h.indices.srcs,h.indices.capsWF,h.indices.caps,h.indices.dsts⟩
    obtain ⟨f,hrun,hindf,hsame⟩ := hind.dropRules (hfst ▸ e.ruleIds.enumerates_bits.nodup) hown
    have howner : (fun i => if i ∈ e.rulesAndIds.map Prod.fst then none else owner i) = without owner name := by
      funext i
      rw [without]
      exact if_congr (by rw [hfst,hids]) rfl rfl
    rw [howner] at hindf
    have hnum : Numbered f (without owner name) := {
      slots := by
        intro i
        rw [hsame.rulesToRulesets,hsread,without]
        by_cases hb : i ∈ e.ruleIds.bits
        · rw [if_pos hb,if_pos ((hids i).mp hb)]
          rfl
        · rw [if_neg hb,if_neg fun hi => hb ((hids i).mpr hi)]
          exact h.slots i
      fits := by
        intro i
        rw [hsame.ruleFreelist,hsame.rulesToRulesets,DynBitset.mem_union,h.fits,hlen,hsread,← DynBitset.mem_bits]
        by_cases hb : i ∈ e.ruleIds.bits
        · simp [hb,hread i hb]
        · simp [hb]
      indices := hindf }
    obtain ⟨hnum',hlast⟩ := hnum.compact
    have hget : f.compact.rulesets.get = update s.rulesets.get name none := by
      rw [← get_erase_eq]
      exact congrArg OrdMap.get hsame.rulesets
    refine ⟨f.compact,?_,⟨hnum',hlast,fun i name' rule => ?_,fun name' e' he' => ?_⟩,hget⟩
    · dsimp only
      rw [hslots,bind_of_ok,hrun]
      rfl
    · rw [without_eq_some,h.entries,hget]
      by_cases hn : name' = name
      · simp [hn]
      · simp [hn]
    · rw [hget] at he'
      by_cases hn : name' = name
      · simp [hn] at he'
      · rw [update_of_ne hn] at he'
        exact h.lens name' e' he'

theorem Rep.insert (h : Rep s owner) (name : Name) (rules : List (Rule Cap)) :
    ∃ ids f owner', s.insert name rules = .ok (ids,f) ∧ Rep f owner' ∧ ids.length = rules.length ∧
      ∃ e, f.rulesets.get = update s.rulesets.get name (some e) ∧ e.ruleset = rules ∧
        e.rulesAndIds = ids.zip rules := by
  obtain ⟨f1,hrem,h1,hget1⟩ := h.remove name
  obtain ⟨ids,f,b,owner',hrun,hnum,hsets,hlen,hpw,hfree,hb,howner⟩ := h1.toNumbered.insertRules name rules .empty
  have hbits : b.bits = ids := by
    refine b.enumerates_bits.unique ⟨hpw,fun i => ?_⟩
    rw [hb]
    simp
  have hzip : (⟨rules,b⟩ : RulesetEntry Cap).rulesAndIds = ids.zip rules := by rw [RulesetEntry.rulesAndIds,hbits]
  have hgetf : f.rulesets.get = update s.rulesets.get name none := by rw [hsets,hget1]
  have hget : (f.rulesets.insert name ⟨rules,b⟩).get = update s.rulesets.get name (some ⟨rules,b⟩) := by
    rw [get_insert_eq,hgetf,update_idem]
  have hnum2 : Numbered { f with rulesets := f.rulesets.insert name ⟨rules,b⟩ } owner' :=
    ⟨hnum.slots,hnum.fits,⟨hnum.indices.protos,hnum.indices.srcs,hnum.indices.capsWF,hnum.indices.caps,
      hnum.indices.dsts⟩⟩
  obtain ⟨hnum',hlast⟩ := hnum2.compact
  refine ⟨ids,_,owner',by simp only [BartFilter.insert,hrem,hrun,bind_of_ok]; rfl,
    ⟨hnum',hlast,fun i name' rule => ?_,fun name' e he => ?_⟩,hlen,_,hget,rfl,hzip⟩
  · change _ ↔ ∃ e, (f.rulesets.insert name ⟨rules,b⟩).get name' = some e ∧ _
    rw [howner,hget,without_eq_some,h.entries]
    by_cases hn : name' = name
    · simp [hn,hzip]
    · simp [hn]
  · change (f.rulesets.insert name ⟨rules,b⟩).get name' = some e at he
    rw [hget] at he
    by_cases hn : name' = name
    · subst hn
      rw [update_self,Option.some.injEq] at he
      subst he
      rw [hbits,hlen]
    · rw [update_of_ne hn] at he
      exact h.lens name' e he

/-- A prefix contains an address, and no rule has a longer one that does. -/
def Longest (owner : ℕ → Option (Name × Rule Cap)) (ip : IpAddr) (p : IpNet) : Prop :=
  p.contains ip = true ∧ ∀ j y, owner j = some y → ∀ q ∈ y.2.src.pfxs, q.contains ip = true → q.prefixLen ≤ p.prefixLen

/-- The rules found by the source address are those that list the longest prefix. -/
theorem Indices.lookup_srcs (h : Indices s owner) (ip : IpAddr) : ∃ o, s.srcs.lookup ip = .ok o ∧
    ∀ i, (∃ b, o = some b ∧ i ∈ b.toSet) ↔ ∃ x, owner i = some x ∧ ∃ p ∈ x.2.src.pfxs, Longest owner ip p := by
  obtain ⟨g,hg,hmarks⟩ := h.srcs
  have hlisted : ∀ i x p, owner i = some x → p ∈ x.2.src.pfxs → g p.trunc ≠ none := by
    intro i x p hx hp hnone
    exact hmarks.eq_none_iff.mp hnone i ⟨x,hx,p,hp,rfl⟩
  obtain ⟨o,ho,⟨rfl,hno⟩ | ⟨p0,b,rfl,hb,hp0,hlong⟩⟩ := hg.lookup ip
  · refine ⟨none,ho,fun i => iff_of_false (by simp) ?_⟩
    rintro ⟨x,hx,p,hp,hc,-⟩
    exact hlisted i x p hx hp (hno _ ((p.contains_trunc ip).trans hc))
  · have hle : ∀ j y, owner j = some y → ∀ q ∈ y.2.src.pfxs, q.contains ip = true → q.prefixLen ≤ p0.prefixLen := by
      intro j y hy q hq hc
      have := hlong q.trunc ((q.contains_trunc ip).trans hc) (hlisted j y q hy hq)
      rwa [q.trunc_prefixLen] at this
    refine ⟨some b,ho,fun i => ?_⟩
    simp only [Option.some.injEq,exists_eq_left']
    rw [hmarks.mem_toSet hb]
    constructor
    · rintro ⟨x,hx,p,hp,rfl⟩
      refine ⟨x,hx,p,hp,(p.contains_trunc ip).symm.trans hp0,fun j y hy q hq hc => ?_⟩
      rw [← p.trunc_prefixLen]
      exact hle j y hy q hq hc
    · rintro ⟨x,hx,p,hp,hc,hmax⟩
      -- the prefix that was found comes from some rule, so it is not longer than this one
      have hfound : b.toSet ≠ ∅ := hmarks.nonempty p0 b hb
      obtain ⟨j,hj⟩ := Finset.nonempty_iff_ne_empty.mpr hfound
      obtain ⟨y,hy,q,hq,rfl⟩ := (hmarks.mem_toSet hb j).mp hj
      have hqc : q.contains ip = true := (q.contains_trunc ip).symm.trans hp0
      refine ⟨x,hx,p,hp,trunc_eq_of_contains hc hqc (le_antisymm ?_ (hmax j y hy q hq hqc))⟩
      rw [← q.trunc_prefixLen]
      exact hle i x hx p hp hc

/-- What the filter asks of a rule: a capability or the longest source prefix, the protocol and an indexed
destination. -/
def Hits (owner : ℕ → Option (Name × Rule Cap)) (info : PacketInfo) (caps : List Cap) (rule : Rule Cap) : Prop :=
  ((∃ cap ∈ caps, cap ∈ rule.src.caps) ∨ ∃ p ∈ rule.src.pfxs, Longest owner info.src p) ∧
    info.ipProto ∈ rule.protos ∧ ∃ d ∈ rule.dst, DstMatchLookup.Finds d info.dst info.port

omit [LinearOrder Name] [LinearOrder Cap] [IpNetOps] in
theorem mem_addSources {found : RuleBitset} {o : Option RuleBitset} {i : ℕ} :
    i ∈ (addSources found o).toSet ↔ i ∈ found.toSet ∨ ∃ b, o = some b ∧ i ∈ b.toSet := by
  cases o <;> simp [addSources]

omit [LinearOrder Name] [LinearOrder Cap] [IpNetOps] in
theorem mem_keepProto {found : RuleBitset} {o : Option RuleBitset} {i : ℕ} :
    i ∈ (keepProto found o).toSet ↔ i ∈ found.toSet ∧ ∃ b, o = some b ∧ i ∈ b.toSet := by
  cases o <;> simp [keepProto]

theorem Indices.lookup (h : Indices s owner) (info : PacketInfo) (caps : List Cap) :
    ∃ b, s.lookup info caps = .ok b ∧ ∀ i, i ∈ b.toSet ↔ ∃ x, owner i = some x ∧ Hits owner info caps x.2 := by
  obtain ⟨o,ho,hlong⟩ := h.lookup_srcs info.src
  obtain ⟨pairs,⟨downer,hrep,hpairs⟩,hdsts⟩ := h.dsts
  obtain ⟨db,hdb,hdmem⟩ := hrep.lookup info.dst info.port
  have hsrc : ∀ i, i ∈ (addSources (s.caps.lookup caps) o).toSet ↔ ∃ x, owner i = some x ∧
      ((∃ cap ∈ caps, cap ∈ x.2.src.caps) ∨ ∃ p ∈ x.2.src.pfxs, Longest owner info.src p) := by
    intro i
    rw [mem_addSources,CapLookup.mem_lookup h.caps,hlong]
    constructor
    · rintro (⟨cap,hcap,x,hx,hc⟩ | ⟨x,hx,hp⟩)
      · exact ⟨x,hx,.inl ⟨cap,hcap,hc⟩⟩
      · exact ⟨x,hx,.inr hp⟩
    · rintro ⟨x,hx,⟨cap,hcap,hc⟩ | hp⟩
      · exact .inl ⟨cap,hcap,x,hx,hc⟩
      · exact .inr ⟨x,hx,hp⟩
  have hdst : ∀ i, i ∈ db.toSet ↔ ∃ x, owner i = some x ∧ ∃ d ∈ x.2.dst, DstMatchLookup.Finds d info.dst info.port := by
    intro i
    rw [hdmem]
    constructor
    · rintro ⟨j,d,hj,hf⟩
      obtain ⟨x,hx,hd⟩ := (hdsts i d).mp ((hpairs (i,d)).mpr ⟨j,hj⟩)
      exact ⟨x,hx,d,hd,hf⟩
    · rintro ⟨x,hx,d,hd,hf⟩
      obtain ⟨j,hj⟩ := (hpairs (i,d)).mp ((hdsts i d).mpr ⟨x,hx,hd⟩)
      exact ⟨j,d,hj,hf⟩
  have hproto : ∀ i, i ∈ (keepProto (addSources (s.caps.lookup caps) o) (s.ipProtos.get info.ipProto)).toSet ↔
      i ∈ (addSources (s.caps.lookup caps) o).toSet ∧ ∃ x, owner i = some x ∧ info.ipProto ∈ x.2.protos := by
    intro i
    rw [mem_keepProto,← h.protos.mem]
    rfl
  have hhits : ∀ i, (∃ x, owner i = some x ∧ Hits owner info caps x.2) ↔
      i ∈ (keepProto (addSources (s.caps.lookup caps) o) (s.ipProtos.get info.ipProto)).toSet ∧ i ∈ db.toSet := by
    intro i
    rw [hproto,hsrc,hdst]
    cases owner i <;> simp [Hits,and_assoc]
  rw [BartFilter.lookup,ho,bind_of_ok]
  dsimp only
  -- an early return leaves no rule that could match
  split
  · rename_i hempty
    rw [DynBitset.isEmpty_iff] at hempty
    refine ⟨_,rfl,fun i => ?_⟩
    rw [hhits,hproto,hempty]
    simp
  · split
    · rename_i hempty
      rw [DynBitset.isEmpty_iff] at hempty
      refine ⟨_,rfl,fun i => ?_⟩
      rw [hhits,hempty]
      simp
    · rw [hdb,bind_of_ok]
      exact ⟨_,rfl,fun i => by rw [hhits,DynBitset.mem_intersect]⟩

/-- The ruleset that is named is the one of a rule that the lookup finds. -/
theorem Numbered.matchFor (h : Numbered s owner) (info : PacketInfo) (caps : List Cap) :
    ∃ o, s.matchFor info caps = .ok o := by
  obtain ⟨b,hb,hmem⟩ := h.indices.lookup info caps
  rw [BartFilter.matchFor,hb,bind_of_ok]
  cases hf : b.firstSet with
  | none => exact ⟨none,rfl⟩
  | some i =>
    have hfirst := b.isFirst_firstSet
    rw [hf] at hfirst
    obtain ⟨x,hx,-⟩ := (hmem i).mp hfirst.mem
    have hread : Slots.read s.rulesToRulesets i = some x.1 := by
      rw [h.slots,hx]
      rfl
    refine ⟨some x.1,?_⟩
    dsimp only
    rw [index_of_getElem? (Slots.getElem?_of_read hread),bind_of_ok]
    rfl

theorem Indices.matches_spec (h : Indices s owner) (info : PacketInfo) (caps : List Cap) :
    ∃ b, BartFilter.matches s info caps = .ok b ∧ (b = true ↔ ∃ i x, owner i = some x ∧ Hits owner info caps x.2) := by
  obtain ⟨b,hb,hmem⟩ := h.lookup info caps
  refine ⟨!b.isEmpty,by rw [BartFilter.matches,hb,bind_of_ok]; rfl,?_⟩
  rw [Bool.not_eq_true',← Bool.not_eq_true,DynBitset.isEmpty_iff,← ne_eq,← Finset.nonempty_iff_ne_empty]
  exact exists_congr hmem

/-! ### Runs -/

inductive Op (Name Cap : Type)
  | insert (name : Name) (ruleset : List (Rule Cap))
  | remove (name : Name)
  | clear

/-- One call; what comes out are the ids that were given to the rules of an inserted ruleset. -/
def step : Op Name Cap → BartFilter Name Cap → Result (List ℕ × BartFilter Name Cap)
  | .insert name ruleset,s => s.insert name ruleset
  | .remove name,s => do return ([],← s.remove name)
  | .clear,s => return ([],s.clear)

/-- The live rules of every name with the ids they were inserted under. -/
def Inserts : Op Name Cap → List ℕ → OrdMap Name (List (ℕ × Rule Cap)) → OrdMap Name (List (ℕ × Rule Cap)) → Prop
  | .insert name ruleset,ids,live,live' => ids.length = ruleset.length ∧ live' = live.insert name (ids.zip ruleset)
  | .remove name,_,live,live' => live' = live.erase name
  | .clear,_,_,live' => live' = .empty

/-- A filter with the live rules. -/
def Follows (s : BartFilter Name Cap) (live : OrdMap Name (List (ℕ × Rule Cap))) : Prop :=
  (∃ owner, Rep s owner) ∧ ∀ name, (s.rulesets.get name).map RulesetEntry.rulesAndIds = live.get name

theorem step_follows (op : Op Name Cap) (s : BartFilter Name Cap) (live : OrdMap Name (List (ℕ × Rule Cap)))
    (h : Follows s live) : ∃ ids s' live', step op s = .ok (ids,s') ∧ Inserts op ids live live' ∧ Follows s' live' := by
  obtain ⟨⟨owner,hrep⟩,hlive⟩ := h
  cases op with
  | insert name ruleset =>
    obtain ⟨ids,f,owner',hrun,hrep',hlen,e,hget,-,hzip⟩ := hrep.insert name ruleset
    refine ⟨ids,f,_,hrun,⟨hlen,rfl⟩,⟨owner',hrep'⟩,fun name' => ?_⟩
    rw [hget,get_insert_eq]
    by_cases hn : name' = name
    · simp [hn,hzip]
    · simp [hn,hlive]
  | remove name =>
    obtain ⟨f,hrun,hrep',hget⟩ := hrep.remove name
    refine ⟨[],f,_,by simp [step,hrun],rfl,⟨_,hrep'⟩,fun name' => ?_⟩
    rw [hget,get_erase_eq]
    by_cases hn : name' = name
    · simp [hn]
    · simp [hn,hlive]
  | clear => exact ⟨[],empty,.empty,rfl,rfl,⟨_,empty_rep⟩,fun name => by simp [empty,get_empty]⟩

def Live (live : OrdMap Name (List (ℕ × Rule Cap))) (i : ℕ) (rule : Rule Cap) : Prop :=
  ∃ name rules, live.get name = some rules ∧ (i,rule) ∈ rules

/-- An index entry holds exactly the ids; there is none if there are no ids. -/
def Indexes (o : Option RuleBitset) (R : ℕ → Prop) : Prop :=
  (o = none ↔ ∀ i, ¬R i) ∧ ∀ b, o = some b → ∀ i, i ∈ b.toSet ↔ R i

/-- The filter in its own terms and the live rules. -/
structure Consistent (s : BartFilter Name Cap) (live : OrdMap Name (List (ℕ × Rule Cap))) : Prop where
  disjoint : ∀ name name' e e', s.rulesets.get name = some e → s.rulesets.get name' = some e' → name ≠ name' →
    Disjoint e.ruleIds.toSet e'.ruleIds.toSet
  slots : ∀ i name, s.rulesToRulesets[i]? = some (some name) ↔
    ∃ e, s.rulesets.get name = some e ∧ i ∈ e.ruleIds.toSet
  free : ∀ i, i ∈ s.ruleFreelist.toSet ↔ s.rulesToRulesets[i]? = some none
  last : s.rulesToRulesets.getLast? ≠ some none
  lens : ∀ name e, s.rulesets.get name = some e → e.ruleIds.bits.length = e.ruleset.length
  zipped : ∀ name, (s.rulesets.get name).map RulesetEntry.rulesAndIds = live.get name
  srcs : ∀ q : IpNet, q.trunc = q → ∃ o, s.srcs.lookupPrefixExact q = .ok o ∧
    Indexes o fun i => ∃ rule, Live live i rule ∧ ∃ p ∈ rule.src.pfxs, p.trunc = q
  protos : ∀ proto, Indexes (s.ipProtos.get proto) fun i => ∃ rule, Live live i rule ∧ proto ∈ rule.protos
  caps : ∀ cap i, i ∈ (s.caps.lookup [cap]).toSet ↔ ∃ rule, Live live i rule ∧ cap ∈ rule.src.caps
  matchFor : ∀ info caps, ∃ o, s.matchFor info caps = .ok o

theorem Follows.live_iff {live : OrdMap Name (List (ℕ × Rule Cap))} (h : Rep s owner)
    (hlive : ∀ name, (s.rulesets.get name).map RulesetEntry.rulesAndIds = live.get name) (i : ℕ) (rule : Rule Cap) :
    Live live i rule ↔ ∃ name, owner i = some (name,rule) := by
  simp only [Live,← hlive,Option.map_eq_some_iff,h.entries]
  constructor
  · rintro ⟨name,_,⟨e,he,rfl⟩,hmem⟩
    exact ⟨name,e,he,hmem⟩
  · rintro ⟨name,e,he,hmem⟩
    exact ⟨name,_,⟨e,he,rfl⟩,hmem⟩

omit [LinearOrder Name] [LinearOrder Cap] [IpNetOps] in
theorem indexes_of_marks {K : Type} {g : K → Option RuleBitset} {R : ℕ → K → Prop} (h : Marks g R) {k : K} {R' : ℕ → Prop}
    (hR : ∀ i, R' i ↔ R i k) : Indexes (g k) R' := by
  refine ⟨h.eq_none_iff.trans (by simp only [hR]),fun b hb i => ?_⟩
  rw [hR,h.mem_toSet hb]

theorem Follows.consistent {live : OrdMap Name (List (ℕ × Rule Cap))} (h : Follows s live) : Consistent s live := by
  obtain ⟨⟨owner,hrep⟩,hlive⟩ := h
  have hlisted : ∀ (Q : Rule Cap → Prop) i, (∃ rule, Live live i rule ∧ Q rule) ↔ ∃ x, owner i = some x ∧ Q x.2 := by
    intro Q i
    simp only [Follows.live_iff hrep hlive,Prod.exists]
    constructor
    · rintro ⟨rule,⟨name,hx⟩,hq⟩
      exact ⟨name,rule,hx,hq⟩
    · rintro ⟨name,rule,hx,hq⟩
      exact ⟨rule,⟨name,hx⟩,hq⟩
  have hslots : ∀ i name, s.rulesToRulesets[i]? = some (some name) ↔
      ∃ e, s.rulesets.get name = some e ∧ i ∈ e.ruleIds.toSet := by
    intro i name
    rw [← Option.join_eq_some_iff,← Slots.read,hrep.slots]
    constructor
    · intro hi
      obtain ⟨⟨name',rule⟩,hx,rfl⟩ := Option.map_eq_some_iff.mp hi
      obtain ⟨e,he,-⟩ := (hrep.entries i name' rule).mp hx
      exact ⟨e,he,DynBitset.mem_bits.mp ((hrep.mem_ruleIds he i).mpr hi)⟩
    · rintro ⟨e,he,hi⟩
      exact (hrep.mem_ruleIds he i).mp (DynBitset.mem_bits.mpr hi)
  obtain ⟨g,⟨m,ht,rfl⟩,hmarks⟩ := hrep.indices.srcs
  refine ⟨fun name name' e e' he he' hne => ?_,hslots,hrep.fits.mem_iff,hrep.last,hrep.lens,hlive,fun q hq => ?_,fun proto => ?_,
    fun cap i => ?_,hrep.toNumbered.matchFor⟩
  · rw [Finset.disjoint_left]
    intro i hi hi'
    have hs := (hslots i name).mpr ⟨e,he,hi⟩
    have hs' := (hslots i name').mpr ⟨e',he',hi'⟩
    simp only [hs,Option.some.injEq] at hs'
    exact hne hs'
  · exact ⟨_,ht.lookupPrefixExact hq,indexes_of_marks hmarks fun i => hlisted _ i⟩
  · exact indexes_of_marks hrep.indices.protos fun i => hlisted _ i
  · rw [CapLookup.mem_lookup hrep.indices.caps]
    simpa [Listed] using (hlisted (fun rule => cap ∈ rule.src.caps) i).symm

/-- In every run of the filter the ids, the free list and the indices are those of the live rules, each rule has
the id it was inserted under, and no query panics. -/
theorem bartFilter_consistent (ops : List (Op Name Cap)) :
    ∃ ids s live, runAll step ops empty = .ok (ids,s) ∧ RunsTo Inserts ops ids .empty live ∧ Consistent s live := by
  obtain ⟨ids,s,live,hrun,hruns,h⟩ := runAll_simulates Follows step_follows ops
    (s := empty) (a := .empty) ⟨⟨_,empty_rep⟩,fun name => by simp [empty,get_empty]⟩
  exact ⟨ids,s,live,hrun,hruns,h.consistent⟩

end BartFilter
end Tailnet.PacketFilter

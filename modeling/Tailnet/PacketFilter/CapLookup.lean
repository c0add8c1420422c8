import Tailnet.Lib.OrdMap
import Tailnet.PacketFilter.IdIndex

/-! The index of capabilities. A capability name has an id of its own while some rule lists it, and the slot of
the id holds the rules. Seen by name it is an index like the others. -/
namespace Tailnet.PacketFilter
open Function Slots

structure CapLookup (Cap : Type) [LinearOrder Cap] where
  ids : OrdMap Cap ℕ
  capsToRules : List (Option RuleBitset)
  freelist : RuleBitset

namespace CapLookup
variable {Cap : Type} [LinearOrder Cap]

def empty : CapLookup Cap := ⟨.empty,[],.empty⟩

/-- The id of a capability, with a new one if it has none. -/
def capId (s : CapLookup Cap) (cap : Cap) : ℕ × CapLookup Cap :=
  match s.ids.get cap with
  | some id => (id,s)
  | none =>
    match popFreelist s.freelist with
    | (some id,freelist) => (id,{ s with freelist, ids := s.ids.insert cap id })
    | (none,freelist) =>
      let id := s.capsToRules.length
      (id,{ freelist, ids := s.ids.insert cap id, capsToRules := s.capsToRules ++ [none] })

/-- Mark the capability as accepting for the rule. -/
def insert (s : CapLookup Cap) (cap : Cap) (rule : ℕ) : Result (CapLookup Cap) := do
  let (id,s) := s.capId cap
  let slot ← Result.index s.capsToRules id
  return { s with capsToRules := s.capsToRules.set id (some ((slot.getD .empty).set rule)) }

def compact (s : CapLookup Cap) : CapLookup Cap :=
  let slots := Slots.compact s.capsToRules
  { s with capsToRules := slots, freelist := s.freelist.zeroFrom slots.length }

/-- Unmark the capability as accepting for the rule. -/
def remove (s : CapLookup Cap) (rule : ℕ) (cap : Cap) : CapLookup Cap :=
  match s.ids.get cap with
  | none => s
  | some id =>
    match s.capsToRules[id]? with
    | some (some rules) =>
      let rules := rules.clear rule
      if rules.isEmpty then
        compact { ids := s.ids.erase cap, freelist := s.freelist.set id
                  capsToRules := (s.capsToRules.set id (some rules)).set id none }
      else compact { s with capsToRules := s.capsToRules.set id (some rules) }
    | _ => compact s

/-- The rules for which one of the capabilities accepts. -/
def lookup (s : CapLookup Cap) (caps : List Cap) : RuleBitset :=
  unionAll ((caps.filterMap s.ids.get).filterMap fun id => s.capsToRules[id]?.join)

def view (s : CapLookup Cap) (cap : Cap) : Option RuleBitset := (s.ids.get cap).bind (Slots.read s.capsToRules)

/-- Each name has a slot of its own, and the free list holds the empty slots. -/
structure WF (s : CapLookup Cap) : Prop where
  fits : Slots.Fits s.capsToRules s.freelist.toSet
  slot : ∀ cap id, s.ids.get cap = some id → ∃ rules, Slots.read s.capsToRules id = some rules
  inj : ∀ cap cap' id, s.ids.get cap = some id → s.ids.get cap' = some id → cap = cap'

theorem empty_wf : (empty : CapLookup Cap).WF where
  fits := Slots.Tidy.nil.fits
  slot cap id h := by simp [empty,OrdMap.get_empty] at h
  inj cap cap' id h := by simp [empty,OrdMap.get_empty] at h

theorem view_empty : (empty : CapLookup Cap).view = fun _ => none := rfl

variable {s : CapLookup Cap}

theorem WF.compact (h : s.WF) : s.compact.WF ∧ s.compact.view = s.view := by
  have hread : Slots.read s.compact.capsToRules = Slots.read s.capsToRules := read_compact
  refine ⟨⟨(h.fits.compact fun i => DynBitset.mem_zeroFrom).fits,fun cap id hid => ?_,h.inj⟩,?_⟩
  · rw [hread]
    exact h.slot cap id hid
  · funext cap
    rw [view,view,hread]
    rfl

theorem WF.write (h : s.WF) {cap : Cap} {id : ℕ} (hid : s.ids.get cap = some id) (rules : RuleBitset) :
    let s' := { s with capsToRules := s.capsToRules.set id (some rules) }
    s'.WF ∧ s'.view = update s.view cap (some rules) := by
  obtain ⟨old,hold⟩ := h.slot cap id hid
  have hlt := lt_of_read hold
  refine ⟨⟨h.fits.set hlt rules fun j => ?_,fun cap' id' hid' => ?_,h.inj⟩,funext fun cap' => ?_⟩
  · refine ⟨fun hj => ⟨?_,hj⟩,fun hj => hj.2⟩
    rintro rfl
    rw [((h.fits j).mp hj).2] at hold
    cases hold
  · rw [read_set hlt,update_apply]
    split
    · exact ⟨rules,rfl⟩
    · exact h.slot cap' id' hid'
  · simp only [view,read_set hlt]
    by_cases hc : cap' = cap
    · subst hc
      simp [hid]
    · rw [update_of_ne hc,view]
      cases hg : s.ids.get cap' with
      | none => rfl
      | some id' =>
        have hne : id' ≠ id := by
          rintro rfl
          exact hc (h.inj cap' cap id' hg hid)
        simp [hne]

theorem WF.fresh (h : s.WF) {cap : Cap} {id : ℕ} (hid : Slots.read s.capsToRules id = none)
    (s' : CapLookup Cap) {rules : RuleBitset}
    (hids : s'.ids = s.ids.insert cap id)
    (hread : Slots.read s'.capsToRules = update (Slots.read s.capsToRules) id (some rules))
    (hfits : Slots.Fits s'.capsToRules s'.freelist.toSet) :
    s'.WF ∧ s'.view = update s.view cap (some rules) := by
  have hget : ∀ cap', s'.ids.get cap' = if cap' = cap then some id else s.ids.get cap' := by
    intro cap'
    rw [hids,OrdMap.get_insert]
    exact if_congr eq_comm rfl rfl
  have hne : ∀ cap' id', s.ids.get cap' = some id' → id' ≠ id := by
    rintro cap' id' hg rfl
    obtain ⟨old,hold⟩ := h.slot cap' id' hg
    cases hid.symm.trans hold
  refine ⟨⟨hfits,fun cap' id' hg => ?_,fun cap1 cap2 id' h1 h2 => ?_⟩,funext fun cap' => ?_⟩
  · rw [hread]
    rw [hget] at hg
    split at hg
    · cases hg
      exact ⟨rules,update_self ..⟩
    · rw [update_of_ne (hne cap' id' hg)]
      exact h.slot cap' id' hg
  · rw [hget] at h1 h2
    split at h1 <;> split at h2
    · simp_all
    · cases h1
      exact absurd rfl (hne cap2 id h2)
    · cases h2
      exact absurd rfl (hne cap1 id h1)
    · exact h.inj cap1 cap2 id' h1 h2
  · rw [view,hget,hread]
    by_cases hc : cap' = cap
    · simp [hc]
    · rw [if_neg hc,update_of_ne hc,view]
      cases hg : s.ids.get cap' with
      | none => rfl
      | some id' => simp [hne cap' id' hg]

theorem WF.insert (h : s.WF) (cap : Cap) (rule : ℕ) : ∃ s', s.insert cap rule = .ok s' ∧ s'.WF ∧
    s'.view = update s.view cap ((markId rule).result (s.view cap)) := by
  rw [CapLookup.insert,capId,result_markId]
  cases hid : s.ids.get cap with
  | some id =>
    obtain ⟨old,hold⟩ := h.slot cap id hid
    have hview : s.view cap = some old := by simp [view,hid,hold]
    obtain ⟨hwf,hv⟩ := h.write hid (old.set rule)
    refine ⟨_,?_,hwf,?_⟩
    · simp [Result.index_of_getElem? (Slots.getElem?_of_read hold)]
    · rw [hv,hview]
      rfl
  | none =>
    have hview : s.view cap = none := by simp [view,hid]
    rw [hview]
    rcases popFreelist_cases s.freelist with ⟨hpop,hfirst⟩ | ⟨id,hpop,hfirst⟩
    · have hfree : Slots.read s.capsToRules s.capsToRules.length = none := (h.fits.least_of_none hfirst).1
      obtain ⟨hwf,hv⟩ := h.fresh hfree
        ⟨s.ids.insert cap _,s.capsToRules ++ [some (DynBitset.empty.set rule)],s.freelist⟩ rfl (read_push _) (h.fits.push _)
      refine ⟨_,?_,hwf,hv⟩
      simp [hpop,Result.index]
    · have hfree : Slots.read s.capsToRules id = none := (h.fits.least_of_some hfirst).1
      have hlt := ((h.fits id).mp hfirst.mem).1
      have hnone : s.capsToRules[id]? = some none := by
        rw [Slots.read] at hfree
        rw [List.getElem?_eq_getElem hlt] at hfree ⊢
        exact congrArg some hfree
      obtain ⟨hwf,hv⟩ := h.fresh hfree
        ⟨s.ids.insert cap id,s.capsToRules.set id (some (DynBitset.empty.set rule)),s.freelist.clear id⟩ rfl
        (read_set hlt _) (h.fits.set hlt _ fun j => DynBitset.mem_clear)
      refine ⟨_,?_,hwf,hv⟩
      simp [hpop,Result.index_of_getElem? hnone]

theorem WF.free (h : s.WF) {cap : Cap} {id : ℕ} (hid : s.ids.get cap = some id) (s' : CapLookup Cap)
    (hids : s'.ids = s.ids.erase cap)
    (hread : Slots.read s'.capsToRules = update (Slots.read s.capsToRules) id none)
    (hfits : Slots.Fits s'.capsToRules s'.freelist.toSet) : s'.WF ∧ s'.view = update s.view cap none := by
  have hget : ∀ cap', s'.ids.get cap' = if cap' = cap then none else s.ids.get cap' := by
    intro cap'
    rw [hids,OrdMap.get_erase]
  have hne : ∀ cap' id', cap' ≠ cap → s.ids.get cap' = some id' → id' ≠ id := by
    rintro cap' id' hc hg rfl
    exact hc (h.inj cap' cap id' hg hid)
  refine ⟨⟨hfits,fun cap' id' hg => ?_,fun cap1 cap2 id' h1 h2 => ?_⟩,funext fun cap' => ?_⟩
  · rw [hget] at hg
    split at hg
    · cases hg
    · rename_i hc
      rw [hread,update_of_ne (hne cap' id' hc hg)]
      exact h.slot cap' id' hg
  · rw [hget] at h1 h2
    split at h1 <;> split at h2
    · cases h1
    · cases h1
    · cases h2
    · exact h.inj cap1 cap2 id' h1 h2
  · rw [view,hget,hread]
    by_cases hc : cap' = cap
    · simp [hc]
    · rw [if_neg hc,update_of_ne hc,view]
      cases hg : s.ids.get cap' with
      | none => rfl
      | some id' => simp [hne cap' id' hc hg]

theorem WF.remove (h : s.WF) (rule : ℕ) (cap : Cap) : (s.remove rule cap).WF ∧
    (s.remove rule cap).view = update s.view cap ((unmarkId rule).result (s.view cap)) := by
  rw [CapLookup.remove,result_unmarkId]
  cases hid : s.ids.get cap with
  | none =>
    have hview : s.view cap = none := by simp [view,hid]
    refine ⟨h,?_⟩
    rw [hview,Option.bind_none,← hview,update_eq_self]
  | some id =>
    obtain ⟨rules,hold⟩ := h.slot cap id hid
    have hview : s.view cap = some rules := by simp [view,hid,hold]
    have hlt := lt_of_read hold
    rw [hview,Option.bind_some]
    dsimp only
    rw [Slots.getElem?_of_read hold]
    dsimp only
    split
    · rw [List.set_set]
      obtain ⟨hwf,hv⟩ := h.free hid ⟨s.ids.erase cap,s.capsToRules.set id none,s.freelist.set id⟩ rfl
        (read_set hlt _) (h.fits.release hlt fun j => DynBitset.mem_set)
      exact ⟨hwf.compact.1,hwf.compact.2.trans hv⟩
    · obtain ⟨hwf,hv⟩ := h.write hid (rules.clear rule)
      exact ⟨hwf.compact.1,hwf.compact.2.trans hv⟩

theorem mem_lookup {R : ℕ → Cap → Prop} (hm : Marks s.view R) (caps : List Cap) (i : ℕ) :
    i ∈ (s.lookup caps).toSet ↔ ∃ cap ∈ caps, R i cap := by
  apply hm.mem_unionAll
  intro v
  simp only [List.mem_filterMap,view,Option.bind_eq_some_iff]
  constructor
  · rintro ⟨id,⟨cap,hc,hid⟩,hv⟩
    exact ⟨cap,hc,id,hid,hv⟩
  · rintro ⟨cap,hc,id,hid,hv⟩
    exact ⟨id,⟨cap,hc,hid⟩,hv⟩

end CapLookup
end Tailnet.PacketFilter

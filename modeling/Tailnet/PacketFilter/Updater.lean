import Tailnet.PacketFilter.Equivalence

/-! How the rulesets that control sends reach the packet filter. The map filter decides; the indexed filter is kept
beside it and asked as well, and a difference between the two is only logged. -/
namespace Tailnet.PacketFilter
open BartFilter List OrdMap

variable {Cap : Type}

abbrev Ruleset (Cap : Type) := List (Rule Cap)

abbrev Entry (Cap : Type) := String × Option (Ruleset Cap)

def defaultRulesetName : String := "base"

def clearMapKey : String := "*"

def isClearRule (e : Entry Cap) : Bool := e.1 == clearMapKey && e.2.isNone

/-- The call for an entry; a ruleset without rules is as good as none. -/
def entryCall : Entry Cap → Op String Cap
  | (name,none) => .remove name
  | (name,some ruleset) => if ruleset.isEmpty then .remove name else .insert name ruleset

/-- The calls that an update makes on the storage. -/
def applyUpdate (packetFilter : Option (Ruleset Cap)) (clearStorage : Bool) (packetFilters : List (Entry Cap)) :
    List (Op String Cap) :=
  (if clearStorage then [.clear] else (packetFilter.map (.insert defaultRulesetName)).toList) ++
    (packetFilters.filter fun e => !isClearRule e).map entryCall

def shouldClearStorage (packetFilters : OrdMap String (Option (Ruleset Cap))) : Bool :=
  match packetFilters.get clearMapKey with
  | some none => true
  | _ => false

/-- The rulesets of an update of control, in the old style and by their names. -/
structure FilterUpdate (Cap : Type) where
  packetFilter : Option (Ruleset Cap)
  packetFilters : OrdMap String (Option (Ruleset Cap))

def FilterUpdate.calls (u : FilterUpdate Cap) : List (Op String Cap) :=
  applyUpdate u.packetFilter (shouldClearStorage u.packetFilters) u.packetFilters.entries

/-- What an update says about the ruleset of a name, which was `old` before. -/
def FilterUpdate.told (name : String) (old : Option (Ruleset Cap)) (u : FilterUpdate Cap) : Option (Ruleset Cap) :=
  match u.packetFilters.get name with
  | some ruleset => ruleset.filter fun r => !r.isEmpty
  | none =>
    if shouldClearStorage u.packetFilters then none
    else if name = defaultRulesetName then u.packetFilter.or old
    else old

theorem get_entryCall (m : MapFilter String Cap) (e : Entry Cap) :
    (m.step (entryCall e)).get = Function.update m.get e.1 (e.2.filter fun r => !r.isEmpty) := by
  obtain ⟨key,_ | _ | ⟨rule,rules⟩⟩ := e
  · exact get_erase_eq m key
  · exact get_erase_eq m key
  · exact get_insert_eq m key _

/-- After the calls for some entries a name has what its last entry says. -/
theorem get_entryCalls (l : List (Entry Cap)) (m : MapFilter String Cap) (name : String) :
    ((l.map entryCall).foldl MapFilter.step m).get name =
      ((last name l).map fun v => v.filter fun r => !r.isEmpty).getD (m.get name) := by
  induction l generalizing m with
  | nil => rfl
  | cons e l ih =>
    rw [map_cons,foldl_cons,ih,last,get_entryCall,Function.update_apply]
    cases last name l with
    | some v => rfl
    | none =>
      by_cases hk : e.1 = name
      · simp [hk]
      · simp [hk,Ne.symm hk]

theorem last_filter (m : OrdMap String (Option (Ruleset Cap))) (name : String) :
    last name (m.entries.filter fun e => !isClearRule e) =
      (m.get name).bind fun v => if isClearRule (name,v) then none else some v := by
  have hentries : m.entries.filter (fun e => !isClearRule e) =
      (m.filterMap fun k v => if isClearRule (k,v) then none else some v).entries := by
    rw [OrdMap.filterMap,← filterMap_eq_filter]
    refine filterMap_congr fun e _ => ?_
    by_cases he : isClearRule e = true <;> simp [Option.guard,he]
  rw [hentries,last_eq_getEntry (OrdMap.ascending _)]
  exact get_filterMap m _ name

theorem get_calls (u : FilterUpdate Cap) (m : MapFilter String Cap) (name : String) :
    (u.calls.foldl MapFilter.step m).get name = u.told name (m.get name) := by
  rw [FilterUpdate.calls,applyUpdate,foldl_append,get_entryCalls,last_filter,FilterUpdate.told]
  cases hname : u.packetFilters.get name with
  | some v =>
    by_cases hclear : isClearRule (name,v) = true
    · obtain ⟨rfl,rfl⟩ : name = clearMapKey ∧ v = none := by simpa [isClearRule] using hclear
      simp [hclear,shouldClearStorage,hname,MapFilter.step,get_empty]
    · simp [hclear]
  | none =>
    split
    · rfl
    · cases u.packetFilter with
      | none => simp
      | some ruleset => simp [MapFilter.step,get_insert_eq,Function.update_apply]

variable [LinearOrder Cap] [IpNetOps]

structure CheckingFilter (Cap : Type) [LinearOrder Cap] where
  primary : MapFilter String Cap
  checked : BartFilter String Cap

def CheckingFilter.default : CheckingFilter Cap := ⟨.empty,.empty⟩

def CheckingFilter.call (s : CheckingFilter Cap) (op : Op String Cap) : Result (CheckingFilter Cap) := do
  return ⟨s.primary.step op,(← BartFilter.step op s.checked).2⟩

def CheckingFilter.matches (s : CheckingFilter Cap) (info : PacketInfo) (caps : List Cap) : Result Bool := do
  let _ ← BartFilter.matches s.checked info caps
  return s.primary.matches info caps

def PacketfilterUpdater.handle (s : CheckingFilter Cap) (u : FilterUpdate Cap) : Result (CheckingFilter Cap) :=
  u.calls.foldlM CheckingFilter.call s

theorem CheckingFilter.calls_store (ops : List (Op String Cap)) {s : CheckingFilter Cap}
    (h : MapFilter.Stores s.checked s.primary) :
    ∃ checked, ops.foldlM call s = .ok ⟨ops.foldl MapFilter.step s.primary,checked⟩ ∧
      MapFilter.Stores checked (ops.foldl MapFilter.step s.primary) := by
  induction ops generalizing s with
  | nil => exact ⟨s.checked,rfl,h⟩
  | cons op ops ih =>
    obtain ⟨ids,checked,hrun,h1⟩ := MapFilter.step_stores op h
    obtain ⟨s2,hs2,h2⟩ := @ih ⟨s.primary.step op,checked⟩ h1
    exact ⟨s2,by rw [foldlM_cons,call,hrun]; exact hs2,h2⟩

theorem PacketfilterUpdater.handle_all (updates : List (FilterUpdate Cap)) {s : CheckingFilter Cap}
    (h : MapFilter.Stores s.checked s.primary) :
    ∃ s', updates.foldlM handle s = .ok s' ∧ MapFilter.Stores s'.checked s'.primary ∧
      ∀ name, s'.primary.get name = updates.foldl (FilterUpdate.told name) (s.primary.get name) := by
  induction updates generalizing s with
  | nil => exact ⟨s,rfl,h,fun name => rfl⟩
  | cons u updates ih =>
    obtain ⟨checked,hs1,h1⟩ := CheckingFilter.calls_store u.calls h
    obtain ⟨s2,hs2,h2,hget⟩ := @ih ⟨_,checked⟩ h1
    refine ⟨s2,by rw [foldlM_cons,handle,hs1]; exact hs2,h2,fun name => ?_⟩
    rw [hget,get_calls,foldl_cons]

/-- After any updates of control the filter holds, under every name, what the updates have said last, and a packet
is permitted exactly if a rule of one of these rulesets matches; the indexed filter never stops it, and answers the
same for the plain packets. -/
theorem updates_reach_filter (updates : List (FilterUpdate Cap)) :
    ∃ s, updates.foldlM PacketfilterUpdater.handle (.default : CheckingFilter Cap) = .ok s ∧
      (∀ name, s.primary.get name = updates.foldl (FilterUpdate.told name) none) ∧
      ∀ info caps, ∃ b, s.matches info caps = .ok b ∧
        (b = true ↔ ∃ name rules, updates.foldl (FilterUpdate.told name) none = some rules ∧
          ∃ rule ∈ rules, rule.matches info caps = true) ∧
        (BartFilter.matches s.checked info caps = .ok b ↔ s.primary.Plain info caps) := by
  obtain ⟨s,hs,hstores,hget⟩ := PacketfilterUpdater.handle_all updates (s := .default)
    ⟨⟨_,empty_rep⟩,fun name => rfl⟩
  refine ⟨s,hs,hget,fun info caps => ⟨s.primary.matches info caps,?_,?_,hstores.agree_iff info caps⟩⟩
  · obtain ⟨b,hb,-⟩ := hstores.matches_bart info caps
    rw [CheckingFilter.matches,hb]
    rfl
  · simp only [MapFilter.matches_iff,hget]
    rfl

end Tailnet.PacketFilter

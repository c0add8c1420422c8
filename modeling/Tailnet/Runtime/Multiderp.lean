import Tailnet.Lib.Run
import Tailnet.Control.Node

/-! The actor of the DERP regions. It has an entry for each region of the map, and tells the task
of the home region to stay connected. Over it, when the home region alone is told so. -/
namespace Tailnet.Runtime
open Function Result
open Control (RegionId)

structure RegionEntry where
  transportId : UInt32
  homeDerp : Bool
  deriving DecidableEq

structure Multiderp where
  derps : RegionId → Option RegionEntry
  currentHomeDerp : Option RegionId

namespace Multiderp

/-- The answer of the data plane to the request of a transport. -/
inductive Asked
  | transport (id : UInt32)
  | stopped (shuttingDown : Bool)
  deriving DecidableEq

inductive Op
  /-- A state update, with the DERP map and what the data plane answers for each region. -/
  | stateUpdate (derp : Option (List (RegionId × Asked)))
  /-- A measurement, with the regions in the order of their latencies. -/
  | latency (measurement : List RegionId)

def onStart : Multiderp := ⟨fun _ => none,none⟩

def ensureRegion (m : Multiderp) (id : RegionId) (asked : Asked) : Result Multiderp :=
  if (m.derps id).isSome then .ok m
  else match asked with
    | .transport transportId =>
      .ok { m with derps := update m.derps id (some ⟨transportId,false⟩) }
    | .stopped true => .ok m
    | .stopped false => .error (.message "dataplane has stopped but we're not shutting down")

/-- Tell the task of a region whether it is the home region. -/
def sendReplace (m : Multiderp) (id : RegionId) (home : Bool) : Result Multiderp := do
  let entry ← Result.unwrap (m.derps id)
  return { m with derps := update m.derps id (some { entry with homeDerp := home }) }

def addRegion (m : Multiderp) (region : RegionId × Asked) : Result Multiderp := do
  let m ← m.ensureRegion region.1 region.2
  if m.currentHomeDerp = some region.1 then m.sendReplace region.1 true else return m

def handleMap (m : Multiderp) : Option (List (RegionId × Asked)) → Result Multiderp
  | none => .ok m
  | some derpMap => derpMap.foldlM addRegion m

/-- Tell the old home region, if there is one, that it is not the home region any more. -/
def unmark (m : Multiderp) : Option RegionId → Result Multiderp
  | some old => m.sendReplace old false
  | none => .ok m

def handleLatency (m : Multiderp) (measurement : List RegionId) : Result Multiderp :=
  match measurement.head? with
  | none => .ok m
  | some newRegionId =>
    if m.currentHomeDerp = some newRegionId then .ok m
    else
      let old := m.currentHomeDerp
      let m := { m with currentHomeDerp := some newRegionId }
      if (m.derps newRegionId).isNone then .ok m
      else if old.any fun id => (m.derps id).isNone then .ok m
      else do
        let m ← m.unmark old
        m.sendReplace newRegionId true

def step : Op → Multiderp → Result (Unit × Multiderp)
  | .stateUpdate derp,m => do return ((),← m.handleMap derp)
  | .latency measurement,m => do return ((),← m.handleLatency measurement)

/-- The flag of a region is set if the region is the home region. -/
def HomeFlagged (m : Multiderp) : Prop :=
  ∀ id entry, m.derps id = some entry → (entry.homeDerp = true ↔ m.currentHomeDerp = some id)

/-- When a measurement changes the home region, both the old and the new one have an entry, or
neither has. -/
def KnownChange (m : Multiderp) : Op → Prop
  | .stateUpdate _ => True
  | .latency measurement => ∀ new ∈ measurement.head?, ∀ old ∈ m.currentHomeDerp, new ≠ old →
    (m.derps new = none ↔ m.derps old = none)

instance (m : Multiderp) : (op : Op) → Decidable (m.KnownChange op)
  | .stateUpdate _ => isTrue trivial
  | .latency measurement => inferInstanceAs (Decidable (∀ new ∈ measurement.head?,
    ∀ old ∈ m.currentHomeDerp, new ≠ old → (m.derps new = none ↔ m.derps old = none)))

variable {m m' : Multiderp} {id : RegionId}

theorem sendReplace_eq_ok {home : Bool}
    (h : m.sendReplace id home = .ok m') : ∃ entry, entry.homeDerp = home ∧
      m' = ⟨update m.derps id (some entry),m.currentHomeDerp⟩ := by
  rw [sendReplace,bind_eq_ok] at h
  obtain ⟨entry,-,hm'⟩ := h
  cases hm'
  exact ⟨{ entry with homeDerp := home },rfl,rfl⟩

theorem ensureRegion_cases {asked : Asked} (h : m.ensureRegion id asked = .ok m') : m' = m ∨
      ∃ entry, entry.homeDerp = false ∧
        m' = ⟨update m.derps id (some entry),m.currentHomeDerp⟩ := by
  unfold ensureRegion at h
  split at h
  · exact .inl (Except.ok.inj h).symm
  · split at h
    · cases h
      exact .inr ⟨⟨_,false⟩,rfl,rfl⟩
    · exact .inl (Except.ok.inj h).symm
    · cases h

/-- The flags are right, apart from that of a region. -/
def FlaggedApart (derps : RegionId → Option RegionEntry) (home : Option RegionId) (id : RegionId) :
    Prop :=
  ∀ id' entry, id' ≠ id → derps id' = some entry → (entry.homeDerp = true ↔ home = some id')

theorem FlaggedApart.update {derps : RegionId → Option RegionEntry} {home : Option RegionId} {entry : RegionEntry} (h : FlaggedApart derps home id)
    (hentry : entry.homeDerp = true ↔ home = some id) :
    HomeFlagged ⟨Function.update derps id (some entry),home⟩ := by
  intro id' entry' hid'
  by_cases hid : id' = id
  · subst hid
    cases (update_self id' _ derps).symm.trans hid'
    exact hentry
  · exact h id' entry' hid ((update_of_ne hid _ derps).symm.trans hid')

theorem HomeFlagged.addRegion {region : RegionId × Asked} (h : m.HomeFlagged)
    (hm' : m.addRegion region = .ok m') : m'.HomeFlagged := by
  rw [Multiderp.addRegion,bind_eq_ok] at hm'
  obtain ⟨m1,hm1,hm'⟩ := hm'
  have hapart : FlaggedApart m.derps m.currentHomeDerp region.1 := fun id entry _ => h id entry
  rcases ensureRegion_cases hm1 with rfl | ⟨entry,hentry,rfl⟩
  · split at hm'
    · rename_i hhome
      obtain ⟨entry,hentry,rfl⟩ := sendReplace_eq_ok hm'
      exact hapart.update (by rw [hentry,hhome]; simp)
    · cases hm'
      exact h
  · split at hm'
    · rename_i hhome
      obtain ⟨entry',hentry',rfl⟩ := sendReplace_eq_ok hm'
      dsimp only
      rw [update_idem]
      exact hapart.update (by rw [hentry',hhome]; simp)
    · rename_i hhome
      cases hm'
      exact hapart.update (by rw [hentry]; simpa using hhome)

theorem HomeFlagged.handleMap {derp : Option (List (RegionId × Asked))}
    (h : m.HomeFlagged) (hm' : m.handleMap derp = .ok m') : m'.HomeFlagged := by
  cases derp with
  | none =>
    cases hm'
    exact h
  | some derpMap =>
    rw [Multiderp.handleMap] at hm'
    induction derpMap generalizing m with
    | nil =>
      cases hm'
      exact h
    | cons region derpMap ih =>
      rw [List.foldlM_cons,bind_eq_ok] at hm'
      obtain ⟨m1,hm1,hm'⟩ := hm'
      exact ih (h.addRegion hm1) hm'

/-- The latency handler by the region that is measured first, when it is not the home region. -/
theorem handleLatency_cases {measurement : List RegionId} {new : RegionId}
    (hhead : measurement.head? = some new) (hne : m.currentHomeDerp ≠ some new)
    (h : m.handleLatency measurement = .ok m') :
    m' = ⟨m.derps,some new⟩ ∧
        (m.derps new = none ∨ ∃ old, m.currentHomeDerp = some old ∧ m.derps old = none) ∨
      ∃ entry derps, entry.homeDerp = true ∧ m' = ⟨update derps new (some entry),some new⟩ ∧
        (m.currentHomeDerp = none ∧ derps = m.derps ∨ ∃ old entry', m.currentHomeDerp = some old ∧
          entry'.homeDerp = false ∧ derps = update m.derps old (some entry')) := by
  rw [handleLatency,hhead] at h
  simp only [if_neg hne] at h
  split at h
  · rename_i hnew
    exact .inl ⟨(Except.ok.inj h).symm,.inl (Option.isNone_iff_eq_none.mp hnew)⟩
  · split at h
    · rename_i hold
      obtain ⟨old,hhome,hnone⟩ := Option.any_eq_true _ _ |>.mp hold
      exact .inl ⟨(Except.ok.inj h).symm,.inr ⟨old,hhome,Option.isNone_iff_eq_none.mp hnone⟩⟩
    · refine .inr ?_
      obtain ⟨m1,hm1,h⟩ := bind_eq_ok.mp h
      obtain ⟨entry,hentry,rfl⟩ := sendReplace_eq_ok h
      cases hhome : m.currentHomeDerp with
      | none =>
        rw [hhome] at hm1
        cases hm1
        exact ⟨entry,m.derps,hentry,rfl,.inl ⟨rfl,rfl⟩⟩
      | some old =>
        rw [hhome] at hm1
        obtain ⟨entry',hentry',rfl⟩ := sendReplace_eq_ok hm1
        exact ⟨entry,_,hentry,rfl,.inr ⟨old,entry',rfl,hentry',rfl⟩⟩

theorem HomeFlagged.handleLatency {measurement : List RegionId}
    (h : m.HomeFlagged) (hknown : KnownChange m (.latency measurement))
    (hm' : m.handleLatency measurement = .ok m') : m'.HomeFlagged := by
  cases hhead : measurement.head? with
  | none =>
    rw [Multiderp.handleLatency,hhead] at hm'
    cases hm'
    exact h
  | some new =>
    by_cases hne : m.currentHomeDerp = some new
    · rw [Multiderp.handleLatency,hhead] at hm'
      simp only [if_pos hne] at hm'
      cases hm'
      exact h
    -- regions apart from the old and the new one are not flagged
    have hother (id : RegionId) (entry : RegionEntry) (hentry : m.derps id = some entry)
        (hold : m.currentHomeDerp ≠ some id) (hnew : id ≠ new) :
        entry.homeDerp = true ↔ some new = some id :=
      iff_of_false (fun hf => hold ((h id entry hentry).mp hf)) (by simpa using hnew.symm)
    rcases handleLatency_cases hhead hne hm' with ⟨rfl,hmissing⟩ | ⟨entry,derps,hentry,rfl,hold⟩
    · have hnone : m.derps new = none ∧ ∀ old, m.currentHomeDerp = some old → m.derps old = none := by
        have hboth (old : RegionId) (hold : m.currentHomeDerp = some old) :
            m.derps new = none ↔ m.derps old = none :=
          hknown new hhead old hold fun he => hne (he ▸ hold)
        rcases hmissing with hnew | ⟨old,hold,hnone⟩
        · exact ⟨hnew,fun old hold => (hboth old hold).mp hnew⟩
        · refine ⟨(hboth old hold).mpr hnone,fun old' hold' => ?_⟩
          rwa [← Option.some.inj (hold.symm.trans hold')]
      intro id entry hid
      refine hother id entry hid (fun hhome => ?_) (fun hid' => ?_)
      · exact absurd (hid.symm.trans (hnone.2 id hhome)) (by simp)
      · exact absurd (hid.symm.trans (hid' ▸ hnone.1)) (by simp)
    · refine FlaggedApart.update (fun id entry' hid hentry' => ?_) (by simp [hentry])
      rcases hold with ⟨hhome,rfl⟩ | ⟨old,entry2,hhome,hentry2,rfl⟩
      · exact hother id entry' hentry' (by simp [hhome]) hid
      · by_cases heq : id = old
        · subst heq
          cases (update_self id _ m.derps).symm.trans hentry'
          exact iff_of_false (by simp [hentry2]) (by simpa using Ne.symm hid)
        · exact hother id entry' ((update_of_ne heq _ m.derps).symm.trans hentry')
            (by simpa [hhome] using Ne.symm heq) hid

/-- If every measurement that changes the home region finds both the old and the new one with an
entry, or neither, then exactly the home region is flagged in every state of a run. -/
theorem home_region_flagged (ops : List Op) (h : AtEveryCall step KnownChange ops onStart) :
    AtEveryState step HomeFlagged ops onStart := by
  refine (atEvery_of_invariant HomeFlagged (P := fun _ _ => True) (fun _ hm => hm) ?_ ops ?_ h).1
  · refine fun m op hm hknown => ⟨trivial,fun o m' hstep => ?_⟩
    cases op with
    | stateUpdate derp =>
      obtain ⟨m1,hm1,hret⟩ := bind_eq_ok.mp hstep
      cases hret
      exact hm.handleMap hm1
    | latency measurement =>
      obtain ⟨m1,hm1,hret⟩ := bind_eq_ok.mp hstep
      cases hret
      exact hm.handleLatency hknown hm1
  · intro id entry hid
    cases hid

/-- Two unknown regions, a map with the second one, and a change to a region of the map. -/
theorem home_region_flagged_known : AtEveryState step HomeFlagged
    [.latency [3],.latency [4],.stateUpdate (some [(1,.transport 1),(4,.transport 2)]),.latency [1]]
    onStart :=
  home_region_flagged _ (by decide +kernel)

/-- Region 1 stays flagged when an unknown region becomes the home region. -/
theorem old_region_stays_flagged : ¬ AtEveryState step HomeFlagged
    [.stateUpdate (some [(1,.transport 1)]),.latency [1],.latency [2]] onStart := by
  intro h
  have hlast : (runAll step [.stateUpdate (some [(1,.transport 1)]),.latency [1],.latency [2]]
      onStart).toOption.any (fun r => decide (r.2.derps 1 = some ⟨1,true⟩ ∧
        r.2.currentHomeDerp = some 2)) = true := by
    decide +kernel
  obtain ⟨r,hrun,hflag,hhome⟩ := exists_ok_of_any hlast
  have := (h.last hrun 1 _ hflag).mp rfl
  rw [hhome] at this
  cases this

end Multiderp
end Tailnet.Runtime

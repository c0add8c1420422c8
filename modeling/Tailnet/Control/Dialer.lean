import Tailnet.DynBitset
import Tailnet.Lib.Run
import Tailnet.Control.Node

/-! The dialer of the control plane, which goes through the candidates of a dial plan. Over it,
which candidate is chosen and what the marks of attempted candidates mean along a run. -/
namespace Tailnet.Control
open Nat

inductive DialMode
  | ip (ip : IpAddr)
  | ace (host : String) (ip : Option IpAddr)
  deriving DecidableEq

structure DialCandidate where
  priority : ℕ
  startDelaySec : ℕ
  timeout : ℕ
  mode : DialMode
  deriving DecidableEq

inductive DialPlan
  | useDns
  | plan (candidates : List DialCandidate)
  deriving DecidableEq

/-- What `next_dialer` returns. A planned dialer marks its index when it dials. -/
inductive ControlTcpDialer
  | useDns
  | planned (candidate : DialCandidate) (index : ℕ)
  deriving DecidableEq

structure ControlDialer where
  plan : DialPlan
  epoch : ℕ
  timestamp : ℕ
  attemptedCandidates : DynBitset 1

namespace ControlDialer

def default (now : ℕ) : ControlDialer := ⟨.useDns,0,now,.empty⟩

/-- Whether the plan changed, and the dialer with the plan. -/
def updateDialPlan (d : ControlDialer) (plan : DialPlan) (now : ℕ) : Bool × ControlDialer :=
  if d.plan = plan then (false,d)
  else (true,{ d with plan := plan, epoch := d.epoch+1, timestamp := now })

def clearAttempted (d : ControlDialer) : ControlDialer :=
  { d with attemptedCandidates := d.attemptedCandidates.clearAll }

/-- One round of the loop over the candidates. The selection holds a priority, an index and a
candidate; it is the priority of the selected candidate that is compared, not of the new one. -/
def select (d : ControlDialer) (now : ℕ) (selected : Option (ℕ × ℕ × DialCandidate))
    (entry : DialCandidate × ℕ) : Option (ℕ × ℕ × DialCandidate) :=
  if d.attemptedCandidates.test entry.2 then selected
  else if now < d.timestamp + entry.1.startDelaySec then selected
  else match entry.1.mode with
    | .ace _ _ => selected
    | .ip _ =>
      if selected.all fun s => s.1 < s.2.2.priority then some (entry.1.priority,entry.2,entry.1)
      else selected

def nextDialer (d : ControlDialer) (now : ℕ) : ControlTcpDialer :=
  match d.plan with
  | .useDns => .useDns
  | .plan candidates =>
    match candidates.zipIdx.foldl (d.select now) none with
    | some s => .planned s.2.2 s.2.1
    | none => .useDns

/-- Dial, apart from the connection that is made. -/
def dial (d : ControlDialer) : ControlTcpDialer → Result ControlDialer
  | .useDns => .ok d
  | .planned candidate index =>
    let d := { d with attemptedCandidates := d.attemptedCandidates.set index }
    match candidate.mode with
    | .ip _ => .ok d
    | .ace _ _ => .error (.message "not implemented")

def candidates (d : ControlDialer) : List DialCandidate :=
  match d.plan with
  | .useDns => []
  | .plan candidates => candidates

/-- The start delay of a candidate has elapsed and it is dialled directly. -/
def Ready (d : ControlDialer) (now : ℕ) (c : DialCandidate) : Prop :=
  d.timestamp + c.startDelaySec ≤ now ∧ ∃ ip, c.mode = .ip ip

/-- The loop does not skip a candidate at an index. -/
def Choosable (d : ControlDialer) (now : ℕ) (c : DialCandidate) (i : ℕ) : Prop :=
  d.attemptedCandidates.test i = false ∧ d.Ready now c

def Eligible (d : ControlDialer) (now : ℕ) (c : DialCandidate) (i : ℕ) : Prop :=
  d.candidates[i]? = some c ∧ d.Choosable now c i

/-- The first eligible candidate of the plan has the highest priority of the eligible ones. -/
def FirstIsBest (d : ControlDialer) (now : ℕ) : Prop :=
  ∀ c i, d.Eligible now c i → (∀ c' j, j < i → ¬ d.Eligible now c' j) →
    ∀ c' j, d.Eligible now c' j → c'.priority ≤ c.priority

variable {d : ControlDialer} {now : ℕ}

/-- A round of the loop, on a candidate that may be chosen and on one that may not. -/
theorem select_cases (d : ControlDialer) (now : ℕ) (c : DialCandidate) (i : ℕ) :
    d.Choosable now c i ∧ d.select now none (c,i) = some (c.priority,i,c) ∨
      ¬ d.Choosable now c i ∧ d.select now none (c,i) = none := by
  by_cases ht : d.attemptedCandidates.test i = true
  · exact .inr ⟨fun h => absurd (ht.symm.trans h.1) (by simp),by simp [select,ht]⟩
  · by_cases hn : now < d.timestamp + c.startDelaySec
    · exact .inr ⟨fun h => absurd h.2.1 (not_le.mpr hn),by simp [select,ht,hn]⟩
    · cases hm : c.mode with
      | ace host ip =>
        refine .inr ⟨?_,by simp [select,ht,hn,hm]⟩
        rintro ⟨-,-,ip',hip⟩
        rw [hm] at hip
        cases hip
      | ip ip => exact .inl ⟨⟨by simpa using ht,not_lt.mp hn,ip,hm⟩,by simp [select,ht,hn,hm]⟩

/-- A selection is never replaced, as its priority is not below itself. -/
theorem foldl_select_some (c : DialCandidate) (i : ℕ) (entries : List (DialCandidate × ℕ)) :
    entries.foldl (d.select now) (some (c.priority,i,c)) = some (c.priority,i,c) := by
  induction entries with
  | nil => rfl
  | cons entry entries ih =>
    have hkeep : d.select now (some (c.priority,i,c)) entry = some (c.priority,i,c) := by
      rw [select]
      split
      · rfl
      · split
        · rfl
        · split
          · rfl
          · simp
    rw [List.foldl_cons,hkeep,ih]

theorem foldl_select_none (d : ControlDialer) (now : ℕ) (cs : List DialCandidate) (k : ℕ) :
    (cs.zipIdx k).foldl (d.select now) none = none ∧
        (∀ c i, cs[i]? = some c → ¬ d.Choosable now c (k+i)) ∨
      ∃ c i, (cs.zipIdx k).foldl (d.select now) none = some (c.priority,k+i,c) ∧
        cs[i]? = some c ∧ d.Choosable now c (k+i) ∧
        ∀ c' j, j < i → cs[j]? = some c' → ¬ d.Choosable now c' (k+j) := by
  induction cs generalizing k with
  | nil => exact .inl ⟨rfl,fun c i h => by simp at h⟩
  | cons c cs ih =>
    rw [List.zipIdx_cons,List.foldl_cons]
    rcases d.select_cases now c k with ⟨hyes,hsel⟩ | ⟨hno,hsel⟩
    · exact .inr ⟨c,0,by rw [hsel,foldl_select_some,add_zero],rfl,hyes,
        fun c' j hj => absurd hj (not_lt_zero j)⟩
    · rw [hsel]
      have hshift (i : ℕ) : k+1+i = k+(i+1) := by omega
      rcases ih (k+1) with ⟨hnone,hall⟩ | ⟨c1,i,hsome,hget,hc1,hbefore⟩
      · refine .inl ⟨hnone,fun c' i hi => ?_⟩
        cases i with
        | zero =>
          cases hi
          exact hno
        | succ i => exact hshift i ▸ hall c' i hi
      · refine .inr ⟨c1,i+1,hshift i ▸ hsome,hget,hshift i ▸ hc1,fun c' j hj hget' => ?_⟩
        cases j with
        | zero =>
          cases hget'
          exact hno
        | succ j => exact hshift j ▸ hbefore c' j (by omega) hget'

theorem nextDialer_cases (d : ControlDialer) (now : ℕ) :
    d.nextDialer now = .useDns ∧ (∀ c i, ¬ d.Eligible now c i) ∨
      ∃ c i, d.nextDialer now = .planned c i ∧ d.Eligible now c i ∧
        ∀ c' j, j < i → ¬ d.Eligible now c' j := by
  unfold Eligible candidates nextDialer
  cases hp : d.plan with
  | useDns => exact .inl ⟨rfl,fun c i h => by simp at h⟩
  | plan cs =>
    rcases d.foldl_select_none now cs 0 with ⟨hnone,hall⟩ | ⟨c,i,hsome,hget,hc,hbefore⟩
    · simp only [zero_add] at hall
      exact .inl ⟨by simp only [hnone],fun c i h => hall c i h.1 h.2⟩
    · simp only [zero_add] at hsome hc hbefore
      exact .inr ⟨c,i,by simp only [hsome],⟨hget,hc⟩,fun c' j hj h => hbefore c' j hj h.1 h.2⟩

end ControlDialer

def direct (priority : ℕ) (addr : IpAddr) : DialCandidate := ⟨priority,0,0,.ip addr⟩

namespace Dialling

inductive Op
  | updateDialPlan (plan : DialPlan) (now : ℕ)
  | nextDialer (now : ℕ)
  | dial (now : ℕ)
  | clearAttempted

inductive Event
  | installed
  | dialled (index : ℕ)
  | cleared

/-- A dialer with its history, the latest event first. -/
structure State where
  dialer : ControlDialer
  events : List Event

def start (now : ℕ) : State := ⟨.default now,[]⟩

/-- The indices that have been dialled since a plan was installed or the marks were cleared. -/
def dialledSince : List Event → List ℕ
  | [] => []
  | .dialled index::events => index::dialledSince events
  | .installed::_ => []
  | .cleared::_ => []

def record : ControlTcpDialer → List Event → List Event
  | .useDns,events => events
  | .planned _ index,events => .dialled index::events

def step : Op → State → Result (ControlTcpDialer × State)
  | .updateDialPlan plan now,s =>
    let changed := s.dialer.updateDialPlan plan now
    .ok (.useDns,⟨changed.2,if changed.1 then .installed::s.events else s.events⟩)
  | .nextDialer now,s => .ok (s.dialer.nextDialer now,s)
  | .dial now,s => do
    let next := s.dialer.nextDialer now
    let d ← s.dialer.dial next
    return (next,⟨d,record next s.events⟩)
  | .clearAttempted,s => .ok (.useDns,⟨s.dialer.clearAttempted,.cleared::s.events⟩)

/-- No candidate of a new plan has the index of an attempted one. -/
def CleanInstall (s : State) : Op → Prop
  | .updateDialPlan plan now => s.dialer.plan ≠ plan →
    ∀ i < (s.dialer.updateDialPlan plan now).2.candidates.length,
      s.dialer.attemptedCandidates.test i = false
  | _ => True

instance (s : State) : (op : Op) → Decidable (CleanInstall s op)
  | .updateDialPlan plan now => inferInstanceAs (Decidable (s.dialer.plan ≠ plan →
    ∀ i < (s.dialer.updateDialPlan plan now).2.candidates.length,
      s.dialer.attemptedCandidates.test i = false))
  | .nextDialer _ => isTrue trivial
  | .dial _ => isTrue trivial
  | .clearAttempted => isTrue trivial

/-- Only candidates that were dialled are marked. -/
def Honest (s : State) : Prop :=
  ∀ i < s.dialer.candidates.length, s.dialer.attemptedCandidates.test i = true →
    i ∈ dialledSince s.events

instance (s : State) : Decidable (Honest s) :=
  inferInstanceAs (Decidable (∀ i < s.dialer.candidates.length,
    s.dialer.attemptedCandidates.test i = true → i ∈ dialledSince s.events))

/-- Dialling the next dialer marks a candidate that is in the plan and not marked yet. -/
theorem step_dial (s : State) (now : ℕ) :
    step (.dial now) s = .ok (.useDns,s) ∨
      ∃ c i, s.dialer.Eligible now c i ∧ step (.dial now) s = .ok (.planned c i,
        ⟨{ s.dialer with attemptedCandidates := s.dialer.attemptedCandidates.set i },
          .dialled i::s.events⟩) := by
  rcases s.dialer.nextDialer_cases now with ⟨hdns,-⟩ | ⟨c,i,hnext,he,-⟩
  · refine .inl ?_
    rw [step,hdns]
    rfl
  · have ⟨_,_,_,ip,hip⟩ := he
    refine .inr ⟨c,i,he,?_⟩
    simp only [step,hnext,ControlDialer.dial,hip]
    rfl

theorem step_ok (op : Op) (s : State) : ∃ o s', step op s = .ok (o,s') := by
  cases op with
  | updateDialPlan plan now => exact ⟨_,_,rfl⟩
  | nextDialer now => exact ⟨_,_,rfl⟩
  | clearAttempted => exact ⟨_,_,rfl⟩
  | dial now =>
    rcases step_dial s now with h | ⟨c,i,-,h⟩
    · exact ⟨_,_,h⟩
    · exact ⟨_,_,h⟩

theorem Honest.step {s s' : State} {op : Op} {o : ControlTcpDialer} (h : Honest s)
    (hclean : CleanInstall s op) (hs' : Dialling.step op s = .ok (o,s')) : Honest s' := by
  cases op with
  | updateDialPlan plan now =>
    by_cases hp : s.dialer.plan = plan
    · simp only [Dialling.step,ControlDialer.updateDialPlan,if_pos hp] at hs'
      cases hs'
      exact h
    · have hfree := hclean hp
      simp only [ControlDialer.updateDialPlan,if_neg hp] at hfree
      simp only [Dialling.step,ControlDialer.updateDialPlan,if_neg hp] at hs'
      cases hs'
      intro i hi ht
      exact absurd (ht.symm.trans (hfree i hi)) (by simp)
  | nextDialer now =>
    cases hs'
    exact h
  | dial now =>
    rcases step_dial s now with hstep | ⟨c,i,-,hstep⟩
    · cases hstep.symm.trans hs'
      exact h
    · cases hstep.symm.trans hs'
      intro j hj ht
      rcases DynBitset.mem_set.mp (DynBitset.mem_toSet.mpr ht) with rfl | hold
      · exact List.mem_cons_self
      · exact List.mem_cons_of_mem i (h j hj (DynBitset.mem_toSet.mp hold))
  | clearAttempted =>
    cases hs'
    intro i _ ht
    have := DynBitset.mem_toSet.mpr ht
    simp [ControlDialer.clearAttempted] at this

/-- An honest dialer falls back to system DNS when it has dialled all candidates that are ready. -/
theorem Honest.fallback {s : State} (h : Honest s) {now : ℕ}
    (hdns : s.dialer.nextDialer now = .useDns) {c : DialCandidate} {i : ℕ}
    (hget : s.dialer.candidates[i]? = some c) (hready : s.dialer.Ready now c) :
    i ∈ dialledSince s.events := by
  rcases s.dialer.nextDialer_cases now with ⟨-,hno⟩ | ⟨c',j,hnext,-⟩
  · apply h i (List.getElem?_eq_some_iff.mp hget).1
    by_contra ht
    exact hno c i ⟨hget,by simpa using ht,hready⟩
  · rw [hnext] at hdns
    cases hdns

/-- If no new plan is installed over marks of an old one, only candidates that were dialled since
are skipped as attempted, and the fallback comes after all candidates that are ready. -/
theorem attempts_of_current_plan (now : ℕ) (ops : List Op)
    (h : AtEveryCall step CleanInstall ops (start now)) :
    (∃ os s', runAll step ops (start now) = .ok (os,s')) ∧
      AtEveryState step (fun s => Honest s ∧ ∀ now, s.dialer.nextDialer now = .useDns →
        ∀ c i, s.dialer.candidates[i]? = some c → s.dialer.Ready now c → i ∈ dialledSince s.events)
        ops (start now) := by
  constructor
  · have hstep : ∀ op s, True → ∃ o s', step op s = .ok (o,s') ∧ True := by
      intro op s _
      obtain ⟨o,s',hs'⟩ := step_ok op s
      exact ⟨o,s',hs',trivial⟩
    obtain ⟨os,s',hrun,-⟩ := runAll_total hstep ops (s := start now) trivial
    exact ⟨os,s',hrun⟩
  · refine (atEvery_of_invariant Honest (P := fun _ _ => True)
      (fun s hs => ⟨hs,fun now hdns c i => hs.fallback hdns⟩)
      (fun s op hs hclean => ⟨trivial,fun o s' hs' => hs.step hclean hs'⟩) ops ?_ h).1
    intro i hi
    exact absurd hi (not_lt_zero i)

/-- The marks are cleared before a new plan is installed. -/
theorem attempts_cleared : let ops : List Op :=
      [.updateDialPlan (.plan [direct 1 Node.anyAddr]) 0,.dial 0,.clearAttempted,
        .updateDialPlan (.plan [direct 2 Node.anyAddr]) 0,.dial 0]
    ∃ os s', runAll step ops (start 0) = .ok (os,s') :=
  (attempts_of_current_plan 0 _ (by decide +kernel)).1

/-- The candidate of a second plan is skipped, as it has the index of one that was dialled. -/
theorem new_candidate_skipped :
    ¬ AtEveryState step Honest [.updateDialPlan (.plan [direct 1 Node.anyAddr]) 0,.dial 0,
      .updateDialPlan (.plan [direct 2 Node.anyAddr]) 0] (start 0) := by
  decide +kernel

end Dialling
end Tailnet.Control

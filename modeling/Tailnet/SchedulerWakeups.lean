import Tailnet.Lib.Stabbing
import Tailnet.SchedulerRuns

/-! When to call a scheduler. The time of the next dispatch is the least end of the range of a
pending event; a caller that dispatches exactly then is on time for every event, and stabs the
ranges of the events with the smallest number of calls. -/
namespace Tailnet
open Scheduler List

variable {E : Type}

namespace SharedScheduler

def pending (s : SharedScheduler E) : List (FutureEvent E) := slice s.events s.refs

def nextDispatchRange (s : SharedScheduler E) : Result (Option TimeRange) :=
  Scheduler.nextDispatchRange ⟨s.pending,s.refs.fresh⟩

def nextDispatch (s : SharedScheduler E) : Result (Option Instant) :=
  Scheduler.nextDispatch ⟨s.pending,s.refs.fresh⟩

/-- The events that an iterator yields until it is exhausted. -/
def collect (s : SharedScheduler E) : List ℕ → Result (List (ℕ × E) × SharedScheduler E)
  | [] => .ok ([],s)
  | event::iter => do
    let r ← s.next (event::iter)
    let (events,s) ← collect r.2.2 iter
    return (r.1.toList ++ events,s)

/-- A dispatch whose iterator is run to its end. -/
def wake (now : Instant) (s : SharedScheduler E) : Result (List (ℕ × E) × SharedScheduler E) :=
  let (iter,s) := s.dispatch now
  s.collect iter

/-- Dispatch exactly at the next time of a dispatch, until nothing is pending. -/
def wakeups : ℕ → SharedScheduler E → Result (List (Instant × List (ℕ × E)) × SharedScheduler E)
  | 0,s => do
    match ← s.nextDispatch with
    | none => return ([],s)
    | some _ => .error .divergence
  | fuel+1,s => do
    match ← s.nextDispatch with
    | none => return ([],s)
    | some now =>
      let (events,s) ← s.wake now
      let (calls,s) ← wakeups fuel s
      return ((now,events)::calls,s)

/-- The scheduler has the only strong reference to each of the pending events. -/
structure Holds (s : SharedScheduler E) (l : List (FutureEvent E)) : Prop where
  sorted : Sorted l
  events : s.events = l.map FutureEvent.address
  cells : ∀ e ∈ l, (s.refs.cells e.address).value = some (e.when,e.what) ∧
    (s.refs.cells e.address).strong = 1

variable {s : SharedScheduler E} {l : List (FutureEvent E)} {now : Instant}

theorem Holds.pending_eq (h : Holds s l) : s.pending = l := by
  rw [pending,h.events]
  exact slice_eq fun e he => (h.cells e he).1

theorem collect_eq {due : List (FutureEvent E)} (honce : (due.map FutureEvent.address).Nodup)
    (hcells : ∀ e ∈ due, (s.refs.cells e.address).value = some (e.when,e.what) ∧
      (s.refs.cells e.address).strong = 1) :
    s.collect (due.map FutureEvent.address) = .ok (due.map fun e => (e.address,e.what),
      { s with refs := s.refs.dropAll (due.map FutureEvent.address) }) := by
  induction due generalizing s with
  | nil => rfl
  | cons e due ih =>
    rw [map_cons] at honce ⊢
    obtain ⟨hnot,hrest⟩ := nodup_cons.mp honce
    obtain ⟨hvalue,hstrong⟩ := hcells e mem_cons_self
    have hnext : s.next (e.address::due.map FutureEvent.address) =
        .ok (some (e.address,e.what),due.map FutureEvent.address,
          { s with refs := s.refs.dropStrong e.address }) := by
      simp only [next,Refs.intoInner,hstrong,if_true,hvalue]
      rfl
    have hothers : ∀ f ∈ due, ((s.refs.dropStrong e.address).cells f.address).value =
        some (f.when,f.what) ∧ ((s.refs.dropStrong e.address).cells f.address).strong = 1 := by
      intro f hf
      have hne : f.address ≠ e.address := fun heq => hnot (heq ▸ mem_map_of_mem hf)
      rw [Refs.dropStrong,Refs.onCell_cells,if_neg hne]
      exact hcells f (mem_cons_of_mem e hf)
    have hcollect := ih (s := { s with refs := s.refs.dropStrong e.address }) hrest hothers
    rw [collect,hnext]
    simp only [Result.bind_of_ok,hcollect]
    rfl

/-- A dispatch takes exactly the events that start at `now` or before. -/
theorem Holds.wake (h : Holds s l) (now : Instant) : ∃ events s', s.wake now = .ok (events,s') ∧
    Holds s' (l.filter fun e => now < e.when.start) ∧
    ∀ x, x ∈ events ↔ ∃ e ∈ l, e.when.start ≤ now ∧ x = (e.address,e.what) := by
  obtain ⟨htake,hdrop⟩ := h.sorted.take_partitionPoint now
  let due := (l.filter fun e => e.when.start ≤ now).reverse
  have hdispatch : s.dispatch now = (due.map FutureEvent.address,
      { s with events := (l.filter fun e => now < e.when.start).map FutureEvent.address }) := by
    have hslice : slice s.events s.refs = l := h.pending_eq
    simp only [dispatch,hslice,due]
    rw [h.events,← map_drop,← map_take,htake,hdrop,map_reverse]
  have hdue : ∀ e, e ∈ due ↔ e ∈ l ∧ e.when.start ≤ now := by simp [due]
  have honce : (due.map FutureEvent.address).Nodup := by
    rw [map_reverse,nodup_reverse]
    exact h.sorted.addresses.sublist (filter_sublist.map _)
  have hcollect := collect_eq (s := { s with events :=
    (l.filter fun e => now < e.when.start).map FutureEvent.address }) honce
    fun e he => h.cells e ((hdue e).mp he).1
  refine ⟨_,_,by rw [SharedScheduler.wake,hdispatch]; exact hcollect,
    ⟨h.sorted.sublist filter_sublist,rfl,fun e he => ?_⟩,fun x => ?_⟩
  · obtain ⟨hmem,hlate⟩ := mem_filter.mp he
    have hnot : e.address ∉ due.map FutureEvent.address := by
      intro hin
      obtain ⟨f,hf,heq⟩ := mem_map.mp hin
      obtain ⟨hfl,hstart⟩ := (hdue f).mp hf
      rw [h.sorted.eq_of_address hfl hmem heq] at hstart
      exact absurd (of_decide_eq_true hlate) (not_lt.mpr hstart)
    simp only [Refs.dropAll_cells honce,if_neg hnot]
    exact h.cells e hmem
  · simp only [mem_map,hdue,and_assoc,eq_comm]

/-- The calls dispatch every event of a list while its range lasts. -/
def Serves (l : List (FutureEvent E)) (calls : List (Instant × List (ℕ × E))) : Prop :=
  ∀ e ∈ l, ∃ call ∈ calls, e.when.contains call.1 ∧ (e.address,e.what) ∈ call.2

theorem Holds.nextDispatch_nil (h : Holds s []) : s.nextDispatch = .ok none := by
  rw [nextDispatch,h.pending_eq]
  rfl

/-- The time of the next dispatch is the least end of a range. -/
theorem Holds.nextDispatch_least (h : Holds s l) (hne : l ≠ []) :
    ∃ first ∈ l, s.nextDispatch = .ok (some first.when.stop) ∧
      ∀ e ∈ l, first.when.stop ≤ e.when.stop := by
  obtain ⟨range,hrange,-,⟨first,hfirst,hstop⟩,hleast⟩ :=
    Sorted.nextDispatchRange_least (s := ⟨l,s.refs.fresh⟩) h.sorted hne
  refine ⟨first,hfirst,?_,fun e he => hstop ▸ (hleast e he).2⟩
  rw [nextDispatch,h.pending_eq,Scheduler.nextDispatch,hrange,← hstop]
  rfl

/-- The calls dispatch nothing but events of the list, while their ranges last. -/
def ServesOnly (l : List (FutureEvent E)) (calls : List (Instant × List (ℕ × E))) : Prop :=
  ∀ call ∈ calls, ∀ x ∈ call.2, ∃ e ∈ l, e.when.contains call.1 ∧ x = (e.address,e.what)

theorem Holds.wakeups_nil (h : Holds s []) (fuel : ℕ) : s.wakeups fuel = .ok ([],s) := by
  cases fuel with
  | zero =>
    rw [SharedScheduler.wakeups,h.nextDispatch_nil]
    rfl
  | succ fuel =>
    rw [SharedScheduler.wakeups,h.nextDispatch_nil]
    rfl

theorem serves_nil : Serves ([] : List (FutureEvent E)) [] ∧ ServesOnly ([] : List (FutureEvent E)) [] :=
  ⟨(fun _ h => by cases h),fun _ h => by cases h⟩

theorem contains_iff {r : TimeRange} {t : Instant} : r.contains t ↔ r.start ≤ t ∧ t ≤ r.stop := by
  simp [TimeRange.contains]

/-- Dispatching exactly at the next time is on time for all events, and makes the greedy choice. -/
theorem Holds.wakeups (h : Holds s l) {fuel : ℕ} (hfuel : l.length ≤ fuel) :
    ∃ calls s', s.wakeups fuel = .ok (calls,s') ∧ s'.events = [] ∧
      GreedyStabs (fun e : FutureEvent E => e.when.start) (fun e => e.when.stop) l
        (calls.map Prod.fst) ∧ Serves l calls ∧ ServesOnly l calls := by
  induction fuel generalizing s l with
  | zero =>
    obtain rfl := length_eq_zero_iff.mp (Nat.le_zero.mp hfuel)
    exact ⟨[],s,h.wakeups_nil 0,h.events,.nil,serves_nil⟩
  | succ fuel ih =>
    by_cases hne : l = []
    · subst hne
      exact ⟨[],s,h.wakeups_nil _,h.events,.nil,serves_nil⟩
    obtain ⟨first,hfirst,hnext,hleast⟩ := h.nextDispatch_least hne
    obtain ⟨events,s1,hwake,h1,hevents⟩ := h.wake first.when.stop
    have hshort : (l.filter fun e => first.when.stop < e.when.start).length < l.length := by
      refine length_filter_lt_length_iff_exists.mpr ⟨first,hfirst,?_⟩
      simpa using first.when.start_le_stop
    obtain ⟨calls,s2,hcalls,hnone,hgreedy,hserves,honly⟩ := ih h1 (by omega)
    refine ⟨(first.when.stop,events)::calls,s2,?_,hnone,.cons hfirst hleast hgreedy,?_,?_⟩
    · rw [SharedScheduler.wakeups,hnext]
      simp only [Result.bind_of_ok,hwake,hcalls,Result.pure_eq_ok]
    · intro e he
      by_cases hlate : first.when.stop < e.when.start
      · obtain ⟨call,hcall,hin⟩ := hserves e (mem_filter.mpr ⟨he,by simpa using hlate⟩)
        exact ⟨call,mem_cons_of_mem _ hcall,hin⟩
      · exact ⟨_,mem_cons_self,contains_iff.mpr ⟨not_lt.mp hlate,hleast e he⟩,
          (hevents _).mpr ⟨e,he,not_lt.mp hlate,rfl⟩⟩
    · intro call hcall x hx
      rcases mem_cons.mp hcall with rfl | hcall
      · obtain ⟨e,he,hstart,rfl⟩ := (hevents x).mp hx
        exact ⟨e,he,contains_iff.mpr ⟨hstart,hleast e he⟩,rfl⟩
      · obtain ⟨e,he,hin⟩ := honly call hcall x hx
        exact ⟨e,(mem_filter.mp he).1,hin⟩

end SharedScheduler

/-- In every state that a user reaches, the scheduler has the only strong references. -/
theorem Follows.holds {s : SchedulerUser E} {p : SchedulerSpec E} (h : Follows s p) :
    s.scheduler.Holds s.scheduler.pending := by
  obtain ⟨l,hl⟩ := h.events
  have hholds : s.scheduler.Holds l := by
    refine ⟨hl.1,hl.2.1,fun e he => ?_⟩
    have hlife := hl.mem.mp he
    refine ⟨h.value hlife,?_⟩
    rw [h.cells,hlife]
    rfl
  rwa [hholds.pending_eq]

/-- The next range goes from the least start to the least end of a pending event. Dispatching
exactly at its end until nothing is pending serves every event in its range, with no more calls
than any other times at which all events are served. -/
theorem wakeups_on_time (ops : List (SchedulerUser.Op E)) : ∃ replies s,
    runAll SchedulerUser.step ops SchedulerUser.start = .ok (replies,s) ∧
    let pending := s.scheduler.pending
    (pending = [] → s.scheduler.nextDispatchRange = .ok none) ∧
    (pending ≠ [] → ∃ range, s.scheduler.nextDispatchRange = .ok (some range) ∧
      IsLeast {t | ∃ e ∈ pending, t = e.when.start} range.start ∧
      IsLeast {t | ∃ e ∈ pending, t = e.when.stop} range.stop) ∧
    ∃ calls s', s.scheduler.wakeups pending.length = .ok (calls,s') ∧ s'.pending = [] ∧
      SharedScheduler.Serves pending calls ∧ SharedScheduler.ServesOnly pending calls ∧
      ∀ times batches s', runAll SharedScheduler.wake times s.scheduler = .ok (batches,s') →
        SharedScheduler.Serves pending (times.zip batches) → calls.length ≤ times.length := by
  obtain ⟨replies,s,p,hrun,_,hfollows⟩ : ∃ replies s p,
      runAll SchedulerUser.step ops SchedulerUser.start = .ok (replies,s) ∧
      RunsTo SchedulerSpec.Step ops replies SchedulerSpec.start p ∧ Follows s p :=
    runAll_simulates Follows (fun op s p h => h.simulates op) ops Follows.start
  have hholds := hfollows.holds
  refine ⟨replies,s,hrun,fun hnil => ?_,fun hne => ?_,?_⟩
  · rw [SharedScheduler.nextDispatchRange,hnil]
    rfl
  · obtain ⟨range,hrange,hstart,hstop,hleast⟩ :=
      Sorted.nextDispatchRange_least (s := ⟨_,s.scheduler.refs.fresh⟩) hholds.sorted hne
    refine ⟨range,hrange,⟨hstart,?_⟩,⟨hstop,?_⟩⟩
    · rintro _ ⟨e,he,rfl⟩
      exact (hleast e he).1
    · rintro _ ⟨e,he,rfl⟩
      exact (hleast e he).2
  · obtain ⟨calls,s',hcalls,hnone,hgreedy,hserves,honly⟩ := hholds.wakeups le_rfl
    refine ⟨calls,s',hcalls,?_,hserves,honly,fun times batches s2 hserve hall => ?_⟩
    · rw [SharedScheduler.pending,hnone]
      rfl
    · rw [← length_map Prod.fst]
      refine hgreedy.minimal fun e he => ?_
      obtain ⟨call,hcall,hin,-⟩ := hall e he
      exact ⟨call.1,(of_mem_zip hcall).1,SharedScheduler.contains_iff.mp hin⟩

end Tailnet

import Tailnet.Lib.Refs
import Tailnet.Lib.Run
import Tailnet.Scheduler

/-! The scheduler with its shared events. An event is referenced strongly by the scheduler or
by an iterator over dispatched events, weakly by its handle, and strongly once more while a
method of the handle runs. These are all references, so that an event can be changed and
moved out where the code expects it. -/
namespace Tailnet
open Scheduler Function List Refs

section
variable {E : Type}

/-- The references to the events of a scheduler, and the events behind them. -/
structure SharedScheduler (E : Type) where
  events : List ℕ
  refs : Refs (TimeRange × E)

namespace SharedScheduler

/-- The events that references lead to. -/
def slice (events : List ℕ) (refs : Refs (TimeRange × E)) : List (FutureEvent E) :=
  events.filterMap fun a => (refs.cells a).value.map fun v => ⟨v.1,v.2,a⟩

/-- `find` for the event that a reference leads to. -/
def locate (events : List ℕ) (refs : Refs (TimeRange × E)) (a : ℕ) : Option ℕ :=
  (refs.cells a).value.bind fun v => find (slice events refs) ⟨v.1,v.2,a⟩

def default : SharedScheduler E := ⟨[],Refs.empty⟩

variable (s : SharedScheduler E)

def add (when : TimeRange) (what : E) : Handle × SharedScheduler E :=
  let (event,refs) := s.refs.alloc (when,what)
  let refs := refs.downgrade event
  let idx := partitionPoint (slice s.events refs) when.start
  (⟨event⟩,⟨s.events.insertIdx idx event,refs⟩)

def clear : SharedScheduler E := ⟨[],s.refs.dropAll s.events⟩

/-- The references that the iterator over the due events owns. -/
def dispatch (now : Instant) : List ℕ × SharedScheduler E :=
  let idx := partitionPoint (slice s.events s.refs) now
  ((s.events.drop idx).reverse,{ s with events := s.events.take idx })

/-- The next event of an iterator, which is moved out of its cell. -/
def next : List ℕ → Result (Option (ℕ × E) × List ℕ × SharedScheduler E)
  | [] => .ok (none,[],s)
  | event::iter => do
    let (value,refs) := s.refs.intoInner event
    let v ← Result.unwrap value
    return (some (event,v.2),iter,{ s with refs })

/-- Cancel the event of a handle, which is used up. -/
def cancel (handle : Handle) : SharedScheduler E :=
  let event := handle.address
  match s.refs.upgrade event with
  | none => { s with refs := s.refs.dropWeak event }
  | some refs =>
    match locate s.events refs event with
    | none => { s with refs := (refs.dropStrong event).dropWeak event }
    | some idx =>
      ⟨s.events.eraseIdx idx,((refs.dropStrong event).dropStrong event).dropWeak event⟩

/-- Move the event of a handle, which is used up, and return a new handle. -/
def reschedule (handle : Handle) (when : TimeRange) :
    Result (Option Handle × SharedScheduler E) :=
  let event := handle.address
  match s.refs.upgrade event with
  | none => .ok (none,{ s with refs := s.refs.dropWeak event })
  | some refs =>
    let refs := refs.dropWeak event
    match locate s.events refs event with
    | none => .ok (none,{ s with refs := refs.dropStrong event })
    | some idx => do
      let events := s.events.eraseIdx idx
      let refs := refs.dropStrong event
      let v ← Result.unwrap (refs.getMut event)
      let refs := (refs.set event (when,v.2)).downgrade event
      let idx := partitionPoint (slice events refs) when.start
      return (some ⟨event⟩,⟨events.insertIdx idx event,refs⟩)

end SharedScheduler

/-- A user of a scheduler, with the handles and iterators it owns. -/
structure SchedulerUser (E : Type) where
  scheduler : SharedScheduler E
  handles : ℕ → Bool
  iterators : ℕ → List ℕ
  /-- the number of iterators so far -/
  dispatched : ℕ

namespace SchedulerUser

/-- Calls on a scheduler, on the handle of an event, and on the iterator of a dispatch. -/
inductive Op (E : Type)
  | add (when : TimeRange) (what : E)
  | cancel (event : ℕ)
  | reschedule (event : ℕ) (when : TimeRange)
  | dropHandle (event : ℕ)
  | clear
  | dispatch (now : Instant)
  | next (iterator : ℕ)
  | dropIterator (iterator : ℕ)

inductive Reply (E : Type)
  | added (event : ℕ)
  | done
  | rescheduled (pending : Bool)
  | iterator (iterator : ℕ)
  | next (event : Option (ℕ × E))
  /-- the user does not own a handle any more, and there is no call -/
  | noHandle

def start : SchedulerUser E := ⟨.default,fun _ => false,fun _ => [],0⟩

def step : Op E → SchedulerUser E → Result (Reply E × SchedulerUser E)
  | .add when what,s =>
    let (handle,scheduler) := s.scheduler.add when what
    .ok (.added handle.address,{ s with
      scheduler, handles := update s.handles handle.address true })
  | .cancel event,s =>
    if s.handles event then
      .ok (.done,{ s with
        scheduler := s.scheduler.cancel ⟨event⟩, handles := update s.handles event false })
    else .ok (.noHandle,s)
  | .reschedule event when,s =>
    if s.handles event then do
      let (handle,scheduler) ← s.scheduler.reschedule ⟨event⟩ when
      return (.rescheduled handle.isSome,{ s with
        scheduler, handles := update s.handles event handle.isSome })
    else .ok (.noHandle,s)
  | .dropHandle event,s =>
    if s.handles event then
      .ok (.done,{ s with
        scheduler := { s.scheduler with refs := s.scheduler.refs.dropWeak event },
        handles := update s.handles event false })
    else .ok (.noHandle,s)
  | .clear,s => .ok (.done,{ s with scheduler := s.scheduler.clear })
  | .dispatch now,s =>
    let (iter,scheduler) := s.scheduler.dispatch now
    .ok (.iterator s.dispatched,{ s with
      scheduler, iterators := update s.iterators s.dispatched iter,
      dispatched := s.dispatched+1 })
  | .next i,s => do
    let (event,iter,scheduler) ← s.scheduler.next (s.iterators i)
    return (.next event,{ s with scheduler, iterators := update s.iterators i iter })
  | .dropIterator i,s =>
    .ok (.done,{ s with
      scheduler := { s.scheduler with refs := s.scheduler.refs.dropAll (s.iterators i) },
      iterators := update s.iterators i [] })

end SchedulerUser
/-- The life of an event: it is pending until it is dispatched, cancelled or cleared; a
dispatched event is due until the iterator yields or drops it. -/
inductive Life (E : Type)
  | absent
  | pending (event : TimeRange × E)
  | due (iterator : ℕ) (event : TimeRange × E)
  | yielded
  | dropped

namespace Life

def isPending : Life E → Bool
  | pending _ => true
  | _ => false

def cancel : Life E → Life E
  | pending _ => dropped
  | life => life

/-- Only the range of a pending event changes. -/
def move (when : TimeRange) : Life E → Life E
  | pending event => pending (when,event.2)
  | life => life

def dispatch (now : Instant) (iterator : ℕ) : Life E → Life E
  | pending event => if event.1.start ≤ now then due iterator event else pending event
  | life => life

def dropDue (iterator : ℕ) : Life E → Life E
  | due i event => if i = iterator then dropped else due i event
  | life => life

/-- The references to an event, given whether its handle is still owned. -/
def cell : Life E → Bool → Cell (TimeRange × E)
  | pending event,handle => ⟨some event,1,handle.toNat⟩
  | due _ event,handle => ⟨some event,1,handle.toNat⟩
  | _,handle => ⟨none,0,handle.toNat⟩

/-- An event that nothing but its handle refers to. -/
structure Gone (life : Life E) : Prop where
  cell : ∀ handle, life.cell handle = ⟨none,0,handle.toNat⟩
  cancel : life.cancel = life
  move : ∀ when, life.move when = life
  isPending : life.isPending = false

theorem cancel_ne_pending (life : Life E) (v : TimeRange × E) : life.cancel ≠ pending v := by
  cases life <;> simp [cancel]

variable {life : Life E}

theorem cancel_eq_due {i : ℕ} {v : TimeRange × E} : life.cancel = due i v ↔ life = due i v := by
  cases life <;> simp [cancel]

theorem move_eq_due {when : TimeRange} {i : ℕ} {v : TimeRange × E} :
    life.move when = due i v ↔ life = due i v := by
  cases life <;> simp [move]

theorem dispatch_eq_pending {now : Instant} {i : ℕ} {v : TimeRange × E} :
    life.dispatch now i = pending v ↔ life = pending v ∧ now < v.1.start := by
  cases life with
  | pending event =>
    rw [dispatch]
    split
    · rename_i hle
      simp only [reduceCtorEq,pending.injEq,false_iff,not_and,not_lt]
      rintro rfl
      exact hle
    · rename_i hlt
      simp only [pending.injEq]
      exact ⟨fun heq => ⟨heq,heq ▸ not_le.mp hlt⟩,And.left⟩
  | _ => simp [dispatch]

theorem dispatch_eq_due {now : Instant} {i j : ℕ} {v : TimeRange × E} :
    life.dispatch now i = due j v ↔
      life = due j v ∨ j = i ∧ life = pending v ∧ v.1.start ≤ now := by
  cases life with
  | pending event =>
    rw [dispatch]
    split
    · rename_i hle
      simp only [due.injEq,reduceCtorEq,pending.injEq,false_or]
      exact ⟨fun ⟨hi,heq⟩ => ⟨hi.symm,heq,heq ▸ hle⟩,fun ⟨hi,heq,_⟩ => ⟨hi.symm,heq⟩⟩
    · rename_i hlt
      simp only [reduceCtorEq,pending.injEq,false_or,false_iff,not_and,not_le]
      rintro _ rfl
      exact not_le.mp hlt
  | _ => simp [dispatch]

theorem eq_yielded (life : Life E) :
    (life.cancel = yielded ↔ life = yielded) ∧
    (∀ when, life.move when = yielded ↔ life = yielded) ∧
    (∀ now i, life.dispatch now i = yielded ↔ life = yielded) ∧
    ∀ i, life.dropDue i = yielded ↔ life = yielded := by
  cases life with
  | pending event =>
    refine ⟨by simp [cancel],fun when => by simp [move],fun now i => ?_,fun i => by simp [dropDue]⟩
    rw [dispatch]
    split <;> simp
  | due j event =>
    refine ⟨by simp [cancel],fun when => by simp [move],fun now i => by simp [dispatch],fun i => ?_⟩
    rw [dropDue]
    split <;> simp
  | _ => simp [cancel,move,dispatch,dropDue]

theorem cell_dispatch (life : Life E) (now : Instant) (i : ℕ) (handle : Bool) :
    (life.dispatch now i).cell handle = life.cell handle := by
  cases life with
  | pending event =>
    rw [dispatch]
    split <;> rfl
  | _ => rfl

theorem dropDue_eq_pending {i : ℕ} {v : TimeRange × E} :
    life.dropDue i = pending v ↔ life = pending v := by
  cases life with
  | due j event =>
    rw [dropDue]
    split <;> simp
  | _ => simp [dropDue]

theorem dropDue_eq_due {i j : ℕ} {v : TimeRange × E} :
    life.dropDue i = due j v ↔ life = due j v ∧ j ≠ i := by
  cases life with
  | due k event =>
    rw [dropDue]
    by_cases hk : k = i
    · rw [if_pos hk]
      simp only [reduceCtorEq,due.injEq,false_iff,not_and,not_not]
      exact fun heq => heq.1 ▸ hk
    · rw [if_neg hk]
      simp only [due.injEq]
      exact ⟨fun heq => ⟨heq,heq.1 ▸ hk⟩,And.left⟩
  | _ => simp [dropDue]

theorem cases (life : Life E) :
    (∃ v, life = pending v) ∨ (∃ i v, life = due i v) ∨ life.Gone := by
  cases life with
  | pending v => exact .inl ⟨v,rfl⟩
  | due i v => exact .inr (.inl ⟨i,v,rfl⟩)
  | _ => exact .inr (.inr ⟨fun _ => rfl,rfl,fun _ => rfl,rfl⟩)

end Life

/-- The lives of the events, and what the user of the scheduler owns. -/
structure SchedulerSpec (E : Type) where
  life : ℕ → Life E
  handles : ℕ → Bool
  iterators : ℕ → List ℕ
  added : ℕ
  dispatched : ℕ

namespace SchedulerSpec
open SchedulerUser

def start : SchedulerSpec E := ⟨fun _ => .absent,fun _ => false,fun _ => [],0,0⟩

/-- What calls mean for the lives of the events. -/
inductive Step : Op E → Reply E → SchedulerSpec E → SchedulerSpec E → Prop
  | add {p : SchedulerSpec E} (when : TimeRange) (what : E) :
    Step (.add when what) (.added p.added) p { p with
      life := update p.life p.added (.pending (when,what))
      handles := update p.handles p.added true, added := p.added+1 }
  | cancel {p : SchedulerSpec E} {event : ℕ} (owned : p.handles event) :
    Step (.cancel event) .done p { p with
      life := update p.life event (p.life event).cancel
      handles := update p.handles event false }
  /-- the event moves exactly if it is pending, and otherwise the handle lapses -/
  | reschedule {p : SchedulerSpec E} {event : ℕ} (when : TimeRange) (owned : p.handles event) :
    Step (.reschedule event when) (.rescheduled (p.life event).isPending) p { p with
      life := update p.life event ((p.life event).move when)
      handles := update p.handles event (p.life event).isPending }
  | dropHandle {p : SchedulerSpec E} {event : ℕ} (owned : p.handles event) :
    Step (.dropHandle event) .done p { p with handles := update p.handles event false }
  | noCancel {p : SchedulerSpec E} {event : ℕ} (gone : p.handles event = false) :
    Step (.cancel event) .noHandle p p
  | noReschedule {p : SchedulerSpec E} {event : ℕ} (when : TimeRange)
    (gone : p.handles event = false) : Step (.reschedule event when) .noHandle p p
  | noDrop {p : SchedulerSpec E} {event : ℕ} (gone : p.handles event = false) :
    Step (.dropHandle event) .noHandle p p
  | clear {p : SchedulerSpec E} : Step .clear .done p { p with life := fun a => (p.life a).cancel }
  /-- the iterator runs over exactly the pending events that start at `now` or before, by
  ascending start -/
  | dispatch {p : SchedulerSpec E} (now : Instant) (due : List (FutureEvent E))
    (exact : ∀ a v, ⟨v.1,v.2,a⟩ ∈ due ↔ p.life a = .pending v ∧ v.1.start ≤ now)
    (once : (due.map FutureEvent.address).Nodup)
    (ascending : due.Pairwise fun e f => e.when.start ≤ f.when.start) :
    Step (.dispatch now) (.iterator p.dispatched) p { p with
      life := fun a => (p.life a).dispatch now p.dispatched
      iterators := update p.iterators p.dispatched (due.map FutureEvent.address)
      dispatched := p.dispatched+1 }
  | next {p : SchedulerSpec E} {i event : ℕ} {iter : List ℕ} {v : TimeRange × E}
    (head : p.iterators i = event::iter) (due : p.life event = .due i v) :
    Step (.next i) (.next (some (event,v.2))) p { p with
      life := update p.life event .yielded
      iterators := update p.iterators i iter }
  | exhausted {p : SchedulerSpec E} {i : ℕ} (empty : p.iterators i = []) :
    Step (.next i) (.next none) p p
  | dropIterator {p : SchedulerSpec E} (i : ℕ) :
    Step (.dropIterator i) .done p { p with
      life := fun a => (p.life a).dropDue i, iterators := update p.iterators i [] }

end SchedulerSpec

/-- The scheduler keeps exactly the pending events, in order. -/
def Keeps (events : List ℕ) (life : ℕ → Life E) (l : List (FutureEvent E)) : Prop :=
  Sorted l ∧ events = l.map FutureEvent.address ∧
    ∀ a v, ⟨v.1,v.2,a⟩ ∈ l ↔ life a = .pending v

/-- The references to all events are those that the lives of the events tell. -/
structure Follows (s : SchedulerUser E) (p : SchedulerSpec E) : Prop where
  cells : ∀ a, s.scheduler.refs.cells a = (p.life a).cell (p.handles a)
  fresh : s.scheduler.refs.fresh = p.added
  absent : ∀ a, p.added ≤ a → p.life a = .absent ∧ p.handles a = false
  events : ∃ l, Keeps s.scheduler.events p.life l
  handles : s.handles = p.handles
  iterators : s.iterators = p.iterators
  dispatched : s.dispatched = p.dispatched
  owned : ∀ i, (p.iterators i).Nodup ∧ ∀ a, a ∈ p.iterators i ↔ ∃ v, p.life a = .due i v
  idle : ∀ i, p.dispatched ≤ i → p.iterators i = []

namespace SharedScheduler
variable {l : List (FutureEvent E)} {refs : Refs (TimeRange × E)}

theorem slice_eq (h : ∀ e ∈ l, (refs.cells e.address).value = some (e.when,e.what)) :
    slice (l.map FutureEvent.address) refs = l := by
  induction l with
  | nil => rfl
  | cons e l ih =>
    have hhead := h e mem_cons_self
    have htail := ih fun f hf => h f (mem_cons_of_mem e hf)
    rw [slice] at htail ⊢
    rw [map_cons,filterMap_cons,hhead,htail]
    rfl

end SharedScheduler

namespace Keeps
variable {events : List ℕ} {life life' : ℕ → Life E} {l : List (FutureEvent E)} {a : ℕ}

theorem mem (h : Keeps events life l) {e : FutureEvent E} :
    e ∈ l ↔ life e.address = .pending (e.when,e.what) := h.2.2 e.address (e.when,e.what)

theorem congr (h : Keeps events life l) (hlife : ∀ a v, life' a = .pending v ↔ life a = .pending v) :
    Keeps events life' l :=
  ⟨h.1,h.2.1,fun a v => (h.2.2 a v).trans (hlife a v).symm⟩

theorem slice (h : Keeps events life l) {refs : Refs (TimeRange × E)}
    (hvalue : ∀ a v, life a = .pending v → (refs.cells a).value = some v) :
    SharedScheduler.slice events refs = l := by
  rw [h.2.1]
  exact SharedScheduler.slice_eq fun e he => hvalue e.address _ (h.mem.mp he)

theorem insert (h : Keeps events life l) (hnew : ∀ v, life a ≠ .pending v) (v : TimeRange × E) :
    Keeps (events.insertIdx (partitionPoint l v.1.start) a)
      (update life a (.pending v)) (l.insertIdx (partitionPoint l v.1.start) ⟨v.1,v.2,a⟩) := by
  have hnot : ∀ e ∈ l, e.address ≠ a := by
    rintro e he rfl
    exact hnew _ (h.mem.mp he)
  obtain ⟨when,what⟩ := v
  refine ⟨?_,?_,fun b ⟨bwhen,bwhat⟩ => ?_⟩
  · refine h.1.insert fun hmem => ?_
    obtain ⟨e,he,heq⟩ := mem_map.mp hmem
    exact hnot e he heq
  · rw [h.2.1,map_insertIdx]
  · rw [mem_insertIdx_partitionPoint,h.2.2]
    by_cases hb : b = a
    · subst hb
      rw [update_self]
      constructor
      · rintro (heq | hold)
        · cases heq
          rfl
        · exact absurd hold (hnew _)
      · intro heq
        cases heq
        exact .inl rfl
    · rw [update_of_ne hb]
      constructor
      · rintro (heq | hold)
        · cases heq
          exact absurd rfl hb
        · exact hold
      · exact .inr

/-- A pending event is found, and is removed for whatever becomes of it. -/
theorem erase (h : Keeps events life l) {v : TimeRange × E} (hv : life a = .pending v)
    {x : Life E} (hx : ∀ v, x ≠ .pending v) :
    ∃ idx, find l ⟨v.1,v.2,a⟩ = some idx ∧
      Keeps (events.eraseIdx idx) (update life a x) (l.eraseIdx idx) := by
  have hmem : ⟨v.1,v.2,a⟩ ∈ l := (h.2.2 a v).mpr hv
  obtain ⟨idx,hfind,hsub,herase⟩ := h.1.eraseIdx_find hmem
  refine ⟨idx,hfind,h.1.sublist hsub,by rw [h.2.1,eraseIdx_map],fun b w => ?_⟩
  rw [herase,h.2.2]
  by_cases hb : b = a
  · subst hb
    rw [update_self]
    exact ⟨fun ⟨_,hne⟩ => absurd rfl hne,fun heq => absurd heq (hx w)⟩
  · rw [update_of_ne hb]
    exact ⟨fun hold => hold.1,fun hold => ⟨hold,hb⟩⟩

theorem find_eq_none (h : Keeps events life l) (ha : ∀ v, life a ≠ .pending v) (v : TimeRange × E) :
    find l ⟨v.1,v.2,a⟩ = none := by
  apply Scheduler.find_eq_none
  rintro e he rfl
  exact ha _ (h.mem.mp he)

end Keeps

namespace Follows
variable {s : SchedulerUser E} {p : SchedulerSpec E} {a : ℕ}

theorem value (h : Follows s p) {v : TimeRange × E} (hv : p.life a = .pending v) :
    (s.scheduler.refs.cells a).value = some v := by
  rw [h.cells,hv]
  rfl

theorem lt_added_of_handle (h : Follows s p) (ha : p.handles a) : a < p.added := by
  by_contra hle
  rw [(h.absent a (not_lt.mp hle)).2] at ha
  cases ha

theorem change (h : Follows s p) (ha : a < p.added) (life : Life E) (handle : Bool)
    {events : List ℕ} {refs : Refs (TimeRange × E)} {l : List (FutureEvent E)}
    (hcells : ∀ b, refs.cells b = if b = a then life.cell handle else s.scheduler.refs.cells b)
    (hfresh : refs.fresh = s.scheduler.refs.fresh)
    (hkeeps : Keeps events (update p.life a life) l)
    (hdue : ∀ i v, life = .due i v ↔ p.life a = .due i v) :
    Follows { s with scheduler := ⟨events,refs⟩, handles := update s.handles a handle }
      { p with life := update p.life a life
               handles := update p.handles a handle } where
  cells b := by
    rw [hcells]
    by_cases hb : b = a
    · simp [hb]
    · simp [hb,h.cells]
  fresh := hfresh.trans h.fresh
  absent b hb := by
    have hne : b ≠ a := fun heq => absurd (heq ▸ hb : p.added ≤ a) (not_le.mpr ha)
    simpa [hne] using h.absent b hb
  events := ⟨l,hkeeps⟩
  handles := by rw [h.handles]
  iterators := h.iterators
  dispatched := h.dispatched
  owned i := by
    refine ⟨(h.owned i).1,fun b => ?_⟩
    rw [(h.owned i).2 b]
    by_cases hb : b = a
    · subst hb
      simp [hdue]
    · simp [hb]
  idle := h.idle

end Follows

namespace Follows
open SchedulerUser
variable {s : SchedulerUser E} {p : SchedulerSpec E}

/-- The call is a step of the specification. -/
def Simulates (op : Op E) (s : SchedulerUser E) (p : SchedulerSpec E) : Prop :=
  ∃ reply s' p', step op s = .ok (reply,s') ∧ SchedulerSpec.Step op reply p p' ∧ Follows s' p'

theorem add (h : Follows s p) (when : TimeRange) (what : E) : Simulates (.add when what) s p := by
  obtain ⟨l,hl⟩ := h.events
  obtain ⟨habsent,_⟩ := h.absent p.added (le_refl _)
  let refs := (s.scheduler.refs.alloc (when,what)).2.downgrade p.added
  have hcells : ∀ b, refs.cells b =
      if b = p.added then ⟨some (when,what),1,1⟩ else s.scheduler.refs.cells b := by
    intro b
    by_cases hb : b = p.added <;> simp [refs,Refs.alloc,Refs.downgrade,Refs.onCell,h.fresh,hb]
  have hslice : SharedScheduler.slice s.scheduler.events refs = l := by
    refine hl.slice fun b v hb => ?_
    have hne : b ≠ p.added := by
      rintro rfl
      rw [habsent] at hb
      cases hb
    rw [hcells,if_neg hne,h.value hb]
  have hadd : s.scheduler.add when what = (⟨p.added⟩,
      ⟨s.scheduler.events.insertIdx (partitionPoint l when.start) p.added,refs⟩) := by
    rw [← hslice,SharedScheduler.add]
    simp only [refs,Refs.alloc,h.fresh]
  refine ⟨_,_,_,by rw [step,hadd],.add when what,?_⟩
  have hkeeps := hl.insert (a := p.added) (fun v hv => by rw [habsent] at hv; cases hv) (when,what)
  have hother : ∀ b, p.added + 1 ≤ b → b ≠ p.added := fun b hb heq => by omega
  refine ⟨fun b => ?_,?_,fun b hb => ?_,⟨_,hkeeps⟩,?_,h.iterators,h.dispatched,fun i => ?_,h.idle⟩
  · rw [hcells]
    by_cases hb : b = p.added
    · simp [hb,Life.cell]
    · simp [hb,h.cells]
  · simp [refs,Refs.alloc,Refs.downgrade,h.fresh]
  · simpa [hother b hb] using h.absent b (Nat.le_of_succ_le hb)
  · rw [h.handles]
  · refine ⟨(h.owned i).1,fun b => ?_⟩
    rw [(h.owned i).2]
    by_cases hb : b = p.added
    · simp [hb,habsent]
    · simp [hb]

/-- References that differ in counts only lead to the same events. -/
theorem slice_onCell (h : Follows s p) {l : List (FutureEvent E)}
    (hl : Keeps s.scheduler.events p.life l) (a : ℕ)
    {f : Cell (TimeRange × E) → Cell (TimeRange × E)}
    (hf : ∀ c, (f c).value = c.value) :
    SharedScheduler.slice s.scheduler.events (s.scheduler.refs.onCell a f) = l := by
  refine hl.slice fun b v hb => ?_
  rw [onCell_cells]
  split
  · rename_i heq
    rw [hf,← heq,h.value hb]
  · exact h.value hb

/-- The search for an event in the middle of a call on its handle. -/
theorem locate_onCell (h : Follows s p) {l : List (FutureEvent E)}
    (hl : Keeps s.scheduler.events p.life l) {a : ℕ}
    {f : Cell (TimeRange × E) → Cell (TimeRange × E)} (hf : ∀ c, (f c).value = c.value)
    {v : TimeRange × E} (hv : (s.scheduler.refs.cells a).value = some v) :
    SharedScheduler.locate s.scheduler.events (s.scheduler.refs.onCell a f) a =
      find l ⟨v.1,v.2,a⟩ := by
  rw [SharedScheduler.locate,h.slice_onCell hl a hf,onCell_cells,if_pos rfl,hf,hv]
  rfl

/-- `cancel` drops a pending event, and uses up the handle of any other. -/
theorem cancel_eq (h : Follows s p) {a : ℕ} (ha : p.handles a) :
    ∃ events refs l, s.scheduler.cancel ⟨a⟩ = ⟨events,refs⟩ ∧
      Keeps events (update p.life a (p.life a).cancel) l ∧
      (∀ b, refs.cells b =
        if b = a then (p.life a).cancel.cell false else s.scheduler.refs.cells b) ∧
      refs.fresh = s.scheduler.refs.fresh := by
  obtain ⟨l,hl⟩ := h.events
  have hcell := h.cells a
  rw [ha] at hcell
  rcases (p.life a).cases with ⟨v,hlife⟩ | ⟨i,v,hlife⟩ | hgone
  · obtain ⟨idx,hfind,hkeeps⟩ := hl.erase hlife (x := .dropped) fun _ h => by cases h
    rw [hlife] at hcell
    have hlocate := h.locate_onCell hl (a := a) (f := fun c => { c with strong := c.strong+1 })
      (fun _ => rfl) (by rw [hcell]; rfl)
    rw [hfind] at hlocate
    refine ⟨s.scheduler.events.eraseIdx idx,
      (((s.scheduler.refs.clone a).dropStrong a).dropStrong a).dropWeak a,_,?_,
      by rw [hlife]; exact hkeeps,fun b => ?_,rfl⟩
    · rw [SharedScheduler.cancel,upgrade_of_strong (by simp [hcell,Life.cell])]
      simp only [Refs.clone,hlocate]
    · simp only [Refs.clone,Refs.dropStrong,Refs.dropWeak,onCell_onCell,onCell_cells,
        hcell,hlife]
      rfl
  · rw [hlife] at hcell
    have hnone := hl.find_eq_none (a := a) (fun w h => by rw [hlife] at h; cases h) v
    have hlocate := h.locate_onCell hl (a := a) (f := fun c => { c with strong := c.strong+1 })
      (fun _ => rfl) (by rw [hcell]; rfl)
    rw [hnone] at hlocate
    refine ⟨s.scheduler.events,((s.scheduler.refs.clone a).dropStrong a).dropWeak a,l,?_,?_,
      fun b => ?_,rfl⟩
    · rw [SharedScheduler.cancel,upgrade_of_strong (by simp [hcell,Life.cell])]
      simp only [Refs.clone,hlocate]
    · have hsame : (p.life a).cancel = p.life a := by rw [hlife]; rfl
      rwa [hsame,update_eq_self]
    · simp only [Refs.clone,Refs.dropStrong,Refs.dropWeak,onCell_onCell,onCell_cells,
        hcell,hlife]
      rfl
  · rw [hgone.cell] at hcell
    refine ⟨s.scheduler.events,s.scheduler.refs.dropWeak a,l,?_,?_,fun b => ?_,rfl⟩
    · rw [SharedScheduler.cancel,upgrade_of_not_strong (by rw [hcell])]
    · rwa [hgone.cancel,update_eq_self]
    · rw [Refs.dropWeak,onCell_cells,hcell,hgone.cancel,hgone.cell]
      rfl

/-- `reschedule` moves a pending event, which it finds unshared. -/
theorem reschedule_eq (h : Follows s p) {a : ℕ} (ha : p.handles a) (when : TimeRange) :
    ∃ events refs l, s.scheduler.reschedule ⟨a⟩ when =
        .ok (if (p.life a).isPending then some ⟨a⟩ else none,⟨events,refs⟩) ∧
      Keeps events (update p.life a ((p.life a).move when)) l ∧
      (∀ b, refs.cells b = if b = a then ((p.life a).move when).cell (p.life a).isPending
        else s.scheduler.refs.cells b) ∧
      refs.fresh = s.scheduler.refs.fresh := by
  obtain ⟨l,hl⟩ := h.events
  have hcell := h.cells a
  rw [ha] at hcell
  rcases (p.life a).cases with ⟨v,hlife⟩ | ⟨i,v,hlife⟩ | hgone
  · obtain ⟨idx,hfind,hkeeps⟩ := hl.erase hlife (x := .dropped) fun _ h => by cases h
    rw [hlife] at hcell
    have hlocate := h.locate_onCell hl (a := a)
      (f := fun c => { c with strong := c.strong+1, weak := c.weak-1 })
      (fun _ => rfl) (by rw [hcell]; rfl)
    rw [hfind,← clone_dropWeak] at hlocate
    -- without the handle and the entry of the scheduler, one reference is left
    let alone := ((s.scheduler.refs.clone a).dropWeak a).dropStrong a
    have halone : alone.cells a = ⟨some v,1,0⟩ := by
      simp only [alone,Refs.clone,Refs.dropStrong,Refs.dropWeak,onCell_onCell,
        onCell_cells,hcell,if_pos]
      rfl
    let refs := (alone.set a (when,v.2)).downgrade a
    have hcells : ∀ b, refs.cells b =
        if b = a then ⟨some (when,v.2),1,1⟩ else s.scheduler.refs.cells b := by
      intro b
      simp only [refs,alone,Refs.set,Refs.downgrade,Refs.clone,Refs.dropStrong,Refs.dropWeak,
        onCell_onCell,onCell_cells,hcell]
      rfl
    have hslice : SharedScheduler.slice (s.scheduler.events.eraseIdx idx) refs = l.eraseIdx idx := by
      refine hkeeps.slice fun b w hb => ?_
      have hne : b ≠ a := by
        rintro rfl
        rw [update_self] at hb
        cases hb
      rw [update_of_ne hne] at hb
      rw [hcells,if_neg hne,h.value hb]
    have hmoved := hkeeps.insert (a := a) (fun w h => by rw [update_self] at h; cases h)
      (when,v.2)
    rw [update_idem] at hmoved
    refine ⟨_,refs,_,?_,by rw [hlife]; exact hmoved,fun b => ?_,rfl⟩
    · rw [SharedScheduler.reschedule,upgrade_of_strong (by simp [hcell,Life.cell]),hlife]
      have hget : alone.getMut a = some v := by simp [Refs.getMut,halone]
      simp only [hlocate]
      change (do
        let v ← Result.unwrap (alone.getMut a)
        return (some (⟨a⟩ : Handle),_)) = _
      rw [hget,← hslice]
      rfl
    · rw [hcells,hlife]
      rfl
  · rw [hlife] at hcell
    have hnone := hl.find_eq_none (a := a) (fun w h => by rw [hlife] at h; cases h) v
    have hlocate := h.locate_onCell hl (a := a)
      (f := fun c => { c with strong := c.strong+1, weak := c.weak-1 })
      (fun _ => rfl) (by rw [hcell]; rfl)
    rw [hnone,← clone_dropWeak] at hlocate
    refine ⟨s.scheduler.events,((s.scheduler.refs.clone a).dropWeak a).dropStrong a,l,?_,?_,
      fun b => ?_,rfl⟩
    · rw [SharedScheduler.reschedule,upgrade_of_strong (by simp [hcell,Life.cell]),hlife]
      simp only [hlocate]
      rfl
    · have hsame : (p.life a).move when = p.life a := by rw [hlife]; rfl
      rwa [hsame,update_eq_self]
    · simp only [Refs.clone,Refs.dropStrong,Refs.dropWeak,onCell_onCell,onCell_cells,
        hcell,hlife]
      rfl
  · rw [hgone.cell] at hcell
    refine ⟨s.scheduler.events,s.scheduler.refs.dropWeak a,l,?_,?_,fun b => ?_,rfl⟩
    · rw [SharedScheduler.reschedule,upgrade_of_not_strong (by rw [hcell]),hgone.isPending]
      rfl
    · rwa [hgone.move,update_eq_self]
    · rw [Refs.dropWeak,onCell_cells,hcell,hgone.move,hgone.cell,hgone.isPending]
      rfl

theorem cancel (h : Follows s p) (a : ℕ) : Simulates (.cancel a) s p := by
  by_cases ha : p.handles a
  · obtain ⟨events,refs,l,hcancel,hkeeps,hcells,hfresh⟩ := h.cancel_eq ha
    refine ⟨_,_,_,by rw [step,h.handles,if_pos ha,hcancel],.cancel ha,?_⟩
    have hchange := h.change (h.lt_added_of_handle ha) _ false hcells hfresh hkeeps fun _ _ =>
      Life.cancel_eq_due
    rwa [h.handles] at hchange
  · have ha : p.handles a = false := by simpa using ha
    exact ⟨_,s,p,by rw [step,h.handles,ha]; rfl,.noCancel ha,h⟩

theorem reschedule (h : Follows s p) (a : ℕ) (when : TimeRange) :
    Simulates (.reschedule a when) s p := by
  by_cases ha : p.handles a
  · obtain ⟨events,refs,l,hmove,hkeeps,hcells,hfresh⟩ := h.reschedule_eq ha when
    have hstep : step (.reschedule a when) s = .ok (.rescheduled (p.life a).isPending,{ s with
        scheduler := ⟨events,refs⟩
        handles := update s.handles a (p.life a).isPending }) := by
      rw [step,h.handles,if_pos ha,hmove]
      cases (p.life a).isPending <;> rfl
    refine ⟨_,_,_,hstep,.reschedule when ha,?_⟩
    exact h.change (h.lt_added_of_handle ha) _ _ hcells hfresh hkeeps fun _ _ => Life.move_eq_due
  · have ha : p.handles a = false := by simpa using ha
    exact ⟨_,s,p,by rw [step,h.handles,ha]; rfl,.noReschedule when ha,h⟩

theorem dropHandle (h : Follows s p) (a : ℕ) : Simulates (.dropHandle a) s p := by
  by_cases ha : p.handles a
  · obtain ⟨l,hl⟩ := h.events
    refine ⟨_,_,_,by rw [step,h.handles,if_pos ha],.dropHandle ha,?_⟩
    have hcells : ∀ b, (s.scheduler.refs.dropWeak a).cells b =
        if b = a then (p.life a).cell false else s.scheduler.refs.cells b := by
      intro b
      rw [Refs.dropWeak,onCell_cells,h.cells a,ha]
      cases p.life a <;> rfl
    have hchange := h.change (h.lt_added_of_handle ha) (p.life a) false hcells rfl
      (by rwa [update_eq_self]) fun i v => Iff.rfl
    rwa [update_eq_self,h.handles] at hchange
  · have ha : p.handles a = false := by simpa using ha
    exact ⟨_,s,p,by rw [step,h.handles,ha]; rfl,.noDrop ha,h⟩

theorem mem_events (h : Follows s p) (a : ℕ) :
    a ∈ s.scheduler.events ↔ ∃ v, p.life a = .pending v := by
  obtain ⟨l,hl⟩ := h.events
  rw [hl.2.1,mem_map]
  constructor
  · rintro ⟨e,he,rfl⟩
    exact ⟨_,hl.mem.mp he⟩
  · rintro ⟨v,hv⟩
    exact ⟨_,(hl.2.2 a v).mpr hv,rfl⟩

theorem clear (h : Follows s p) : Simulates .clear s p := by
  refine ⟨_,_,_,rfl,.clear,fun a => ?_,?_,fun a ha => ?_,⟨[],sorted_nil,rfl,fun a v => ?_⟩,h.handles,
    h.iterators,h.dispatched,fun i => ⟨(h.owned i).1,fun a => ?_⟩,h.idle⟩
  · obtain ⟨l,hl⟩ := h.events
    have hnodup : s.scheduler.events.Nodup := hl.2.1 ▸ hl.1.addresses
    have hmem := h.mem_events a
    have hcell := h.cells a
    simp only [SharedScheduler.clear,dropAll_cells hnodup]
    cases hlife : p.life a <;> rw [hlife] at hmem hcell <;>
      simp [hmem,hcell,Refs.dropStrong,onCell_cells,Life.cancel,Life.cell]
  · rw [← h.fresh]
    exact dropAll_fresh _ _
  · obtain ⟨hlife,hhandle⟩ := h.absent a ha
    simp [hlife,hhandle,Life.cancel]
  · exact ⟨fun hmem => absurd hmem not_mem_nil,fun hlife => (Life.cancel_ne_pending _ v hlife).elim⟩
  · rw [(h.owned i).2]
    exact exists_congr fun v => Life.cancel_eq_due.symm

theorem dispatch (h : Follows s p) (now : Instant) : Simulates (.dispatch now) s p := by
  obtain ⟨l,hl⟩ := h.events
  obtain ⟨htake,hdrop⟩ := hl.1.take_partitionPoint now
  have hslice : SharedScheduler.slice s.scheduler.events s.scheduler.refs = l :=
    hl.slice fun a v hv => h.value hv
  let due := (l.filter fun e => e.when.start ≤ now).reverse
  have hdispatch : s.scheduler.dispatch now = (due.map FutureEvent.address,
      { s.scheduler with events :=
        (l.filter fun e => e.when.start > now).map FutureEvent.address }) := by
    simp only [SharedScheduler.dispatch,hslice,due]
    rw [hl.2.1,← map_drop,← map_take,htake,hdrop,map_reverse]
  have hexact : ∀ a v, ⟨v.1,v.2,a⟩ ∈ due ↔ p.life a = .pending v ∧ v.1.start ≤ now := by
    intro a v
    simp only [due,mem_reverse,mem_filter,decide_eq_true_eq,hl.2.2 a v]
  have honce : (due.map FutureEvent.address).Nodup := by
    rw [map_reverse,nodup_reverse]
    exact hl.1.addresses.sublist (filter_sublist.map _)
  refine ⟨_,_,_,by rw [step,hdispatch,h.dispatched],.dispatch now due hexact honce ?_,?_⟩
  · rw [pairwise_reverse]
    exact hl.1.starts.filter _
  have hkeeps : Keeps ((l.filter fun e => e.when.start > now).map FutureEvent.address)
      (fun a => (p.life a).dispatch now p.dispatched) (l.filter fun e => e.when.start > now) := by
    refine ⟨hl.1.sublist filter_sublist,rfl,fun a v => ?_⟩
    rw [mem_filter,hl.2.2 a v,decide_eq_true_eq,Life.dispatch_eq_pending]
  have hunused : ∀ a v, p.life a ≠ .due p.dispatched v := by
    intro a v hv
    have hmem := ((h.owned p.dispatched).2 a).mpr ⟨v,hv⟩
    rw [h.idle _ (le_refl _)] at hmem
    cases hmem
  refine ⟨fun a => ?_,h.fresh,fun a ha => ?_,⟨_,hkeeps⟩,h.handles,?_,?_,fun i => ?_,fun i hi => ?_⟩
  · rw [Life.cell_dispatch]
    exact h.cells a
  · obtain ⟨hlife,hhandle⟩ := h.absent a ha
    simp [hlife,hhandle,Life.dispatch]
  · rw [h.iterators]
  · rfl
  · by_cases hi : i = p.dispatched
    · subst hi
      simp only [update_self]
      refine ⟨honce,fun a => ?_⟩
      rw [mem_map]
      constructor
      · rintro ⟨e,he,rfl⟩
        exact ⟨_,Life.dispatch_eq_due.mpr (.inr ⟨rfl,(hexact e.address (e.when,e.what)).mp he⟩)⟩
      · rintro ⟨v,hv⟩
        rcases Life.dispatch_eq_due.mp hv with hdue | ⟨_,hpending⟩
        · exact absurd hdue (hunused a v)
        · exact ⟨_,(hexact a v).mpr hpending,rfl⟩
    · simp only [update_of_ne hi]
      refine ⟨(h.owned i).1,fun a => ?_⟩
      rw [(h.owned i).2]
      refine exists_congr fun v => ?_
      rw [Life.dispatch_eq_due]
      exact ⟨.inl,fun hdue => hdue.resolve_right fun hnew => hi hnew.1⟩
  · change p.dispatched + 1 ≤ i at hi
    have hne : i ≠ p.dispatched := by omega
    simp only [update_of_ne hne]
    exact h.idle i (by omega)

theorem next (h : Follows s p) (i : ℕ) : Simulates (.next i) s p := by
  cases hiter : p.iterators i with
  | nil =>
    refine ⟨_,s,p,?_,.exhausted hiter,h⟩
    rw [step,h.iterators,hiter]
    simp only [SharedScheduler.next,Result.bind_of_ok,Result.pure_eq_ok]
    rw [← hiter,update_eq_self,← h.iterators]
  | cons a iter =>
    obtain ⟨hnodup,hmem⟩ := h.owned i
    obtain ⟨v,hv⟩ := (hmem a).mp (hiter ▸ mem_cons_self)
    have hcell := h.cells a
    rw [hv] at hcell
    have hinner : s.scheduler.refs.intoInner a = (some v,s.scheduler.refs.dropStrong a) := by
      simp [Refs.intoInner,hcell,Life.cell]
    have hstep : step (.next i) s = .ok (.next (some (a,v.2)),{ s with
        scheduler := { s.scheduler with refs := s.scheduler.refs.dropStrong a }
        iterators := update s.iterators i iter }) := by
      rw [step,h.iterators,hiter]
      simp only [SharedScheduler.next,hinner]
      rfl
    refine ⟨_,_,_,hstep,.next hiter hv,?_⟩
    obtain ⟨hnot,hrest⟩ := nodup_cons.mp (hiter ▸ hnodup)
    have hpresent : ∀ b, p.added ≤ b → b ≠ a := by
      rintro b hb rfl
      rw [(h.absent b hb).1] at hv
      cases hv
    obtain ⟨l,hl⟩ := h.events
    have hkeeps : Keeps s.scheduler.events (update p.life a .yielded) l := by
      refine hl.congr fun b w => ?_
      by_cases hb : b = a
      · simp [hb,hv]
      · simp [hb]
    refine ⟨fun b => ?_,h.fresh,fun b hb => ?_,⟨l,hkeeps⟩,h.handles,?_,h.dispatched,fun j => ?_,
      fun j hj => ?_⟩
    · dsimp only
      rw [Refs.dropStrong,onCell_cells,hcell]
      by_cases hb : b = a
      · simp [hb,Life.cell]
      · simp [hb,h.cells]
    · simpa [hpresent b hb] using h.absent b hb
    · rw [h.iterators]
    · by_cases hj : j = i
      · subst hj
        simp only [update_self]
        refine ⟨hrest,fun b => ?_⟩
        by_cases hb : b = a
        · simp [hb,hnot]
        · rw [update_of_ne hb,← hmem,hiter]
          simp [hb]
      · simp only [update_of_ne hj]
        refine ⟨(h.owned j).1,fun b => ?_⟩
        rw [(h.owned j).2]
        by_cases hb : b = a
        · subst hb
          simp [hv,Ne.symm hj]
        · simp [hb]
    · have hne : j ≠ i := by
        rintro rfl
        rw [h.idle j hj] at hiter
        cases hiter
      simp only [update_of_ne hne]
      exact h.idle j hj

theorem dropIterator (h : Follows s p) (i : ℕ) : Simulates (.dropIterator i) s p := by
  obtain ⟨l,hl⟩ := h.events
  refine ⟨_,_,_,rfl,.dropIterator i,fun a => ?_,?_,fun a ha => ?_,
    ⟨l,hl.congr fun _ _ => Life.dropDue_eq_pending⟩,h.handles,?_,h.dispatched,fun j => ?_,fun j hj => ?_⟩
  · have hmem := (h.owned i).2 a
    have hcell := h.cells a
    dsimp only
    rw [h.iterators,dropAll_cells (h.owned i).1]
    cases hlife : p.life a with
    | due k v =>
      rw [hlife] at hmem hcell
      by_cases hk : k = i
      · simp [hmem,hcell,hk,Refs.dropStrong,onCell_cells,Life.dropDue,Life.cell]
      · simp [hmem,hcell,hk,Life.dropDue]
    | _ =>
      rw [hlife] at hmem hcell
      simp [hmem,hcell,Life.dropDue]
  · rw [← h.fresh]
    exact dropAll_fresh _ _
  · obtain ⟨hlife,hhandle⟩ := h.absent a ha
    simp [hlife,hhandle,Life.dropDue]
  · rw [h.iterators]
  · by_cases hj : j = i
    · subst hj
      simp only [update_self]
      refine ⟨nodup_nil,fun a => ?_⟩
      simp [Life.dropDue_eq_due]
    · simp only [update_of_ne hj]
      refine ⟨(h.owned j).1,fun a => ?_⟩
      rw [(h.owned j).2]
      exact exists_congr fun v => (Life.dropDue_eq_due.trans (and_iff_left hj)).symm
  · by_cases hji : j = i
    · simp [hji]
    · simp only [update_of_ne hji]
      exact h.idle j hj

theorem simulates (h : Follows s p) (op : Op E) : Simulates op s p := by
  cases op with
  | add when what => exact h.add when what
  | cancel event => exact h.cancel event
  | reschedule event when => exact h.reschedule event when
  | dropHandle event => exact h.dropHandle event
  | clear => exact h.clear
  | dispatch now => exact h.dispatch now
  | next i => exact h.next i
  | dropIterator i => exact h.dropIterator i

theorem start : Follows (SchedulerUser.start : SchedulerUser E) SchedulerSpec.start where
  cells _ := rfl
  fresh := rfl
  absent _ _ := ⟨rfl,rfl⟩
  events := ⟨[],sorted_nil,rfl,fun a v => by simp [SchedulerSpec.start]⟩
  handles := rfl
  iterators := rfl
  dispatched := rfl
  owned i := by simp [SchedulerSpec.start]
  idle _ _ := rfl

end Follows

/-- The event that a call yields. -/
def SchedulerUser.Reply.event : SchedulerUser.Reply E → Option ℕ
  | .next (some (event,_)) => some event
  | _ => none

namespace SchedulerSpec
open SchedulerUser
variable {p p' : SchedulerSpec E}

/-- Events are known from the time they are added on. -/
def Bounded (p : SchedulerSpec E) : Prop := ∀ a, p.added ≤ a → p.life a = .absent

theorem Step.bounded {op : Op E} {reply : Reply E} (h : Step op reply p p') (hp : p.Bounded) :
    p'.Bounded := by
  have hupdate : ∀ a x, (p.life a = .absent → x = .absent) → ∀ b, p.added ≤ b →
      update p.life a x b = .absent := by
    intro a x hx b hb
    by_cases hba : b = a
    · subst hba
      rw [update_self,hx (hp b hb)]
    · rw [update_of_ne hba,hp b hb]
  cases h with
  | add when what =>
    intro a ha
    have hne : a ≠ p.added := Nat.ne_of_gt ha
    dsimp only
    rw [update_of_ne hne,hp a (Nat.le_of_succ_le ha)]
  | cancel owned => exact hupdate _ _ fun hnone => by rw [hnone]; rfl
  | reschedule when owned => exact hupdate _ _ fun hnone => by rw [hnone]; rfl
  | clear => exact fun a ha => by simp only [hp a ha,Life.cancel]
  | dispatch now due exact once ascending => exact fun a ha => by simp only [hp a ha,Life.dispatch]
  | next head due => exact hupdate _ _ fun hnone => by rw [hnone] at due; cases due
  | dropIterator i => exact fun a ha => by simp only [hp a ha,Life.dropDue]
  | _ => exact hp

/-- A yielded event stays yielded, and a call yields only an event that was not. -/
theorem Step.yielded {op : Op E} {reply : Reply E} (h : Step op reply p p') (hp : p.Bounded) :
    (∀ a, p.life a = .yielded → p'.life a = .yielded) ∧
      ∀ a, reply.event = some a → p.life a ≠ .yielded ∧ p'.life a = .yielded := by
  have hnothing : ∀ a, (none : Option ℕ) = some a → p.life a ≠ .yielded ∧ p'.life a = .yielded :=
    fun a h => by cases h
  have hupdate : ∀ a x, (p.life a = .yielded → x = .yielded) → ∀ b, p.life b = .yielded →
      update p.life a x b = .yielded := by
    intro a x hx b hb
    by_cases hba : b = a
    · subst hba
      rw [update_self,hx hb]
    · rw [update_of_ne hba,hb]
  cases h with
  | add when what =>
    refine ⟨hupdate _ _ fun hy => ?_,hnothing⟩
    rw [hp p.added (le_refl _)] at hy
    cases hy
  | cancel owned => exact ⟨hupdate _ _ (Life.eq_yielded _).1.mpr,hnothing⟩
  | reschedule when owned => exact ⟨hupdate _ _ ((Life.eq_yielded _).2.1 when).mpr,hnothing⟩
  | clear => exact ⟨fun a => (Life.eq_yielded _).1.mpr,hnothing⟩
  | dispatch now due exact once ascending =>
    exact ⟨fun a => ((Life.eq_yielded _).2.2.1 now _).mpr,hnothing⟩
  | dropIterator i => exact ⟨fun a => ((Life.eq_yielded _).2.2.2 i).mpr,hnothing⟩
  | next head due =>
    refine ⟨hupdate _ _ fun _ => rfl,fun a ha => ?_⟩
    cases ha
    exact ⟨by simp [due],update_self _ _ _⟩
  | _ => exact ⟨fun _ ha => ha,hnothing⟩

/-- Over a run no event is yielded twice, nor one that was yielded before. -/
theorem yielded_once {ops : List (Op E)} {replies : List (Reply E)}
    (h : RunsTo Step ops replies p p') (hp : p.Bounded) :
    (replies.filterMap Reply.event).Nodup ∧
      ∀ a ∈ replies.filterMap Reply.event, p.life a ≠ .yielded := by
  induction h with
  | nil p => simp
  | @cons op reply ops replies p q p' step rest ih =>
    obtain ⟨hkept,hnew⟩ := step.yielded hp
    obtain ⟨hnodup,hrest⟩ := ih (step.bounded hp)
    cases hreply : reply.event with
    | none =>
      rw [filterMap_cons_none hreply]
      exact ⟨hnodup,fun a ha hy => hrest a ha (hkept a hy)⟩
    | some a =>
      rw [filterMap_cons_some hreply]
      obtain ⟨hbefore,hafter⟩ := hnew a hreply
      refine ⟨nodup_cons.mpr ⟨fun hmem => hrest a hmem hafter,hnodup⟩,fun b hb hy => ?_⟩
      rcases mem_cons.mp hb with rfl | hb
      · exact hbefore hy
      · exact hrest b hb (hkept b hy)

end SchedulerSpec

/-- Every run of calls on a scheduler, its handles and its iterators returns without a panic,
and is a run of the specification: a dispatch yields the pending events that are due, in
order, and nothing else changes what is pending but adding, cancelling, moving and clearing.
No event is yielded twice. -/
theorem scheduler_runs (ops : List (SchedulerUser.Op E)) :
    ∃ replies s p, runAll SchedulerUser.step ops SchedulerUser.start = .ok (replies,s) ∧
      RunsTo SchedulerSpec.Step ops replies SchedulerSpec.start p ∧
      (replies.filterMap SchedulerUser.Reply.event).Nodup := by
  obtain ⟨replies,s,p,hrun,hspec,_⟩ :=
    runAll_simulates Follows (fun op s p h => h.simulates op) ops Follows.start
  exact ⟨replies,s,p,hrun,hspec,(SchedulerSpec.yielded_once hspec fun _ _ => rfl).1⟩

end
end Tailnet

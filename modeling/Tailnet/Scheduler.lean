import Tailnet.Lib.Result

/-! A scheduler of future events. Events are kept by descending start of their time
range, so that the events that are due are the end of the list. -/
namespace Tailnet
open List

/-- Instants and durations, in nanoseconds. -/
abbrev Instant := ℕ

@[irreducible] def Instant.ofSecs (secs : ℕ) : Instant := secs*10^9

@[irreducible] def Instant.ofMillis (millis : ℕ) : Instant := millis*10^6

/-- A range of time between two instants, both included. -/
structure TimeRange where
  start : Instant
  stop : Instant
  start_le_stop : start ≤ stop
  deriving DecidableEq

namespace TimeRange

def new (start stop : Instant) : Result TimeRange :=
  if h : start ≤ stop then .ok ⟨start,stop,h⟩ else .error .assertion

/-- A time range centered on `t`, clamped to `t` where a bound does not exist. -/
def newAround (t plusMinus : Instant) : Result TimeRange :=
  new (if plusMinus ≤ t then t - plusMinus else t) (t + plusMinus)

def contains (r : TimeRange) (t : Instant) : Bool := t ≥ r.start && t ≤ r.stop

end TimeRange

variable {E : Type}

/-- An event, with the address at which it was allocated. -/
structure FutureEvent (E : Type) where
  when : TimeRange
  what : E
  address : ℕ
  deriving DecidableEq

/-- A handle on an event, which may have been dispatched since. -/
structure Handle where
  address : ℕ
  deriving DecidableEq

structure Scheduler (E : Type) where
  events : List (FutureEvent E)
  /-- the address of the next event -/
  fresh : ℕ

namespace Scheduler

def default : Scheduler E := ⟨[],0⟩

/-- The index of the first event that starts at `t` or before. -/
def partitionPoint (events : List (FutureEvent E)) (t : Instant) : ℕ :=
  (events.takeWhile fun e => e.when.start > t).length

/-- The scan of `find`, over the events from `idx` on. -/
def findFrom (event : FutureEvent E) : ℕ → List (FutureEvent E) → Option ℕ
  | _,[] => none
  | idx,other::events =>
    if other.when.start ≠ event.when.start then none
    else if other.address = event.address then some idx
    else findFrom event (idx+1) events

def find (events : List (FutureEvent E)) (event : FutureEvent E) : Option ℕ :=
  let idx := partitionPoint events event.when.start
  findFrom event idx (events.drop idx)

def add (s : Scheduler E) (when : TimeRange) (what : E) : Handle × Scheduler E :=
  let idx := partitionPoint s.events when.start
  (⟨s.fresh⟩,⟨s.events.insertIdx idx ⟨when,what,s.fresh⟩,s.fresh+1⟩)

/-- The events that start at `now` or before, the earliest first. -/
def due (s : Scheduler E) (now : Instant) : List (FutureEvent E) :=
  (s.events.drop (partitionPoint s.events now)).reverse

/-- The events that are due at `now`, which leave the scheduler. -/
def dispatch (s : Scheduler E) (now : Instant) : List E × Scheduler E :=
  let idx := partitionPoint s.events now
  ((s.events.drop idx).reverse.map FutureEvent.what,{ s with events := s.events.take idx })

/-- Cancel an event. Nothing happens if it is not scheduled any more. -/
def cancel (s : Scheduler E) (handle : Handle) : Scheduler E :=
  match s.events.find? (fun e => e.address = handle.address) with
  | none => s
  | some event =>
    match find s.events event with
    | none => s
    | some idx => { s with events := s.events.eraseIdx idx }

/-- Move an event to a new time range, unless it is not scheduled any more. -/
def reschedule (s : Scheduler E) (handle : Handle) (when : TimeRange) :
    Option Handle × Scheduler E :=
  match s.events.find? (fun e => e.address = handle.address) with
  | none => (none,s)
  | some event =>
    match find s.events event with
    | none => (none,s)
    | some idx =>
      let events := s.events.eraseIdx idx
      let events := events.insertIdx (partitionPoint events when.start) ⟨when,event.what,event.address⟩
      (some handle,⟨events,s.fresh⟩)

def clear (s : Scheduler E) : Scheduler E := { s with events := [] }

/-- The loop of `next_dispatch_range`, over the events by ascending start. -/
def latestStop : Instant → List (FutureEvent E) → Instant
  | stop,[] => stop
  | stop,e::events => if e.when.start > stop then stop else latestStop (min stop e.when.stop) events

def nextDispatchRange (s : Scheduler E) : Result (Option TimeRange) :=
  match s.events.reverse with
  | [] => .ok none
  | e::events => some <$> TimeRange.new e.when.start (latestStop e.when.stop events)

def nextDispatch (s : Scheduler E) : Result (Option Instant) := do
  let range ← s.nextDispatchRange
  return range.map TimeRange.stop

/-- Events are kept by descending start, each at an address of its own. -/
structure Sorted (events : List (FutureEvent E)) : Prop where
  starts : events.Pairwise fun e f => f.when.start ≤ e.when.start
  addresses : (events.map FutureEvent.address).Nodup

variable {events : List (FutureEvent E)} {event : FutureEvent E}

theorem sorted_nil : Sorted ([] : List (FutureEvent E)) := ⟨List.Pairwise.nil,nodup_nil⟩

theorem Sorted.sublist {events' : List (FutureEvent E)} (h : Sorted events)
    (hs : events'.Sublist events) : Sorted events' :=
  ⟨h.starts.sublist hs,h.addresses.sublist (hs.map _)⟩

theorem Sorted.eq_of_address (h : Sorted events) {e f : FutureEvent E} (he : e ∈ events)
    (hf : f ∈ events) (heq : e.address = f.address) : e = f :=
  inj_on_of_nodup_map h.addresses he hf heq

theorem partitionPoint_cons_of_lt {t : Instant} (h : t < event.when.start) :
    partitionPoint (event::events) t = partitionPoint events t + 1 := by
  simp [partitionPoint,h]

theorem partitionPoint_cons_of_le {t : Instant} (h : event.when.start ≤ t) :
    partitionPoint (event::events) t = 0 := by
  simp [partitionPoint,h]

/-- The events before the partition point start after `t`, and the others do not. -/
theorem Sorted.take_partitionPoint (h : Sorted events) (t : Instant) :
    events.take (partitionPoint events t) = events.filter (fun e => e.when.start > t) ∧
    events.drop (partitionPoint events t) = events.filter fun e => e.when.start ≤ t := by
  obtain ⟨hstarts,-⟩ := h
  induction events with
  | nil => exact ⟨rfl,rfl⟩
  | cons e events ih =>
    obtain ⟨hhead,htail⟩ := pairwise_cons.mp hstarts
    by_cases he : e.when.start > t
    · rw [partitionPoint_cons_of_lt he,take_succ_cons,drop_succ_cons,(ih htail).1,(ih htail).2]
      simp [he]
    · have hall : ∀ f ∈ e::events, f.when.start ≤ t := by
        intro f hf
        rcases mem_cons.mp hf with rfl | hf
        · exact not_lt.mp he
        · exact (hhead f hf).trans (not_lt.mp he)
      rw [partitionPoint_cons_of_le (not_lt.mp he),take_zero,drop_zero]
      constructor
      · symm
        exact filter_eq_nil_iff.mpr fun f hf => by simpa using hall f hf
      · symm
        exact filter_eq_self.mpr fun f hf => by simpa using hall f hf

theorem partitionPoint_le (events : List (FutureEvent E)) (t : Instant) :
    partitionPoint events t ≤ events.length := takeWhile_sublist _ |>.length_le

/-- An event is inserted between those that start later and the others. -/
theorem insertIdx_partitionPoint (events : List (FutureEvent E)) (t : Instant)
    (event : FutureEvent E) :
    events.insertIdx (partitionPoint events t) event =
      events.take (partitionPoint events t) ++ event::events.drop (partitionPoint events t) := by
  induction events with
  | nil => rfl
  | cons e events ih =>
    by_cases he : e.when.start > t
    · rw [partitionPoint_cons_of_lt he,insertIdx_succ_cons,ih]
      rfl
    · rw [partitionPoint_cons_of_le (not_lt.mp he)]
      rfl

theorem mem_insertIdx_partitionPoint {t : Instant} {e : FutureEvent E} :
    e ∈ events.insertIdx (partitionPoint events t) event ↔ e = event ∨ e ∈ events :=
  mem_insertIdx (partitionPoint_le events t)

theorem Sorted.insert (h : Sorted events) (hnew : event.address ∉ events.map FutureEvent.address) :
    Sorted (events.insertIdx (partitionPoint events event.when.start) event) := by
  obtain ⟨htake,hdrop⟩ := h.take_partitionPoint event.when.start
  refine ⟨?_,?_⟩
  · rw [insertIdx_partitionPoint,htake,hdrop]
    refine pairwise_append.mpr ⟨h.starts.filter _,pairwise_cons.mpr
      ⟨fun f hf => ?_,h.starts.filter _⟩,fun e he f hf => ?_⟩
    · simpa using (mem_filter.mp hf).2
    · have he : event.when.start < e.when.start := by simpa using (mem_filter.mp he).2
      rcases mem_cons.mp hf with rfl | hf
      · exact he.le
      · have hf : f.when.start ≤ event.when.start := by simpa using (mem_filter.mp hf).2
        exact hf.trans he.le
  · have hperm := (perm_insertIdx event events (partitionPoint_le events event.when.start)).map
      FutureEvent.address
    rw [hperm.nodup_iff,map_cons,nodup_cons]
    exact ⟨hnew,h.addresses⟩

theorem Sorted.findFrom_eq (h : Sorted events) (hmem : event ∈ events)
    (hlate : ∀ e ∈ events, e.when.start ≤ event.when.start) (idx : ℕ) :
    ∃ before after, events = before ++ event::after ∧
      findFrom event idx events = some (idx + before.length) := by
  induction events generalizing idx with
  | nil => cases hmem
  | cons e events ih =>
    have hstart : e.when.start = event.when.start := by
      refine le_antisymm (hlate e mem_cons_self) ?_
      rcases mem_cons.mp hmem with rfl | htail
      · exact le_refl _
      · exact (pairwise_cons.mp h.starts).1 event htail
    by_cases ha : e.address = event.address
    · obtain rfl := h.eq_of_address mem_cons_self hmem ha
      exact ⟨[],events,rfl,by simp [findFrom]⟩
    · have htail : event ∈ events := (mem_cons.mp hmem).resolve_left fun heq => ha (heq ▸ rfl)
      obtain ⟨before,after,hsplit,hfind⟩ := ih (h.sublist (sublist_cons_self e events)) htail
        (fun f hf => hlate f (mem_cons_of_mem e hf)) (idx+1)
      refine ⟨e::before,after,by rw [hsplit,cons_append],?_⟩
      rw [findFrom,if_neg (not_not.mpr hstart),if_neg ha,hfind,length_cons]
      congr 1
      omega

theorem findFrom_eq_none (hnone : ∀ e ∈ events, e.address ≠ event.address) (idx : ℕ) :
    findFrom event idx events = none := by
  induction events generalizing idx with
  | nil => rfl
  | cons e events ih =>
    rw [findFrom]
    split
    · rfl
    · rw [if_neg (hnone e mem_cons_self)]
      exact ih (fun f hf => hnone f (mem_cons_of_mem e hf)) (idx+1)

theorem Sorted.find_eq (h : Sorted events) (hmem : event ∈ events) :
    ∃ before after, events = before ++ event::after ∧ find events event = some before.length := by
  obtain ⟨htake,hdrop⟩ := h.take_partitionPoint event.when.start
  have hlate : ∀ e ∈ events.drop (partitionPoint events event.when.start),
      e.when.start ≤ event.when.start := by
    rw [hdrop]
    exact fun e he => by simpa using (mem_filter.mp he).2
  have hmem : event ∈ events.drop (partitionPoint events event.when.start) := by
    rw [hdrop]
    exact mem_filter.mpr ⟨hmem,by simp⟩
  obtain ⟨before,after,hsplit,hfind⟩ := (h.sublist (drop_sublist _ _)).findFrom_eq hmem hlate
    (partitionPoint events event.when.start)
  refine ⟨events.take (partitionPoint events event.when.start) ++ before,after,?_,?_⟩
  · rw [append_assoc,← hsplit,take_append_drop]
  · rw [find,hfind,length_append,length_take_of_le (partitionPoint_le _ _)]

theorem find_eq_none (hnone : ∀ e ∈ events, e.address ≠ event.address) : find events event = none :=
  findFrom_eq_none (fun e he => hnone e (mem_of_mem_drop he)) _

theorem Sorted.eraseIdx_find (h : Sorted events) (hmem : event ∈ events) :
    ∃ idx, find events event = some idx ∧ (events.eraseIdx idx).Sublist events ∧
      ∀ e, e ∈ events.eraseIdx idx ↔ e ∈ events ∧ e.address ≠ event.address := by
  obtain ⟨before,after,rfl,hfind⟩ := h.find_eq hmem
  refine ⟨before.length,hfind,eraseIdx_sublist _ _,fun e => ?_⟩
  have herase : (before ++ event::after).eraseIdx before.length = before ++ after := by
    simp [eraseIdx_append_of_length_le]
  have hunique : ∀ e ∈ before ++ after, e.address ≠ event.address := by
    have hnodup := h.addresses
    rw [map_append,map_cons,nodup_middle,nodup_cons,← map_append] at hnodup
    exact fun e he heq => hnodup.1 (heq ▸ mem_map_of_mem he)
  rw [herase]
  constructor
  · intro he
    refine ⟨?_,hunique e he⟩
    rcases mem_append.mp he with he | he
    · exact mem_append_left _ he
    · exact mem_append_right _ (mem_cons_of_mem _ he)
  · rintro ⟨he,hne⟩
    rcases mem_append.mp he with he | he
    · exact mem_append_left _ he
    · exact mem_append_right _ ((mem_cons.mp he).resolve_left fun heq => hne (heq ▸ rfl))

/-- An event is scheduled, or it is one of those that a dispatch has still to handle. -/
def Pending (s : Scheduler E) (due : List (FutureEvent E)) (e : FutureEvent E) : Prop :=
  e ∈ s.events ∨ e ∈ due

/-- Scheduled events and those that are due have addresses of their own, from before the next
one. -/
structure Tidy (s : Scheduler E) (due : List (FutureEvent E)) : Prop where
  sorted : Sorted s.events
  fresh : ∀ e, s.Pending due e → e.address < s.fresh
  unique : ((s.events ++ due).map FutureEvent.address).Nodup

variable {s : Scheduler E} {due : List (FutureEvent E)} {e f : FutureEvent E}

theorem tidy_default : (default : Scheduler E).Tidy [] :=
  ⟨sorted_nil,(fun _ h => by rcases h with h | h <;> cases h),nodup_nil⟩

theorem Tidy.eq_of_address (h : s.Tidy due) (he : s.Pending due e) (hf : s.Pending due f)
    (heq : e.address = f.address) : e = f :=
  inj_on_of_nodup_map h.unique (mem_append.mpr he) (mem_append.mpr hf) heq

theorem mem_add {when : TimeRange} {what : E} :
    e ∈ (s.add when what).2.events ↔ e = ⟨when,what,s.fresh⟩ ∨ e ∈ s.events :=
  mem_insertIdx_partitionPoint

theorem Tidy.add (h : s.Tidy due) (when : TimeRange) (what : E) : (s.add when what).2.Tidy due where
  sorted := by
    have hnew : (⟨when,what,s.fresh⟩ : FutureEvent E).address ∉ s.events.map FutureEvent.address := by
      intro hmem
      obtain ⟨e,he,heq⟩ := mem_map.mp hmem
      exact (h.fresh e (.inl he)).ne heq
    exact h.sorted.insert hnew
  fresh e he := by
    have hfresh : (s.add when what).2.fresh = s.fresh + 1 := rfl
    rcases he with he | he
    · rcases mem_add.mp he with rfl | he
      · exact Nat.lt_succ_self _
      · have := h.fresh e (.inl he)
        omega
    · have := h.fresh e (.inr he)
      omega
  unique := by
    have hperm : ((s.add when what).2.events ++ due).Perm
        (⟨when,what,s.fresh⟩::(s.events ++ due)) :=
      (perm_insertIdx _ _ (partitionPoint_le _ _)).append_right due
    rw [(hperm.map FutureEvent.address).nodup_iff,map_cons,nodup_cons]
    refine ⟨fun hmem => ?_,h.unique⟩
    obtain ⟨e,he,heq⟩ := mem_map.mp hmem
    exact (h.fresh e (mem_append.mp he)).ne heq

theorem Sorted.cancel (h : Sorted s.events) (handle : Handle) :
    (s.cancel handle).events.Sublist s.events ∧
      ∀ e, e ∈ (s.cancel handle).events ↔ e ∈ s.events ∧ e.address ≠ handle.address := by
  rw [Scheduler.cancel]
  cases hfind : s.events.find? (fun e => e.address = handle.address) with
  | none =>
    have hnone := List.find?_eq_none.mp hfind
    refine ⟨List.Sublist.refl _,fun e => ⟨fun he => ⟨he,by simpa using hnone e he⟩,And.left⟩⟩
  | some event =>
    have haddress : event.address = handle.address := by simpa using List.find?_some hfind
    obtain ⟨idx,hidx,hsub,hmem⟩ := h.eraseIdx_find (mem_of_find?_eq_some hfind)
    simp only [hidx,← haddress]
    exact ⟨hsub,hmem⟩

theorem Tidy.mem_cancel (h : s.Tidy due) {handle : Handle} :
    e ∈ (s.cancel handle).events ↔ e ∈ s.events ∧ e.address ≠ handle.address :=
  (h.sorted.cancel handle).2 e

theorem fresh_cancel (s : Scheduler E) (handle : Handle) : (s.cancel handle).fresh = s.fresh := by
  rw [Scheduler.cancel]
  split
  · rfl
  · split <;> rfl

theorem Tidy.cancel (h : s.Tidy due) (handle : Handle) : (s.cancel handle).Tidy due where
  sorted := h.sorted.sublist (h.sorted.cancel handle).1
  fresh e he := by
    rw [fresh_cancel]
    exact h.fresh e (he.imp_left fun he => (h.mem_cancel.mp he).1)
  unique := h.unique.sublist (((h.sorted.cancel handle).1.append_right due).map _)

/-- The events that are due leave the scheduler, and are still pending. -/
theorem pending_dispatch (now : Instant) :
    (s.dispatch now).2.Pending (s.due now) e ↔ s.Pending [] e := by
  have hsplit := take_append_drop (partitionPoint s.events now) s.events
  have hmem : e ∈ s.events ↔ e ∈ s.events.take (partitionPoint s.events now) ∨
      e ∈ s.events.drop (partitionPoint s.events now) := by
    rw [← mem_append,hsplit]
  simp [Pending,dispatch,due,hmem]

theorem Tidy.dispatch (h : s.Tidy []) (now : Instant) :
    (s.dispatch now).2.Tidy (s.due now) where
  sorted := h.sorted.sublist (take_sublist _ _)
  fresh e he := h.fresh e ((pending_dispatch now).mp he)
  unique := by
    have hperm : ((s.dispatch now).2.events ++ s.due now).Perm s.events := by
      have hreverse : (s.due now).Perm (s.events.drop (partitionPoint s.events now)) :=
        reverse_perm _
      have hsplit := take_append_drop (partitionPoint s.events now) s.events
      exact (hreverse.append_left _).trans (.of_eq hsplit)
    rw [(hperm.map FutureEvent.address).nodup_iff]
    exact h.sorted.addresses

theorem Tidy.tail (h : s.Tidy (e::due)) : s.Tidy due where
  sorted := h.sorted
  fresh f hf := h.fresh f (hf.imp_right (mem_cons_of_mem e))
  unique := h.unique.sublist (((sublist_cons_self e due).append_left _).map _)

theorem Tidy.pending_tail (h : s.Tidy (e::due)) : s.Pending due f ↔ s.Pending (e::due) f ∧ f ≠ e := by
  have hnodup : e ∉ s.events ++ due := by
    have hunique := h.unique
    rw [map_append,map_cons,nodup_middle,nodup_cons,← map_append] at hunique
    exact fun he => hunique.1 (mem_map_of_mem he)
  rw [mem_append,not_or] at hnodup
  simp only [Pending,mem_cons]
  constructor
  · rintro (hf | hf)
    · exact ⟨.inl hf,fun heq => hnodup.1 (heq ▸ hf)⟩
    · exact ⟨.inr (.inr hf),fun heq => hnodup.2 (heq ▸ hf)⟩
  · rintro ⟨hf | hf | hf,hne⟩
    · exact .inl hf
    · exact absurd hf hne
    · exact .inr hf

theorem mem_due (h : Sorted s.events) {now : Instant} :
    e ∈ s.due now ↔ e ∈ s.events ∧ e.when.start ≤ now := by
  rw [due,mem_reverse,(h.take_partitionPoint now).2,mem_filter,decide_eq_true_iff]

theorem latestStop_le (stop : Instant) (events : List (FutureEvent E)) :
    latestStop stop events ≤ stop := by
  induction events generalizing stop with
  | nil => exact le_rfl
  | cons e events ih =>
    rw [latestStop]
    split
    · exact le_rfl
    · exact (ih _).trans (min_le_left _ _)

theorem latestStop_le_stop {stop : Instant} {events : List (FutureEvent E)}
    (h : events.Pairwise fun e f => e.when.start ≤ f.when.start) (he : e ∈ events) :
    latestStop stop events ≤ e.when.stop := by
  induction events generalizing stop with
  | nil => cases he
  | cons f events ih =>
    obtain ⟨hhead,htail⟩ := pairwise_cons.mp h
    rw [latestStop]
    split
    · rename_i hlate
      have hstart : f.when.start ≤ e.when.start := by
        rcases mem_cons.mp he with rfl | he
        · exact le_rfl
        · exact hhead e he
      exact hlate.le.trans (hstart.trans e.when.start_le_stop)
    · rcases mem_cons.mp he with rfl | he
      · exact (latestStop_le _ _).trans (min_le_right _ _)
      · exact ih htail he

theorem le_latestStop {t stop : Instant} {events : List (FutureEvent E)} (hstop : t ≤ stop)
    (h : ∀ e ∈ events, t ≤ e.when.start) : t ≤ latestStop stop events := by
  induction events generalizing stop with
  | nil => exact hstop
  | cons e events ih =>
    rw [latestStop]
    split
    · exact hstop
    · have he := (h e mem_cons_self).trans e.when.start_le_stop
      exact ih (le_min hstop he) fun f hf => h f (mem_cons_of_mem e hf)

theorem latestStop_eq (stop : Instant) (events : List (FutureEvent E)) :
    latestStop stop events = stop ∨ ∃ e ∈ events, latestStop stop events = e.when.stop := by
  induction events generalizing stop with
  | nil => exact .inl rfl
  | cons e events ih =>
    rw [latestStop]
    split
    · exact .inl rfl
    · rcases ih (min stop e.when.stop) with heq | ⟨f,hf,heq⟩
      · rw [heq]
        rcases min_choice stop e.when.stop with hmin | hmin
        · exact .inl hmin
        · exact .inr ⟨e,mem_cons_self,hmin⟩
      · exact .inr ⟨f,mem_cons_of_mem e hf,heq⟩

/-- The range in which to call `dispatch` next goes from the least start to the least end of a
pending event. -/
theorem Sorted.nextDispatchRange_least (h : Sorted s.events) (hne : s.events ≠ []) :
    ∃ range, s.nextDispatchRange = .ok (some range) ∧
      (∃ e ∈ s.events, range.start = e.when.start) ∧ (∃ e ∈ s.events, range.stop = e.when.stop) ∧
      ∀ e ∈ s.events, range.start ≤ e.when.start ∧ range.stop ≤ e.when.stop := by
  have hascending : s.events.reverse.Pairwise fun e f => e.when.start ≤ f.when.start :=
    pairwise_reverse.mpr h.starts
  rw [Scheduler.nextDispatchRange]
  simp only [← @mem_reverse _ _ s.events]
  cases hevents : s.events.reverse with
  | nil => exact absurd (reverse_eq_nil_iff.mp hevents) hne
  | cons f events =>
    rw [hevents] at hascending
    obtain ⟨hhead,htail⟩ := pairwise_cons.mp hascending
    have hrange : f.when.start ≤ latestStop f.when.stop events :=
      le_latestStop f.when.start_le_stop hhead
    refine ⟨⟨_,_,hrange⟩,by simp [TimeRange.new,hrange],⟨f,mem_cons_self,rfl⟩,?_,?_⟩
    · rcases latestStop_eq f.when.stop events with heq | ⟨e,he,heq⟩
      · exact ⟨f,mem_cons_self,heq⟩
      · exact ⟨e,mem_cons_of_mem f he,heq⟩
    · intro e he
      rcases mem_cons.mp he with rfl | he
      · exact ⟨le_rfl,latestStop_le _ _⟩
      · exact ⟨hhead e he,latestStop_le_stop htail he⟩

theorem Sorted.nextDispatchRange (h : Sorted s.events) (he : e ∈ s.events) :
    ∃ range, s.nextDispatchRange = .ok (some range) ∧ range.start ≤ e.when.start ∧
      range.stop ≤ e.when.stop := by
  obtain ⟨range,hrange,-,-,hleast⟩ := h.nextDispatchRange_least (ne_nil_of_mem he)
  exact ⟨range,hrange,hleast e he⟩

end Scheduler
end Tailnet

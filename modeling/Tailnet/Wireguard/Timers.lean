import Tailnet.Wireguard.SessionIds

/-! The timers of an endpoint. A law relates what a peer holds, a handshake and the handle of a
keepalive, to the events that are pending for it, in the scheduler or among those that a
dispatch has still to handle. If each transition of a single peer keeps a law, so does every
run: the events of a peer are its own. -/
namespace Tailnet.Wireguard
open Prog Ctx Call Function Scheduler

/-- What a peer holds for its timers: its handshake, and the handle of a keepalive. -/
abbrev Timers := Handshake × Option Handle

/-- A law for the pending events of a peer, which may not be there. -/
abbrev TimerLaw := PeerId → Option Timers → (FutureEvent Event → Prop) → Prop

def Peer.timers (peer : Peer) : Timers := (peer.handshake,peer.keepalive)

/-- The transitions of a single peer keep a law, where only the incidents in `may` happen. -/
structure TimerRule (may : Incident → Prop) (law : TimerLaw) : Prop where
  /-- a law is about the events of the peer only -/
  congr : ∀ {p t P P'}, (∀ e : FutureEvent Event, e.what.peer = p → (P e ↔ P' e)) →
    law p t P → law p t P'
  start : ∀ {p}, law p none fun _ => False
  insert : ∀ {p P}, law p none P → law p (some (.none,none)) P
  remove : ∀ {p h k P}, law p (some (h,k)) P → (h.timeout.isSome → may .orphaned) → law p none P
  initiate : ∀ {p k P} (e : FutureEvent Event) (sent : SentHandshake) (mac : Mac),
    e.what = .handshakeTimeout p → law p (some (.none,k)) P →
    law p (some (.initiated sent ⟨e.address⟩ mac,k)) fun f => f = e ∨ P f
  respond : ∀ {p h k P} (pair : SessionPair), may h.answering → law p (some (h,k)) P →
    law p (some (.responded pair,k)) P
  finish : ∀ {p sent handle mac k P}, law p (some (.initiated sent handle mac,k)) P →
    (∀ e : FutureEvent Event, P e → e.address = handle.address → e.what = .handshakeTimeout p) →
    law p (some (.none,k)) fun e => P e ∧ e.address ≠ handle.address
  drop : ∀ {p h k P}, law p (some (h,k)) P → (h.timeout.isSome → may .forged ∨ may .orphaned) →
    law p (some (.none,k)) P
  arm : ∀ {p h P} (e : FutureEvent Event), e.what = .maybeSendKeepalive p →
    law p (some (h,none)) P → law p (some (h,some ⟨e.address⟩)) fun f => f = e ∨ P f
  /-- an event for a peer that is not there -/
  skip : ∀ {p P} (e : FutureEvent Event), e.what.peer = p → law p none P →
    law p none fun f => P f ∧ f ≠ e
  /-- a timeout that finds no handshake -/
  idle : ∀ {p k P} (e : FutureEvent Event), e.what = .handshakeTimeout p → P e →
    law p (some (.none,k)) P → law p (some (.none,k)) fun f => P f ∧ f ≠ e
  abort : ∀ {p h k P} (e : FutureEvent Event), e.what = .handshakeTimeout p → P e →
    (∀ f, P f → f.address = e.address → f = e) → law p (some (h,k)) P →
    law p (some (.none,k)) fun f => P f ∧ f ≠ e
  lapse : ∀ {p h k P} (e : FutureEvent Event), e.what = .maybeSendKeepalive p → may .lapsed →
    law p (some (h,k)) P → law p (some (h,k)) fun f => P f ∧ f ≠ e
  sent : ∀ {p h k P} (e : FutureEvent Event), e.what = .maybeSendKeepalive p →
    law p (some (h,k)) P → law p (some (h,none)) fun f => P f ∧ f ≠ e

/-- The law of a kind of event: one is pending whenever the timers of the peer satisfy `holds`. -/
def Expects (holds : Timers → Bool) (what : PeerId → Event) : TimerLaw := fun p t P =>
  ∀ timers, t = some timers → holds timers = true → ∃ e, P e ∧ e.what = what p

namespace Expects
variable {holds : Timers → Bool} {what : PeerId → Event} {p : PeerId} {t t' : Timers}
  {P P' : FutureEvent Event → Prop}

theorem none : Expects holds what p none P := fun _ ht => by cases ht

theorem of_not (h : holds t = false) : Expects holds what p (some t) P := by
  rintro _ ⟨⟩ ht
  rw [h] at ht
  cases ht

theorem mono (h : Expects holds what p (some t) P) (ht : holds t' = true → holds t = true)
    (hP : ∀ e, e.what = what p → P e → P' e) : Expects holds what p (some t') P' := by
  rintro _ ⟨⟩ ht'
  obtain ⟨e,he,hwhat⟩ := h t rfl (ht ht')
  exact ⟨e,hP e hwhat he,hwhat⟩

/-- An event of another kind is handled. -/
theorem without {e : FutureEvent Event} (h : Expects holds what p (some t) P)
    (ht : holds t' = true → holds t = true) (he : e.what ≠ what p) :
    Expects holds what p (some t') fun f => P f ∧ f ≠ e := by
  refine h.mono ht fun f hwhat hf => ⟨hf,?_⟩
  rintro rfl
  exact he hwhat

theorem congr {t : Option Timers} (hpeer : (what p).peer = p)
    (hiff : ∀ e : FutureEvent Event, e.what.peer = p → (P e ↔ P' e))
    (h : Expects holds what p t P) : Expects holds what p t P' := by
  cases t with
  | none => exact .none
  | some t => exact h.mono id fun e hwhat => (hiff e (by rw [hwhat,hpeer])).mp

end Expects

/-- The transitions of the timers of a peer, with the scheduler, while the events in `due` are
still to be handled. -/
inductive TimerStep (may : Incident → Prop) (p : PeerId) (due : List (FutureEvent Event)) :
    Timers × Scheduler Event → Timers × Scheduler Event → Prop
  | same {t : Timers} {s : Scheduler Event} : TimerStep may p due (t,s) (t,s)
  | initiate {k : Option Handle} {s : Scheduler Event} (when : TimeRange) (sent : SentHandshake)
    (mac : Mac) : TimerStep may p due ((.none,k),s)
      ((.initiated sent (s.add when (.handshakeTimeout p)).1 mac,k),
        (s.add when (.handshakeTimeout p)).2)
  | respond {h : Handshake} {k : Option Handle} {s : Scheduler Event} (pair : SessionPair)
    (incident : may h.answering) : TimerStep may p due ((h,k),s) ((.responded pair,k),s)
  | finish {sent : SentHandshake} {handle : Handle} {mac : Mac} {k : Option Handle}
    {s : Scheduler Event} (quiet : due = []) :
    TimerStep may p due ((.initiated sent handle mac,k),s) ((.none,k),s.cancel handle)
  | drop {h : Handshake} {k : Option Handle} {s : Scheduler Event}
    (incident : h.timeout.isSome → may .forged ∨ may .orphaned) :
    TimerStep may p due ((h,k),s) ((.none,k),s)
  | arm {h : Handshake} {s : Scheduler Event} (when : TimeRange) :
    TimerStep may p due ((h,none),s) ((h,some (s.add when (.maybeSendKeepalive p)).1),
      (s.add when (.maybeSendKeepalive p)).2)

/-- The timer of an initiated handshake is its own: no other event has its address. -/
def OwnTimer (p : PeerId) (h : Handshake) (s : Scheduler Event) (due : List (FutureEvent Event)) :
    Prop :=
  ∀ sent handle mac, h = .initiated sent handle mac → handle.address < s.fresh ∧
    ∀ e, s.Pending due e → e.address = handle.address → e.what = .handshakeTimeout p

/-- The pending events change for one peer only. -/
structure OwnEvents (p : PeerId) (s : Scheduler Event) (due : List (FutureEvent Event))
    (s' : Scheduler Event) (due' : List (FutureEvent Event)) : Prop where
  tidy : s'.Tidy due'
  fresh : s.fresh ≤ s'.fresh
  grow : ∀ e, s'.Pending due' e → s.Pending due e ∨ s.fresh ≤ e.address
  others : ∀ e, e.what.peer ≠ p → (s.Pending due e ↔ s'.Pending due' e)

variable {p q : PeerId} {h : Handshake} {s s' : Scheduler Event}
  {due due' : List (FutureEvent Event)} {e : FutureEvent Event}

theorem OwnTimer.of_not_initiated (hnone : h.timeout = none) : OwnTimer p h s due := by
  rintro sent handle mac rfl
  cases hnone

theorem OwnTimer.events (ho : OwnTimer p h s due) (he : OwnEvents q s due s' due') :
    OwnTimer p h s' due' := by
  intro sent handle mac hh
  obtain ⟨hlt,hsame⟩ := ho sent handle mac hh
  refine ⟨hlt.trans_le he.fresh,fun e hpending heq => ?_⟩
  rcases he.grow e hpending with hpending | hlate
  · exact hsame e hpending heq
  · omega

theorem OwnEvents.refl (h : s.Tidy due) : OwnEvents p s due s due :=
  ⟨h,le_rfl,fun _ he => .inl he,fun _ _ => Iff.rfl⟩

theorem pending_add {when : TimeRange} {what : Event} :
    (s.add when what).2.Pending due e ↔ e = ⟨when,what,s.fresh⟩ ∨ s.Pending due e := by
  rw [Scheduler.Pending,mem_add,or_assoc]
  rfl

theorem OwnEvents.add (h : s.Tidy due) (when : TimeRange) {what : Event} (hp : what.peer = p) :
    OwnEvents p s due (s.add when what).2 due where
  tidy := h.add when what
  fresh := Nat.le_succ _
  grow e he := by
    rcases pending_add.mp he with rfl | he
    · exact .inr le_rfl
    · exact .inl he
  others e he := by
    rw [pending_add]
    refine ⟨.inr,fun hpending => hpending.resolve_left ?_⟩
    rintro rfl
    exact he hp

theorem pending_cancel (h : s.Tidy due) {handle : Handle}
    (hdue : ∀ e ∈ due, e.address ≠ handle.address) :
    (s.cancel handle).Pending due e ↔ s.Pending due e ∧ e.address ≠ handle.address := by
  rw [Scheduler.Pending,h.mem_cancel,Scheduler.Pending]
  constructor
  · rintro (⟨he,hne⟩ | he)
    · exact ⟨.inl he,hne⟩
    · exact ⟨.inr he,hdue e he⟩
  · rintro ⟨he | he,hne⟩
    · exact .inl ⟨he,hne⟩
    · exact .inr he

theorem OwnEvents.cancel (h : s.Tidy []) {handle : Handle}
    (hown : ∀ e, s.Pending [] e → e.address = handle.address → e.what.peer = p) :
    OwnEvents p s [] (s.cancel handle) [] where
  tidy := h.cancel handle
  fresh := (fresh_cancel s handle).ge
  grow e he := .inl ((pending_cancel h (by simp)).mp he).1
  others e he := by
    rw [pending_cancel h (by simp)]
    exact ⟨fun hpending => ⟨hpending,fun heq => he (hown e hpending heq)⟩,And.left⟩

theorem OwnEvents.tail (h : s.Tidy (e::due)) (hp : e.what.peer = p) :
    OwnEvents p s (e::due) s due where
  tidy := h.tail
  fresh := le_rfl
  grow f hf := .inl (h.pending_tail.mp hf).1
  others f hf := by
    rw [h.pending_tail]
    refine ⟨fun hpending => ⟨hpending,?_⟩,And.left⟩
    rintro rfl
    exact hf hp

/-- A transition of the timers of a peer changes its own events only, and keeps a law. -/
theorem TimerStep.keeps {may : Incident → Prop} {law : TimerLaw} {t t' : Timers}
    (hstep : TimerStep may p due (t,s) (t',s')) (rule : TimerRule may law) (hs : s.Tidy due)
    (hown : OwnTimer p t.1 s due) (hlaw : law p (some t) (s.Pending due)) :
    OwnEvents p s due s' due ∧ OwnTimer p t'.1 s' due ∧ law p (some t') (s'.Pending due) := by
  have hadd : ∀ when what, (fun f => f = ⟨when,what,s.fresh⟩ ∨ s.Pending due f) =
      (s.add when what).2.Pending due := fun when what => funext fun f => propext pending_add.symm
  cases hstep with
  | same => exact ⟨.refl hs,hown,hlaw⟩
  | initiate when sent mac =>
    refine ⟨.add hs when rfl,?_,?_⟩
    · rintro _ _ _ ⟨⟩
      refine ⟨Nat.lt_succ_self _,fun e he heq => ?_⟩
      rcases pending_add.mp he with rfl | he
      · rfl
      · exact absurd heq (hs.fresh e he).ne
    · rw [← hadd]
      exact rule.initiate ⟨when,.handshakeTimeout p,s.fresh⟩ sent mac rfl hlaw
  | respond pair incident =>
    exact ⟨.refl hs,.of_not_initiated rfl,rule.respond pair incident hlaw⟩
  | @finish sent handle mac k _ quiet =>
    subst quiet
    obtain ⟨-,hsame⟩ := hown sent handle mac rfl
    refine ⟨.cancel hs fun e he heq => by rw [hsame e he heq]; rfl,.of_not_initiated rfl,?_⟩
    refine rule.congr (fun e _ => ?_) (rule.finish hlaw hsame)
    exact (pending_cancel hs (by simp)).symm
  | drop incident => exact ⟨.refl hs,.of_not_initiated rfl,rule.drop hlaw incident⟩
  | arm when =>
    have hevents : OwnEvents p s due (s.add when (.maybeSendKeepalive p)).2 due := .add hs when rfl
    refine ⟨hevents,hown.events hevents,?_⟩
    rw [← hadd]
    exact rule.arm ⟨when,.maybeSendKeepalive p,s.fresh⟩ rfl hlaw

theorem TimerStep.fresh_le {may : Incident → Prop} {t t' : Timers}
    (h : TimerStep may p due (t,s) (t',s')) : s.fresh ≤ s'.fresh := by
  cases h with
  | finish quiet => exact (fresh_cancel _ _).ge
  | initiate when sent mac => exact Nat.le_succ _
  | arm when => exact Nat.le_succ _
  | _ => exact le_rfl

theorem orphaned_of_timeout {peer : Peer} (h : peer.handshake.timeout.isSome) :
    .orphaned ∈ peer.shutdownIncident := by
  cases hh : peer.handshake with
  | initiated sent timeout mac => simp [Peer.shutdownIncident,hh]
  | none => simp [hh,Handshake.timeout] at h
  | responded tentative => simp [hh,Handshake.timeout] at h

section
variable [MacPrimitives] {inputs : Packet → Prop}

/-- Without the sessions, a transition of a peer is one of its timers. -/
theorem PeerMove.timerStep {may : Incident → Prop} {peer peer' : Peer}
    {c c' : Ctx} (h : PeerMove may (fun packet => due = [] ∧ inputs packet) (peer,c) (peer',c')) :
    TimerStep may peer.id due (peer.timers,c.state.scheduler) (peer'.timers,c'.state.scheduler) := by
  cases h with
  | initiate when idle free initiation macs =>
    rw [Peer.timers,idle]
    exact .initiate when _ _
  | respond incident free reception indexed response => exact .respond _ incident
  | finish initiated given parsed finished activation =>
    rw [Peer.timers,initiated]
    exact .finish given.1
  | abandon initiated incident => exact .drop fun _ => .inl incident
  | confirm responded given opening nonempty activation =>
    refine .drop fun hsome => ?_
    rw [responded] at hsome
    cases hsome
  | release incident =>
    exact .drop fun hsome => .inr (incident .orphaned (orphaned_of_timeout hsome))
  | arm when idle =>
    rw [Peer.timers,idle]
    exact .arm when
  | _ => exact .same

variable {x y : Dispatch}

theorem CallMove.fresh_le {may : Incident → Prop}
    (h : CallMove may inputs x y) : x.2.state.scheduler.fresh ≤ y.2.state.scheduler.fresh := by
  cases h with
  | peer live move => exact move.timerStep.fresh_le
  | _ => exact le_rfl

theorem CallMoves.fresh_le {may : Incident → Prop}
    (h : CallMoves may inputs x y) : x.2.state.scheduler.fresh ≤ y.2.state.scheduler.fresh := by
  induction h with
  | refl => exact le_rfl
  | tail _ hmove ih => exact ih.trans hmove.fresh_le

/-- Every peer keeps a law for its pending events. -/
structure Dispatch.Timed (law : TimerLaw) (x : Dispatch) : Prop where
  tidy : x.2.state.scheduler.Tidy x.1
  own : ∀ p peer, x.2.peers p = some peer → OwnTimer p peer.handshake x.2.state.scheduler x.1
  lawful : ∀ p, law p ((x.2.peers p).map Peer.timers) (x.2.state.scheduler.Pending x.1)

namespace Dispatch.Timed
variable {may : Incident → Prop} {law : TimerLaw}

theorem change {x y : Dispatch} {id : PeerId} (rule : TimerRule may law) (h : x.Timed law)
    (hpeers : ∀ q, q ≠ id → y.2.peers q = x.2.peers q)
    (hevents : OwnEvents id x.2.state.scheduler x.1 y.2.state.scheduler y.1)
    (hown : ∀ peer, y.2.peers id = some peer →
      OwnTimer id peer.handshake y.2.state.scheduler y.1)
    (hlaw : law id ((y.2.peers id).map Peer.timers) (y.2.state.scheduler.Pending y.1)) :
    y.Timed law where
  tidy := hevents.tidy
  own q peer hq := by
    by_cases hne : q = id
    · subst hne
      exact hown peer hq
    · rw [hpeers q hne] at hq
      exact (h.own q peer hq).events hevents
  lawful q := by
    by_cases hne : q = id
    · subst hne
      exact hlaw
    · rw [hpeers q hne]
      exact rule.congr (fun e he => hevents.others e (he ▸ hne)) (h.lawful q)

variable {c : Call} {id : PeerId} {peer peer' : Peer} {ctx : Ctx}

theorem lawful_live (h : Timed law (due,c)) (live : c.peers id = some peer) :
    law id (some peer.timers) (c.state.scheduler.Pending due) := by
  have hlaw := h.lawful id
  simp only [live,Option.map_some] at hlaw
  exact hlaw

theorem replace (rule : TimerRule may law) (h : Timed law (due,c))
    (hevents : OwnEvents id c.state.scheduler due ctx.state.scheduler due')
    (hown : OwnTimer id peer'.handshake ctx.state.scheduler due')
    (hlaw : law id (some peer'.timers) (ctx.state.scheduler.Pending due')) :
    Timed law (due',⟨ctx,update c.peers id (some peer')⟩) := by
  refine h.change rule (fun q hq => update_of_ne hq _ _) hevents ?_ ?_
  · intro peer hpeer
    cases (update_self id _ c.peers).symm.trans hpeer
    exact hown
  · simp only [update_self,Option.map_some]
    exact hlaw

theorem handle (rule : TimerRule may law) (h : Timed law (e::due,c)) (hp : e.what.peer = id)
    (hsame : ctx.state.scheduler = c.state.scheduler)
    (hown : OwnTimer id peer'.handshake c.state.scheduler (e::due))
    (hlaw : law id (some peer'.timers) fun f => c.state.scheduler.Pending (e::due) f ∧ f ≠ e) :
    Timed law (due,⟨ctx,update c.peers id (some peer')⟩) := by
  have hevents : OwnEvents id c.state.scheduler (e::due) c.state.scheduler due := .tail h.tidy hp
  refine h.replace rule (hsame ▸ hevents) (hsame ▸ hown.events hevents) (hsame ▸ ?_)
  exact rule.congr (fun f _ => h.tidy.pending_tail.symm) hlaw

end Dispatch.Timed

variable {law : TimerLaw}

/-- Each transition of a call keeps a law. -/
theorem CallMove.timed {may : Incident → Prop} (h : CallMove may inputs x y) (rule : TimerRule may law)
    (hs : Sound x.2.peers x.2.state.ids.sessions) (ht : x.Timed law) : y.Timed law := by
  cases h with
  | draw env => exact ⟨ht.tidy,ht.own,ht.lawful⟩
  | @peer due c id peer peer' ctx live move =>
    have hstep := move.timerStep
    rw [(hs id peer live).1] at hstep
    obtain ⟨hevents,hown,hlaw⟩ :=
      hstep.keeps rule ht.tidy (ht.own id peer live) (ht.lawful_live live)
    exact ht.replace rule hevents hown hlaw
  | @take c now =>
    refine ⟨ht.tidy.dispatch now,fun p peer hpeer sent handle mac hh => ?_,fun p => ?_⟩
    · obtain ⟨hlt,hsame⟩ := ht.own p peer hpeer sent handle mac hh
      exact ⟨hlt,fun e he => hsame e ((pending_dispatch now).mp he)⟩
    · exact rule.congr (fun e _ => (pending_dispatch now).symm) (ht.lawful p)
  | @skip due c e absent =>
    have hlaw := ht.lawful e.what.peer
    simp only [absent,Option.map_none] at hlaw
    refine ht.change rule (fun _ _ => rfl) (.tail ht.tidy rfl) ?_ ?_
    · intro peer hpeer
      cases absent.symm.trans hpeer
    · simp only [absent,Option.map_none]
      exact rule.congr (fun f _ => ht.tidy.pending_tail.symm) (rule.skip e rfl hlaw)
  | @idle due c e id peer timeout live none =>
    have hlaw := ht.lawful_live live
    rw [Peer.timers,none] at hlaw
    have hpending : c.state.scheduler.Pending (e::due) e := .inr List.mem_cons_self
    have hhandled : Dispatch.Timed law (due,⟨c.toCtx,update c.peers id (some peer)⟩) := by
      refine ht.handle rule (by rw [timeout]; rfl) rfl (ht.own id peer live) ?_
      rw [Peer.timers,none]
      exact rule.idle e timeout hpending hlaw
    rwa [update_eq_self_iff.mpr live.symm] at hhandled
  | @abort due c e id peer timeout live =>
    have hpending : c.state.scheduler.Pending (e::due) e := .inr List.mem_cons_self
    refine ht.handle rule (by rw [timeout]; rfl) rfl (.of_not_initiated rfl) ?_
    have hlaw := ht.lawful_live live
    exact rule.abort e timeout hpending (fun f hf => ht.tidy.eq_of_address hf hpending) hlaw
  | @lapse due c e id peer keepalive live incident =>
    have hhandled : Dispatch.Timed law (due,⟨c.toCtx,update c.peers id (some peer)⟩) :=
      ht.handle rule (by rw [keepalive]; rfl) rfl (ht.own id peer live)
        (rule.lapse e keepalive incident (ht.lawful_live live))
    rwa [update_eq_self_iff.mpr live.symm] at hhandled
  | @sent due c e id peer keepalive live =>
    have hlaw := ht.lawful_live live
    exact ht.handle rule (by rw [keepalive]; rfl) rfl (ht.own id peer live)
      (rule.sent e keepalive hlaw)

theorem CallMoves.timed {may : Incident → Prop} (h : CallMoves may inputs x y) (rule : TimerRule may law)
    (hs : Sound x.2.peers x.2.state.ids.sessions) (ht : x.Timed law) : y.Timed law := by
  induction h with
  | refl => exact ht
  | tail hmoves hmove ih => exact hmove.timed rule (CallMoves.sound hmoves hs) ih

/-- Between calls, no events are being handled. -/
def Machine.Timed (law : TimerLaw) (m : Machine) : Prop := Dispatch.Timed law ([],m.start)

theorem Machine.Move.timed {may : Incident → Prop} {m m' : Machine} {op : Op}
    {reply : Reply} (h : Move may m op reply m') (rule : TimerRule may law) (hs : m.IdsSound)
    (ht : m.Timed law) : m'.Timed law := by
  cases h with
  | missing absent => exact ht
  | @packets op c moves =>
    have hdone : Dispatch.Timed law ([],c) := CallMoves.timed moves rule hs ht
    exact ⟨hdone.tidy,hdone.own,hdone.lawful⟩
  | @remove id peer live incident indexed =>
    refine ht.change rule (fun q hq => update_of_ne hq _ _) (.refl ht.tidy) ?_ ?_
    · intro peer' hpeer
      cases (update_self id _ _).symm.trans hpeer
    · have hlaw := rule.remove (ht.lawful_live live) fun hsome =>
        incident .orphaned (orphaned_of_timeout hsome)
      simp only [start,without,update_self,Option.map_none]
      exact hlaw
  | @upsert id cfg old endpoint upserted =>
    rcases Endpoint.upsertPeer_ok upserted with ⟨peer,ids,hp,hids,rfl⟩ | ⟨hp,_,rfl⟩
    · have hlaw := ht.lawful_live hp
      exact ht.replace rule (.refl ht.tidy) (ht.own id peer hp) hlaw
    · have hlaw := ht.lawful id
      simp only [start,hp,Option.map_none] at hlaw
      exact ht.replace rule (.refl ht.tidy) (.of_not_initiated rfl) (rule.insert hlaw)

theorem Machine.timed_new {may : Incident → Prop} (rule : TimerRule may law)
    (myKey : Noise.X25519KeyPair) (env : Env) : Timed law ⟨Endpoint.new myKey,env⟩ where
  tidy := tidy_default
  own p peer hpeer := by cases hpeer
  lawful p := by
    refine rule.congr (fun e _ => ⟨False.elim,?_⟩) rule.start
    rintro (he | he) <;> cases he

/-- A law that each transition of a single peer keeps holds all along a run, if the incidents of
its calls are among those in `may`. -/
theorem Machine.atEvery_timed {may : Incident → Prop} (rule : TimerRule may law)
    (myKey : Noise.X25519KeyPair) (env : Env) {ops : List Op}
    (hmay : AtEveryCall step (fun m op => ∀ i ∈ m.incidents op, may i) ops
      ⟨Endpoint.new myKey,env⟩) :
    AtEveryState step (fun m => m.IdsSound ∧ m.Timed law) ops ⟨Endpoint.new myKey,env⟩ := by
  have hnew : Machine.IdsSound ⟨Endpoint.new myKey,env⟩ := fun p peer h => by cases h
  exact atEvery_of_moves (Timed law) (fun m op reply m' hs ht hmove => hmove.timed rule hs ht) hnew
    (timed_new rule myKey env) hmay

end
end Tailnet.Wireguard

import Tailnet.Dataplane.Core
import Tailnet.Wireguard.Timers

/-! The timers of the data plane. The scheduler of the tunnel is nested into the one of the data
plane: one event stands for all events of the tunnel, and is replaced after each call. -/
namespace Tailnet
open List Result Scheduler

section
variable {E : Type} {s : Scheduler E} {due : List (FutureEvent E)}

theorem Scheduler.Tidy.scheduled (h : s.Tidy due) : s.Tidy [] where
  sorted := h.sorted
  fresh e he := h.fresh e (he.imp_right fun hnil => by cases hnil)
  unique := h.unique.sublist (((nil_sublist due).append_left _).map _)

theorem Scheduler.Sorted.nextDispatchRange_total (h : Sorted s.events) :
    ∃ range, s.nextDispatchRange = .ok range := by
  by_cases hne : s.events = []
  · exact ⟨none,by rw [Scheduler.nextDispatchRange,hne]; rfl⟩
  · obtain ⟨range,hrange,-⟩ := h.nextDispatchRange_least hne
    exact ⟨some range,hrange⟩

end

namespace Runtime.Tunnel
open Wireguard (MacPrimitives PeerConfig Outbox Machine)
open Shadowvpn (AeadPrimitives Rng)

variable [MacPrimitives]

def pending : Tunnel → List (FutureEvent Wireguard.Event)
  | wireguard m => m.endpoint.state.scheduler.events
  | shadowvpn _ => []

/-- The events that a dispatch of the tunnel handles. -/
def due (now : Instant) : Tunnel → List (FutureEvent Wireguard.Event)
  | wireguard m => m.endpoint.state.scheduler.due now
  | shadowvpn _ => []

/-- The scheduler of the tunnel is in order. -/
def Scheduled : Tunnel → Prop
  | wireguard m => m.IdsSound ∧ m.Timed fun _ _ _ => True
  | shadowvpn _ => True

omit [MacPrimitives] in
theorem anyLaw_rule : Wireguard.TimerRule (fun _ => True) fun _ _ _ => True := by
  constructor <;> intros <;> trivial

variable {t t' : Tunnel} {m m' : Machine} {op : Wireguard.Op} {reply : Wireguard.Reply}

theorem scheduled_step (h : (wireguard m).Scheduled) (hstep : Machine.step op m = .ok (reply,m')) :
    (wireguard m').Scheduled := by
  have hmove := Machine.move_of_step h.1 hstep
  exact ⟨hmove.sound h.1,hmove.timed anyLaw_rule h.1 h.2⟩

theorem scheduled_new (myKey : Noise.X25519KeyPair) (env : Wireguard.Env) (rng : Rng)
    (protocol : Protocol) : (new myKey env rng protocol).Scheduled := by
  cases protocol with
  | wireguard => exact ⟨(fun p peer h => by cases h),Machine.timed_new anyLaw_rule myKey env⟩
  | shadowvpn => trivial

theorem Scheduled.sorted (h : t.Scheduled) : Scheduler.Sorted t.pending := by
  cases t with
  | wireguard m => exact h.2.tidy.sorted
  | shadowvpn e => exact sorted_nil

/-- A call that returns packets is a step of the machine. -/
theorem scheduled_call (op : Wireguard.Op) {f : Prog Wireguard.Call Unit} {out : Outbox}
    (h : (wireguard m).Scheduled) (hop : Machine.step op m = m.callPackets f)
    (hcall : m.call f = .ok ((),out,m')) : (wireguard m').Scheduled := by
  have hstep : Machine.step op m = .ok (.packets out,m') := by
    rw [hop,Machine.callPackets,hcall]
    rfl
  exact scheduled_step h hstep

theorem Scheduled.dispatchEvents {now : Instant} {out : Outbox} (h : t.Scheduled)
    (hcall : t.dispatchEvents now = .ok (out,t')) : t'.Scheduled := by
  cases t with
  | wireguard m =>
    obtain ⟨⟨_,out',m'⟩,hm,heq⟩ := bind_eq_ok.mp hcall
    cases heq
    exact scheduled_call (.dispatchEvents now) h rfl hm
  | shadowvpn e =>
    cases hcall
    trivial

theorem Scheduled.upsertPeer {id : PeerId} {cfg : PeerConfig} (h : t.Scheduled)
    (hcall : t.upsertPeer id cfg = .ok t') : t'.Scheduled ∧ t'.nextEvent = t.nextEvent := by
  cases t with
  | wireguard m =>
    obtain ⟨⟨reply,m'⟩,hm,heq⟩ := bind_eq_ok.mp hcall
    cases heq
    refine ⟨scheduled_step h hm,?_⟩
    obtain ⟨⟨old,endpoint⟩,hupsert,heq⟩ := bind_eq_ok.mp hm
    cases heq
    rcases Wireguard.Endpoint.upsertPeer_ok hupsert with ⟨_,_,_,_,rfl⟩ | ⟨_,_,rfl⟩
    · rfl
    · rfl
  | shadowvpn e =>
    obtain ⟨⟨old,e'⟩,_,heq⟩ := bind_eq_ok.mp hcall
    cases heq
    exact ⟨trivial,rfl⟩

/-- Removing a peer leaves its events pending. -/
theorem Scheduled.removePeer {id : PeerId} (h : t.Scheduled)
    (hcall : t.removePeer id = .ok t') : t'.Scheduled ∧ t'.nextEvent = t.nextEvent := by
  cases t with
  | wireguard m =>
    obtain ⟨⟨reply,m'⟩,hm,heq⟩ := bind_eq_ok.mp hcall
    cases heq
    refine ⟨scheduled_step h hm,?_⟩
    obtain ⟨⟨existed,out,m1⟩,hm,heq⟩ := bind_eq_ok.mp hm
    cases heq
    obtain ⟨⟨_,c⟩,hc,heq⟩ := bind_eq_ok.mp hm
    cases heq
    have hremove : Prog.Ensures (fun _ => True) (Wireguard.Endpoint.removePeer id) m.start _ :=
      Wireguard.Endpoint.ensures_removePeer h.1 fun _ _ _ => trivial
    rcases hremove.of_ok hc with ⟨_,_,rfl⟩ | ⟨_,_,_,_,rfl⟩
    · rfl
    · rfl
  | shadowvpn e =>
    cases hcall
    exact ⟨trivial,rfl⟩

variable [AeadPrimitives]

theorem Scheduled.send {packets : List (PeerId × List Wireguard.Packet)} {rng : Rng} {out : Outbox}
    (h : t.Scheduled) (hcall : t.send packets rng = .ok (out,t')) : t'.Scheduled := by
  cases t with
  | wireguard m =>
    obtain ⟨⟨_,out',m'⟩,hm,heq⟩ := bind_eq_ok.mp hcall
    cases heq
    exact scheduled_call (.send packets) h rfl hm
  | shadowvpn e =>
    obtain ⟨⟨out',e',_⟩,_,heq⟩ := bind_eq_ok.mp hcall
    cases heq
    trivial

theorem Scheduled.recv {packets : List Wireguard.Packet} {rank : PeerId → ℕ} {out : Outbox}
    (h : t.Scheduled) (hcall : t.recv packets rank = .ok (out,t')) : t'.Scheduled := by
  cases t with
  | wireguard m =>
    obtain ⟨⟨_,out',m'⟩,hm,heq⟩ := bind_eq_ok.mp hcall
    cases heq
    exact scheduled_call (.recv packets) h rfl hm
  | shadowvpn e =>
    obtain ⟨out',_,heq⟩ := bind_eq_ok.mp hcall
    cases heq
    trivial

end Runtime.Tunnel

namespace DataPlane
open Wireguard (MacPrimitives PeerConfig PeerId Packet Outbox)
open Shadowvpn (AeadPrimitives)
open Dataplane

/-- Calls on a data plane, and the changes that others make to its tunnel and its tables. -/
inductive Op
  | processOutbound (packets : List Packet) (draws : Draws)
  | processInbound (packets : List Packet) (draws : Draws)
  | processEvents (now : Instant) (draws : Draws)
  | upsertPeer (id : PeerId) (cfg : PeerConfig)
  | removePeer (id : PeerId)
  | setOutbound (orOut : SplitStackTable Outbound.RouteAction)
    (urOut : PeerId → Option UnderlayTransportId)
  | setInbound (srcFilterIn : SplitStackTable PeerId) (orIn : SplitStackTable Inbound.RouteAction)
  | setFilter (packetFilter : Filter)

inductive Reply
  | packets (toPeers : ToPeers) (toLocal : ToLocal)
  | done

variable [MacPrimitives]

def step [IpNetOps] [AeadPrimitives] [Etherparse] : Op → DataPlane → Result (Reply × DataPlane)
  | .processOutbound packets draws,d => do
    let (r,d) ← d.processOutbound packets draws
    return (.packets r.1 r.2,d)
  | .processInbound packets draws,d => do
    let (r,d) ← d.processInbound packets draws
    return (.packets r.1 r.2,d)
  | .processEvents now draws,d => do
    let (toPeers,d) ← d.processEvents now draws
    return (.packets toPeers .empty,d)
  | .upsertPeer id cfg,d => do
    let tunnel ← d.tunnel.upsertPeer id cfg
    return (.done,{ d with tunnel })
  | .removePeer id,d => do
    let tunnel ← d.tunnel.removePeer id
    return (.done,{ d with tunnel })
  | .setOutbound orOut urOut,d => .ok (.done,{ d with orOut, urOut })
  | .setInbound srcFilterIn orIn,d => .ok (.done,{ d with srcFilterIn, orIn })
  | .setFilter packetFilter,d => .ok (.done,{ d with packetFilter })

/-- All pending events of the data plane are the one whose handle is kept. -/
structure OneEvent (d : DataPlane) : Prop where
  tidy : d.events.Tidy []
  held : ∀ e ∈ d.events.events, d.tunnelNext = some ⟨e.address⟩
  old : ∀ handle, d.tunnelNext = some handle → handle.address < d.events.fresh

/-- The event of the data plane is the next one of the tunnel. -/
structure Coupled (d : DataPlane) : Prop extends OneEvent d where
  scheduled : d.tunnel.Scheduled
  next : ∀ range, d.tunnel.nextEvent = .ok (some range) → ∃ e ∈ d.events.events, e.when = range

variable {d d' : DataPlane}

theorem OneEvent.length_le (h : d.OneEvent) : d.events.events.length ≤ 1 := by
  cases hevents : d.events.events with
  | nil => exact Nat.zero_le _
  | cons e events =>
    cases events with
    | nil => exact le_rfl
    | cons f events =>
      have he := h.held e (hevents ▸ mem_cons_self)
      have hf := h.held f (hevents ▸ mem_cons_of_mem e mem_cons_self)
      have haddress : e.address = f.address := by
        rw [he] at hf
        exact congrArg Handle.address (Option.some.inj hf)
      have hunique := h.tidy.sorted.addresses
      rw [hevents] at hunique
      simp [haddress] at hunique

theorem coupled_of_new {range : TimeRange} {events : Scheduler Subsystem}
    (hs : d.tunnel.Scheduled) (hnext : d.tunnel.nextEvent = .ok (some range))
    (htidy : events.Tidy []) (hfresh : events.fresh = d.events.fresh + 1)
    (honly : ∀ e, e ∈ events.events ↔ e = ⟨range,.tunnel,d.events.fresh⟩) :
    Coupled { d with events, tunnelNext := some ⟨d.events.fresh⟩ } where
  tidy := htidy
  held e he := by rw [(honly e).mp he]
  old handle hh := by
    cases hh
    exact hfresh ▸ Nat.lt_succ_self _
  scheduled := hs
  next r hr := by
    cases hnext.symm.trans hr
    exact ⟨_,(honly _).mpr rfl,rfl⟩

theorem OneEvent.reschedule (h : d.OneEvent) (hs : d.tunnel.Scheduled)
    (hcall : d.reschedule = .ok d') : d'.Coupled ∧ d'.urOut = d.urOut := by
  rw [DataPlane.reschedule] at hcall
  obtain ⟨next,hnext,hcall⟩ := bind_eq_ok.mp hcall
  cases next with
  | none =>
    cases hcall
    refine ⟨⟨h,hs,fun range hrange => ?_⟩,rfl⟩
    rw [hnext] at hrange
    cases hrange
  | some range =>
    have hadd := h.tidy.add range .tunnel
    cases hprev : d.tunnelNext with
    | none =>
      simp only [hprev] at hcall
      cases hcall
      refine ⟨coupled_of_new hs hnext hadd rfl fun e => ?_,rfl⟩
      rw [mem_add]
      refine or_iff_left fun he => ?_
      rw [h.held e he] at hprev
      cases hprev
    | some prev =>
      simp only [hprev] at hcall
      cases hcall
      refine ⟨coupled_of_new hs hnext (hadd.cancel prev) (fresh_cancel _ _) fun e => ?_,rfl⟩
      rw [hadd.mem_cancel,mem_add]
      constructor
      · rintro ⟨rfl | he,hne⟩
        · rfl
        · rw [h.held e he] at hprev
          cases hprev
          exact absurd rfl hne
      · rintro rfl
        exact ⟨.inl rfl,(h.old prev hprev).ne'⟩

theorem OneEvent.dispatch (h : d.OneEvent) (now : Instant) (tunnel : Runtime.Tunnel) :
    OneEvent { d with tunnel, events := (d.events.dispatch now).2 } where
  tidy := (h.tidy.dispatch now).scheduled
  held e he := h.held e (mem_of_mem_take he)
  old := h.old

theorem runEvents_scheduled {now : Instant} {due : List Subsystem}
    {toPeers toPeers' : PeerId → Option (List Packet)} {t t' : Runtime.Tunnel} (h : t.Scheduled)
    (hrun : runEvents now due toPeers t = .ok (toPeers',t')) : t'.Scheduled := by
  induction due generalizing toPeers t with
  | nil =>
    cases hrun
    exact h
  | cons event due ih =>
    obtain ⟨⟨out,t1⟩,hdispatch,hrest⟩ := bind_eq_ok.mp hrun
    exact ih (h.dispatchEvents hdispatch) hrest

theorem Coupled.processEvents {now : Instant} {draws : Draws} {toPeers : ToPeers} (h : d.Coupled)
    (hcall : d.processEvents now draws = .ok (toPeers,d')) : d'.Coupled := by
  obtain ⟨⟨toPeers',tunnel⟩,hrun,hcall⟩ := bind_eq_ok.mp hcall
  obtain ⟨d1,hresched,hcall⟩ := bind_eq_ok.mp hcall
  cases hcall
  have hdispatch := h.toOneEvent.dispatch now tunnel
  exact (hdispatch.reschedule (runEvents_scheduled h.scheduled hrun) hresched).1

theorem Coupled.change (h : d.Coupled) {tunnel : Runtime.Tunnel}
    (ht : tunnel.Scheduled ∧ tunnel.nextEvent = d.tunnel.nextEvent) : Coupled { d with tunnel } :=
  ⟨⟨h.tidy,h.held,h.old⟩,ht.1,fun range hrange => h.next range (ht.2.symm.trans hrange)⟩

theorem OneEvent.eq_singleton (h : d.OneEvent) {e : FutureEvent Subsystem} (he : e ∈ d.events.events) :
    d.events.events = [e] := by
  have hlen := h.length_le
  cases hevents : d.events.events with
  | nil =>
    rw [hevents] at he
    cases he
  | cons f events =>
    rw [hevents] at he hlen
    have hnil : events = [] := eq_nil_of_length_eq_zero (by simpa using hlen)
    subst hnil
    rw [mem_singleton.mp he]

theorem OneEvent.nextEvent_eq (h : d.OneEvent) {e : FutureEvent Subsystem} (he : e ∈ d.events.events) :
    d.nextEvent = .ok (some e.when.stop) := by
  obtain ⟨range,hrange,-,⟨f,hf,hstop⟩,-⟩ :=
    h.tidy.sorted.nextDispatchRange_least (ne_nil_of_mem he)
  rw [h.eq_singleton he,mem_singleton] at hf
  rw [nextEvent,Scheduler.nextDispatch,hrange,← hf,← hstop]
  rfl

theorem OneEvent.exists_event (h : d.OneEvent) {t : Instant} (ht : d.nextEvent = .ok (some t)) :
    ∃ e ∈ d.events.events, t = e.when.stop := by
  cases hevents : d.events.events with
  | nil =>
    rw [nextEvent,Scheduler.nextDispatch,Scheduler.nextDispatchRange,hevents] at ht
    cases ht
  | cons e events =>
    have he : e ∈ d.events.events := hevents ▸ mem_cons_self
    rw [h.nextEvent_eq he] at ht
    cases ht
    exact ⟨e,mem_cons_self,rfl⟩

/-- A caller that processes events at the next time is on time for all events of the tunnel. -/
structure OnTime (d : DataPlane) : Prop where
  /-- the next time comes before the range of any event is over -/
  waits : ∀ e ∈ d.tunnel.pending, ∃ t, d.nextEvent = .ok (some t) ∧ t ≤ e.when.stop
  /-- at that time the tunnel is dispatched, once -/
  wakes : ∀ t, d.nextEvent = .ok (some t) → (d.events.dispatch t).1 = [.tunnel]
  /-- the events that the tunnel handles then are in their ranges -/
  inRange : ∀ t, d.nextEvent = .ok (some t) → ∀ e ∈ d.tunnel.due t, e.when.contains t = true

theorem Coupled.waits (h : d.Coupled) {e : FutureEvent Wireguard.Event} (he : e ∈ d.tunnel.pending) :
    ∃ t, d.nextEvent = .ok (some t) ∧ t ≤ e.when.stop := by
  have hrange : ∃ range, d.tunnel.nextEvent = .ok (some range) ∧ range.stop ≤ e.when.stop := by
    cases ht : d.tunnel with
    | wireguard m =>
      have hs := h.scheduled.sorted
      rw [ht] at hs he
      obtain ⟨range,hrange,-,hstop⟩ := hs.nextDispatchRange (s := m.endpoint.state.scheduler) he
      exact ⟨range,hrange,hstop⟩
    | shadowvpn e =>
      rw [ht] at he
      cases he
  obtain ⟨range,hrange,hstop⟩ := hrange
  obtain ⟨f,hf,rfl⟩ := h.next range hrange
  exact ⟨f.when.stop,h.nextEvent_eq hf,hstop⟩

theorem Coupled.onTime (h : d.Coupled) : d.OnTime where
  waits e he := h.waits he
  wakes t ht := by
    obtain ⟨e,he,rfl⟩ := h.exists_event ht
    have hdue : d.events.due e.when.stop = [e] := by
      rw [Scheduler.due,h.eq_singleton he,
        partitionPoint_cons_of_le e.when.start_le_stop]
      rfl
    change (d.events.due e.when.stop).map FutureEvent.what = _
    rw [hdue]
    cases e.what
    rfl
  inRange t ht e he := by
    have hpending : e ∈ d.tunnel.pending ∧ e.when.start ≤ t := by
      cases htunnel : d.tunnel with
      | wireguard m =>
        have hs := h.scheduled.sorted
        rw [htunnel] at hs he
        exact (mem_due hs).mp he
      | shadowvpn e =>
        rw [htunnel] at he
        cases he
    obtain ⟨t',ht',hstop⟩ := h.waits hpending.1
    cases ht.symm.trans ht'
    simp [TimeRange.contains,hpending.2,hstop]

/-- What the dispatches of the tunnel return while events are processed. -/
def dispatchLog (now : Instant) : List Subsystem → Runtime.Tunnel → List Outbox
  | [],_ => []
  | .tunnel::events,tunnel =>
    match tunnel.dispatchEvents now with
    | .error _ => []
    | .ok (out,tunnel) => out::dispatchLog now events tunnel

/-- The packets of every dispatch are among those that are returned, for peers with a route. -/
def Lossless (d : DataPlane) : Prop :=
  ∀ now draws toPeers d', d.processEvents now draws = .ok (toPeers,d') → draws.toPeers.Nodup →
    ∀ out ∈ dispatchLog now (d.events.dispatch now).1 d.tunnel, ∀ p ∈ draws.toPeers,
      ∀ batch tid, out.toPeers p = some batch → d.urOut p = some tid →
        toPeers.get (tid,p) = some batch

theorem Coupled.lossless (h : d.Coupled) : d.Lossless := by
  intro now draws toPeers d' hcall horder out hout p hp batch tid hbatch htid
  obtain ⟨⟨toPeers',tunnel⟩,hrun,hcall⟩ := bind_eq_ok.mp hcall
  obtain ⟨d1,hresched,hcall⟩ := bind_eq_ok.mp hcall
  cases hcall
  have hrun : runEvents now (d.events.dispatch now).1 (fun _ => none) d.tunnel =
      .ok (toPeers',tunnel) := hrun
  have hur := ((h.toOneEvent.dispatch now tunnel).reschedule
    (runEvents_scheduled h.scheduled hrun) hresched).2
  have hlen : (d.events.dispatch now).1.length ≤ 1 := by
    have hle := h.length_le
    simp only [Scheduler.dispatch,length_map,length_reverse,length_drop]
    omega
  cases hdue : (d.events.dispatch now).1 with
  | nil =>
    rw [hdue] at hout
    cases hout
  | cons event due =>
    have hnil : due = [] := by
      rw [hdue,length_cons] at hlen
      exact eq_nil_of_length_eq_zero (by omega)
    subst hnil
    cases event
    rw [hdue] at hout hrun
    obtain ⟨⟨out',tunnel'⟩,hdispatch,hrun⟩ := bind_eq_ok.mp hrun
    cases hrun
    simp only [dispatchLog,hdispatch,mem_singleton] at hout
    subst hout
    refine Underlay.get_route (nodup_listed horder _) (mem_listed.mpr ⟨hp,?_⟩) (hur ▸ htid)
    rw [hbatch]
    rfl

section
variable [IpNetOps] [AeadPrimitives] [Etherparse]

omit [Etherparse] in
theorem Coupled.processOutbound {packets : List Packet} {draws : Draws} {r : ToPeers × ToLocal}
    (h : d.Coupled) (hcall : d.processOutbound packets draws = .ok (r,d')) : d'.Coupled := by
  obtain ⟨routed,_,hcall⟩ := bind_eq_ok.mp hcall
  obtain ⟨⟨out,tunnel⟩,hsend,hcall⟩ := bind_eq_ok.mp hcall
  obtain ⟨d1,hresched,hcall⟩ := bind_eq_ok.mp hcall
  cases hcall
  have hone : OneEvent { d with tunnel } := ⟨h.tidy,h.held,h.old⟩
  exact (hone.reschedule (h.scheduled.send hsend) hresched).1

theorem Coupled.processInbound {packets : List Packet} {draws : Draws} {r : ToPeers × ToLocal}
    (h : d.Coupled) (hcall : d.processInbound packets draws = .ok (r,d')) : d'.Coupled := by
  obtain ⟨⟨out,tunnel⟩,hrecv,hcall⟩ := bind_eq_ok.mp hcall
  obtain ⟨admitted,_,hcall⟩ := bind_eq_ok.mp hcall
  obtain ⟨toLocal,_,hcall⟩ := bind_eq_ok.mp hcall
  obtain ⟨d1,hresched,hcall⟩ := bind_eq_ok.mp hcall
  cases hcall
  have hone : OneEvent { d with tunnel } := ⟨h.tidy,h.held,h.old⟩
  exact (hone.reschedule (h.scheduled.recv hrecv) hresched).1

theorem Coupled.step {op : Op} {reply : Reply} (h : d.Coupled)
    (hstep : step op d = .ok (reply,d')) : d'.Coupled := by
  cases op with
  | processOutbound packets draws =>
    obtain ⟨⟨r,d1⟩,hcall,heq⟩ := bind_eq_ok.mp hstep
    cases heq
    exact h.processOutbound hcall
  | processInbound packets draws =>
    obtain ⟨⟨r,d1⟩,hcall,heq⟩ := bind_eq_ok.mp hstep
    cases heq
    exact h.processInbound hcall
  | processEvents now draws =>
    obtain ⟨⟨r,d1⟩,hcall,heq⟩ := bind_eq_ok.mp hstep
    cases heq
    exact h.processEvents hcall
  | upsertPeer id cfg =>
    obtain ⟨tunnel,hcall,heq⟩ := bind_eq_ok.mp hstep
    cases heq
    exact h.change (h.scheduled.upsertPeer hcall)
  | removePeer id =>
    obtain ⟨tunnel,hcall,heq⟩ := bind_eq_ok.mp hstep
    cases heq
    exact h.change (h.scheduled.removePeer hcall)
  | setOutbound orOut urOut =>
    cases hstep
    exact ⟨⟨h.tidy,h.held,h.old⟩,h.scheduled,h.next⟩
  | setInbound srcFilterIn orIn =>
    cases hstep
    exact ⟨⟨h.tidy,h.held,h.old⟩,h.scheduled,h.next⟩
  | setFilter packetFilter =>
    cases hstep
    exact ⟨⟨h.tidy,h.held,h.old⟩,h.scheduled,h.next⟩

omit [IpNetOps] [AeadPrimitives] [Etherparse] in
theorem coupled_new (protocol : Runtime.Tunnel.Protocol) (myKey : Noise.X25519KeyPair)
    (env : Wireguard.Env) (rng : Shadowvpn.Rng) : (new (.new myKey env rng protocol)).Coupled where
  tidy := tidy_default
  held e he := by cases he
  old handle h := by cases h
  scheduled := Runtime.Tunnel.scheduled_new myKey env rng protocol
  next range h := by cases protocol <;> cases h

omit [IpNetOps] [AeadPrimitives] [Etherparse] in
/-- The event that is pending has the range of the tunnel's next event. -/
theorem Coupled.exact (h : d.Coupled) : ∃ next, d.tunnel.nextEvent = .ok next ∧
    ∀ range, next = some range → ∃ address, d.events.events = [⟨range,.tunnel,address⟩] := by
  have hnext : ∃ next, d.tunnel.nextEvent = .ok next := by
    cases ht : d.tunnel with
    | wireguard m =>
      have hs := h.scheduled.sorted
      rw [ht] at hs
      exact hs.nextDispatchRange_total (s := m.endpoint.state.scheduler)
    | shadowvpn e => exact ⟨none,rfl⟩
  obtain ⟨next,hnext⟩ := hnext
  refine ⟨next,hnext,?_⟩
  rintro range rfl
  obtain ⟨⟨when,what,address⟩,he,rfl⟩ := h.next range hnext
  cases what
  exact ⟨address,h.eq_singleton he⟩

/-- In every run of a data plane, at most one event of the tunnel is pending, with exactly the
range of the tunnel's next event if there is one. Processing events at the next time is on time for
every event of the tunnel, and loses no packets. -/
theorem never_misses_a_timer (protocol : Runtime.Tunnel.Protocol) (myKey : Noise.X25519KeyPair)
    (env : Wireguard.Env) (rng : Shadowvpn.Rng) (ops : List Op) :
    AtEveryState step (fun d => d.events.events.length ≤ 1 ∧
      (∃ next, d.tunnel.nextEvent = .ok next ∧
        ∀ range, next = some range → ∃ address, d.events.events = [⟨range,.tunnel,address⟩]) ∧
      d.OnTime ∧ d.Lossless) ops (new (.new myKey env rng protocol)) :=
  atEveryState_of_invariant Coupled (fun _ h => ⟨h.length_le,h.exact,h.onTime,h.lossless⟩)
    (fun _ _ _ _ h hstep => h.step hstep) ops (coupled_new protocol myKey env rng)

end
end DataPlane
end Tailnet

import Tailnet.Dataplane.Timers

/-! The data plane as a task. Owners of transports create them and drop their ends at any time;
a step takes packets from a queue or runs timers, and writes the packets that the core hands out
to the queues of the transports. -/
namespace Tailnet
open Function Result Assoc
open Wireguard (MacPrimitives PeerId Packet)
open Shadowvpn (AeadPrimitives)
open Dataplane

/-- An unbounded queue, by all messages sent on it, and whether its receiver still exists. -/
structure Channel (M : Type) where
  sent : List M
  listening : Bool

abbrev Transports (M : Type) := UInt32 → Option (Channel M)

namespace Transports
variable {M : Type} (ts : Transports M)

/-- Send a message on the queue of a transport, if there is one. The result of `send` is
unwrapped. -/
def write (batch : UInt32 × M) : Result (Transports M) :=
  match ts batch.1 with
  | none => .ok ts
  | some c =>
    if c.listening then .ok (update ts batch.1 (some { c with sent := c.sent ++ [batch.2] }))
    else .error (.message "called `Result::unwrap()` on an `Err` value")

def dropReceiver (id : UInt32) : Transports M :=
  update ts id ((ts id).map fun c => { c with listening := false })

/-- A transport has lost its receiver. -/
def Gone (id : UInt32) : Prop := ∃ c, ts id = some c ∧ c.listening = false

/-- What the batches are meant to do: each transport with a receiver gets its own ones, in their
order, and the other ones are dropped. -/
def deliver (batches : List (UInt32 × M)) : Transports M := fun id =>
  (ts id).map fun c =>
    if c.listening then { c with sent := c.sent ++ (batches.filter (·.1 = id)).map Prod.snd } else c

theorem deliver_nil : ts.deliver [] = ts := by
  funext id
  rw [deliver]
  cases ts id with
  | none => rfl
  | some c => simp

theorem write_eq {ts : Transports M} {batch : UInt32 × M} (h : ¬ ts.Gone batch.1) :
    ∃ ts', ts.write batch = .ok ts' ∧ (∀ id, ts'.Gone id → ts.Gone id) ∧
      ∀ batches, ts'.deliver batches = ts.deliver (batch::batches) := by
  rw [write]
  cases hc : ts batch.1 with
  | none =>
    refine ⟨ts,rfl,fun _ h => h,fun batches => funext fun id => ?_⟩
    by_cases hid : batch.1 = id
    · simp [deliver,← hid,hc]
    · simp [deliver,hid]
  | some c =>
    have hl : c.listening = true := by
      by_contra hl
      exact h ⟨c,hc,by simpa using hl⟩
    refine ⟨_,if_pos hl,fun id hgone => ?_,fun batches => funext fun id => ?_⟩
    · obtain ⟨c',hc',hl'⟩ := hgone
      by_cases hid : id = batch.1
      · subst hid
        cases (update_self ..).symm.trans hc'
        exact absurd (hl.symm.trans hl') (by simp)
      · exact ⟨c',(update_of_ne hid ..).symm.trans hc',hl'⟩
    · by_cases hid : id = batch.1
      · subst hid
        simp [deliver,hc,hl]
      · simp [deliver,update_of_ne hid,Ne.symm hid]

theorem foldlM_write {ts : Transports M} {batches : List (UInt32 × M)}
    (h : ∀ batch ∈ batches, ¬ ts.Gone batch.1) : batches.foldlM write ts = .ok (ts.deliver batches) := by
  induction batches generalizing ts with
  | nil => exact congrArg Except.ok ts.deliver_nil.symm
  | cons batch batches ih =>
    obtain ⟨ts',hts',hgone,hdeliver⟩ := write_eq (h batch List.mem_cons_self)
    rw [List.foldlM_cons,hts',bind_of_ok,← hdeliver]
    exact ih fun b hb hg => h b (List.mem_cons_of_mem _ hb) (hgone _ hg)

end Transports

structure AsyncDataPlane [MacPrimitives] where
  sync : DataPlane
  overlayTransports : Transports (List Packet)
  underlayTransports : Transports (PeerId × List Packet)
  fromOverlay : List (List Packet)
  fromUnderlay : List (PeerId × List Packet)
  nextUnderlayTransport : UInt32
  nextOverlayTransport : UInt32

namespace AsyncDataPlane

/-- The branch of a step that is ready first. -/
inductive Select
  | overlayDown (draws : Draws)
  | underlayUp (draws : Draws)
  | transportsChanged
  | event (now : Instant) (draws : Draws)

inductive Op
  | newUnderlayTransport
  | newOverlayTransport
  | dropUnderlay (id : UnderlayTransportId)
  | dropOverlay (id : OverlayTransportId)
  /-- a call through `inner` -/
  | inner (op : DataPlane.Op)
  | queueOverlay (packets : List Packet)
  | queueUnderlay (peer : PeerId) (packets : List Packet)
  /-- a step, with the orders in which the maps of packets are iterated -/
  | step (select : Select) (overlay : OverlayTransportId → ℕ)
    (underlay : UnderlayTransportId × PeerId → ℕ)

variable [MacPrimitives]

def new (sync : DataPlane) : AsyncDataPlane := ⟨sync,fun _ => none,fun _ => none,[],[],0,0⟩

/-- What a step asks of the core. The senders of the queues that are received from are kept by the
data plane itself, so `recv` waits when a queue is empty. -/
def selected (s : AsyncDataPlane) : Select → Option (DataPlane.Op × AsyncDataPlane)
  | .overlayDown draws =>
    s.fromOverlay.head?.map fun packets =>
      (.processOutbound packets draws,{ s with fromOverlay := s.fromOverlay.tail })
  | .underlayUp draws =>
    s.fromUnderlay.head?.map fun packets =>
      (.processInbound packets.2 draws,{ s with fromUnderlay := s.fromUnderlay.tail })
  | .transportsChanged => none
  | .event now draws => some (.processEvents now draws,s)

/-- The batches of a map of packets for the local device. -/
def overlayBatches (rank : OverlayTransportId → ℕ) : DataPlane.Reply → List (UInt32 × List Packet)
  | .packets _ toLocal => toLocal.iter rank
  | .done => []

def underlayBatches (rank : UnderlayTransportId × PeerId → ℕ) :
    DataPlane.Reply → List (UInt32 × PeerId × List Packet)
  | .packets toPeers _ => (toPeers.iter rank).map fun e => (e.1.1,e.1.2,e.2)
  | .done => []

variable [IpNetOps] [AeadPrimitives] [Etherparse]

def step : Op → AsyncDataPlane → Result (Unit × AsyncDataPlane)
  | .newUnderlayTransport,s => .ok ((),{ s with
      underlayTransports := update s.underlayTransports s.nextUnderlayTransport (some ⟨[],true⟩)
      nextUnderlayTransport := s.nextUnderlayTransport+1 })
  | .newOverlayTransport,s => .ok ((),{ s with
      overlayTransports := update s.overlayTransports s.nextOverlayTransport (some ⟨[],true⟩)
      nextOverlayTransport := s.nextOverlayTransport+1 })
  | .dropUnderlay id,s => .ok ((),{ s with underlayTransports := s.underlayTransports.dropReceiver id })
  | .dropOverlay id,s => .ok ((),{ s with overlayTransports := s.overlayTransports.dropReceiver id })
  | .inner op,s => do
    let (_,sync) ← s.sync.step op
    return ((),{ s with sync })
  | .queueOverlay packets,s => .ok ((),{ s with fromOverlay := s.fromOverlay ++ [packets] })
  | .queueUnderlay peer packets,s => .ok ((),{ s with fromUnderlay := s.fromUnderlay ++ [(peer,packets)] })
  | .step select overlay underlay,s => do
    let _ ← s.sync.nextEvent
    match s.selected select with
    | none => return ((),s)
    | some (op,s) =>
      let (reply,sync) ← s.sync.step op
      let underlayTransports ← (underlayBatches underlay reply).foldlM Transports.write s.underlayTransports
      let overlayTransports ← (overlayBatches overlay reply).foldlM Transports.write s.overlayTransports
      return ((),{ s with sync, underlayTransports, overlayTransports })

end AsyncDataPlane

namespace Dataplane

theorem Underlay.route_within (table : PeerId → Option UnderlayTransportId)
    (batches : List (PeerId × List Packet)) :
    (Underlay.route table batches).Within fun k => table k.2 = some k.1 := by
  refine List.foldlRecOn (motive := fun ret : ToPeers => ret.Within fun k => table k.2 = some k.1)
    batches (Underlay.assign table) (within_empty _) fun ret h batch _ => ?_
  rw [Underlay.assign]
  cases ht : table batch.1 with
  | none => exact h
  | some transport => exact h.extend ht _

variable [IpNetOps]

theorem Outbound.route_within {table : SplitStackTable Outbound.RouteAction} {rank : IpAddr → ℕ}
    {packets : List Packet} {r : Outbound.Routed} (h : Outbound.route table rank packets = .ok r) :
    r.loopback.Within fun id => ∃ addr, table.lookup addr = .ok (some (.loopback id)) := by
  refine foldlM_keeps (P := fun r : Outbound.Routed => r.loopback.Within fun id =>
    ∃ addr, table.lookup addr = .ok (some (.loopback id))) (fun r group r' hr hr' => ?_)
    (within_empty _) h
  obtain ⟨action,hlook,hr'⟩ := bind_eq_ok.mp hr'
  split at hr'
  · cases hr'
    exact hr
  · cases hr'
    exact hr.extend ⟨group.1,hlook⟩ _
  · cases hr'
    exact hr
  · cases hr'
    exact hr

theorem Inbound.target_eq {table : SplitStackTable Inbound.RouteAction} {packet : Packet}
    {id : OverlayTransportId} (h : Inbound.target table packet = .ok (some id)) :
    ∃ addr, table.lookup addr = .ok (some (.toOverlay id)) := by
  rw [Inbound.target] at h
  split at h
  · cases h
  · rename_i addr _
    obtain ⟨action,hlook,h⟩ := bind_eq_ok.mp h
    split at h
    · cases h
      exact ⟨addr,hlook⟩
    · cases h
    · cases h

theorem Inbound.route_within {table : SplitStackTable Inbound.RouteAction} {packets : List Packet}
    {groups : Assoc OverlayTransportId (List Packet)} (h : Inbound.route table packets = .ok groups) :
    groups.Within fun id => ∃ addr, table.lookup addr = .ok (some (.toOverlay id)) := by
  refine foldlM_keeps (P := fun groups : ToLocal => groups.Within fun id =>
    ∃ addr, table.lookup addr = .ok (some (.toOverlay id))) (fun groups packet groups' hg hg' => ?_)
    (within_empty _) h
  obtain ⟨target,ht,hg'⟩ := bind_eq_ok.mp hg'
  cases target with
  | none =>
    cases hg'
    exact hg
  | some key =>
    cases hg'
    exact hg.extend (Inbound.target_eq ht) _

end Dataplane

namespace DataPlane
variable [MacPrimitives] {d d' : DataPlane}

theorem reschedule_urOut (h : d.reschedule = .ok d') : d'.urOut = d.urOut := by
  rw [reschedule] at h
  obtain ⟨next,-,h⟩ := bind_eq_ok.mp h
  cases next with
  | none =>
    cases h
    rfl
  | some range =>
    dsimp only at h
    split at h
    · cases h
      rfl
    · cases h
      rfl

variable [IpNetOps] [AeadPrimitives] [Etherparse]

/-- The packets that a call hands out follow the routes of the data plane. -/
theorem step_within {op : Op} {toPeers : ToPeers} {toLocal : ToLocal}
    (h : d.step op = .ok (.packets toPeers toLocal,d')) :
    (toPeers.Within fun k => d.urOut k.2 = some k.1) ∧
      toLocal.Within fun id => ∃ addr, d.orOut.lookup addr = .ok (some (.loopback id)) ∨
        d.orIn.lookup addr = .ok (some (.toOverlay id)) := by
  cases op with
  | processOutbound packets draws =>
    obtain ⟨⟨r,d1⟩,hr,h⟩ := bind_eq_ok.mp h
    cases h
    rw [processOutbound] at hr
    obtain ⟨routed,hrouted,hr⟩ := bind_eq_ok.mp hr
    obtain ⟨⟨out,tunnel⟩,-,hr⟩ := bind_eq_ok.mp hr
    obtain ⟨d2,-,hr⟩ := bind_eq_ok.mp hr
    cases hr
    refine ⟨Underlay.route_within _ _,fun id b hb => ?_⟩
    obtain ⟨addr,hlook⟩ := Outbound.route_within hrouted id b hb
    exact ⟨addr,.inl hlook⟩
  | processInbound packets draws =>
    obtain ⟨⟨r,d1⟩,hr,h⟩ := bind_eq_ok.mp h
    cases h
    rw [processInbound] at hr
    obtain ⟨⟨out,tunnel⟩,-,hr⟩ := bind_eq_ok.mp hr
    obtain ⟨admitted,-,hr⟩ := bind_eq_ok.mp hr
    obtain ⟨groups,hgroups,hr⟩ := bind_eq_ok.mp hr
    obtain ⟨d2,-,hr⟩ := bind_eq_ok.mp hr
    cases hr
    refine ⟨Underlay.route_within _ _,fun id b hb => ?_⟩
    obtain ⟨addr,hlook⟩ := Inbound.route_within hgroups id b hb
    exact ⟨addr,.inr hlook⟩
  | processEvents now draws =>
    obtain ⟨⟨out,d1⟩,hr,h⟩ := bind_eq_ok.mp h
    cases h
    rw [processEvents] at hr
    obtain ⟨⟨peers,tunnel⟩,-,hr⟩ := bind_eq_ok.mp hr
    obtain ⟨d2,hd2,hr⟩ := bind_eq_ok.mp hr
    cases hr
    rw [reschedule_urOut hd2]
    exact ⟨Underlay.route_within _ _,within_empty _⟩
  | upsertPeer id cfg =>
    obtain ⟨tunnel,-,h⟩ := bind_eq_ok.mp h
    cases h
  | removePeer id =>
    obtain ⟨tunnel,-,h⟩ := bind_eq_ok.mp h
    cases h
  | setOutbound orOut urOut => cases h
  | setInbound srcFilterIn orIn => cases h
  | setFilter packetFilter => cases h

end DataPlane
namespace AsyncDataPlane
variable [MacPrimitives] {s s' : AsyncDataPlane}

section
variable [IpNetOps]

/-- No route of the data plane leads to a transport that has lost its receiver. -/
structure RoutesLive (s : AsyncDataPlane) : Prop where
  underlay : ∀ p tid, s.sync.urOut p = some tid → ¬ s.underlayTransports.Gone tid
  loopback : ∀ addr id, s.sync.orOut.lookup addr = .ok (some (.loopback id)) →
    ¬ s.overlayTransports.Gone id
  inbound : ∀ addr id, s.sync.orIn.lookup addr = .ok (some (.toOverlay id)) →
    ¬ s.overlayTransports.Gone id

variable [AeadPrimitives] [Etherparse]

/-- The calls of the core return, and the routes of a step are live. -/
def Cared (s : AsyncDataPlane) : Op → Prop
  | .inner op => ∃ r, s.sync.step op = .ok r
  | .step select _ _ => s.RoutesLive ∧
    ∀ op s₁, s.selected select = some (op,s₁) → ∃ r, s.sync.step op = .ok r
  | _ => True

/-- A call returns. If it is a step that has packets of the core to write, every transport with a
receiver gets the packets for it, and the packets for other transports are dropped. -/
def Delivers (s : AsyncDataPlane) (op : Op) : Prop :=
  ∃ s', step op s = .ok ((),s') ∧ ∀ select overlay underlay core s₁ reply sync,
    op = .step select overlay underlay → s.selected select = some (core,s₁) →
    s.sync.step core = .ok (reply,sync) →
    s'.underlayTransports = s.underlayTransports.deliver (underlayBatches underlay reply) ∧
      s'.overlayTransports = s.overlayTransports.deliver (overlayBatches overlay reply)

end

theorem selected_eq {select : Select} {op : DataPlane.Op} (h : s.selected select = some (op,s')) :
    s'.sync = s.sync ∧ s'.underlayTransports = s.underlayTransports ∧
      s'.overlayTransports = s.overlayTransports := by
  cases select with
  | overlayDown draws =>
    obtain ⟨packets,-,h⟩ := Option.map_eq_some_iff.mp h
    cases h
    exact ⟨rfl,rfl,rfl⟩
  | underlayUp draws =>
    obtain ⟨packets,-,h⟩ := Option.map_eq_some_iff.mp h
    cases h
    exact ⟨rfl,rfl,rfl⟩
  | transportsChanged => cases h
  | event now draws =>
    cases h
    exact ⟨rfl,rfl,rfl⟩

theorem nextEvent_total {d : DataPlane} (h : d.Coupled) : ∃ next, d.nextEvent = .ok next := by
  obtain ⟨range,hrange⟩ := h.tidy.sorted.nextDispatchRange_total
  exact ⟨_,by rw [DataPlane.nextEvent,Scheduler.nextDispatch,hrange]; rfl⟩

variable [IpNetOps] [AeadPrimitives] [Etherparse]

/-- The batches of a reply of the core are for transports that are not gone. -/
theorem RoutesLive.batches (h : s.RoutesLive) {op : DataPlane.Op} {reply : DataPlane.Reply}
    {sync : DataPlane} (hstep : s.sync.step op = .ok (reply,sync)) (overlay : OverlayTransportId → ℕ)
    (underlay : UnderlayTransportId × PeerId → ℕ) :
    (∀ batch ∈ underlayBatches underlay reply, ¬ s.underlayTransports.Gone batch.1) ∧
      ∀ batch ∈ overlayBatches overlay reply, ¬ s.overlayTransports.Gone batch.1 := by
  cases reply with
  | done => exact ⟨(fun _ hb => by cases hb),(fun _ hb => by cases hb)⟩
  | packets toPeers toLocal =>
    obtain ⟨hpeers,hlocal⟩ := DataPlane.step_within hstep
    constructor
    · intro batch hb
      obtain ⟨e,he,rfl⟩ := List.mem_map.mp hb
      exact h.underlay e.1.2 e.1.1 (hpeers e.1 e.2 (mem_iter.mp he))
    · intro batch hb
      obtain ⟨addr,hlook | hlook⟩ := hlocal batch.1 batch.2 (mem_iter.mp hb)
      · exact h.loopback addr batch.1 hlook
      · exact h.inbound addr batch.1 hlook

theorem RoutesLive.step (h : s.RoutesLive) (hcoupled : s.sync.Coupled) {select : Select}
    {op : DataPlane.Op} (hsel : s.selected select = some (op,s')) {reply : DataPlane.Reply}
    {sync : DataPlane} (hstep : s.sync.step op = .ok (reply,sync)) (overlay : OverlayTransportId → ℕ)
    (underlay : UnderlayTransportId × PeerId → ℕ) :
    AsyncDataPlane.step (.step select overlay underlay) s = .ok ((),{ s' with
      sync
      underlayTransports := s.underlayTransports.deliver (underlayBatches underlay reply)
      overlayTransports := s.overlayTransports.deliver (overlayBatches overlay reply) }) := by
  obtain ⟨next,hnext⟩ := nextEvent_total hcoupled
  obtain ⟨hsync,hunder,hover⟩ := selected_eq hsel
  obtain ⟨hpeers,hlocal⟩ := h.batches hstep overlay underlay
  simp only [AsyncDataPlane.step,hnext,bind_of_ok,hsel,hsync,hstep,hunder,hover,
    Transports.foldlM_write hpeers,Transports.foldlM_write hlocal]
  rfl

/-- A call returns and does what it is meant to, and the core keeps its timers. -/
theorem delivers (hcoupled : s.sync.Coupled) {op : Op} (hcared : s.Cared op) :
    s.Delivers op ∧ ∀ o s', step op s = .ok (o,s') → s'.sync.Coupled := by
  have simple {s₁ : AsyncDataPlane} (hstep : step op s = .ok ((),s₁)) (hsync : s₁.sync.Coupled)
      (hno : ∀ select overlay underlay core s2, op = .step select overlay underlay →
        s.selected select ≠ some (core,s2)) :
      s.Delivers op ∧ ∀ o s', step op s = .ok (o,s') → s'.sync.Coupled := by
    refine ⟨⟨s₁,hstep,fun _ _ _ _ _ _ _ hop hsel => absurd hsel (hno _ _ _ _ _ hop)⟩,fun o s' hs' => ?_⟩
    cases hstep.symm.trans hs'
    exact hsync
  cases op with
  | newUnderlayTransport => exact simple rfl hcoupled (fun _ _ _ _ _ hop => by cases hop)
  | newOverlayTransport => exact simple rfl hcoupled (fun _ _ _ _ _ hop => by cases hop)
  | dropUnderlay id => exact simple rfl hcoupled (fun _ _ _ _ _ hop => by cases hop)
  | dropOverlay id => exact simple rfl hcoupled (fun _ _ _ _ _ hop => by cases hop)
  | queueOverlay packets => exact simple rfl hcoupled (fun _ _ _ _ _ hop => by cases hop)
  | queueUnderlay peer packets => exact simple rfl hcoupled (fun _ _ _ _ _ hop => by cases hop)
  | inner core =>
    obtain ⟨⟨reply,sync⟩,hcore⟩ := hcared
    refine simple (by simp only [step,hcore,bind_of_ok]; rfl) (hcoupled.step hcore)
      (fun _ _ _ _ _ hop => by cases hop)
  | step select overlay underlay =>
    obtain ⟨hlive,hcore⟩ := hcared
    cases hsel : s.selected select with
    | none =>
      obtain ⟨next,hnext⟩ := nextEvent_total hcoupled
      refine simple (by simp only [step,hnext,hsel,bind_of_ok]; rfl) hcoupled ?_
      rintro _ _ _ _ _ ⟨⟩ h
      cases hsel.symm.trans h
    | some r =>
      obtain ⟨⟨reply,sync⟩,hreply⟩ := hcore r.1 r.2 hsel
      have hstep := hlive.step hcoupled hsel hreply overlay underlay
      refine ⟨⟨_,hstep,?_⟩,fun o s' hs' => ?_⟩
      · rintro _ _ _ _ _ _ _ ⟨⟩ hsel' hreply'
        cases hsel.symm.trans hsel'
        cases hreply.symm.trans hreply'
        exact ⟨rfl,rfl⟩
      · cases hstep.symm.trans hs'
        exact hcoupled.step hreply

end AsyncDataPlane

section
attribute [local instance] maskOps Wireguard.sumMacs Shadowvpn.keyTagged

@[reducible] def blindParser : Etherparse := ⟨fun _ => none⟩

attribute [local instance] blindParser

def noDraws : Draws := ⟨fun _ => 0,fun _ => 0,fun _ => 0,[],[],Stream'.const 0⟩

def freshAsync : AsyncDataPlane :=
  .new (.new (.new (.ofSecret (Wireguard.sameBytes 9)) Wireguard.Env.zeros (Stream'.const 0) .shadowvpn))

/-- The header of a packet to 10.0.0.1. -/
def toTen : Packet := [69,0,0,20,0,0,0,0,64,17,0,0,10,0,0,2,10,0,0,1]

theorem lookup_empty {T : Type} (addr : IpAddr) (v : T) :
    (SplitStackTable.empty : SplitStackTable T).lookup addr ≠ .ok (some v) := by
  obtain ⟨-,-,-,-,-,-,-,-,-,-,hlook,-⟩ := SplitStackTable.empty_rep.lookups addr
  rcases hlook with ⟨hnone,-⟩ | ⟨p,v,-,hv,-⟩
  · rw [hnone]
    simp
  · cases hv

/-- A table that loops all packets back to a transport. -/
def loopTo (id : OverlayTransportId) : SplitStackTable Outbound.RouteAction :=
  ((SplitStackTable.empty.insert (.ofV4 0 0 0 0 0) (.loopback id)).toOption.map Prod.snd).getD .empty

end
end Tailnet

import Tailnet.Wireguard.PeerCalls

/-! The transitions of an endpoint during a call. A call moves single peers; a dispatch takes
events off the scheduler and handles them one after the other. The incidents of a call are
computed along the way that it takes. -/
namespace Tailnet.Wireguard
open Prog Ctx Call Function List Endpoint Peer

/-- Every peer is stored under its id, and owns the session ids it holds. -/
def Sound (peers : PeerId → Option Peer) (sessions : SessionId → Option PeerId) : Prop :=
  ∀ p peer, peers p = some peer → peer.id = p ∧ Owns peer sessions

variable {peers : PeerId → Option Peer} {s s' : SessionId → Option PeerId} {id : PeerId}
  {peer : Peer}

theorem Sound.others (hs : Sound peers s) (hothers : KeepsOthers id s s') {q : PeerId} {peer : Peer}
    (hne : q ≠ id) (hq : peers q = some peer) : peer.id = q ∧ Owns peer s' := by
  obtain ⟨hid,howns⟩ := hs q peer hq
  refine ⟨hid,howns.nodup,fun a ha => hothers a peer.id ?_ (howns.mapped a ha)⟩
  rwa [hid]

theorem Sound.update (hs : Sound peers s) (hid : peer.id = id) (howns : Owns peer s')
    (hothers : KeepsOthers id s s') : Sound (Function.update peers id (some peer)) s' := by
  intro q peer2 hq
  by_cases hne : q = id
  · subst hne
    rw [update_self] at hq
    cases hq
    exact ⟨hid,howns⟩
  · rw [update_of_ne hne] at hq
    exact hs.others hothers hne hq

theorem Sound.remove (hs : Sound peers s) (hothers : KeepsOthers id s s') :
    Sound (Function.update peers id none) s' := by
  intro q peer2 hq
  by_cases hne : q = id
  · rw [hne,update_self] at hq
    cases hq
  · rw [update_of_ne hne] at hq
    exact hs.others hothers hne hq

theorem benign_of_removePeer {ids : IdMap} {key : NodePublicKey} {p : Panic}
    (h : ids.removePeer key = .error p) : Benign p := by
  rcases Result.bind_eq_error.mp h with h | ⟨_,_,h⟩
  · cases hk : ids.nodeKeys key with
    | some id => simp [hk,Result.unwrapIn] at h
    | none =>
      rw [hk] at h
      cases h
      exact fun heq => absurd heq (by decide)
  · cases h

theorem benign_of_changeKey {ids : IdMap} {old new : NodePublicKey} {p : Panic}
    (h : Endpoint.changeKey ids id old new = .error p) : Benign p := by
  rw [Endpoint.changeKey] at h
  split at h
  · rcases Result.bind_eq_error.mp h with h | ⟨_,_,h⟩
    · exact benign_of_removePeer h
    · cases h
  · cases h

section
variable [MacPrimitives]

/-! The incidents of a call. -/

/-- What a call on a peer logs, if there is such a peer. -/
def Call.logPeer {α : Type} (c : Call) (id : PeerId) (log : Peer → Ctx → List α) : List α :=
  match c.peers id with
  | none => []
  | some peer => log peer c.toCtx

namespace Endpoint

def removeIncidents (id : PeerId) (c : Call) : List Incident :=
  c.logPeer id fun peer _ => peer.shutdownIncident.toList

def sendIncidents (packets : List (PeerId × List Packet)) (c : Call) : List Incident :=
  logEach (fun (id,packets) => onPeer id fun peer => peer.send packets)
    (fun (id,_) c => c.logPeer id fun peer ctx =>
      (peer.sendIncident ctx.env.instants.head).toList) packets c

def handshakeIncidents (packet : Packet) (c : Call) : List Incident :=
  match Message.tryFrom packet with
  | some (.handshakeInitiation init) =>
    match ReceivedHandshake.new init c.state.myKey c.state.myCookie with
    | none => []
    | some handshake =>
      match c.state.ids.nodeKeys handshake.peerStatic with
      | none => []
      | some id => c.logPeer id fun peer _ => (peer.initiationIncident handshake).toList
  | _ => []

def groupIncidents (id : SessionId) (packets : List Packet) (c : Call) : List Incident :=
  match c.state.ids.sessions id with
  | none => []
  | some p => c.logPeer p fun peer ctx => peer.recvIncidents id packets ctx

/-- What `recv` logs of the groups of packets, after the handshakes were processed. -/
def logGroups {α : Type} (log : SessionId → List Packet → Call → List α) (packets : List Packet)
    (c : Call) : List α :=
  let group (id : SessionId) := packets.filter fun packet => receiverOf packet = id
  match forEach processOneHandshake (packets.filter fun packet => receiverOf packet = 0) c with
  | .error _ => []
  | .ok (_,c) =>
    match onCtx (onEnv Env.order) c with
    | .error _ => []
    | .ok (rank,c) =>
      logEach (fun id => recvGroup id (group id)) (fun id => log id (group id))
        (groupIds rank packets) c

def recvIncidents (packets : List Packet) (c : Call) : List Incident :=
  logEach processOneHandshake handshakeIncidents
    (packets.filter fun packet => receiverOf packet = 0) c ++ logGroups groupIncidents packets c

def eventIncidents : Event → Call → List Incident
  | .handshakeTimeout _,_ => []
  | .maybeSendKeepalive id,c => c.logPeer id fun peer ctx =>
    (peer.keepaliveIncident ctx.env.instants.head).toList

def dispatchIncidents (now : Instant) (c : Call) : List Incident :=
  match onCtx (dueEvents now) c with
  | .error _ => []
  | .ok (events,c) => logEach dispatchEvent eventIncidents events c

end Endpoint

/-- The incidents that a call meets with. -/
def Machine.incidents (m : Machine) : Op → List Incident
  | .upsertPeer _ _ => []
  | .removePeer id => Endpoint.removeIncidents id m.start
  | .send packets => Endpoint.sendIncidents packets m.start
  | .recv packets => Endpoint.recvIncidents packets m.start
  | .dispatchEvents now => Endpoint.dispatchIncidents now m.start

/-- The datagrams that a call is given. -/
def Op.datagrams : Op → Packet → Prop
  | .recv packets,packet => packet ∈ packets
  | _,_ => False

/-! The transitions of a call. -/

/-- Events that a dispatch has still to handle, and the state of the call. -/
abbrev Dispatch := List (FutureEvent Event) × Call

/-- The events that are due are taken off the scheduler. -/
def Call.taking (c : Call) (now : Instant) : Call :=
  { c with toCtx := c.toCtx.withScheduler (c.state.scheduler.dispatch now).2 }

/-- The transitions of an endpoint during a call, where only the incidents in `may` happen. No
datagrams arrive while there are events to be handled. -/
inductive CallMove (may : Incident → Prop) (inputs : Packet → Prop) : Dispatch → Dispatch → Prop
  | draw {due : List (FutureEvent Event)} {c : Call} (env : Env) :
    CallMove may inputs (due,c) (due,{ c with env })
  | peer {due : List (FutureEvent Event)} {c : Call} {id : PeerId} {peer peer' : Peer} {ctx : Ctx}
    (live : c.peers id = some peer)
    (move : PeerMove may (fun packet => due = [] ∧ inputs packet) (peer,c.toCtx) (peer',ctx)) :
    CallMove may inputs (due,c) (due,⟨ctx,update c.peers id (some peer')⟩)
  /-- the events that are due leave the scheduler -/
  | take {c : Call} (now : Instant) :
    CallMove may inputs ([],c) (c.state.scheduler.due now,c.taking now)
  /-- the peer of an event is not there any more -/
  | skip {due : List (FutureEvent Event)} {c : Call} {e : FutureEvent Event}
    (absent : c.peers e.what.peer = none) : CallMove may inputs (e::due,c) (due,c)
  /-- a timeout finds no handshake -/
  | idle {due : List (FutureEvent Event)} {c : Call} {e : FutureEvent Event} {id : PeerId}
    {peer : Peer} (timeout : e.what = .handshakeTimeout id) (live : c.peers id = some peer)
    (none : peer.handshake = .none) : CallMove may inputs (e::due,c) (due,c)
  /-- a timeout gives up the handshake -/
  | abort {due : List (FutureEvent Event)} {c : Call} {e : FutureEvent Event} {id : PeerId}
    {peer : Peer} (timeout : e.what = .handshakeTimeout id) (live : c.peers id = some peer) :
    CallMove may inputs (e::due,c) (due,
      ⟨c.toCtx.withSessions (forget c.state.ids.sessions peer.handshake.sessionId.toList),
        update c.peers id (some { peer with handshake := .none })⟩)
  /-- a keepalive cannot be sent -/
  | lapse {due : List (FutureEvent Event)} {c : Call} {e : FutureEvent Event} {id : PeerId}
    {peer : Peer} (keepalive : e.what = .maybeSendKeepalive id) (live : c.peers id = some peer)
    (incident : may .lapsed) : CallMove may inputs (e::due,c) (due,c)
  /-- a keepalive was sent, and its handle is dropped -/
  | sent {due : List (FutureEvent Event)} {c : Call} {e : FutureEvent Event} {id : PeerId}
    {peer : Peer} (keepalive : e.what = .maybeSendKeepalive id) (live : c.peers id = some peer) :
    CallMove may inputs (e::due,c) (due,
      { c with peers := update c.peers id (some { peer with keepalive := none }) })

abbrev CallMoves (may : Incident → Prop) (inputs : Packet → Prop) :=
  Relation.ReflTransGen (CallMove may inputs)

variable {may : Incident → Prop} {inputs : Packet → Prop} {due : List (FutureEvent Event)}
  {c c' : Call}

/-- A transition of one peer, with everything else that it does to the endpoint. -/
theorem Sound.step (hs : Sound c.peers c.state.ids.sessions) {id : PeerId} {peer peer' : Peer}
    {ctx : Ctx} (live : c.peers id = some peer)
    (move : PeerMove may inputs (peer,c.toCtx) (peer',ctx)) :
    Sound (Function.update c.peers id (some peer')) ctx.state.ids.sessions := by
  obtain ⟨hid,howns⟩ := hs id peer live
  obtain ⟨howns',hothers⟩ := move.owns howns
  exact hs.update (move.fixed.1.trans hid) howns' (hid ▸ hothers)

theorem CallMove.sound {x y : Dispatch} (h : CallMove may inputs x y)
    (hs : Sound x.2.peers x.2.state.ids.sessions) : Sound y.2.peers y.2.state.ids.sessions := by
  cases h with
  | draw env => exact hs
  | peer live move => exact hs.step live move
  | take now => exact hs
  | skip absent => exact hs
  | idle timeout live none => exact hs
  | @abort due c e id peer timeout live =>
    have hrelease : PeerMove (fun _ => True) (fun _ => False) (peer,c.toCtx) _ :=
      .release fun _ _ => trivial
    exact hs.step live hrelease
  | lapse keepalive live incident => exact hs
  | @sent due c e id peer keepalive live =>
    obtain ⟨hid,howns⟩ := hs id peer live
    exact hs.update hid (howns.same rfl rfl) fun _ _ _ h => h

theorem CallMoves.sound {x y : Dispatch} (h : CallMoves may inputs x y)
    (hs : Sound x.2.peers x.2.state.ids.sessions) : Sound y.2.peers y.2.state.ids.sessions := by
  induction h with
  | refl => exact hs
  | tail _ hmove ih => exact hmove.sound ih

/-- Transitions of a peer are transitions of the call. -/
theorem CallMoves.of_moves {id : PeerId} {peer peer' : Peer} {ctx : Ctx}
    (live : c.peers id = some peer)
    (h : PeerMoves may (fun packet => due = [] ∧ inputs packet) (peer,c.toCtx) (peer',ctx)) :
    CallMoves may inputs (due,c) (due,⟨ctx,update c.peers id (some peer')⟩) := by
  have hrun : ∀ y, PeerMoves may (fun packet => due = [] ∧ inputs packet) (peer,c.toCtx) y →
      CallMoves may inputs (due,c) (due,⟨y.2,update c.peers id (some y.1)⟩) := by
    intro y hy
    induction hy with
    | refl => rw [update_eq_self_iff.mpr live.symm]
    | @tail y z _ hmove ih =>
      obtain ⟨peer1,ctx1⟩ := y
      obtain ⟨peer2,ctx2⟩ := z
      have hlive : update c.peers id (some peer1) id = some peer1 :=
        update_self id _ _
      have hnext : CallMove may inputs (due,⟨ctx1,update c.peers id (some peer1)⟩) _ :=
        .peer hlive hmove
      rw [update_idem] at hnext
      exact ih.tail hnext
  exact hrun _ h

theorem CallMoves.of_updated {id : PeerId} {peer peer' : Peer} {ctx ctx' : Ctx}
    {peers : PeerId → Option Peer}
    (h : PeerMoves may (fun packet => due = [] ∧ inputs packet) (peer,ctx) (peer',ctx')) :
    CallMoves may inputs (due,⟨ctx,update peers id (some peer)⟩)
      (due,⟨ctx',update peers id (some peer')⟩) := by
  have hlive : update peers id (some peer) id = some peer := update_self id _ _
  have hmoves : CallMoves may inputs (due,⟨ctx,update peers id (some peer)⟩) _ :=
    .of_moves hlive h
  rwa [update_idem] at hmoves

/-- From a sound state a program makes transitions only, if the incidents in its log may
happen, and panics only benignly. -/
def Follows (may : Incident → Prop) (inputs : Packet → Prop) (m : Prog Call Unit)
    (log : Call → List Incident) : Prop :=
  ∀ c, Sound c.peers c.state.ids.sessions → (∀ i ∈ log c, may i) →
    Ensures Benign m c fun _ c' => CallMoves may inputs ([],c) ([],c')

theorem follows_forEach {α : Type} {f : α → Prog Call Unit} {log : α → Call → List Incident}
    {as : List α} (h : ∀ a ∈ as, Follows may inputs (f a) (log a)) :
    Follows may inputs (forEach f as) (logEach f log as) := by
  intro c hc hmay
  -- the invariant of the loop: what remains is from the list, and the way up to here
  let inv (as' : List α) (c' : Call) : Prop :=
    (∀ a ∈ as', a ∈ as) ∧ CallMoves may inputs ([],c) ([],c')
  refine (ensures_forEach_log inv (fun a as' c' hinv hgood => ?_) hmay ⟨fun a ha => ha,.refl⟩).mono
    fun _ _ hinv => hinv.2
  refine (h a (hinv.1 a mem_cons_self) c' (hinv.2.sound hc) hgood).mono fun _ _ h2 => ?_
  exact ⟨fun b hb => hinv.1 b (mem_cons_of_mem a hb),hinv.2.trans h2⟩

theorem ensures_onPeer {id : PeerId} {f : Peer → Prog Ctx Peer} {post : Call → Prop}
    (habsent : c.peers id = none → post c)
    (hf : ∀ peer, c.peers id = some peer → Ensures Benign (f peer) c.toCtx fun peer' ctx =>
      post ⟨ctx,update c.peers id (some peer')⟩) :
    Ensures Benign (onPeer id f) c fun _ => post := by
  rw [Ensures,onPeer]
  cases hp : c.peers id with
  | none => exact habsent hp
  | some peer =>
    dsimp only
    have hpeer := hf peer hp
    cases hrun : f peer c.toCtx with
    | error p => exact hpeer.of_error hrun
    | ok r => exact hpeer.of_ok hrun

/-- A call on a peer that makes transitions only. -/
theorem moves_onPeer {id : PeerId} {f : Peer → Prog Ctx Peer}
    (hf : ∀ peer, c.peers id = some peer → Ensures Benign (f peer) c.toCtx fun peer' ctx =>
      PeerMoves may (fun packet => due = [] ∧ inputs packet) (peer,c.toCtx) (peer',ctx)) :
    Ensures Benign (onPeer id f) c fun _ c' => CallMoves may inputs (due,c) (due,c') :=
  ensures_onPeer (fun _ => .refl) fun peer live =>
    (hf peer live).mono fun _ _ hmoves => .of_moves live hmoves

theorem Call.logPeer_of_live {α : Type} {id : PeerId} {peer : Peer} (live : c.peers id = some peer)
    (log : Peer → Ctx → List α) : c.logPeer id log = log peer c.toCtx := by
  rw [logPeer,live]

namespace Endpoint

theorem follows_send (packets : List (PeerId × List Packet)) :
    Follows may inputs (send packets) (sendIncidents packets) := by
  refine follows_forEach fun a _ c hc hmay => moves_onPeer fun peer live => moves_send ?_
  simpa [logPeer_of_live live] using hmay

theorem follows_processOneHandshake (packet : Packet) :
    Follows may inputs (processOneHandshake packet) (handshakeIncidents packet) := by
  intro c hc hmay
  rw [Ensures,processOneHandshake]
  cases hm : Message.tryFrom packet with
  | none => exact .refl
  | some message =>
    cases message with
    | handshakeResponse m => exact .refl
    | transportData m => exact .refl
    | cookieReply m => exact .refl
    | handshakeInitiation init =>
      dsimp only
      cases hr : ReceivedHandshake.new init c.state.myKey c.state.myCookie with
      | none => exact .refl
      | some received =>
        dsimp only
        cases hk : c.state.ids.nodeKeys received.peerStatic with
        | none => exact .refl
        | some id =>
          refine moves_onPeer fun peer live => moves_respondToHandshake hr ?_ ?_
          · rw [hk,(hc id peer live).1]
          · simpa [handshakeIncidents,hm,hr,hk,logPeer_of_live live] using hmay

theorem follows_recvGroup {id : SessionId} {packets : List Packet} (hin : ∀ p ∈ packets, inputs p)
    (hid : ∀ p ∈ packets, receiverOf p = id) (hne : id ≠ 0) :
    Follows may inputs (recvGroup id packets) (groupIncidents id packets) := by
  intro c hc hmay
  rw [Ensures,recvGroup]
  cases hs : c.state.ids.sessions id with
  | none => exact .refl
  | some p =>
    refine moves_onPeer fun peer live =>
      moves_recv (hc p peer live).2 (fun p hp => ⟨rfl,hin p hp⟩) hid hne ?_
    rw [groupIncidents,hs] at hmay
    simp only [logPeer_of_live live,Peer.recvIncidents,forall_mem_append] at hmay
    exact hmay.1

theorem follows_recv (packets : List Packet) :
    Follows may (· ∈ packets) (recv packets) (recvIncidents packets) := by
  intro c hc hmay
  rw [recvIncidents,forall_mem_append] at hmay
  have hhandshakes : Follows may (· ∈ packets) (forEach processOneHandshake
      (packets.filter fun packet => receiverOf packet = 0)) _ :=
    follows_forEach fun a _ => follows_processOneHandshake a
  refine ensures_bind_run (hhandshakes c hc hmay.1) fun _ c1 hrun1 h1 => ?_
  have horder : Ensures Benign (onCtx (onEnv Env.order)) c1 fun _ c' =>
      CallMoves may (· ∈ packets) ([],c) ([],c') := h1.tail (.draw _)
  refine ensures_bind_run horder fun rank c2 hrun2 h2 => ?_
  have hlog := hmay.2
  simp only [logGroups,hrun1,hrun2] at hlog
  refine (follows_forEach (fun id hid => ?_) c2 (h2.sound hc) hlog).mono fun _ _ h3 => h2.trans h3
  refine follows_recvGroup (fun p hp => (mem_filter.mp hp).1) (fun p hp => ?_) ?_
  · exact of_decide_eq_true (mem_filter.mp hp).2
  · rw [groupIds,mem_mergeSort,mem_dedup,mem_filter] at hid
    exact of_decide_eq_true hid.2

/-- An event is taken off those that are due and handled. -/
theorem moves_dispatchEvent (e : FutureEvent Event) (due : List (FutureEvent Event))
    (hc : Sound c.peers c.state.ids.sessions) (hmay : ∀ i ∈ eventIncidents e.what c, may i) :
    Ensures Benign (dispatchEvent e.what) c fun _ c' => CallMoves may inputs (e::due,c) (due,c') := by
  cases hwhat : e.what with
  | handshakeTimeout id =>
    refine ensures_onPeer (fun habsent => .single (.skip (by rw [hwhat]; exact habsent))) ?_
    intro peer live
    refine (ensures_handshakeTimeout may (fun packet => due = [] ∧ inputs packet)
      (hc id peer live).2).mono ?_
    rintro peer' ctx (⟨hnone,rfl,rfl⟩ | ⟨hmoves,-⟩)
    · rw [update_eq_self_iff.mpr live.symm]
      exact .single (.idle hwhat live hnone)
    · exact .head (.abort hwhat live) (CallMoves.of_updated hmoves)
  | maybeSendKeepalive id =>
    refine ensures_onPeer (fun habsent => .single (.skip (by rw [hwhat]; exact habsent))) ?_
    intro peer live
    rw [hwhat] at hmay
    simp only [eventIncidents,logPeer_of_live live] at hmay
    refine (ensures_sendKeepalive may (fun packet => e::due = [] ∧ inputs packet)
      (fun packet => due = [] ∧ inputs packet)).mono ?_
    rintro peer' ctx (⟨hidle,rfl,env,rfl⟩ | ⟨session,c1,hsent,hmoves,-⟩)
    · rw [update_eq_self_iff.mpr live.symm]
      refine .head (.lapse hwhat live (hmay _ ?_)) (.single (.draw env))
      simp [Peer.keepaliveIncident,hidle]
    · have hsend : CallMoves may inputs (e::due,c) _ := .of_moves live hsent
      have hlive : update c.peers id (some { peer with session }) id = some _ :=
        update_self id _ _
      have hdrop : CallMove may inputs
          (e::due,⟨c1,update c.peers id (some { peer with session })⟩) _ :=
        .sent hwhat hlive
      rw [update_idem] at hdrop
      exact (hsend.tail hdrop).trans (CallMoves.of_updated hmoves)

theorem reach_dispatchEvent {e : FutureEvent Event} {c' : Call}
    (hc : Sound c.peers c.state.ids.sessions) (h : CallMoves may inputs ([],c) (e::due,c'))
    (hmay : ∀ i ∈ eventIncidents e.what c', may i) :
    Ensures Benign (dispatchEvent e.what) c' fun _ c'' => CallMoves may inputs ([],c) (due,c'') :=
  (moves_dispatchEvent e due (h.sound hc) hmay).mono fun _ _ hmoves => h.trans hmoves

theorem dispatchEvents_eq (now : Instant) (c : Call) : dispatchEvents now c =
    forEach (fun e : FutureEvent Event => dispatchEvent e.what) (c.state.scheduler.due now)
      (c.taking now) :=
  congrFun forEach_map (c.taking now)

theorem dispatchIncidents_eq (now : Instant) (c : Call) : dispatchIncidents now c =
    logEach (fun e : FutureEvent Event => dispatchEvent e.what) (fun e => eventIncidents e.what)
      (c.state.scheduler.due now) (c.taking now) :=
  logEach_map

theorem follows_dispatchEvents (now : Instant) :
    Follows may inputs (dispatchEvents now) (dispatchIncidents now) := by
  intro c hc hmay
  rw [dispatchIncidents_eq] at hmay
  have htake : CallMove may inputs ([],c) _ := .take now
  rw [Ensures,dispatchEvents_eq]
  exact ensures_forEach_log (fun due c' => CallMoves may inputs ([],c) (due,c'))
    (fun e due c' => reach_dispatchEvent hc) hmay (.single htake)

theorem benign_of_upsertPeer {e : Endpoint} {id : PeerId} {cfg : PeerConfig} {p : Panic}
    (h : e.upsertPeer id cfg = .error p) : Benign p := by
  rcases upsertPeer_error h with ⟨peer,_,hchange⟩ | ⟨_,_,rfl⟩
  · exact benign_of_changeKey hchange
  · exact ⟨by decide,by decide⟩

/-- What `remove_peer` does: the peer releases its ids and leaves the index. -/
theorem ensures_removePeer {id : PeerId} {allowed : Panic → Prop}
    (hs : Sound c.peers c.state.ids.sessions)
    (hpanic : ∀ peer, c.peers id = some peer → c.state.ids.nodeKeys peer.config.key = none →
      allowed (.unwrapNoneIn "remove_peer")) :
    Ensures allowed (removePeer id) c fun existed c' =>
      (c.peers id = none ∧ existed = false ∧ c' = c) ∨
      ∃ peer, c.peers id = some peer ∧ existed = true ∧
        (c.state.ids.nodeKeys peer.config.key).isSome ∧
        c' = ⟨{ c.toCtx with state := { c.state with
            ids := ⟨forget c.state.ids.sessions peer.heldIds,
              update c.state.ids.nodeKeys peer.config.key none⟩ } },
          update c.peers id none⟩ := by
  rw [Ensures,removePeer]
  cases hp : c.peers id with
  | none => exact .inl ⟨rfl,rfl,rfl⟩
  | some peer =>
    dsimp only
    have hshutdown : Ensures allowed peer.shutdown c.toCtx _ := ensures_shutdown (hs id peer hp).2
    cases hrun : peer.shutdown c.toCtx with
    | error p => exact hshutdown.of_error hrun
    | ok r =>
      obtain ⟨peer',ctx⟩ := r
      obtain ⟨rfl,rfl⟩ := hshutdown.of_ok hrun
      simp only [Result.bind_of_ok,onIds,IdMap.removePeer,Ctx.withSessions]
      cases hkey : c.state.ids.nodeKeys peer.config.key with
      | none => exact hpanic peer hp hkey
      | some q => exact .inr ⟨peer,rfl,rfl,by simp [hkey],rfl⟩

end Endpoint

namespace Machine

/-- The table of session ids is sound. -/
def IdsSound (m : Machine) : Prop := Sound m.endpoint.peers m.endpoint.state.ids.sessions

/-- A machine without a peer, whose ids are released. -/
def without (m : Machine) (id : PeerId) (peer : Peer) : Machine where
  endpoint :=
    { state := { m.endpoint.state with
        ids := ⟨forget m.endpoint.state.ids.sessions peer.heldIds,
          update m.endpoint.state.ids.nodeKeys peer.config.key none⟩ }
      peers := update m.endpoint.peers id none }
  env := m.env

/-- What the calls on an endpoint do when they return, if only the incidents in `may` happen. -/
inductive Move (may : Incident → Prop) (m : Machine) : Op → Reply → Machine → Prop
  | upsert {id : PeerId} {cfg : PeerConfig} {old : Option PeerConfig} {endpoint : Endpoint}
    (upserted : m.endpoint.upsertPeer id cfg = .ok (old,endpoint)) :
    Move may m (.upsertPeer id cfg) (.upserted old) { m with endpoint }
  | missing {id : PeerId} (absent : m.endpoint.peers id = none) :
    Move may m (.removePeer id) (.removed false) m
  | remove {id : PeerId} {peer : Peer} (live : m.endpoint.peers id = some peer)
    (incident : ∀ i ∈ peer.shutdownIncident, may i)
    (indexed : (m.endpoint.state.ids.nodeKeys peer.config.key).isSome) :
    Move may m (.removePeer id) (.removed true) (m.without id peer)
  | packets {op : Op} {c : Call} (moves : CallMoves may op.datagrams ([],m.start) ([],c)) :
    Move may m op (.packets c.out) (stop c)

variable {m m' : Machine} {op : Op} {reply : Reply}

theorem callPackets_move {f : Prog Call Unit} {log : Call → List Incident} (hs : m.IdsSound)
    (hf : Follows may op.datagrams f log) (hmay : ∀ i ∈ log m.start, may i) :
    (∀ reply m', m.callPackets f = .ok (reply,m') → m.Move may op reply m') ∧
      ∀ p, m.callPackets f = .error p → Benign p := by
  have hcall := hf m.start hs hmay
  rw [callPackets,call]
  cases hrun : f m.start with
  | error q =>
    refine ⟨(fun _ _ h => by cases h),fun p h => ?_⟩
    cases h
    exact hcall.of_error hrun
  | ok r =>
    refine ⟨fun reply m' h => ?_,(fun p h => by cases h)⟩
    cases h
    exact .packets (hcall.of_ok hrun)

/-- A call on a sound endpoint makes transitions with its incidents only, or panics benignly. -/
theorem step_move (hs : m.IdsSound) (hmay : ∀ i ∈ m.incidents op, may i) :
    (∀ reply m', step op m = .ok (reply,m') → m.Move may op reply m') ∧
      ∀ p, step op m = .error p → Benign p := by
  cases op with
  | send packets => exact callPackets_move hs (follows_send packets) hmay
  | recv packets => exact callPackets_move hs (follows_recv packets) hmay
  | dispatchEvents now => exact callPackets_move hs (follows_dispatchEvents now) hmay
  | upsertPeer id cfg =>
    rw [step]
    cases h : m.endpoint.upsertPeer id cfg with
    | error p =>
      refine ⟨(fun _ _ h => by cases h),fun p h' => ?_⟩
      cases h'
      exact benign_of_upsertPeer h
    | ok r =>
      refine ⟨fun reply m' h' => ?_,(fun p h => by cases h)⟩
      cases h'
      exact .upsert h
  | removePeer id =>
    have hremove : Ensures Benign (Endpoint.removePeer id) m.start _ :=
      ensures_removePeer hs fun _ _ _ heq => absurd heq (by decide)
    rw [step,call]
    cases hrun : Endpoint.removePeer id m.start with
    | error p =>
      refine ⟨(fun _ _ h => by cases h),fun p h => ?_⟩
      cases h
      exact hremove.of_error hrun
    | ok r =>
      obtain ⟨existed,c⟩ := r
      refine ⟨fun reply m' h => ?_,(fun p h => by cases h)⟩
      cases h
      rcases hremove.of_ok hrun with ⟨hnone,rfl,rfl⟩ | ⟨peer,live,rfl,hindexed,rfl⟩
      · exact .missing hnone
      · refine .remove live ?_ hindexed
        simpa [incidents,Endpoint.removeIncidents,logPeer_of_live live] using hmay

end Machine

end
end Tailnet.Wireguard

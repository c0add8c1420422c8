import Tailnet.Wireguard.PeerMove

/-! The calls on a peer are sequences of its transitions. A call never releases an id that
is not in the table, and never gives a packet to a session with another id. -/
namespace Tailnet.Wireguard
open Prog Ctx List

/-- A panic that is neither the release of an unknown session id nor a packet that was
given to a wrong session or peer. -/
def Benign : Panic → Prop
  | .unwrapNoneIn function => function ≠ "remove_session"
  | .message text => text ≠ "decrypt_in_place given packet with wrong receiver ID" ∧
      text ≠ "handshake initiations should have been filtered out prior to calling recv"
  | _ => True

theorem benign_of_set {r : ReplayWindow} {counter : UInt64} {p : Panic}
    (h : r.set counter = .error p) : Benign p := by
  obtain ⟨text,rfl⟩ := ReplayWindow.set_error h
  refine ⟨fun heq => ?_,fun heq => ?_⟩
  · have hhead := congrArg (fun t => t.toList.head?) heq
    simp at hhead
  · have hhead := congrArg (fun t => t.toList.head?) heq
    simp at hhead

/-- The packets are transport data for the session id. -/
def AddressedTo (id : SessionId) (packets : List Packet) : Prop :=
  ∀ packet ∈ packets, ∀ header rest,
    TransportDataHeader.tryFromFront packet = some (header,rest) → header.receiverId = id

section
variable [Aead]

theorem benign_of_encrypt {s : TransmitSession} {packets : List Packet} {p : Panic}
    (h : s.encrypt packets = .error p) : Benign p := by
  rw [TransmitSession.encrypt,NonceGenerator.batch] at h
  split at h
  · cases h
  · cases h
    exact ⟨by decide,by decide⟩

theorem benign_of_decryptOne {s : ReceiveSession} {packet : Packet} {p : Panic}
    (haddr : ∀ header rest, TransportDataHeader.tryFromFront packet = some (header,rest) →
      header.receiverId = s.id)
    (h : s.decryptOne packet = .error p) : Benign p := by
  rw [ReceiveSession.decryptOne] at h
  split at h
  · cases h
  · rename_i header rest hfront
    rw [if_neg (fun hne => hne (haddr header rest hfront))] at h
    split at h
    · cases h
    · split at h
      · cases h
      · cases hset : s.window.set header.nonce with
        | ok window => simp [hset] at h
        | error q =>
          rw [hset,Result.bind_of_error] at h
          cases h
          exact benign_of_set hset

theorem benign_of_decrypt {s : ReceiveSession} {packets : List Packet} {p : Panic}
    (haddr : AddressedTo s.id packets) (h : s.decrypt packets = .error p) : Benign p := by
  induction packets generalizing s with
  | nil => cases h
  | cons packet packets ih =>
    rcases Result.bind_eq_error.mp h with h | ⟨⟨out,s'⟩,hone,h⟩
    · exact benign_of_decryptOne (haddr packet mem_cons_self) h
    · have hid : s'.id = s.id := by
        rcases ReceiveSession.decryptOne_ok hone with ⟨-,rfl⟩ | ⟨_,window,-,rfl,-⟩
        · rfl
        · rfl
      rcases Result.bind_eq_error.mp h with h | ⟨_,_,h⟩
      · exact ih (hid ▸ fun a ha => haddr a (mem_cons_of_mem _ ha)) h
      · cases h

end

/-! Programs that draw from outside. -/

theorem panics_now : PanicsOnly Benign Env.now := fun _ _ h => by cases h

theorem benign_of_timeRange {start stop : Instant} {p : Panic}
    (h : TimeRange.new start stop = .error p) : Benign p := by
  rw [TimeRange.new] at h
  split at h
  · cases h
  · cases h
    trivial

theorem benign_of_checkedSecs {secs : ℤ} {p : Panic} (h : TAI64N.checkedSecs secs = .error p) :
    Benign p := by
  rw [TAI64N.checkedSecs] at h
  split at h
  · cases h
  · cases h
    trivial

theorem benign_of_ofSystemTime {v : TAI64N.SystemTime} {p : Panic}
    (h : TAI64N.ofSystemTime v = .error p) : Benign p := by
  rw [TAI64N.ofSystemTime] at h
  split at h
  · rcases Result.bind_eq_error.mp h with h | ⟨_,_,h⟩
    · exact benign_of_checkedSecs h
    · cases h
  · rcases Result.bind_eq_error.mp h with h | ⟨_,_,h⟩
    · exact benign_of_checkedSecs h
    · cases h

theorem benign_of_clampAfter {t min : TAI64N} {p : Panic} (h : t.clampAfter min = .error p) :
    Benign p := by
  rw [TAI64N.clampAfter] at h
  split at h
  · cases h
  · rcases Result.bind_eq_error.mp h with h | ⟨_,_,h⟩
    · rw [TAI64N.carrySecs] at h
      split at h
      · exact benign_of_checkedSecs h
      · cases h
    · cases h

theorem panics_timestamp (clock : TAI64NClock) : PanicsOnly Benign clock.now := by
  refine .bind (fun _ _ h => by cases h) fun v => .bind (.lift fun _ h => ?_) fun t =>
    .bind (.lift fun _ h => ?_) fun last => .pure _
  · exact benign_of_ofSystemTime h
  · exact benign_of_clampAfter h

theorem panics_allocateSession (ids : IdMap) (peer : PeerId) :
    PanicsOnly Benign (ids.allocateSession peer) := by
  have hloop : ∀ fuel, PanicsOnly Benign (ids.allocateLoop peer fuel) := by
    intro fuel
    induction fuel with
    | zero =>
      refine .lift fun p h => ?_
      cases h
      trivial
    | succ fuel ih =>
      refine .bind (fun _ _ h => by cases h) fun ret => ?_
      split
      · exact ih
      · exact .pure _
  intro env
  exact hloop env.fuel env

theorem allocateLoop_free {ids ids' : IdMap} {peer : PeerId} {fuel : ℕ} {env env' : Env}
    {id : SessionId} (h : ids.allocateLoop peer fuel env = .ok ((id,ids'),env')) :
    ids.sessions id = none ∧
      ids' = { ids with sessions := Function.update ids.sessions id (some peer) } := by
  induction fuel generalizing env with
  | zero => cases h
  | succ fuel ih =>
    obtain ⟨ret,env1,_,h⟩ := bind_eq_ok.mp h
    split at h
    · exact ih h
    · rename_i hfree
      cases h
      exact ⟨by simpa using hfree,rfl⟩

section
variable [MacPrimitives]

theorem panics_writeMacs (macs : MACSender) (pkt : Packet) :
    PanicsOnly Benign (macs.writeMacs pkt) := by
  refine .bind ?_ fun now => .lift fun p hp => ?_
  · rw [MACSender.cookieNow]
    split
    · exact panics_now
    · exact .pure 0
  · rw [MACSender.writeMacsAt] at hp
    cases htrailer : macTrailer pkt with
    | some t => simp [htrailer] at hp
    | none =>
      simp [htrailer] at hp
      rw [← hp]
      trivial

theorem panics_receiveCookie (macs : MACSender) (reply : CookieReply) (mac : Mac) :
    PanicsOnly Benign (macs.receiveCookie reply mac) := by
  rw [MACSender.receiveCookie]
  split
  · exact .pure _
  · exact .bind panics_now fun _ => .pure _

theorem panics_initiateHandshake (my : Noise.X25519KeyPair) (key : NodePublicKey) (id : SessionId)
    (timestamp : TAI64N) : PanicsOnly Benign (initiateHandshake my key id timestamp) := by
  refine .bind (fun _ _ h => by cases h) fun ephemeral => .bind (.lift fun p h => ?_) fun _ => .pure _
  rcases Result.bind_eq_error.mp h with h | ⟨_,_,h⟩
  · rw [Result.assert_eq_error h]
    trivial
  · cases h

theorem panics_respond (received : ReceivedHandshake) (id : SessionId) (psk : Psk)
    (macs : MACSender) (now : Instant) : PanicsOnly Benign (received.respond id psk macs now) := by
  refine .bind (fun _ _ h => by cases h) fun ephemeral => .bind (.lift fun p h => ?_) fun keys =>
    .bind (panics_writeMacs _ _) fun _ => .pure _
  rcases Result.bind_eq_error.mp h with h | ⟨_,_,h⟩
  · rw [Result.assert_eq_error h]
    trivial
  · cases h

/-! What the parts of a call do to its context. -/

variable {α : Type} {c : Ctx} {inputs : Packet → Prop} {allowed : Panic → Prop}

theorem ensures_onEnv {m : Prog Env α} (h : PanicsOnly Benign m) :
    Ensures Benign (onEnv m) c fun a c' => ∃ env, m c.env = .ok (a,env) ∧ c' = { c with env } := by
  refine ensures_zoom (h.ensures.mono fun a env hm => ⟨env,hm,rfl⟩)

theorem ensures_now : Ensures Benign now c fun t c' =>
    t = c.env.instants.head ∧ ∃ env, c' = { c with env } := by
  refine (ensures_onEnv panics_now).mono ?_
  rintro t _ ⟨env,hnow,rfl⟩
  cases hnow
  exact ⟨rfl,_,rfl⟩

theorem ensures_allocateSession {peer : PeerId} :
    Ensures Benign (allocateSession peer) c fun id c' =>
      c.state.ids.sessions id = none ∧ ∃ env, c' =
        { c.withSessions (Function.update c.state.ids.sessions id (some peer)) with env } := by
  refine ensures_get (ensures_bind (ensures_onEnv (panics_allocateSession _ _)) ?_)
  rintro ⟨id,ids⟩ _ ⟨env,halloc,rfl⟩
  obtain ⟨hfree,rfl⟩ := allocateLoop_free halloc
  exact ⟨hfree,env,rfl⟩

theorem ensures_timestamp : Ensures Benign timestamp c fun _ c' =>
    ∃ env timestamps, c' = { c with env, state := { c.state with timestamps } } := by
  refine ensures_get (ensures_bind (ensures_onEnv (panics_timestamp _)) ?_)
  rintro ⟨t,timestamps⟩ _ ⟨env,_,rfl⟩
  exact ⟨env,timestamps,rfl⟩

theorem ensures_scheduleAround {t plusMinus : Instant} {what : Event} :
    Ensures Benign (scheduleAround t plusMinus what) c fun handle c' =>
      ∃ when, handle = (c.state.scheduler.add when what).1 ∧
        c' = c.withScheduler (c.state.scheduler.add when what).2 := by
  refine ensures_lift (fun p h => ?_) fun when _ => ⟨when,rfl,rfl⟩
  rw [TimeRange.newAround] at h
  exact benign_of_timeRange h

theorem ensures_removeSession {id : SessionId} (h : (c.state.ids.sessions id).isSome) :
    Ensures allowed (onIds fun ids => ids.removeSession id) c fun _ c' =>
      c' = c.withSessions (Function.update c.state.ids.sessions id none) := by
  obtain ⟨peer,hpeer⟩ := Option.isSome_iff_exists.mp h
  rw [Ensures,onIds,IdMap.removeSession,hpeer]
  rfl

namespace SessionState

/-- What encrypting or queueing packets does to a session. -/
inductive Encrypted (s : SessionState) (now : Instant) (packets : List Packet) :
    Option (List Packet) → SessionState → Prop
  | queued {queue : Queue} (queue' : Queue) (inactive : s = none queue) :
    Encrypted s now packets Option.none (none queue')
  | expired {recv : ReceiveSession} {recvPrev : Option ReceiveSession} {send : TransmitSession}
    (queue : Queue) (active : s = active recv recvPrev send) (late : send.expired now = true) :
    Encrypted s now packets Option.none (none queue)
  | sealing {recv : ReceiveSession} {recvPrev : Option ReceiveSession}
    {send send' : TransmitSession} {ret : List Packet} (active : s = active recv recvPrev send)
    (sealing : send.encrypt packets = .ok (ret,send')) :
    Encrypted s now packets (some ret) (SessionState.active recv recvPrev send')

variable {s : SessionState} {packets : List Packet}

theorem ensures_encryptOrQueue : Ensures Benign (s.encryptOrQueue packets) c fun r c' =>
    (∃ env, c' = { c with env }) ∧ Encrypted s c.env.instants.head packets r.1 r.2 := by
  cases s with
  | none queue => exact ensures_pure ⟨⟨c.env,rfl⟩,.queued _ rfl⟩
  | active recv recvPrev send =>
    refine ensures_bind ensures_now ?_
    rintro _ _ ⟨rfl,env,rfl⟩
    split
    · exact ensures_pure ⟨⟨env,rfl⟩,.expired _ rfl ‹_›⟩
    · exact ensures_lift (fun p => benign_of_encrypt) fun r hr =>
        ensures_pure ⟨⟨env,rfl⟩,.sealing rfl hr⟩

theorem ensures_encryptKeepalive : Ensures Benign s.encryptKeepalive c fun r c' =>
    (∃ env, c' = { c with env }) ∧
      (r = (Option.none,s) ∧ s.canTransmit c.env.instants.head = false ∨
        s.canTransmit c.env.instants.head = true ∧ ∃ packet, r.1 = some packet ∧
          Encrypted s c.env.instants.head [[]] (some [packet]) r.2) := by
  cases s with
  | none queue => exact ensures_pure ⟨⟨c.env,rfl⟩,.inl ⟨rfl,rfl⟩⟩
  | active recv recvPrev send =>
    refine ensures_bind ensures_now ?_
    rintro _ _ ⟨rfl,env,rfl⟩
    split
    · rename_i hlate
      exact ensures_pure ⟨⟨env,rfl⟩,.inl ⟨rfl,by simp [canTransmit,hlate]⟩⟩
    · rename_i hlate
      refine ensures_lift (fun p => benign_of_encrypt) fun r hr => ?_
      obtain ⟨packet,hpacket⟩ := length_eq_one_iff.mp (TransmitSession.length_encrypt hr)
      refine ensures_pure ⟨⟨env,rfl⟩,.inr ⟨by simp [canTransmit,hlate],packet,?_,?_⟩⟩
      · rw [hpacket]
        rfl
      · exact .sealing rfl (by rw [hr,← hpacket])

theorem ensures_needsRotation : Ensures Benign s.needsRotation c fun _ c' =>
    ∃ env, c' = { c with env } := by
  cases s with
  | none queue => exact ensures_pure ⟨c.env,rfl⟩
  | active recv recvPrev send =>
    refine ensures_bind ensures_now ?_
    rintro now _ ⟨_,env,rfl⟩
    exact ensures_pure ⟨env,rfl⟩

theorem ensures_matchesId {recv session : ReceiveSession} {id : SessionId} :
    Ensures Benign (matchesId recv session id) c fun b c' =>
      (session.id = id ∧ b = !recv.expired c.env.instants.head ∧ ∃ env, c' = { c with env }) ∨
        (session.id ≠ id ∧ b = false ∧ c' = c) := by
  rw [matchesId]
  split
  · rename_i hid
    refine ensures_bind ensures_now ?_
    rintro _ _ ⟨rfl,env,rfl⟩
    exact ensures_pure (.inl ⟨hid,rfl,env,rfl⟩)
  · exact ensures_pure (.inr ⟨‹_›,rfl,rfl⟩)

/-- A receive session with the given id: the current or the previous one. The current one is
not expired. -/
inductive Selected (s : SessionState) (id : SessionId) (now : Instant) :
    Option (ReceiveSession × (ReceiveSession → SessionState)) → Prop
  | missing : Selected s id now Option.none
  | current {recv : ReceiveSession} {recvPrev : Option ReceiveSession} {send : TransmitSession}
    (active : s = active recv recvPrev send) (same : recv.id = id)
    (live : recv.expired now = false) :
    Selected s id now (some (recv,fun r => SessionState.active r recvPrev send))
  | previous {recv prev : ReceiveSession} {send : TransmitSession}
    (active : s = active recv (some prev) send) (same : prev.id = id) :
    Selected s id now (some (prev,fun r => SessionState.active recv (some r) send))

theorem ensures_getRecv {id : SessionId} : Ensures Benign (s.getRecv id) c fun r c' =>
    (∃ env, c' = { c with env }) ∧ Selected s id c.env.instants.head r := by
  cases s with
  | none queue => exact ensures_pure ⟨⟨c.env,rfl⟩,.missing⟩
  | active recv recvPrev send =>
    refine ensures_bind ensures_matchesId ?_
    intro b c1 hmatch
    have henv : ∃ env, c1 = { c with env } := by
      rcases hmatch with ⟨_,_,henv⟩ | ⟨_,_,rfl⟩
      · exact henv
      · exact ⟨c1.env,rfl⟩
    obtain ⟨env,rfl⟩ := henv
    split
    · rcases hmatch with ⟨hid,hlive,_⟩ | ⟨_,rfl,_⟩
      · exact ensures_pure ⟨⟨env,rfl⟩,.current rfl hid (by simp_all)⟩
      · contradiction
    · cases recvPrev with
      | none => exact ensures_pure ⟨⟨env,rfl⟩,.missing⟩
      | some prev =>
        refine ensures_bind ensures_matchesId ?_
        rintro b _ (⟨hid,_,env',rfl⟩ | ⟨_,rfl,rfl⟩)
        · split
          · exact ensures_pure ⟨⟨env',rfl⟩,.previous rfl hid⟩
          · exact ensures_pure ⟨⟨env',rfl⟩,.missing⟩
        · exact ensures_pure ⟨⟨env,rfl⟩,.missing⟩

theorem ensures_release {recv : Option ReceiveSession}
    (h : ∀ r, recv = some r → (c.state.ids.sessions r.id).isSome) :
    Ensures allowed (release recv) c fun _ c' => c' =
      c.withSessions (forget c.state.ids.sessions (recv.map ReceiveSession.id).toList) := by
  cases recv with
  | none => exact ensures_pure rfl
  | some recv => exact ensures_removeSession (h recv rfl)

theorem ensures_activate {next : SessionPair} (h : ∀ id ∈ s.ids, (c.state.ids.sessions id).isSome) :
    Ensures Benign (s.activate next) c fun r c' => ∃ released,
      Activates next s r.1 r.2 released ∧
      c' = c.withSessions (forget c.state.ids.sessions released) := by
  cases s with
  | none queue =>
    exact ensures_lift (fun p => benign_of_encrypt) fun r hr =>
      ensures_pure ⟨[],.fresh hr,rfl⟩
  | active recv recvPrev send =>
    refine ensures_bind (ensures_release fun r hr => h _ ?_) ?_
    · subst hr
      simp [ids]
    · rintro _ _ rfl
      exact ensures_pure ⟨_,.rotate,rfl⟩

theorem ensures_deactivate (h : ∀ id ∈ s.ids, (c.state.ids.sessions id).isSome) (hn : s.ids.Nodup) :
    Ensures allowed s.deactivate c fun r c' =>
      r = none [] ∧ c' = c.withSessions (forget c.state.ids.sessions s.ids) := by
  cases s with
  | none queue => exact ensures_pure ⟨rfl,rfl⟩
  | active recv recvPrev send =>
    refine ensures_bind (ensures_release fun r hr => h _ (by cases hr; simp [ids])) ?_
    rintro _ _ rfl
    refine ensures_bind (ensures_release fun r hr => ?_) ?_
    · subst hr
      have hne : r.id ≠ recv.id := by
        rintro heq
        simp [ids,heq] at hn
      simpa [withSessions,forget,hne] using h r.id (by simp [ids])
    · rintro _ _ rfl
      exact ensures_pure ⟨rfl,rfl⟩

end SessionState

/-! The calls on a peer. -/

namespace Peer
variable {peer peer' : Peer} {c' : Ctx} {packets : List Packet} {may : Incident → Prop}

theorem moves_env (env : Env) : PeerMoves may inputs (peer,c) (peer,{ c with env }) :=
  .single (.draw env c.state.timestamps)

theorem moves_sealing {now : Instant} {ret : List Packet} {session : SessionState}
    (h : SessionState.Encrypted peer.session now packets (some ret) session) :
    PeerMoves may inputs (peer,c)
      ({ peer with session },{ c with out := c.out.queueToPeer peer.id ret }) := by
  cases h with
  | sealing active sealing => exact .single (.transmit active sealing)

theorem moves_queueing {now : Instant} {session : SessionState}
    (hmay : ∀ i ∈ peer.sendIncident now, may i)
    (h : SessionState.Encrypted peer.session now packets none session) :
    PeerMoves may inputs (peer,c) ({ peer with session },c) := by
  cases h with
  | queued queue' inactive => exact .single (.enqueue queue' inactive)
  | expired queue active late =>
    exact .single (.expire queue active (hmay _ (by simp [sendIncident,active,late])))

/-- What scheduling a keepalive does. -/
inductive Arms (peer : Peer) (c : Ctx) : Peer → Ctx → Prop
  | again (armed : peer.keepalive.isSome) : Arms peer c { peer with sendAnotherKeepalive := true } c
  | first (env : Env) (when : TimeRange) (idle : peer.keepalive = none) :
    Arms peer c
      { peer with keepalive := some (c.state.scheduler.add when (.maybeSendKeepalive peer.id)).1 }
      ({ c with env }.withScheduler (c.state.scheduler.add when (.maybeSendKeepalive peer.id)).2)

theorem ensures_scheduleKeepalive : Ensures Benign peer.scheduleKeepalive c (Arms peer c) := by
  rw [scheduleKeepalive]
  split
  · exact ensures_pure (.again ‹_›)
  · rename_i hidle
    refine ensures_bind ensures_now ?_
    rintro now _ ⟨_,env,rfl⟩
    refine ensures_bind ensures_scheduleAround ?_
    rintro _ _ ⟨when,rfl,rfl⟩
    exact ensures_pure (.first env when (by simpa using hidle))

theorem Arms.moves (h : Arms peer c peer' c') : PeerMoves may inputs (peer,c) (peer',c') := by
  cases h with
  | again armed => exact .single (.another true)
  | first env when idle => exact (moves_env env).tail (.arm when idle)

theorem Arms.handshake (h : Arms peer c peer' c') : peer'.handshake = peer.handshake := by
  cases h <;> rfl

theorem Arms.armed (h : Arms peer c peer' c') : peer'.keepalive.isSome := by
  cases h with
  | again armed => exact armed
  | first env when idle => rfl

theorem ensures_deliver : Ensures Benign (peer.deliver packets) c
    (Arms peer { c with out := c.out.queueToLocal peer.id packets }) :=
  ensures_modify ensures_scheduleKeepalive

/-- A handshake that starts gets the next handle of the scheduler. -/
theorem moves_startHandshake (may : Incident → Prop) (inputs : Packet → Prop)
    (hidle : peer.handshake = .none) :
    Ensures Benign peer.startHandshake c fun peer' c' => PeerMoves may inputs (peer,c) (peer',c') ∧
      ∃ sent mac, peer'.handshake = .initiated sent ⟨c.state.scheduler.fresh⟩ mac := by
  refine ensures_bind ensures_allocateSession ?_
  rintro id _ ⟨hfree,env1,rfl⟩
  refine ensures_bind ensures_timestamp ?_
  rintro t _ ⟨env2,timestamps,rfl⟩
  refine ensures_get (ensures_bind (ensures_onEnv (panics_initiateHandshake _ _ _ _)) ?_)
  rintro ⟨sent,init⟩ _ ⟨env3,hinit,rfl⟩
  refine ensures_bind (ensures_onEnv (panics_writeMacs _ _)) ?_
  rintro ⟨mac,packet⟩ _ ⟨env4,hmacs,rfl⟩
  refine ensures_modify (ensures_bind ensures_now ?_)
  rintro now _ ⟨_,env5,rfl⟩
  refine ensures_bind ensures_scheduleAround ?_
  rintro _ _ ⟨when,rfl,rfl⟩
  have hinitiate : PeerMove may inputs
      (peer,{ c with env := env5, state := { c.state with timestamps } }) _ :=
    .initiate when hidle hfree hinit hmacs
  exact ensures_pure ⟨.head (.draw env5 timestamps) (.single hinitiate),sent,mac,rfl⟩

theorem moves_send (hmay : ∀ i ∈ peer.sendIncident c.env.instants.head, may i) :
    Ensures Benign (peer.send packets) c fun peer' c' =>
      PeerMoves may inputs (peer,c) (peer',c') := by
  refine ensures_bind SessionState.ensures_encryptOrQueue ?_
  rintro ⟨ret,session⟩ _ ⟨⟨env,rfl⟩,hencrypted⟩
  have hqueue : Ensures Benign (peer.queueSome ret) { c with env } fun _ c' =>
      PeerMoves may inputs (peer,c) ({ peer with session },c') := by
    cases ret with
    | none => exact (moves_env env).trans (moves_queueing hmay hencrypted)
    | some ret => exact (moves_env env).trans (moves_sealing hencrypted)
  refine ensures_bind hqueue fun _ c1 h1 => ?_
  dsimp only
  split
  · exact ensures_pure h1
  · rename_i hinactive
    refine ensures_bind SessionState.ensures_needsRotation ?_
    rintro b _ ⟨env2,rfl⟩
    split
    · have hidle : { peer with session }.handshake = .none := Handshake.eq_none_of_isActive hinactive
      have hrotate : PeerMoves may inputs (peer,c) ({ peer with session },{ c1 with env := env2 }) :=
        h1.trans (moves_env env2)
      exact (moves_startHandshake may inputs hidle).mono fun _ _ h2 => hrotate.trans h2.1
    · exact ensures_pure (h1.trans (moves_env env2))

variable {packet : Packet}

theorem moves_recvCookieReply {reply : CookieReply} (hin : inputs packet)
    (hparsed : Message.tryFrom packet = some (.cookieReply reply)) :
    Ensures Benign (peer.recvCookieReply reply) c fun peer' c' =>
      PeerMoves may inputs (peer,c) (peer',c') := by
  rw [recvCookieReply]
  split
  · rename_i sent timeout mac hinitiated
    refine ensures_bind (ensures_onEnv (panics_receiveCookie _ _ _)) ?_
    rintro macs _ ⟨env,hmacs,rfl⟩
    refine ensures_pure ?_
    rcases MACSender.receiveCookie_ok hmacs with rfl | ⟨key,expiry,hopen,rfl⟩
    · exact moves_env env
    · exact (moves_env env).tail (.cookie expiry hinitiated hin hparsed hopen)
  · exact ensures_pure .refl

theorem moves_confirmation (may : Incident → Prop) (inputs : Packet → Prop) (peer : Peer)
    {session : SessionState} :
    Ensures Benign (confirmation session packets) c fun r c' =>
      PeerMoves may inputs
        ({ peer with session },{ c with out := c.out.pushToPeer peer.id packets })
        ({ peer with session := r.2 },{ c' with out := c'.out.queueToPeer peer.id r.1 }) := by
  rw [confirmation]
  split
  · rename_i hempty
    refine ensures_bind SessionState.ensures_encryptOrQueue ?_
    rintro ⟨ret,session'⟩ _ ⟨⟨env,rfl⟩,hencrypted⟩
    refine ensures_lift (fun p hp => ?_) fun ret' hret => ?_
    · cases ret with
      | some ret => cases hp
      | none =>
        cases hp
        trivial
    · cases ret with
      | none => cases hret
      | some ret =>
        cases hret
        refine ensures_pure ?_
        simp only [Outbox.pushToPeer,if_pos hempty]
        exact (moves_env env).trans (moves_sealing hencrypted)
  · rename_i hempty
    refine ensures_pure ?_
    simp only [Outbox.pushToPeer,if_neg hempty]
    exact .refl

theorem moves_finishHandshake (may : Incident → Prop) (inputs : Packet → Prop) {pair : SessionPair}
    (h : ∀ id ∈ peer.session.ids, (c.state.ids.sessions id).isSome) :
    Ensures Benign (peer.finishHandshake pair) c fun peer' c' => ∃ ret session released,
      SessionState.Activates pair peer.session ret session released ∧
      PeerMoves may inputs ({ peer with session },
        { c.withSessions (forget c.state.ids.sessions released) with
          out := c.out.pushToPeer peer.id ret }) (peer',c') := by
  refine ensures_bind (SessionState.ensures_activate h) ?_
  rintro ⟨ret,session⟩ _ ⟨released,hactivates,rfl⟩
  refine ensures_bind (moves_confirmation may inputs peer) ?_
  rintro ⟨ret',session'⟩ c' hmoves
  exact ⟨ret,session,released,hactivates,hmoves⟩

theorem moves_recvHandshakeResponse {response : HandshakeResponse}
    (ho : Owns peer c.state.ids.sessions) (hin : inputs packet)
    (hparsed : Message.tryFrom packet = some (.handshakeResponse response))
    (hmay : ∀ i ∈ peer.responseIncident response c.state, may i) :
    Ensures Benign (peer.recvHandshakeResponse response) c fun peer' c' =>
      PeerMoves may inputs (peer,c) (peer',c') := by
  refine ensures_bind ensures_now ?_
  rintro now _ ⟨_,env,rfl⟩
  refine ensures_get ?_
  cases hf : peer.handshake.finish response c.state.myKey peer.config.psk c.state.myCookie now with
  | mk done handshake =>
  dsimp only
  cases done with
  | none =>
    refine ensures_pure ?_
    rcases Handshake.finish_none hf with rfl | ⟨rfl,sent,handle,mac,hinitiated,hgenuine⟩
    · exact moves_env env
    · refine (moves_env env).tail (.abandon hinitiated (hmay _ ?_))
      simp [responseIncident,hinitiated,hgenuine]
  | some done =>
    obtain ⟨pair,timeout⟩ := done
    obtain ⟨rfl,sent,mac,hinitiated⟩ := Handshake.finish_some hf
    refine ensures_modify ((moves_finishHandshake may inputs fun id hid => ?_).mono ?_)
    · exact Option.isSome_iff_exists.mpr ⟨_,ho.mapped id (mem_append_left _ hid)⟩
    · rintro peer' c' ⟨ret,session,released,hactivates,hmoves⟩
      have henv : PeerMoves may inputs (peer,c) (peer,{ c with env }) := moves_env env
      exact (henv.tail (.finish hinitiated hin hparsed hf hactivates)).trans hmoves

theorem moves_deliverSome (may : Incident → Prop) (inputs : Packet → Prop) : Ensures Benign
    (if packets.isEmpty then pure peer else peer.deliver packets) c fun peer' c' =>
      PeerMoves may inputs (peer,{ c with out := c.out.pushToLocal peer.id packets }) (peer',c') := by
  rw [Outbox.pushToLocal]
  split
  · exact ensures_pure .refl
  · exact ensures_deliver.mono fun _ _ harms => harms.moves

theorem moves_confirmHandshake {pair : SessionPair} {recv : ReceiveSession}
    {opened : List Packet} (ho : Owns peer c.state.ids.sessions)
    (hresponded : peer.handshake = .responded pair) (hgiven : ∀ p ∈ packets, inputs p)
    (hopen : pair.recv.decrypt packets = .ok (opened,recv)) (hne : opened ≠ []) :
    Ensures Benign (confirmHandshake { peer with handshake := .none } { pair with recv } opened) c
      fun peer' c' => PeerMoves may inputs (peer,c) (peer',c') := by
  have hmapped : ∀ id ∈ peer.session.ids, (c.state.ids.sessions id).isSome := fun id hid =>
    Option.isSome_iff_exists.mpr ⟨_,ho.mapped id (mem_append_left _ hid)⟩
  refine ensures_bind ensures_deliver fun peer1 c1 harms => ?_
  cases harms with
  | again armed =>
    refine ensures_bind (SessionState.ensures_activate hmapped) ?_
    rintro ⟨ret,session⟩ _ ⟨released,hactivates,rfl⟩
    have hconfirm : PeerMove may inputs ({ peer with sendAnotherKeepalive := true },c) _ :=
      .confirm hresponded hgiven hopen hne hactivates
    have hmoves : PeerMoves may inputs (peer,c) _ := .head (.another true) (.single hconfirm)
    cases ret with
    | nil => exact hmoves
    | cons packet ret => exact hmoves
  | first env when idle =>
    refine ensures_bind (SessionState.ensures_activate hmapped) ?_
    rintro ⟨ret,session⟩ _ ⟨released,hactivates,rfl⟩
    have harm : PeerMove may inputs (peer,{ c with env }) _ := .arm when idle
    have hconfirm : PeerMove may inputs ({ peer with
          keepalive := some (c.state.scheduler.add when (.maybeSendKeepalive peer.id)).1 },
        { c with env }.withScheduler
          (c.state.scheduler.add when (.maybeSendKeepalive peer.id)).2) _ :=
      .confirm hresponded hgiven hopen hne hactivates
    have hmoves : PeerMoves may inputs (peer,c) _ := ((moves_env env).tail harm).tail hconfirm
    cases ret with
    | nil => exact hmoves
    | cons packet ret => exact hmoves

variable {id : SessionId}

theorem moves_recvTransportData (ho : Owns peer c.state.ids.sessions)
    (hgiven : ∀ p ∈ packets, inputs p) (haddr : AddressedTo id packets) :
    Ensures Benign (peer.recvTransportData id packets) c fun peer' c' =>
      PeerMoves may inputs (peer,c) (peer',c') := by
  refine ensures_bind SessionState.ensures_getRecv ?_
  rintro selected _ ⟨⟨env,rfl⟩,hselected⟩
  cases hselected with
  | current active same live =>
    refine ensures_lift (fun p => benign_of_decrypt (same ▸ haddr)) fun r hr => ?_
    obtain ⟨ret,recv⟩ := r
    refine (moves_deliverSome may inputs).mono fun peer' c' hmoves => ?_
    exact ((moves_env env).tail (.receive active hgiven hr)).trans hmoves
  | previous active same =>
    refine ensures_lift (fun p => benign_of_decrypt (same ▸ haddr)) fun r hr => ?_
    obtain ⟨ret,recv⟩ := r
    refine (moves_deliverSome may inputs).mono fun peer' c' hmoves => ?_
    exact ((moves_env env).tail (.receivePrev active hgiven hr)).trans hmoves
  | missing =>
    refine ensures_lift (fun p hp => ?_) fun r hr => ?_
    · obtain ⟨tentative,_,same,hp⟩ := Handshake.confirm_error hp
      exact benign_of_decrypt (same ▸ haddr) hp
    · obtain ⟨done,handshake⟩ := r
      cases done with
      | none =>
        rw [Handshake.confirm_none hr]
        exact ensures_pure (moves_env env)
      | some done =>
        obtain ⟨tentative,opened,recv,hresponded,_,hopen,hne,rfl,rfl⟩ := Handshake.confirm_some hr
        exact (moves_confirmHandshake (c := { c with env }) ho hresponded hgiven hopen hne).mono
          fun _ _ hmoves => (moves_env env).trans hmoves

/-- A packet that is grouped under a session id is not a handshake initiation. -/
theorem moves_recvMessage (ho : Owns peer c.state.ids.sessions)
    (hin : inputs packet) (hid : Endpoint.receiverOf packet ≠ 0)
    (hmay : ∀ i ∈ peer.messageIncident packet c.state, may i) :
    Ensures Benign (peer.recvMessage packet) c fun r c' =>
      PeerMoves may inputs (peer,c) (r.2,c') ∧
        (r.1 = true → ∃ header, Message.tryFrom packet = some (.transportData header)) := by
  rw [recvMessage]
  split
  · exact ensures_pure ⟨.refl,fun h => by cases h⟩
  · rename_i header hparsed
    exact ensures_pure ⟨.refl,fun _ => ⟨header,hparsed⟩⟩
  · rename_i resp hparsed
    rw [messageIncident,hparsed] at hmay
    exact ensures_bind (moves_recvHandshakeResponse ho hin hparsed hmay) fun _ _ hmoves =>
      ensures_pure ⟨hmoves,fun h => by cases h⟩
  · rename_i reply hparsed
    exact ensures_bind (moves_recvCookieReply hin hparsed) fun _ _ hmoves =>
      ensures_pure ⟨hmoves,fun h => by cases h⟩
  · rename_i init hparsed
    exact absurd (by simp [Endpoint.receiverOf,hparsed,Message.receiverId]) hid

theorem moves_retainTransport (ho : Owns peer c.state.ids.sessions)
    (hin : ∀ p ∈ packets, inputs p) (hid : ∀ p ∈ packets, Endpoint.receiverOf p ≠ 0)
    (hmay : ∀ i ∈ peer.retainIncidents packets c, may i) :
    Ensures Benign (peer.retainTransport packets) c fun r c' =>
      PeerMoves may inputs (peer,c) (r.2,c') ∧
        ∀ p ∈ r.1, p ∈ packets ∧ ∃ header, Message.tryFrom p = some (.transportData header) := by
  induction packets generalizing peer c with
  | nil => exact ensures_pure ⟨.refl,fun p hp => by cases hp⟩
  | cons packet packets ih =>
    rw [retainIncidents,forall_mem_append] at hmay
    have hmessage : ∀ i ∈ peer.messageIncident packet c.state, may i := by simpa using hmay.1
    rw [retainTransport]
    refine ensures_bind_run (moves_recvMessage ho (hin packet mem_cons_self)
      (hid packet mem_cons_self) hmessage) fun ⟨keep,peer1⟩ c1 hrun ⟨hmoves1,hkeep⟩ => ?_
    rw [hrun] at hmay
    refine ensures_bind (ih (hmoves1.owns ho).1
      (fun p hp => hin p (mem_cons_of_mem _ hp))
      (fun p hp => hid p (mem_cons_of_mem _ hp)) hmay.2) ?_
    rintro ⟨kept,peer2⟩ c2 ⟨hmoves2,hkept⟩
    refine ensures_pure ⟨hmoves1.trans hmoves2,fun p hp => ?_⟩
    cases keep with
    | false =>
      obtain ⟨hmem,hparsed⟩ := hkept p hp
      exact ⟨mem_cons_of_mem _ hmem,hparsed⟩
    | true =>
      rcases mem_cons.mp hp with rfl | hp
      · exact ⟨mem_cons_self,hkeep rfl⟩
      · obtain ⟨hmem,hparsed⟩ := hkept p hp
        exact ⟨mem_cons_of_mem _ hmem,hparsed⟩

omit [MacPrimitives] in
/-- The transport data that is kept is addressed to the session of its group. -/
theorem addressedTo_of_kept {kept : List Packet} (hid : ∀ p ∈ packets, Endpoint.receiverOf p = id)
    (hkept : ∀ p ∈ kept, p ∈ packets ∧ ∃ header, Message.tryFrom p = some (.transportData header)) :
    AddressedTo id kept := by
  intro p hp header rest hfront
  obtain ⟨hmem,header',hparsed⟩ := hkept p hp
  have hreceiver := hid p hmem
  rw [Endpoint.receiverOf,hparsed] at hreceiver
  obtain ⟨rest',hfront'⟩ := Message.tryFrom_transportData hparsed
  rw [hfront] at hfront'
  cases hfront'
  exact hreceiver

theorem moves_recv (ho : Owns peer c.state.ids.sessions)
    (hin : ∀ p ∈ packets, inputs p) (hid : ∀ p ∈ packets, Endpoint.receiverOf p = id) (hne : id ≠ 0)
    (hmay : ∀ i ∈ peer.retainIncidents packets c, may i) :
    Ensures Benign (peer.recv id packets) c fun peer' c' =>
      PeerMoves may inputs (peer,c) (peer',c') := by
  refine ensures_bind (moves_retainTransport ho hin (fun p hp => hid p hp ▸ hne) hmay) ?_
  rintro ⟨kept,peer1⟩ c1 ⟨hmoves1,hkept⟩
  exact (moves_recvTransportData (hmoves1.owns ho).1 (fun p hp => hin p (hkept p hp).1)
    (addressedTo_of_kept hid hkept)).mono fun _ _ hmoves2 => hmoves1.trans hmoves2

theorem moves_respondToHandshake {init : HandshakeInitiation} {received : ReceivedHandshake}
    (hreception : ReceivedHandshake.new init c.state.myKey c.state.myCookie = some received)
    (hindexed : c.state.ids.nodeKeys received.peerStatic = some peer.id)
    (hmay : ∀ i ∈ peer.initiationIncident received, may i) :
    Ensures Benign (peer.respondToHandshake received) c fun peer' c' =>
      PeerMoves may inputs (peer,c) (peer',c') := by
  rw [respondToHandshake]
  split
  · exact ensures_pure .refl
  · rename_i hnew
    refine ensures_bind ensures_allocateSession ?_
    rintro id _ ⟨hfree,env1,rfl⟩
    refine ensures_bind ensures_now ?_
    rintro now _ ⟨_,env2,rfl⟩
    refine ensures_bind (ensures_onEnv (.bind (panics_respond _ _ _ _ _) fun _ => .pure _)) ?_
    rintro ⟨packet,handshake⟩ _ ⟨env3,hrespond,rfl⟩
    obtain ⟨⟨pair,packet'⟩,env4,hresponse,hret⟩ := bind_eq_ok.mp hrespond
    cases hret
    refine ensures_modify (ensures_pure (Relation.ReflTransGen.head (.draw env3 c.state.timestamps)
      (.single ?_)))
    refine .respond (hmay _ ?_) hfree hreception hindexed hresponse
    simp [initiationIncident,hnew]

theorem ensures_releaseHandshake (peer : Peer) (ho : Owns peer c.state.ids.sessions) :
    Ensures allowed (onIds fun ids => ids.removeHandshakeSession peer.handshake) c fun _ c' =>
      c' = c.withSessions (forget c.state.ids.sessions peer.handshake.sessionId.toList) := by
  cases hid : peer.handshake.sessionId with
  | none =>
    simp only [IdMap.removeHandshakeSession,hid]
    rfl
  | some id =>
    have hmapped : c.state.ids.sessions id = some peer.id :=
      ho.mapped id (mem_append_right _ (by simp [hid]))
    simp only [IdMap.removeHandshakeSession,hid]
    exact ensures_removeSession (Option.isSome_iff_exists.mpr ⟨_,hmapped⟩)

/-- An active handshake is given up, and another one starts with the next handle of the
scheduler. -/
theorem ensures_handshakeTimeout (may : Incident → Prop) (inputs : Packet → Prop)
    (ho : Owns peer c.state.ids.sessions) :
    Ensures Benign peer.handshakeTimeout c fun peer' c' =>
      (peer.handshake = .none ∧ peer' = peer ∧ c' = c) ∨
      PeerMoves may inputs ({ peer with handshake := .none },
        c.withSessions (forget c.state.ids.sessions peer.handshake.sessionId.toList)) (peer',c') ∧
      ∃ sent mac, peer'.handshake = .initiated sent ⟨c.state.scheduler.fresh⟩ mac := by
  rw [handshakeTimeout]
  split
  · refine ensures_bind (ensures_releaseHandshake peer ho) ?_
    rintro _ _ rfl
    exact (moves_startHandshake may inputs rfl).mono fun _ _ hstarted => .inr hstarted
  · exact ensures_pure (.inl ⟨Handshake.eq_none_of_isActive ‹_›,rfl,rfl⟩)

/-- A keepalive is sent if the session can transmit. The handle of the last one is dropped. -/
theorem ensures_sendKeepalive (may : Incident → Prop) (inputs inputs' : Packet → Prop) :
    Ensures Benign peer.sendKeepalive c fun peer' c' =>
    (peer.session.canTransmit c.env.instants.head = false ∧ peer' = peer ∧
      ∃ env, c' = { c with env }) ∨
    ∃ session c1, PeerMoves may inputs (peer,c) ({ peer with session },c1) ∧
      PeerMoves may inputs' ({ peer with session, keepalive := none },c1) (peer',c') ∧
      peer'.handshake = peer.handshake := by
  refine ensures_bind SessionState.ensures_encryptKeepalive ?_
  rintro ⟨packet,session⟩ _ ⟨⟨env,rfl⟩,⟨heq,hidle⟩ | ⟨_,packet,rfl,hencrypted⟩⟩
  · cases heq
    exact ensures_pure (.inl ⟨hidle,rfl,env,rfl⟩)
  · have hsent : PeerMoves may inputs (peer,c) ({ peer with session },
        { c with env, out := c.out.queueToPeer peer.id [packet] }) :=
      (moves_env env).trans (moves_sealing hencrypted)
    refine ensures_modify ?_
    rw [nextKeepalive]
    dsimp only
    split
    · refine ensures_bind ensures_scheduleKeepalive fun peer1 c1 harms => ?_
      exact ensures_pure (.inr ⟨session,_,hsent,harms.moves.tail (.another false),harms.handshake⟩)
    · exact ensures_pure (.inr ⟨session,_,hsent,.refl,rfl⟩)

/-- A peer that is shut down releases all its ids. -/
theorem ensures_shutdown (ho : Owns peer c.state.ids.sessions) :
    Ensures allowed peer.shutdown c fun peer' c' =>
      peer' = { peer with session := .none [], handshake := .none } ∧
      c' = c.withSessions (forget c.state.ids.sessions peer.heldIds) := by
  have hmapped : ∀ id ∈ peer.session.ids, (c.state.ids.sessions id).isSome := fun id hid =>
    Option.isSome_iff_exists.mpr ⟨_,ho.mapped id (mem_append_left _ hid)⟩
  refine ensures_bind
    (SessionState.ensures_deactivate hmapped (nodup_append.mp ho.nodup).1) ?_
  rintro _ _ ⟨rfl,rfl⟩
  have hdeactivate : PeerMove (fun _ => False) (fun _ => False) (peer,c) _ := .deactivate
  refine ensures_bind (ensures_releaseHandshake { peer with session := .none [] }
    (hdeactivate.owns ho).1) ?_
  rintro _ _ rfl
  refine ensures_pure ⟨rfl,?_⟩
  rw [heldIds,forget_append]
  rfl

end Peer

end
end Tailnet.Wireguard

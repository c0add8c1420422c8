import Tailnet.Wireguard.Timers
import Tailnet.Wireguard.NodeKeys

/-! The timeouts of handshakes. A handshake that an endpoint initiates carries the handle of the
event that its start schedules, and the event carries no more than the id of the peer. -/
namespace Tailnet.Wireguard
open Prog Ctx Call

/-- A handshake that a timeout discards, with the event that was dispatched. -/
structure Abort where
  event : FutureEvent Event
  handshake : Handshake

/-- The event was scheduled by the start of the handshake. -/
def Abort.Own (a : Abort) : Prop := a.handshake.timeout = some ⟨a.event.address⟩

instance (a : Abort) : Decidable a.Own := inferInstanceAs (Decidable (_ = _))

/-- A pending timeout is the one of the handshake that we have initiated. -/
def timeoutOwned : TimerLaw := fun p t P =>
  ∀ e, P e → e.what = .handshakeTimeout p →
    ∃ sent mac k, t = some (.initiated sent ⟨e.address⟩ mac,k)

/-- An incident after which the timer of a handshake is still pending and the handshake is gone. -/
def Incident.detaches : Incident → Bool
  | forged => true
  | overtaken => true
  | orphaned => true
  | _ => false

theorem timeoutOwned_rule : TimerRule (fun i => i.detaches = false) timeoutOwned where
  congr h hlaw e he hwhat := hlaw e ((h e (by rw [hwhat]; rfl)).mpr he) hwhat
  start e he := he.elim
  insert hlaw e he hwhat := by
    obtain ⟨sent,mac,k,heq⟩ := hlaw e he hwhat
    cases heq
  remove hlaw hmay e he hwhat := by
    obtain ⟨sent,mac,k,heq⟩ := hlaw e he hwhat
    cases heq
    cases hmay rfl
  initiate e sent mac hwhat hlaw f hf hfwhat := by
    rcases hf with rfl | hf
    · exact ⟨sent,mac,_,rfl⟩
    · obtain ⟨sent,mac,k,heq⟩ := hlaw f hf hfwhat
      cases heq
  respond pair hmay hlaw e he hwhat := by
    obtain ⟨sent,mac,k,heq⟩ := hlaw e he hwhat
    cases heq
    cases hmay
  finish hlaw hsame e he hwhat := by
    obtain ⟨sent,mac,k,heq⟩ := hlaw e he.1 hwhat
    cases heq
    exact absurd rfl he.2
  drop hlaw hmay e he hwhat := by
    obtain ⟨sent,mac,k,heq⟩ := hlaw e he hwhat
    cases heq
    rcases hmay rfl with h | h <;> cases h
  arm e hwhat hlaw f hf hfwhat := by
    rcases hf with rfl | hf
    · cases hwhat.symm.trans hfwhat
    · obtain ⟨sent,mac,k,heq⟩ := hlaw f hf hfwhat
      cases heq
      exact ⟨sent,mac,_,rfl⟩
  skip e hp hlaw f hf hfwhat := hlaw f hf.1 hfwhat
  idle e hwhat he hlaw f hf hfwhat := hlaw f hf.1 hfwhat
  -- both events are the timer of the one handshake
  abort e hwhat he hunique hlaw f hf hfwhat := by
    obtain ⟨sent,mac,k,heq⟩ := hlaw e he hwhat
    obtain ⟨sent',mac',k',heq'⟩ := hlaw f hf.1 hfwhat
    cases heq
    have haddress : e.address = f.address := by
      injection heq' with heq'
      injection heq' with heq'
      injection heq' with _ heq'
      exact congrArg Handle.address heq'
    exact absurd (hunique f hf.1 haddress.symm) hf.2
  lapse e hwhat hmay hlaw f hf hfwhat := hlaw f hf.1 hfwhat
  sent e hwhat hlaw f hf hfwhat := by
    obtain ⟨sent,mac,k,heq⟩ := hlaw f hf.1 hfwhat
    cases heq
    exact ⟨sent,mac,none,rfl⟩

/-- There is a pending timeout for every active handshake. -/
def timeoutPending : TimerLaw := Expects (fun t => t.1.isActive) .handshakeTimeout

theorem timeoutPending_rule : TimerRule (fun i => i ≠ .answered) timeoutPending where
  congr hiff hlaw := hlaw.congr rfl hiff
  start := .none
  insert _ := .of_not rfl
  remove _ _ := .none
  initiate e sent mac hwhat _ := fun _ _ _ => ⟨e,.inl rfl,hwhat⟩
  respond {p h k P} pair hmay hlaw := by
    cases h with
    | none => exact absurd rfl hmay
    | initiated sent timeout mac => exact hlaw.mono (fun _ => rfl) fun _ _ => id
    | responded tentative => exact hlaw.mono (fun _ => rfl) fun _ _ => id
  finish _ _ := .of_not rfl
  drop _ _ := .of_not rfl
  arm e hwhat hlaw := hlaw.mono id fun _ _ => .inr
  skip _ _ _ := .none
  idle _ _ _ _ := .of_not rfl
  abort _ _ _ _ _ := .of_not rfl
  lapse e hwhat _ hlaw := hlaw.without id (by simp [hwhat])
  sent e hwhat hlaw := hlaw.without id (by simp [hwhat])

section
variable [MacPrimitives]

namespace Endpoint

def eventAborts (e : FutureEvent Event) (c : Call) : List Abort :=
  match e.what with
  | .handshakeTimeout id => c.logPeer id fun peer _ =>
    if peer.handshake.isActive then [⟨e,peer.handshake⟩] else []
  | .maybeSendKeepalive _ => []

def dispatchAborts (now : Instant) (c : Call) : List Abort :=
  logEach (fun e => dispatchEvent e.what) eventAborts (c.state.scheduler.due now) (c.taking now)

end Endpoint

/-- The handshakes that timeouts discard in a call. -/
def Machine.aborts (m : Machine) : Op → List Abort
  | .dispatchEvents now => Endpoint.dispatchAborts now m.start
  | _ => []

section
variable {may : Incident → Prop} {inputs : Packet → Prop} {law : TimerLaw} {c : Call} {now : Instant}

namespace Endpoint

/-- The states that a dispatch goes through keep a law. -/
theorem forall_mem_dispatchAborts {good : Abort → Prop} (rule : TimerRule may law)
    (hc : Sound c.peers c.state.ids.sessions) (ht : Dispatch.Timed law ([],c))
    (hmay : ∀ i ∈ dispatchIncidents now c, may i)
    (hgood : ∀ e due c', Dispatch.Timed law (e::due,c') → ∀ a ∈ eventAborts e c', good a) :
    ∀ a ∈ dispatchAborts now c, good a := by
  rw [dispatchIncidents_eq] at hmay
  have htake : CallMove may (fun _ => False) ([],c) _ := .take now
  refine forall_mem_logEach_of_inv (fun due c' => CallMoves may (fun _ => False) ([],c) (due,c'))
    (fun e due c' => reach_dispatchEvent hc) (fun e due c' hmoves => ?_) hmay (.single htake)
  exact hgood e due c' (hmoves.timed rule hc ht)

theorem own_of_timed {e : FutureEvent Event} {due : List (FutureEvent Event)}
    (ht : Dispatch.Timed timeoutOwned (e::due,c)) : ∀ a ∈ eventAborts e c, a.Own := by
  intro a ha
  cases hwhat : e.what with
  | maybeSendKeepalive id =>
    rw [eventAborts,hwhat] at ha
    cases ha
  | handshakeTimeout id =>
    simp only [eventAborts,hwhat,logPeer] at ha
    cases live : c.peers id with
    | none =>
      rw [live] at ha
      cases ha
    | some peer =>
      obtain ⟨sent,mac,k,heq⟩ := ht.lawful_live live e (.inr List.mem_cons_self) hwhat
      have hh : peer.handshake = .initiated sent ⟨e.address⟩ mac := by
        injection heq with heq
        exact congrArg Prod.fst heq
      simp only [live,hh,Handshake.isActive,if_true,List.mem_singleton] at ha
      subst ha
      rfl

end Endpoint
end

/-- In every run in which no handshake goes while its timer stays, the handshakes that timeouts
discard are those whose start scheduled them. -/
theorem timeout_aborts_own (myKey : Noise.X25519KeyPair) (env : Env) (ops : List Op)
    (hattached : AtEveryCall Machine.step (fun m op => ∀ i ∈ m.incidents op, i.detaches = false)
      ops ⟨Endpoint.new myKey,env⟩) :
    AtEveryCall Machine.step (fun m op => ∀ a ∈ m.aborts op, a.Own) ops
      ⟨Endpoint.new myKey,env⟩ := by
  have htimed := Machine.atEvery_timed timeoutOwned_rule myKey env hattached
  refine (htimed.calls hattached).mono ?_
  rintro m op ⟨⟨hs,ht⟩,hmay⟩
  cases op with
  | dispatchEvents now =>
    exact Endpoint.forall_mem_dispatchAborts timeoutOwned_rule hs ht hmay fun e due c' =>
      Endpoint.own_of_timed
  | _ => exact fun a ha => by cases ha

end

section
attribute [local instance] sumMacs

/-- A handshake starts, times out and starts again, more than once. -/
theorem timeout_aborts_own_again :
    let m : Machine := ⟨Endpoint.new responderKey,Env.zeros⟩
    let ops := [Op.upsertPeer 1 ⟨initiatorKey.pub,sameBytes 0⟩,.send [(1,[[7]])],
      .dispatchEvents (Instant.ofSecs 10),.dispatchEvents (Instant.ofSecs 20)]
    ¬ AtEveryCall Machine.step (fun m op => (m.aborts op).isEmpty) ops m ∧
    AtEveryCall Machine.step (fun m op => ∀ a ∈ m.aborts op, a.Own) ops m :=
  ⟨by decide +kernel,timeout_aborts_own _ _ _ (by decide +kernel)⟩

/-- We initiate a handshake and then answer one of the peer, which replaces ours. The timer of our
handshake discards the answer. -/
theorem timeout_aborts_answer :
    let m : Machine := ⟨Endpoint.new responderKey,Env.zeros⟩
    let ops := [Op.upsertPeer 1 ⟨initiatorKey.pub,sameBytes 0⟩,.send [(1,[[7]])],
      .recv (initiatorSends []),.dispatchEvents (Instant.ofSecs 10)]
    (runAll Machine.step ops m).isOk ∧
    ¬ AtEveryCall Machine.step (fun m op => ∀ a ∈ m.aborts op, a.handshake.timeout.isSome) ops m ∧
    ¬ AtEveryCall Machine.step (fun m op => ∀ a ∈ m.aborts op, a.Own) ops m := by
  decide +kernel

end

section
variable [MacPrimitives]

/-- The timer of a handshake was scheduled at an address from `fresh` on. -/
def Handshake.Since (h : Handshake) (fresh : ℕ) : Prop :=
  ∃ handle, h.timeout = some handle ∧ fresh ≤ handle.address

/-- The handshake of a peer has been started again, or its timeout is still to be handled. -/
def Dispatch.Restarts (p : PeerId) (fresh : ℕ) (x : Dispatch) : Prop :=
  ∃ peer, x.2.peers p = some peer ∧ (peer.handshake.Since fresh ∨
    peer.handshake.isActive = true ∧ ∃ e ∈ x.1, e.what = .handshakeTimeout p)

omit [MacPrimitives] in
theorem Handshake.Since.isActive {h : Handshake} {fresh : ℕ} (hs : h.Since fresh) :
    h.isActive = true := by
  obtain ⟨handle,hhandle,-⟩ := hs
  cases h with
  | initiated sent timeout mac => rfl
  | none => cases hhandle
  | responded tentative => cases hhandle

/-- An event that leaves the handshake of a peer alone and is not its timeout. -/
theorem Dispatch.Restarts.skip {p : PeerId} {fresh : ℕ} {e : FutureEvent Event}
    {due : List (FutureEvent Event)} {c c' : Call} (h : Restarts p fresh (e::due,c))
    (hwhat : e.what ≠ .handshakeTimeout p)
    (hsame : ∀ peer, c.peers p = some peer →
      ∃ peer', c'.peers p = some peer' ∧ peer'.handshake = peer.handshake) :
    Restarts p fresh (due,c') := by
  obtain ⟨peer,live,hpeer⟩ := h
  obtain ⟨peer',live',hhandshake⟩ := hsame peer live
  refine ⟨peer',live',?_⟩
  rw [hhandshake]
  refine hpeer.imp_right fun ⟨hactive,f,hf,hfwhat⟩ => ⟨hactive,f,?_,hfwhat⟩
  refine (List.mem_cons.mp hf).resolve_left ?_
  rintro rfl
  exact hwhat hfwhat

theorem Endpoint.restarts_dispatchEvent {p : PeerId} {fresh : ℕ} {e : FutureEvent Event}
    {due : List (FutureEvent Event)} {c : Call} (hc : Sound c.peers c.state.ids.sessions)
    (hfresh : fresh ≤ c.state.scheduler.fresh) (h : Dispatch.Restarts p fresh (e::due,c)) :
    Ensures Benign (dispatchEvent e.what) c fun _ c' => Dispatch.Restarts p fresh (due,c') := by
  cases hwhat : e.what with
  | maybeSendKeepalive id =>
    have hne : e.what ≠ .handshakeTimeout p := by simp [hwhat]
    refine ensures_onPeer (fun _ => h.skip hne fun peer live => ⟨peer,live,rfl⟩) ?_
    intro peer live
    refine (Peer.ensures_sendKeepalive (fun _ => True) (fun _ => True) fun _ => True).mono ?_
    intro peer' ctx hsent
    have hhandshake : peer'.handshake = peer.handshake := by
      rcases hsent with ⟨-,rfl,-⟩ | ⟨-,-,-,-,hhandshake⟩
      · rfl
      · exact hhandshake
    refine h.skip hne fun old hold => ?_
    by_cases hid : p = id
    · subst hid
      obtain rfl : peer = old := Option.some.inj (live.symm.trans hold)
      exact ⟨peer',Function.update_self _ _ _,hhandshake⟩
    · exact ⟨old,(Function.update_of_ne hid _ _).trans hold,rfl⟩
  | handshakeTimeout id =>
    by_cases hid : p = id
    · subst hid
      obtain ⟨old,hold,hpeer⟩ := h
      refine ensures_onPeer (fun habsent => ?_) fun peer live => ?_
      · cases habsent.symm.trans hold
      · obtain rfl : peer = old := Option.some.inj (live.symm.trans hold)
        have hactive : peer.handshake.isActive = true := hpeer.elim (·.isActive) And.left
        refine (Peer.ensures_handshakeTimeout (fun _ => True) (fun _ => True) (hc p peer live).2).mono ?_
        rintro peer' ctx (⟨hnone,-,-⟩ | ⟨-,sent,mac,hstarted⟩)
        · rw [hnone] at hactive
          cases hactive
        · refine ⟨peer',Function.update_self _ _ _,.inl ⟨⟨c.state.scheduler.fresh⟩,?_,hfresh⟩⟩
          rw [hstarted]
          rfl
    · have hne : e.what ≠ .handshakeTimeout p := by
        rw [hwhat]
        rintro ⟨⟩
        exact hid rfl
      refine ensures_onPeer (fun _ => h.skip hne fun peer live => ⟨peer,live,rfl⟩) ?_
      intro peer live
      refine (Peer.ensures_handshakeTimeout (fun _ => True) (fun _ => True)
        (hc id peer live).2).mono fun peer' ctx _ => ?_
      exact h.skip hne fun old hold => ⟨old,(Function.update_of_ne hid _ _).trans hold,rfl⟩

/-- When the timeout of an active handshake is due, a dispatch starts the handshake again. -/
theorem Endpoint.restarts_dispatchEvents {p : PeerId} {now : Instant} {c : Call} {peer : Peer}
    (hc : Sound c.peers c.state.ids.sessions) (live : c.peers p = some peer)
    (hactive : peer.handshake.isActive = true)
    (hdue : ∃ e ∈ c.state.scheduler.due now, e.what = .handshakeTimeout p) :
    Ensures Benign (dispatchEvents now) c fun _ c' =>
      ∃ peer', c'.peers p = some peer' ∧ peer'.handshake.Since c.state.scheduler.fresh := by
  have htake : CallMove (fun _ => True) (fun _ => False) ([],c) _ := .take now
  have hmay : ∀ i ∈ dispatchIncidents now c, (fun _ : Incident => True) i := fun _ _ => trivial
  rw [dispatchIncidents_eq] at hmay
  let inv (due : List (FutureEvent Event)) (c' : Call) : Prop :=
    CallMoves (fun _ => True) (fun _ => False) ([],c) (due,c') ∧
      Dispatch.Restarts p c.state.scheduler.fresh (due,c')
  rw [Ensures,dispatchEvents_eq]
  refine (ensures_forEach_log inv (fun e due c' hinv hgood => ?_) hmay
    ⟨.single htake,peer,live,.inr ⟨hactive,hdue⟩⟩).mono ?_
  · exact (reach_dispatchEvent hc hinv.1 hgood).and
      (restarts_dispatchEvent (hinv.1.sound hc) hinv.1.fresh_le hinv.2)
  · rintro _ c' ⟨-,peer',live',hsince | ⟨-,e,he,-⟩⟩
    · exact ⟨peer',live',hsince⟩
    · cases he

namespace Machine

/-- The timeout `e` of the handshake with a peer is pending. The range that `next_event` gives
starts no later and ends no later than that of `e`, and a dispatch from the start of `e` on starts
a fresh handshake, or panics benignly. -/
structure TimesOut (m : Machine) (p : PeerId) (e : FutureEvent Event) : Prop where
  pending : e ∈ m.endpoint.state.scheduler.events
  what : e.what = .handshakeTimeout p
  directed : ∃ range, m.endpoint.nextEvent = .ok (some range) ∧ range.start ≤ e.when.start ∧
    range.stop ≤ e.when.stop
  restarts : ∀ now, e.when.start ≤ now → match step (.dispatchEvents now) m with
    | .ok (_,m') => ∃ peer, m'.endpoint.peers p = some peer ∧
        peer.handshake.Since m.endpoint.state.scheduler.fresh
    | .error q => Benign q

/-- Every active handshake times out. -/
def NeverStuck (m : Machine) : Prop :=
  ∀ p peer, m.endpoint.peers p = some peer → peer.handshake.isActive = true → ∃ e, m.TimesOut p e

theorem Timed.neverStuck {m : Machine} (ht : m.Timed timeoutPending) (hs : m.IdsSound) :
    m.NeverStuck := by
  intro p peer live hactive
  obtain ⟨e,he,hwhat⟩ := ht.lawful_live live _ rfl hactive
  have hmem : e ∈ m.endpoint.state.scheduler.events := he.resolve_right (by simp)
  refine ⟨e,hmem,hwhat,ht.tidy.sorted.nextDispatchRange hmem,fun now hnow => ?_⟩
  have hdue := (Scheduler.mem_due ht.tidy.sorted).mpr ⟨hmem,hnow⟩
  have hrestarts : Ensures Benign (Endpoint.dispatchEvents now) m.start _ :=
    Endpoint.restarts_dispatchEvents hs live hactive ⟨e,hdue,hwhat⟩
  rw [step,callPackets,call]
  cases hrun : Endpoint.dispatchEvents now m.start with
  | error q => exact hrestarts.of_error hrun
  | ok r => exact hrestarts.of_ok hrun

end Machine

/-- In every run in which no initiation is answered while there is no handshake, no peer is stuck
in a handshake in any state that is reached. -/
theorem never_stuck_in_handshake (myKey : Noise.X25519KeyPair) (env : Env) (ops : List Op)
    (hanswered : AtEveryCall Machine.step (fun m op => .answered ∉ m.incidents op) ops
      ⟨Endpoint.new myKey,env⟩) :
    AtEveryState Machine.step Machine.NeverStuck ops ⟨Endpoint.new myKey,env⟩ := by
  have hmay := Machine.atEvery_timed timeoutPending_rule myKey env (hanswered.mono ?_)
  · exact hmay.mono fun m h => h.2.neverStuck h.1
  · rintro m op hnot _ hi rfl
    exact hnot hi

end

section
attribute [local instance] sumMacs

/-- A handshake starts, times out and starts again. -/
theorem never_stuck_timeout :
    let m : Machine := ⟨Endpoint.new responderKey,Env.zeros⟩
    let ops := [Op.upsertPeer 1 ⟨initiatorKey.pub,sameBytes 0⟩,.send [(1,[[7]])],
      .dispatchEvents (Instant.ofSecs 10)]
    (runAll Machine.step ops m).isOk ∧ AtEveryState Machine.step Machine.NeverStuck ops m :=
  ⟨by decide +kernel,never_stuck_in_handshake _ _ _ (by decide +kernel)⟩

/-- The answer to an initiation is a handshake without a timeout. -/
theorem answer_never_times_out :
    let m : Machine := ⟨Endpoint.new responderKey,Env.zeros⟩
    let ops := [Op.upsertPeer 1 ⟨initiatorKey.pub,sameBytes 0⟩,.recv (initiatorSends [])]
    ∃ replies m', runAll Machine.step ops m = .ok (replies,m') ∧
      (m'.endpoint.peers 1).any (fun peer => peer.handshake.isActive) = true ∧
      m'.endpoint.state.scheduler.events = [] ∧
      ¬ AtEveryState Machine.step Machine.NeverStuck ops m := by
  intro m ops
  let last (m' : Machine) : Bool :=
    (m'.endpoint.peers 1).any (fun peer => peer.handshake.isActive) = true ∧
      m'.endpoint.state.scheduler.events = []
  have hrun : (runAll Machine.step ops m).toOption.any (fun r => last r.2) = true := by
    decide +kernel
  obtain ⟨replies,m',hresult,hlast⟩ := exists_of_runAll_any last hrun
  obtain ⟨hactive,hevents⟩ := of_decide_eq_true hlast
  refine ⟨replies,m',hresult,hactive,hevents,fun h => ?_⟩
  obtain ⟨peer,live,hpeer⟩ := (Option.any_eq_true _ _).mp hactive
  obtain ⟨e,he⟩ := h.last hresult 1 peer live hpeer
  have hmem := he.pending
  rw [hevents] at hmem
  cases hmem

end
end Tailnet.Wireguard

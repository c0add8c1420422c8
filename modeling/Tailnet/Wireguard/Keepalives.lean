import Tailnet.Wireguard.Timers
import Tailnet.Wireguard.Deliveries

/-! The keepalives of an endpoint. The handle of a keepalive tells that one is scheduled, and is
dropped when it is sent. A keepalive that is due while there is no session to send it on keeps
its handle. -/
namespace Tailnet.Wireguard
open Prog Ctx Call

/-- There is a pending keepalive for every handle of one. -/
def keepalivePending : TimerLaw := Expects (fun t => t.2.isSome) .maybeSendKeepalive

theorem keepalivePending_rule : TimerRule (fun i => i ≠ .lapsed) keepalivePending where
  congr hiff hlaw := hlaw.congr rfl hiff
  start := .none
  insert _ := .of_not rfl
  remove _ _ := .none
  initiate e sent mac hwhat hlaw := hlaw.mono id fun _ _ => .inr
  respond pair hmay hlaw := hlaw.mono id fun _ _ => id
  -- the event that is cancelled is a timeout
  finish hlaw hsame := by
    refine hlaw.mono id fun e hwhat he => ⟨he,fun heq => ?_⟩
    cases hwhat.symm.trans (hsame e he heq)
  drop hlaw hmay := hlaw.mono id fun _ _ => id
  arm e hwhat _ := fun _ _ _ => ⟨e,.inl rfl,hwhat⟩
  skip _ _ _ := .none
  idle e hwhat he hlaw := hlaw.without id (by simp [hwhat])
  abort e hwhat he hunique hlaw := hlaw.without id (by simp [hwhat])
  lapse e hwhat hmay hlaw := absurd rfl hmay
  sent _ _ _ := .of_not rfl

section
variable [MacPrimitives]

namespace Machine

def KeepaliveDue (m : Machine) (p : PeerId) : Prop :=
  ∃ e ∈ m.endpoint.state.scheduler.events, e.what = .maybeSendKeepalive p

/-- Every handle of a keepalive is that of a pending one. -/
def KeepalivesPending (m : Machine) : Prop :=
  ∀ p peer, m.endpoint.peers p = some peer → peer.keepalive.isSome = true → m.KeepaliveDue p

/-- After a call that delivers data of a peer, a keepalive for it is pending. -/
def DataSchedules (m : Machine) (op : Op) : Prop :=
  ∀ out m', step op m = .ok (.packets out,m') → ∀ p, (out.toLocal p).getD [] ≠ [] →
    m'.KeepaliveDue p

variable {m : Machine} {op : Op}

theorem Timed.keepalivesPending (ht : m.Timed keepalivePending) : m.KeepalivesPending := by
  intro p peer live harmed
  obtain ⟨e,he,hwhat⟩ := ht.lawful_live live _ rfl harmed
  exact ⟨e,he.resolve_right (by simp),hwhat⟩

theorem Timed.dataSchedules (ht : m.Timed keepalivePending) (hs : m.IdsSound)
    (hmay : ∀ i ∈ m.incidents op, i ≠ .lapsed) : m.DataSchedules op := by
  intro out m' hstep p hdata
  have ht' := ((step_move hs hmay).1 _ m' hstep).timed keepalivePending_rule hs ht
  rw [delivers hs hstep p] at hdata
  obtain ⟨packet,hpacket⟩ := List.exists_mem_of_ne_nil _ hdata
  obtain ⟨d,hd,-⟩ := List.mem_flatMap.mp hpacket
  obtain ⟨hd,hp⟩ := List.mem_filter.mp hd
  obtain ⟨peer,live,harmed⟩ := delivers_armed hs hstep d hd
  rw [of_decide_eq_true hp] at live
  exact ht'.keepalivesPending p peer live harmed

end Machine

/-- In every run in which no keepalive is due while there is no session to send it on, every
handle of a keepalive is that of a pending one in every state that is reached, and every call that
delivers data leaves a pending one behind. -/
theorem keepalives_continue (myKey : Noise.X25519KeyPair) (env : Env) (ops : List Op)
    (hlapsed : AtEveryCall Machine.step (fun m op => .lapsed ∉ m.incidents op) ops
      ⟨Endpoint.new myKey,env⟩) :
    AtEveryState Machine.step Machine.KeepalivesPending ops ⟨Endpoint.new myKey,env⟩ ∧
    AtEveryCall Machine.step Machine.DataSchedules ops ⟨Endpoint.new myKey,env⟩ := by
  have hmay : AtEveryCall Machine.step (fun m op => ∀ i ∈ m.incidents op, i ≠ .lapsed) ops
      ⟨Endpoint.new myKey,env⟩ := by
    refine hlapsed.mono ?_
    rintro m op hnot _ hi rfl
    exact hnot hi
  have htimed := Machine.atEvery_timed keepalivePending_rule myKey env hmay
  refine ⟨htimed.mono fun m h => h.2.keepalivesPending,(htimed.calls hmay).mono ?_⟩
  rintro m op ⟨⟨hs,ht⟩,hincidents⟩
  exact ht.dataSchedules hs hincidents

end

section
attribute [local instance] sumMacs

/-- Data arrives, and the keepalive that it schedules is sent. -/
theorem keepalives_continue_sent :
    let m : Machine := ⟨Endpoint.new responderKey,Env.zeros⟩
    let ops := lateData Env.zeros ++ [.dispatchEvents (Instant.ofSecs 30)]
    (runAll Machine.step ops m).isOk ∧
    ¬ AtEveryCall Machine.step (fun m op => (m.deliveries op).isEmpty) ops m ∧
    AtEveryState Machine.step Machine.KeepalivesPending ops m ∧
    AtEveryCall Machine.step Machine.DataSchedules ops m :=
  ⟨by decide +kernel,by decide +kernel,keepalives_continue _ _ _ (by decide +kernel)⟩

/-- The keepalive that data schedules is due when the session is expired. It is not sent, and its
handle stays. -/
theorem lapsed_keepalive_keeps_handle :
    let m : Machine := ⟨Endpoint.new responderKey,Env.late⟩
    let ops := lateData Env.late ++ [.dispatchEvents (Instant.ofSecs 400)]
    ∃ replies m', runAll Machine.step ops m = .ok (replies,m') ∧
      (m'.endpoint.peers 1).any (fun peer => peer.keepalive.isSome) = true ∧
      m'.endpoint.state.scheduler.events = [] ∧
      ¬ AtEveryState Machine.step Machine.KeepalivesPending ops m := by
  intro m ops
  let last (m' : Machine) : Bool :=
    (m'.endpoint.peers 1).any (fun peer => peer.keepalive.isSome) = true ∧
      m'.endpoint.state.scheduler.events = []
  have hrun : (runAll Machine.step ops m).toOption.any (fun r => last r.2) = true := by
    decide +kernel
  obtain ⟨replies,m',hresult,hlast⟩ := exists_of_runAll_any last hrun
  obtain ⟨harmed,hevents⟩ := of_decide_eq_true hlast
  refine ⟨replies,m',hresult,harmed,hevents,fun h => ?_⟩
  obtain ⟨peer,live,hpeer⟩ := (Option.any_eq_true _ _).mp harmed
  obtain ⟨e,he,-⟩ := h.last hresult 1 peer live hpeer
  rw [hevents] at he
  cases he

end
end Tailnet.Wireguard

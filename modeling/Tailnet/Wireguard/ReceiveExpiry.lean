import Tailnet.Wireguard.Deliveries

/-! The age of the sessions that decrypt. What a call delivers to the local side is logged with
the session that decrypted it and the time that the clock showed. The current session is not
used once it is expired; of the previous and of the tentative session the age is not looked
at. -/
namespace Tailnet.Wireguard
open Prog Ctx Call

section
variable [MacPrimitives] {id : SessionId} {packets : List Packet}

namespace Peer
variable {peer : Peer} {c : Ctx}

/-- A session that decrypts is not expired, unless it is an older one. -/
theorem deliveries_live (hin : peer.transportIncident id c.env.instants.head = none) :
    ∀ d ∈ peer.deliveries id packets c, d.session.expired d.now = false := by
  have holder : ∀ s ∈ peer.olderSessions, s.id = id → s.expired c.env.instants.head = false := by
    intro s hs hid
    rw [transportIncident] at hin
    split at hin
    · cases hin
    · rename_i hnone
      simp only [List.any_eq_true,not_exists,not_and] at hnone
      simpa [hid] using hnone s hs
  intro d hd
  rw [deliveries] at hd
  split at hd
  · rename_i recv put c1 hget
    obtain ⟨_,hselected⟩ := SessionState.ensures_getRecv.of_ok hget
    split at hd
    · split at hd
      · cases hd
      · obtain rfl := List.mem_singleton.mp hd
        cases hselected with
        | current active same live => exact live
        | previous active same => exact holder recv (by simp [olderSessions,active]) same
    · cases hd
  · split at hd
    · rename_i tentative opened handshake hconfirm
      obtain ⟨pair,_,recv,hresponded,hid,hopen,_,heq,_⟩ := Handshake.confirm_some hconfirm
      obtain rfl := List.mem_singleton.mp hd
      cases heq
      obtain ⟨⟨window,rfl⟩,-⟩ := ReceiveSession.decrypt_ok hopen
      exact holder pair.recv (by simp [olderSessions,hresponded]) hid
    · cases hd
  · cases hd

theorem recvDeliveries_live (hin : .outlived ∉ peer.recvIncidents id packets c) :
    ∀ d ∈ peer.recvDeliveries id packets c, d.session.expired d.now = false := by
  rw [recvDeliveries]
  rw [recvIncidents,List.mem_append,not_or] at hin
  cases hretain : peer.retainTransport packets c with
  | error p => exact fun d hd => by cases hd
  | ok r =>
    obtain ⟨⟨kept,peer1⟩,c1⟩ := r
    rw [hretain] at hin
    refine deliveries_live ?_
    cases hincident : peer1.transportIncident id c1.env.instants.head with
    | none => rfl
    | some i =>
      have houtlived : i = .outlived := by
        rw [transportIncident] at hincident
        split at hincident <;> simp_all
      exact absurd (by simp [hincident,houtlived]) hin.2

end Peer

namespace Endpoint
variable {c : Call}

theorem groupDeliveries_live (hin : .outlived ∉ groupIncidents id packets c) :
    ∀ d ∈ groupDeliveries id packets c, d.session.expired d.now = false := by
  rw [groupDeliveries]
  rw [groupIncidents] at hin
  cases hp : c.state.ids.sessions id with
  | none => exact fun d hd => by cases hd
  | some p =>
    rw [hp] at hin
    cases hlive : c.peers p with
    | none =>
      simp only [logPeer,hlive]
      exact fun d hd => by cases hd
    | some peer =>
      simp only [logPeer_of_live hlive] at hin ⊢
      exact Peer.recvDeliveries_live hin

theorem recvDeliveries_live (hin : .outlived ∉ recvIncidents packets c) :
    ∀ d ∈ recvDeliveries packets c, d.session.expired d.now = false := by
  rw [recvIncidents,List.mem_append,not_or] at hin
  have hgroups := hin.2
  rw [logGroups] at hgroups
  rw [recvDeliveries,logGroups]
  cases hhandshakes : forEach processOneHandshake
      (packets.filter fun packet => receiverOf packet = 0) c with
  | error p => exact fun d hd => by cases hd
  | ok r =>
    rw [hhandshakes] at hgroups
    refine forall_mem_logEach (· ≠ Incident.outlived) (fun id c hlog => ?_)
      fun i hi heq => hgroups (heq ▸ hi)
    exact groupDeliveries_live fun hmem => hlog _ hmem rfl

end Endpoint

namespace Machine
variable {m : Machine} {op : Op}

/-- What a call returns for the local side is what it delivers, and each delivery was decrypted
by a session that was created at most 240 seconds earlier. -/
def DeliversLive (m : Machine) (op : Op) : Prop :=
  ∀ out m', step op m = .ok (.packets out,m') →
    (∀ p, (out.toLocal p).getD [] =
      ((m.deliveries op).filter fun d => d.peer = p).flatMap Delivery.packets) ∧
    ∀ d ∈ m.deliveries op, d.now - d.session.created ≤ Instant.ofSecs 240

theorem deliveries_live (hin : .outlived ∉ m.incidents op) :
    ∀ d ∈ m.deliveries op, d.session.expired d.now = false := by
  cases op with
  | recv packets => exact Endpoint.recvDeliveries_live hin
  | _ => exact fun d hd => by cases hd

end Machine

/-- In every run in which no data arrives for a previous or a tentative session that is expired,
what is delivered was decrypted by a session of at most 240 seconds. -/
theorem delivers_live (myKey : Noise.X25519KeyPair) (env : Env) (ops : List Op)
    (holder : AtEveryCall Machine.step (fun m op => .outlived ∉ m.incidents op) ops
      ⟨Endpoint.new myKey,env⟩) :
    AtEveryCall Machine.step Machine.DeliversLive ops ⟨Endpoint.new myKey,env⟩ := by
  have hnew : Machine.IdsSound ⟨Endpoint.new myKey,env⟩ := fun p peer h => by cases h
  refine (atEvery_of_invariant Machine.IdsSound (Q := fun _ => True) (fun _ _ => trivial) ?_ ops
    hnew holder).2
  intro m op hs hin
  refine ⟨fun out m' hstep => ⟨Machine.delivers hs hstep,fun d hd => ?_⟩,fun reply m' hstep => ?_⟩
  · have hlive := Machine.deliveries_live hin d hd
    rw [ReceiveSession.expired] at hlive
    exact not_lt.mp (of_decide_eq_false hlive)
  · exact Machine.step_sound hs hstep

end

section
attribute [local instance] sumMacs

/-- A call that delivers what a session of more than 240 seconds decrypted. -/
def Machine.deliversLate (m : Machine) (op : Op) : Bool :=
  (match step op m with
    | .ok (.packets _,_) => true
    | _ => false) &&
  (m.deliveries op).any fun d => d.now - d.session.created > Instant.ofSecs 240

theorem Machine.DeliversLive.not_late {m : Machine} {op : Op} (h : m.DeliversLive op) :
    m.deliversLate op = false := by
  rw [deliversLate,Bool.and_eq_false_iff,or_iff_not_imp_left]
  intro hstep
  have hlive : ∀ d ∈ m.deliveries op, d.now - d.session.created ≤ Instant.ofSecs 240 := by
    split at hstep
    · exact (h _ _ ‹_›).2
    · exact absurd rfl hstep
  simpa using hlive

/-- The first data on a session arrives five minutes after it was created, and is delivered. -/
theorem tentative_session_outlives :
    ¬ AtEveryCall Machine.step Machine.DeliversLive (lateData Env.late)
      ⟨Endpoint.new responderKey,Env.late⟩ := by
  intro h
  have hnone := h.mono fun m op => Machine.DeliversLive.not_late
  exact absurd hnone (by decide +kernel)

/-- A run that meets the condition: the same data arrives in time. -/
theorem delivers_live_in_time :
    ¬ AtEveryCall Machine.step (fun m op => (m.deliveries op).isEmpty) (lateData Env.zeros)
      ⟨Endpoint.new responderKey,Env.zeros⟩ ∧
    AtEveryCall Machine.step Machine.DeliversLive (lateData Env.zeros)
      ⟨Endpoint.new responderKey,Env.zeros⟩ :=
  ⟨by decide +kernel,delivers_live responderKey Env.zeros (lateData Env.zeros) (by decide +kernel)⟩

end
end Tailnet.Wireguard

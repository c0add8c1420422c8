import Tailnet.Wireguard.NodeKeys

/-! The completion of a handshake. A call that completes nothing should leave the handshake
as it was. As responder this is so; as initiator, the handshake is taken before the response
is verified, and a response that is not genuine loses it. -/
namespace Tailnet.Wireguard

section
variable [MacPrimitives]

namespace Handshake

/-- The handshake `h'` behaves as `h`: it is of the same kind, with the same id and timeout,
and the same responses and transport packets complete it, with the same sessions. -/
structure BehavesAs (h' h : Handshake) : Prop where
  isActive : h'.isActive = h.isActive
  sessionId : h'.sessionId = h.sessionId
  timeout : h'.timeout = h.timeout
  finish : ∀ packet my psk cookies now,
    (h'.finish packet my psk cookies now).1 = (h.finish packet my psk cookies now).1
  confirm : ∀ id packets, Prod.fst <$> h'.confirm id packets = Prod.fst <$> h.confirm id packets

theorem BehavesAs.refl (h : Handshake) : BehavesAs h h :=
  ⟨rfl,rfl,rfl,fun _ _ _ _ _ => rfl,fun _ _ => rfl⟩

end Handshake

/-- A call that completes nothing leaves the handshake as it was, unless the handshake is
initiated and the response is not genuine. -/
theorem Handshake.undisturbed_iff (h : Handshake) :
    (∀ packet my psk cookies now,
      ((h.finish packet my psk cookies now).1 = Option.none →
        BehavesAs (h.finish packet my psk cookies now).2 h) ↔
      ∀ sent handle mac, h = initiated sent handle mac → packet.genuine sent my psk cookies = true) ∧
    ∀ id packets h', h.confirm id packets = .ok (Option.none,h') → BehavesAs h' h := by
  refine ⟨fun packet my psk cookies now => ?_,fun id packets h' hc => ?_⟩
  · cases h with
    | none => exact ⟨(fun _ _ _ _ heq => by cases heq),fun _ _ => .refl none⟩
    | responded tentative =>
      exact ⟨(fun _ _ _ _ heq => by cases heq),fun _ _ => .refl (responded tentative)⟩
    | initiated sent handle mac =>
      rcases finish_initiated sent handle mac packet my psk cookies now with
        ⟨hg,hsome⟩ | ⟨hg,hfinish⟩
      · refine ⟨fun _ sent' handle' mac' heq => ?_,fun _ hnone => ?_⟩
        · cases heq
          exact hg
        · rw [hnone] at hsome
          cases hsome
      · refine ⟨fun hb => ?_,fun hall => absurd (hall sent handle mac rfl) (by simp [hg])⟩
        have hactive := (hb (by rw [hfinish])).isActive
        rw [hfinish] at hactive
        cases hactive
  · rw [confirm_none hc]
    exact .refl h

/-- A handshake that was initiated, and the response of the peer to it. -/
def exchange (my peer : Noise.X25519KeyPair) (psk : Psk) :
    Prog Env (Handshake × Option HandshakeResponse) := do
  let (sent,init) ← initiateHandshake my peer.pub 1 ⟨1,0⟩
  let (mac,packet) ← (MACSender.new peer.pub).writeMacs init.toBytes
  let handshake := .initiated sent ⟨0⟩ mac
  match Message.tryFrom packet with
  | some (.handshakeInitiation init) =>
    match ReceivedHandshake.new init peer (.new peer.pub) with
    | some received => do
      let (_,packet) ← received.respond 2 psk (.new my.pub) 0
      match Message.tryFrom packet with
      | some (.handshakeResponse response) => return (handshake,some response)
      | _ => return (handshake,none)
    | none => return (handshake,none)
  | _ => return (handshake,none)

end

section
attribute [local instance] sumMacs

/-- A response with a wrong MAC arrives before the genuine one. The handshake is lost, and
the genuine response completes nothing. -/
theorem forged_response_drops_handshake :
    let my : Noise.X25519KeyPair := .ofSecret (sameBytes 9)
    let finish (h : Handshake) (packet : HandshakeResponse) :=
      h.finish packet my (sameBytes 0) (.new my.pub) 0
    ∃ h genuine env, exchange my (.ofSecret (sameBytes 1)) (sameBytes 0) Env.zeros =
        .ok ((h,some genuine),env) ∧
      let forged := { genuine with mac1 := zeroMac }
      (finish h genuine).1.isSome ∧ (finish h forged).1 = none ∧
      (finish (finish h forged).2 genuine).1 = none ∧ ¬ (finish h forged).2.BehavesAs h := by
  intro my finish
  have hrun : (exchange my (.ofSecret (sameBytes 1)) (sameBytes 0) Env.zeros).toOption.any
      (fun r => r.1.2.any fun genuine =>
        (finish r.1.1 genuine).1.isSome ∧
        finish r.1.1 { genuine with mac1 := zeroMac } = (none,.none) ∧ r.1.1.isActive) = true := by
    decide +kernel
  cases hexchange : exchange my (.ofSecret (sameBytes 1)) (sameBytes 0) Env.zeros with
  | error p =>
    rw [hexchange] at hrun
    cases hrun
  | ok r =>
    obtain ⟨⟨h,response⟩,env⟩ := r
    rw [hexchange] at hrun
    cases response with
    | none => cases hrun
    | some genuine =>
      obtain ⟨hgenuine,hforged,hactive⟩ := of_decide_eq_true hrun
      refine ⟨h,genuine,env,rfl,hgenuine,by rw [hforged],by rw [hforged]; rfl,fun hb => ?_⟩
      have hsame := hb.isActive
      rw [hforged,hactive] at hsame
      cases hsame

end
end Tailnet.Wireguard

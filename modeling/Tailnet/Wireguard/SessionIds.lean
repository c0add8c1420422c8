import Tailnet.Wireguard.CallMoves

/-! The table of session ids, over whole runs of an endpoint. A call is a sequence of
transitions of single peers; each leaves the ids of the other peers alone, so that every
id a peer holds stays mapped to it. -/
namespace Tailnet.Wireguard
open Prog Ctx Call

theorem Endpoint.changeKey_sessions {id : PeerId} {ids ids' : IdMap} {old new : NodePublicKey}
    (h : changeKey ids id old new = .ok ids') : ids'.sessions = ids.sessions := by
  rw [changeKey] at h
  split at h
  · obtain ⟨ids1,hremove,h⟩ := Result.bind_eq_ok.mp h
    obtain ⟨_,_,hremove⟩ := Result.bind_eq_ok.mp hremove
    cases hremove
    cases h
    rw [IdMap.addPeer]
    split <;> rfl
  · cases h
    rfl

section
variable [MacPrimitives]

namespace Endpoint

theorem upsertPeer_sound {e e' : Endpoint} {id : PeerId} {cfg : PeerConfig}
    {old : Option PeerConfig} (h : e.upsertPeer id cfg = .ok (old,e'))
    (hs : Sound e.peers e.state.ids.sessions) : Sound e'.peers e'.state.ids.sessions := by
  have hsame : KeepsOthers id e.state.ids.sessions e.state.ids.sessions := fun _ _ _ h => h
  rcases upsertPeer_ok h with ⟨peer,ids,hp,hids,rfl⟩ | ⟨hp,_,rfl⟩
  · obtain ⟨hid,howns⟩ := hs id peer hp
    have hsessions := changeKey_sessions hids
    simp only [hsessions]
    exact hs.update hid (howns.same rfl rfl) hsame
  · exact hs.update rfl ⟨List.nodup_nil,fun a ha => by cases ha⟩ hsame

end Endpoint

namespace Machine

variable {m m' : Machine} {op : Op} {reply : Reply} {may : Incident → Prop}

theorem Move.sound (h : m.Move may op reply m') (hs : m.IdsSound) : m'.IdsSound := by
  cases h with
  | upsert upserted => exact Endpoint.upsertPeer_sound upserted hs
  | missing absent => exact hs
  | packets moves => exact CallMoves.sound moves hs
  | @remove id peer live incident indexed =>
    obtain ⟨hid,howns⟩ := hs id peer live
    exact hs.remove (hid ▸ howns.forget_others fun _ hmem => hmem)

/-- A call on a sound endpoint that returns makes transitions. -/
theorem move_of_step (hs : m.IdsSound) (h : step op m = .ok (reply,m')) :
    m.Move (fun _ => True) op reply m' :=
  (step_move hs fun _ _ => trivial).1 reply m' h

theorem step_sound (hs : m.IdsSound) (h : step op m = .ok (reply,m')) : m'.IdsSound :=
  (move_of_step hs h).sound hs

/-- A fact about sound states that every call keeps holds all along a run, if the incidents of
its calls are among those in `may`. -/
theorem atEvery_of_moves (inv : Machine → Prop)
    (hmove : ∀ m op reply m', m.IdsSound → inv m → m.Move may op reply m' → inv m') {ops : List Op}
    (hs : m.IdsSound) (h : inv m)
    (hmay : AtEveryCall step (fun m op => ∀ i ∈ m.incidents op, may i) ops m) :
    AtEveryState step (fun m => m.IdsSound ∧ inv m) ops m := by
  refine (atEvery_of_invariant (fun m => m.IdsSound ∧ inv m) (P := fun _ _ => True)
    (fun _ hm => hm) ?_ ops ⟨hs,h⟩ hmay).1
  rintro m op ⟨hs,h⟩ hmay
  refine ⟨trivial,fun reply m' hstep => ?_⟩
  have hmoved := (step_move hs hmay).1 reply m' hstep
  exact ⟨hmoved.sound hs,hmove m op reply m' hs h hmoved⟩

theorem run_benign (ops : List Op) (hs : m.IdsSound) {p : Panic}
    (h : runAll step ops m = .error p) : Benign p := by
  induction ops generalizing m with
  | nil => cases h
  | cons op ops ih =>
    rcases Result.bind_eq_error.mp h with h | ⟨⟨reply,m1⟩,h1,h⟩
    · have hany : ∀ i ∈ m.incidents op, (fun _ : Incident => True) i := fun _ _ => trivial
      exact (step_move hs hany).2 p h
    · rcases Result.bind_eq_error.mp h with h | ⟨_,_,h⟩
      · exact ih (step_sound hs h1) h
      · cases h

end Machine

/-- The table of session ids is sound in every state that an endpoint reaches: the ids that
a peer holds are distinct from each other and from those of all other peers, and are mapped
to it. No call releases an unknown id or gives a packet to a wrong session. -/
theorem session_table_sound (myKey : Noise.X25519KeyPair) (env : Env) (ops : List Op) :
    (∀ replies m, runAll Machine.step ops ⟨Endpoint.new myKey,env⟩ = .ok (replies,m) →
      ∀ p peer, m.endpoint.peers p = some peer →
        peer.heldIds.Nodup ∧
        (∀ id ∈ peer.heldIds, m.endpoint.state.ids.sessions id = some p) ∧
        ∀ q peer', m.endpoint.peers q = some peer' → q ≠ p → List.Disjoint peer.heldIds peer'.heldIds) ∧
    runAll Machine.step ops ⟨Endpoint.new myKey,env⟩ ≠ .error (.unwrapNoneIn "remove_session") ∧
    runAll Machine.step ops ⟨Endpoint.new myKey,env⟩ ≠
      .error (.message "decrypt_in_place given packet with wrong receiver ID") := by
  have hnew : Machine.IdsSound ⟨Endpoint.new myKey,env⟩ := fun p peer h => by cases h
  refine ⟨fun replies m hrun p peer hp => ?_,fun h => ?_,fun h => ?_⟩
  · have hstates : AtEveryState Machine.step Machine.IdsSound ops ⟨Endpoint.new myKey,env⟩ :=
      atEveryState_of_invariant Machine.IdsSound (fun _ hs => hs)
        (fun _ _ _ _ => Machine.step_sound) ops hnew
    have hs := hstates.last hrun
    obtain ⟨hid,howns⟩ := hs p peer hp
    refine ⟨howns.nodup,fun id hmem => by rw [howns.mapped id hmem,hid],?_⟩
    intro q peer' hq hne id hmem hmem'
    obtain ⟨hid',howns'⟩ := hs q peer' hq
    have hsame := (howns.mapped id hmem).symm.trans (howns'.mapped id hmem')
    rw [hid,hid'] at hsame
    exact hne (Option.some.inj hsame).symm
  · exact Machine.run_benign ops hnew h rfl
  · exact (Machine.run_benign ops hnew h).1 rfl

end
end Tailnet.Wireguard

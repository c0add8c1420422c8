import Tailnet.Wireguard.Session

/-! A transmit and a receive session that share a key, with an attacker between them who
reorders, drops, duplicates, truncates and forges datagrams. The cipher is ideal: what
opens was sealed before, under the same counter. -/
namespace Tailnet.Wireguard
open TransportDataHeader List

/-- The two sessions, and a record of what was sealed and delivered. -/
structure Channel where
  tx : TransmitSession
  rx : ReceiveSession
  /-- the counters and plaintexts passed to the cipher -/
  sent : List (UInt64 × Packet)
  /-- the datagrams that `encrypt` returned -/
  wire : List Packet
  /-- the counters and plaintexts of the packets that `decrypt` returned -/
  delivered : List (UInt64 × Packet)

namespace Channel

def new (key : Bytes 32) (id : SessionId) (txNow rxNow : Instant) : Channel :=
  ⟨.new key id txNow,.new key id rxNow,[],[],[]⟩

def counterOf (datagram : Packet) : UInt64 :=
  match tryFromFront datagram with
  | some (header,_) => header.nonce
  | none => 0

section
variable [Aead]

/-- A batch of plaintexts is passed to `encrypt`. -/
def send (c : Channel) (batch : List Packet) : Result Channel := do
  let (datagrams,tx) ← c.tx.encrypt batch
  return { c with
    tx, sent := c.sent ++ numbered c.tx.nonce.nonce batch, wire := c.wire ++ datagrams }

/-- A datagram is presented to `decrypt`. -/
def present (c : Channel) (datagram : Packet) : Result Channel := do
  let (packets,rx) ← c.rx.decrypt [datagram]
  return { c with rx, delivered := c.delivered ++ packets.map fun p => (counterOf datagram,p) }

/-- A datagram for the session; with an ideal cipher it opens only if it was sealed. -/
structure Feasible (c : Channel) (datagram : Packet) : Prop where
  addressed : ∀ header rest, tryFromFront datagram = some (header,rest) →
    header.receiverId = c.rx.id
  ideal : ∀ header rest packet, tryFromFront datagram = some (header,rest) →
    Aead.decryptInPlace c.rx.cipher (nonceBytes header.nonce) [] rest = some packet →
    (header.nonce,packet) ∈ c.sent

/-- The states of the two sessions after any schedule. -/
inductive Reachable (key : Bytes 32) (id : SessionId) (txNow rxNow : Instant) : Channel → Prop
  | new : Reachable key id txNow rxNow (new key id txNow rxNow)
  | send {c c' : Channel} {batch : List Packet} (h : Reachable key id txNow rxNow c)
    (few : c.sent.length + batch.length < 2^64) (step : c.send batch = .ok c') :
    Reachable key id txNow rxNow c'
  | present {c c' : Channel} {datagram : Packet} (h : Reachable key id txNow rxNow c)
    (feasible : c.Feasible datagram) (step : c.present datagram = .ok c') :
    Reachable key id txNow rxNow c'

/-- The counters of the delivered packets. -/
def accepted (c : Channel) : Finset UInt64 := (c.delivered.map Prod.fst).toFinset

structure Inv (key : Bytes 32) (id : SessionId) (c : Channel) : Prop where
  txKey : c.tx.cipher = key ∧ c.tx.id = id
  rxKey : c.rx.cipher = key ∧ c.rx.id = id
  nonce : c.tx.nonce.nonce.toNat = c.sent.length
  counters : c.sent.map (fun e => e.1.toNat) = List.range c.sent.length
  wire : c.wire = c.sent.map fun e => c.tx.sealPacket e.1 e.2
  window : c.rx.window.Rep c.accepted
  once : (c.delivered.map Prod.fst).Nodup
  authentic : ∀ e ∈ c.delivered, e ∈ c.sent

variable {key : Bytes 32} {id : SessionId} {txNow rxNow : Instant} {c c' : Channel}

theorem inv_new : Inv key id (new key id txNow rxNow) :=
  ⟨⟨rfl,rfl⟩,⟨rfl,rfl⟩,rfl,rfl,rfl,ReplayWindow.default_rep,nodup_nil,fun _ h => by cases h⟩

theorem Inv.send (h : Inv key id c) {batch : List Packet}
    (few : c.sent.length + batch.length < 2^64) :
    ∃ c', c.send batch = .ok c' ∧ Inv key id c' ∧
      c'.sent = c.sent ++ numbered c.tx.nonce.nonce batch ∧ c'.delivered = c.delivered := by
  have hfew : c.tx.nonce.nonce.toNat + batch.length < 2^64 := by rwa [h.nonce]
  refine ⟨{ c with
    tx := { c.tx with nonce := ⟨.ofNat (c.tx.nonce.nonce.toNat + batch.length)⟩ }
    sent := c.sent ++ numbered c.tx.nonce.nonce batch
    wire := c.wire ++ (numbered c.tx.nonce.nonce batch).map fun e => c.tx.sealPacket e.1 e.2 },
    by rw [Channel.send,TransmitSession.encrypt_eq hfew]; rfl,
    ⟨h.txKey,h.rxKey,?_,?_,?_,h.window,h.once,?_⟩,rfl,rfl⟩
  · simp only [length_append,length_numbered,UInt64.toNat_ofNat',h.nonce]
    exact Nat.mod_eq_of_lt few
  · simp only [map_append,h.counters,numbered_counters hfew,length_append,
      length_numbered,h.nonce]
    rw [range_eq_range',range_eq_range',← List.range'_append_1,Nat.zero_add]
  · simp only [map_append]
    rw [h.wire]
    rfl
  · intro e he
    exact mem_append_left _ (h.authentic e he)

theorem Inv.present (h : Inv key id c) {datagram : Packet} (hf : c.Feasible datagram) :
    ∃ c' new, c.present datagram = .ok c' ∧ Inv key id c' ∧ c'.sent = c.sent ∧
      c'.delivered = c.delivered ++ new ∧
      c.rx.decrypt [datagram] = .ok (new.map Prod.snd,c'.rx) := by
  obtain ⟨out,rx,hrun,hdec⟩ := ReceiveSession.decryptOne_spec h.window hf.addressed
  have hdecrypt : c.rx.decrypt [datagram] = .ok (out.toList,rx) := by
    simp [ReceiveSession.decrypt,hrun]
  have hpresent : c.present datagram = .ok { c with
      rx, delivered := c.delivered ++ out.toList.map fun p => (counterOf datagram,p) } := by
    rw [Channel.present,hdecrypt]
    rfl
  refine ⟨_,_,hpresent,?_,rfl,rfl,by rw [hdecrypt,map_map]; simp⟩
  cases hdec with
  | dropped =>
    simp only [Option.toList_none,map_nil,append_nil]
    exact ⟨h.txKey,h.rxKey,h.nonce,h.counters,h.wire,h.window,h.once,h.authentic⟩
  | @opened header rest packet window front new opens rep =>
    have hcounter : counterOf datagram = header.nonce := by rw [counterOf,front]
    simp only [Option.toList_some,map_cons,map_nil,hcounter]
    refine ⟨h.txKey,h.rxKey,h.nonce,h.counters,h.wire,?_,?_,?_⟩
    · have hacc : ((c.delivered ++ [(header.nonce,packet)]).map Prod.fst).toFinset =
          insert header.nonce c.accepted := by
        rw [accepted,map_append,toFinset_append]
        exact Finset.union_comm _ _
      rw [accepted,hacc]
      exact rep
    · rw [map_append,nodup_append]
      refine ⟨h.once,by simp,?_⟩
      intro a ha b hb hab
      have hb : b = header.nonce := mem_singleton.mp hb
      exact new.1 (mem_toFinset.mpr (hb ▸ hab ▸ ha))
    · intro e he
      rcases mem_append.mp he with he | he
      · exact h.authentic e he
      · rw [mem_singleton] at he
        rw [he]
        exact hf.ideal header rest packet front opens

/-- A batch of datagrams is decrypted as if they were presented one at a time. -/
theorem Inv.present_batch (h : Inv key id c) {datagrams : List Packet}
    (hf : ∀ d ∈ datagrams, c.Feasible d) :
    ∃ c' new, datagrams.foldlM Channel.present c = .ok c' ∧
      c'.delivered = c.delivered ++ new ∧ c.rx.decrypt datagrams = .ok (new.map Prod.snd,c'.rx) := by
  induction datagrams generalizing c with
  | nil => exact ⟨c,[],rfl,by simp,rfl⟩
  | cons d ds ih =>
    obtain ⟨c1,new1,hrun,hinv,hsent,hnew,hdec⟩ := h.present (hf d mem_cons_self)
    have hf' : ∀ d' ∈ ds, c1.Feasible d' := by
      intro d' hd'
      obtain ⟨haddr,hideal⟩ := hf d' (mem_cons_of_mem d hd')
      refine ⟨?_,?_⟩
      · rwa [hinv.rxKey.2,← h.rxKey.2]
      · rwa [hinv.rxKey.1,← h.rxKey.1,hsent]
    obtain ⟨c2,new2,hruns,hnews,hdecs⟩ := ih hinv hf'
    refine ⟨c2,new1 ++ new2,?_,?_,?_⟩
    · rw [foldlM_cons,hrun]
      exact hruns
    · rw [hnews,hnew,append_assoc]
    · rw [show d :: ds = [d] ++ ds from rfl,ReceiveSession.decrypt_append,hdec]
      simp only [Result.bind_of_ok,hdecs,map_append]
      rfl

theorem Reachable.inv (h : Reachable key id txNow rxNow c) : Inv key id c := by
  induction h with
  | new => exact inv_new
  | send _ few step ih =>
    obtain ⟨c',hc',hinv,_⟩ := ih.send few
    rw [hc'] at step
    cases step
    exact hinv
  | present _ feasible step ih =>
    obtain ⟨c',_,hc',hinv,_⟩ := ih.present feasible
    rw [hc'] at step
    cases step
    exact hinv

/-- No nonce of the cipher is used twice. -/
theorem Inv.nonces_nodup (h : Inv key id c) : (c.sent.map fun e => nonceBytes e.1).Nodup := by
  have hc : (c.sent.map fun e => e.1.toNat).Nodup := by
    rw [h.counters]
    exact nodup_range
  rw [show (c.sent.map fun e => e.1.toNat) = (c.sent.map Prod.fst).map UInt64.toNat by simp] at hc
  rw [show (c.sent.map fun e => nonceBytes e.1) = (c.sent.map Prod.fst).map nonceBytes by simp]
  exact hc.of_map.map nonceBytes_injective

theorem Inv.feasible (hopen : Aead.OpensPackets) (h : Inv key id c) {e : UInt64 × Packet}
    (he : e ∈ c.sent) : c.Feasible (c.tx.sealPacket e.1 e.2) := by
  have hfront := tryFromFront_toBytes (c.tx.header e.1)
    (Aead.encryptInPlace c.tx.cipher (nonceBytes e.1) [] e.2)
  rw [TransmitSession.sealPacket_eq]
  refine ⟨?_,?_⟩
  · intro header rest hf
    rw [hfront] at hf
    cases hf
    exact h.txKey.2.trans h.rxKey.2.symm
  · intro header rest packet hf hpacket
    rw [hfront] at hf
    cases hf
    have hkey : c.rx.cipher = c.tx.cipher := h.rxKey.1.trans h.txKey.1.symm
    rw [hkey] at hpacket
    cases (hopen _ _ _ _).symm.trans hpacket
    exact he

/-- An authentic packet that is not too old is delivered. -/
theorem Inv.delivers (hopen : Aead.OpensPackets) (h : Inv key id c) {e : UInt64 × Packet}
    (hnew : e.1 ∉ c.delivered.map Prod.fst)
    (hwindow : ∀ d ∈ c.delivered, d.1.toNat ≤ e.1.toNat + 191) :
    ∃ rx, c.rx.decrypt [c.tx.sealPacket e.1 e.2] = .ok ([e.2],rx) := by
  have hcounter : NewCounter c.accepted e.1 := by
    refine ⟨fun hmem => hnew (mem_toFinset.mp hmem),fun a ha => ?_⟩
    obtain ⟨d,hd,rfl⟩ := mem_map.mp (mem_toFinset.mp ha)
    exact hwindow d hd
  obtain ⟨window,hset,_⟩ := ReplayWindow.set_spec h.window hcounter
  have hcheck := (ReplayWindow.check_iff h.window).mpr hcounter
  have hid : c.tx.id = c.rx.id := h.txKey.2.trans h.rxKey.2.symm
  have hkey : c.tx.cipher = c.rx.cipher := h.txKey.1.trans h.rxKey.1.symm
  have hone : c.rx.decryptOne (c.tx.sealPacket e.1 e.2) = .ok (some e.2,{ c.rx with window }) := by
    have hfront := tryFromFront_toBytes (c.tx.header e.1)
      (Aead.encryptInPlace c.tx.cipher (nonceBytes e.1) [] e.2)
    rw [TransmitSession.sealPacket_eq,ReceiveSession.decryptOne,drop_of_tryFromFront hfront,hfront]
    simp [TransmitSession.header,hid,hkey,hcheck,hopen _ _ _ _,hset]
  exact ⟨_,by simp [ReceiveSession.decrypt,hone]; rfl⟩

/-- The transport session, end to end: under every schedule of sends and of feasible datagrams,
no nonce is used twice, what is delivered was sent and is delivered once, nothing panics,
batches change nothing, an authentic packet inside the window is delivered and a rejected
datagram leaves no trace. -/
theorem reachable_exactly_once (hopen : Aead.OpensPackets)
    (h : Reachable key id txNow rxNow c) :
    (c.sent.map fun e => nonceBytes e.1).Nodup ∧
    c.wire = (c.sent.map fun e => c.tx.sealPacket e.1 e.2) ∧
    (∀ e ∈ c.delivered, e ∈ c.sent) ∧
    (c.delivered.map Prod.fst).Nodup ∧
    (∀ batch : List Packet, c.sent.length + batch.length < 2^64 → ∃ c', c.send batch = .ok c') ∧
    (∀ datagrams, (∀ d ∈ datagrams, c.Feasible d) →
      ∃ c' new, datagrams.foldlM Channel.present c = .ok c' ∧
        c'.delivered = c.delivered ++ new ∧
        c.rx.decrypt datagrams = .ok (new.map Prod.snd,c'.rx)) ∧
    (∀ e ∈ c.sent, e.1 ∉ c.delivered.map Prod.fst →
      (∀ d ∈ c.delivered, d.1.toNat ≤ e.1.toNat + 191) →
      ∃ rx, c.rx.decrypt [c.tx.sealPacket e.1 e.2] = .ok ([e.2],rx)) ∧
    ∀ datagram rx, c.rx.decrypt [datagram] = .ok ([],rx) → rx = c.rx := by
  have hinv := h.inv
  refine ⟨hinv.nonces_nodup,hinv.wire,hinv.authentic,hinv.once,?_,?_,?_,?_⟩
  · intro batch few
    obtain ⟨c',hc',_⟩ := hinv.send few
    exact ⟨c',hc'⟩
  · intro datagrams hf
    exact hinv.present_batch hf
  · intro e _ hnew hwindow
    exact hinv.delivers hopen hnew hwindow
  · intro datagram rx hrejected
    exact (ReceiveSession.decrypt_ok hrejected).2.1 rfl

end

/-- Two packets, of which the second arrives first. -/
theorem reachable_exactly_once_sum :
    letI := Noise.sumPrimitives.toAead
    ∃ c rx, Reachable (List.Vector.replicate 32 1) 7 0 0 c ∧ c.delivered.map Prod.snd = [[3]] ∧
      c.rx.decrypt [c.tx.sealPacket 0 [1,2]] = .ok ([[1,2]],rx) := by
  let _ := Noise.sumPrimitives.toAead
  have hnew : Reachable (List.Vector.replicate 32 1) 7 0 0
    (new (List.Vector.replicate 32 1) 7 0 0) := .new
  have few : (new (List.Vector.replicate 32 1) 7 0 0).sent.length +
      [[1,2],[(3 : UInt8)]].length < 2^64 := by decide
  obtain ⟨c1,hsend,hinv1,hsent1,hnone⟩ := hnew.inv.send few
  have hsent1 : c1.sent = [(0,[1,2]),(1,[3])] := hsent1
  have hnone : c1.delivered = [] := hnone
  have hfeasible := hinv1.feasible Noise.sumPrimitives_opensPackets
    (show (1,[3]) ∈ c1.sent by simp [hsent1])
  obtain ⟨c2,new,hpresent,hinv2,hsent2,hdelivered,hdecrypt⟩ := hinv1.present hfeasible
  obtain ⟨rx1,hrx1⟩ := hinv1.delivers Noise.sumPrimitives_opensPackets
    (show (1,[3]).1 ∉ c1.delivered.map Prod.fst by simp [hnone])
    (by simp [hnone])
  obtain ⟨hpackets,-⟩ := Prod.mk.inj (Except.ok.inj (hdecrypt.symm.trans hrx1))
  rw [hnone,nil_append] at hdelivered
  -- The delivered packet was sent, so that its counter is 1.
  have hdelivered : c2.delivered = [(1,[3])] := by
    obtain ⟨e,rfl⟩ : ∃ e, new = [e] := by
      rw [← length_eq_one_iff,← length_map,hpackets]
      rfl
    have he := hinv2.authentic e (by simp [hdelivered])
    rw [hsent2,hsent1] at he
    rcases mem_cons.mp he with rfl | he
    · cases hpackets
    · rw [hdelivered,mem_singleton.mp he]
  have hreach : Reachable (List.Vector.replicate 32 1) 7 0 0 c2 :=
    .present (.send hnew few hsend) hfeasible hpresent
  obtain ⟨_,_,_,_,_,_,hdeliver,_⟩ :=
    reachable_exactly_once Noise.sumPrimitives_opensPackets hreach
  obtain ⟨rx2,hrx2⟩ := hdeliver (0,[1,2]) (by simp [hsent2,hsent1]) (by simp [hdelivered])
    (by simp [hdelivered])
  exact ⟨c2,rx2,hreach,by rw [hdelivered]; rfl,hrx2⟩

end Channel
end Tailnet.Wireguard

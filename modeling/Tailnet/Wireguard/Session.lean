import Tailnet.Scheduler
import Tailnet.Wireguard.Messages
import Tailnet.Wireguard.Replay

/-! Established sessions. A transmit session numbers the packets it seals; a receive
session opens a packet only if its number is new, and marks the number afterwards. -/
namespace Tailnet.Wireguard
open List Result Bytes

structure NonceGenerator where
  nonce : UInt64
  deriving DecidableEq

/-- The nonces from `cur` up to `stop`. -/
structure NonceIter where
  cur : UInt64
  stop : UInt64
  deriving DecidableEq

def NonceGenerator.batch (g : NonceGenerator) (num : ℕ) : Result (NonceIter × NonceGenerator) :=
  if g.nonce.toNat + num < 2^64 then
    let stop := UInt64.ofNat (g.nonce.toNat + num)
    .ok (⟨g.nonce,stop⟩,⟨stop⟩)
  else .error (.message "nonce exhausted")

def NonceIter.next (it : NonceIter) : Option (UInt64 × NonceIter) :=
  if it.cur = it.stop then none else some (it.cur,⟨it.cur+1,it.stop⟩)

/-- The nonce of the cipher: four zero bytes and the counter. -/
def nonceBytes (counter : UInt64) : Bytes 12 :=
  Bytes.append (List.Vector.replicate 4 0) (Bytes.le 8 counter.toNat)

def growFront (len : ℕ) (packet : Packet) : Packet := List.replicate len 0 ++ packet

/-- A packet whose first bytes are overwritten. -/
def writeFront (bytes packet : Packet) : Packet := bytes ++ packet.drop bytes.length

structure TransmitSession where
  cipher : Bytes 32
  nonce : NonceGenerator
  id : SessionId
  created : Instant
  deriving DecidableEq

structure ReceiveSession where
  cipher : Bytes 32
  id : SessionId
  created : Instant
  window : ReplayWindow
  deriving DecidableEq

namespace TransmitSession

def new (key : Bytes 32) (id : SessionId) (now : Instant) : TransmitSession := ⟨key,⟨0⟩,id,now⟩

def stale (s : TransmitSession) (now : Instant) : Bool := now - s.created > Instant.ofSecs 120

def expired (s : TransmitSession) (now : Instant) : Bool := now - s.created > Instant.ofSecs 240

variable [Aead]

/-- One packet sealed under a counter, behind its header. -/
def sealPacket (s : TransmitSession) (counter : UInt64) (packet : Packet) : Packet :=
  let packet := Aead.encryptInPlace s.cipher (nonceBytes counter) [] packet
  let header := { TransportDataHeader.default with receiverId := s.id, nonce := counter }
  writeFront header.toBytes (growFront TransportDataHeader.size packet)

/-- The loop of `encrypt`. It ends when the packets or the nonces do. -/
def encryptLoop (s : TransmitSession) : NonceIter → List Packet → List Packet
  | _,[] => []
  | it,packet::packets =>
    match it.next with
    | none => packet::packets
    | some (counter,it) => s.sealPacket counter packet::s.encryptLoop it packets

def encrypt (s : TransmitSession) (packets : List Packet) :
    Result (List Packet × TransmitSession) := do
  let (it,nonce) ← s.nonce.batch packets.length
  return (s.encryptLoop it packets,{ s with nonce })

end TransmitSession

namespace ReceiveSession

def new (key : Bytes 32) (id : SessionId) (now : Instant) : ReceiveSession :=
  ⟨key,id,now,ReplayWindow.default⟩

def expired (s : ReceiveSession) (now : Instant) : Bool := now - s.created > Instant.ofSecs 240

variable [Aead]

/-- Decrypt a wireguard transport data message in place; nothing is returned for a
message that is dropped. A debug build stops at a message for another session. -/
def decryptOne (s : ReceiveSession) (pkt : Packet) : Result (Option Packet × ReceiveSession) :=
  match TransportDataHeader.tryFromFront pkt with
  | none => .ok (none,s)
  | some (header,_) =>
    if header.receiverId ≠ s.id then
      .error (.message "decrypt_in_place given packet with wrong receiver ID")
    else if s.window.check header.nonce = false then .ok (none,s)
    else
      match Aead.decryptInPlace s.cipher (nonceBytes header.nonce) []
          (pkt.drop TransportDataHeader.size) with
      | none => .ok (none,s)
      | some packet => do
        let window ← s.window.set header.nonce
        return (some packet,{ s with window })

/-- Decrypt messages in place, and return those that decrypted. -/
def decrypt (s : ReceiveSession) : List Packet → Result (List Packet × ReceiveSession)
  | [] => .ok ([],s)
  | pkt::pkts => do
    let (packet,s) ← s.decryptOne pkt
    let (packets,s) ← s.decrypt pkts
    return (packet.toList ++ packets,s)

end ReceiveSession

theorem nonceBytes_injective : Function.Injective nonceBytes := by
  intro a b h
  have hl := congrArg List.Vector.toList h
  rw [nonceBytes,nonceBytes,toList_append,toList_append] at hl
  have hle := congrArg Bytes.ofLe (append_cancel_left hl)
  rw [ofLe_le_of_lt a.toNat_lt,ofLe_le_of_lt b.toNat_lt] at hle
  exact UInt64.toNat_inj.mp hle

theorem writeFront_growFront (bytes packet : Packet) :
    writeFront bytes (growFront bytes.length packet) = bytes ++ packet := by
  rw [writeFront,growFront,drop_left' (by simp)]

/-- Packets numbered from a counter on. -/
def numbered : UInt64 → List Packet → List (UInt64 × Packet)
  | _,[] => []
  | counter,packet::packets => (counter,packet)::numbered (counter+1) packets

theorem toNat_succ {c : UInt64} (h : c.toNat + 1 < 2^64) : (c+1).toNat = c.toNat + 1 := by
  rw [UInt64.toNat_add]
  exact Nat.mod_eq_of_lt h

theorem numbered_counters {counter : UInt64} {packets : List Packet}
    (h : counter.toNat + packets.length < 2^64) :
    (numbered counter packets).map (fun e => e.1.toNat) =
      List.range' counter.toNat packets.length := by
  induction packets generalizing counter with
  | nil => rfl
  | cons packet packets ih =>
    rw [length_cons] at h
    have hs := toNat_succ (c := counter) (by omega)
    rw [numbered,map_cons,ih (by omega),hs,length_cons,List.range'_succ]

theorem numbered_packets (counter : UInt64) (packets : List Packet) :
    (numbered counter packets).map Prod.snd = packets := by
  induction packets generalizing counter with
  | nil => rfl
  | cons packet packets ih => rw [numbered,map_cons,ih]

@[simp] theorem length_numbered (counter : UInt64) (packets : List Packet) :
    (numbered counter packets).length = packets.length := by
  rw [← length_map Prod.snd,numbered_packets]

section Seal
variable [Aead] {s : TransmitSession}

/-- The header of a packet sealed under a counter. -/
def TransmitSession.header (s : TransmitSession) (counter : UInt64) : TransportDataHeader :=
  { TransportDataHeader.default with receiverId := s.id, nonce := counter }

theorem TransmitSession.sealPacket_eq (s : TransmitSession) (counter : UInt64) (packet : Packet) :
    s.sealPacket counter packet = (s.header counter).toBytes ++
      Aead.encryptInPlace s.cipher (nonceBytes counter) [] packet := by
  rw [← writeFront_growFront,TransportDataHeader.length_toBytes]
  rfl

theorem TransmitSession.encryptLoop_eq {cur stop : UInt64} {packets : List Packet}
    (h : cur.toNat + packets.length = stop.toNat) :
    s.encryptLoop ⟨cur,stop⟩ packets = (numbered cur packets).map fun e => s.sealPacket e.1 e.2 := by
  induction packets generalizing cur with
  | nil => rfl
  | cons packet packets ih =>
    rw [length_cons] at h
    have hlt := stop.toNat_lt
    have hne : cur ≠ stop := fun he => by rw [he] at h; omega
    have hs := toNat_succ (c := cur) (by omega)
    simp only [encryptLoop,NonceIter.next,if_neg hne,numbered,map_cons]
    rw [ih (by omega)]

theorem TransmitSession.length_encryptLoop (it : NonceIter) (packets : List Packet) :
    (s.encryptLoop it packets).length = packets.length := by
  induction packets generalizing it with
  | nil => rfl
  | cons packet packets ih =>
    rw [encryptLoop]
    split
    · rfl
    · simp [ih]

theorem TransmitSession.length_encrypt {s' : TransmitSession} {packets ret : List Packet}
    (h : s.encrypt packets = .ok (ret,s')) : ret.length = packets.length := by
  obtain ⟨⟨it,nonce⟩,_,h⟩ := bind_eq_ok.mp h
  cases h
  exact length_encryptLoop it packets

/-- A batch is sealed under the next counters, as long as there are enough of them. -/
theorem TransmitSession.encrypt_eq {packets : List Packet}
    (h : s.nonce.nonce.toNat + packets.length < 2^64) :
    s.encrypt packets = .ok ((numbered s.nonce.nonce packets).map (fun e => s.sealPacket e.1 e.2),
      { s with nonce := ⟨UInt64.ofNat (s.nonce.nonce.toNat + packets.length)⟩ }) := by
  have hstop : (UInt64.ofNat (s.nonce.nonce.toNat + packets.length)).toNat =
      s.nonce.nonce.toNat + packets.length := by
    rw [UInt64.toNat_ofNat']
    exact Nat.mod_eq_of_lt h
  simp only [encrypt,NonceGenerator.batch,if_pos h,bind_of_ok,pure_eq_ok,
    encryptLoop_eq hstop.symm]

/-- A session that returned from a batch sealed all of it. -/
theorem TransmitSession.eq_of_encrypt {s' : TransmitSession} {packets ret : List Packet}
    (h : s.encrypt packets = .ok (ret,s')) :
    ret = (numbered s.nonce.nonce packets).map (fun e => s.sealPacket e.1 e.2) ∧
      s'.cipher = s.cipher := by
  by_cases hlen : s.nonce.nonce.toNat + packets.length < 2^64
  · rw [encrypt_eq hlen] at h
    cases h
    exact ⟨rfl,rfl⟩
  · rw [encrypt,NonceGenerator.batch,if_neg hlen] at h
    cases h

/-- Encrypting keeps the key of a session, and returns packets sealed under it. -/
theorem TransmitSession.encrypt_ok {s' : TransmitSession} {packets ret : List Packet}
    (h : s.encrypt packets = .ok (ret,s')) :
    s'.cipher = s.cipher ∧
      ∀ packet ∈ ret, ∃ counter plaintext, packet = s.sealPacket counter plaintext := by
  obtain ⟨rfl,hkey⟩ := eq_of_encrypt h
  refine ⟨hkey,fun packet hmem => ?_⟩
  obtain ⟨e,_,rfl⟩ := mem_map.mp hmem
  exact ⟨e.1,e.2,rfl⟩

end Seal

theorem TransportDataHeader.drop_of_tryFromFront {pkt rest : Packet} {h : TransportDataHeader}
    (hp : tryFromFront pkt = some (h,rest)) : pkt.drop size = rest := by
  cases pkt with
  | nil => cases hp
  | cons b pkt =>
    simp only [tryFromFront,MessageType.read,Option.bind_eq_bind,Option.bind_eq_some_iff,
      Option.map_eq_some_iff] at hp
    obtain ⟨_,⟨t,_,rfl⟩,⟨reserved,p1⟩,h1,⟨receiver,p2⟩,h2,⟨nonce,p3⟩,h3,hret⟩ := hp
    cases hret
    dsimp only at h1 h2 h3 ⊢
    rw [read_eq_some h1,read_eq_some h2,read_eq_some h3,
      show b::(reserved.toList ++ (receiver.toList ++ (nonce.toList ++ p3))) =
        (b::(reserved.toList ++ (receiver.toList ++ nonce.toList))) ++ p3 by simp]
    exact drop_left' (by simp [size])

namespace ReceiveSession
variable [Aead] {s s' : ReceiveSession} {pkt rest : Packet} {header : TransportDataHeader}
  {accepted : Finset UInt64} {out : Option Packet}

/-- What one message does to a session that it is addressed to: it is dropped and leaves
the session as it was, or its counter is new, it opens and its counter is marked. -/
inductive Decrypted (s : ReceiveSession) (accepted : Finset UInt64) (pkt : Packet) :
    Option Packet → ReceiveSession → Prop
  | dropped : Decrypted s accepted pkt none s
  | opened {header : TransportDataHeader} {rest packet : Packet} {window : ReplayWindow}
    (front : TransportDataHeader.tryFromFront pkt = some (header,rest))
    (new : NewCounter accepted header.nonce)
    (opens : Aead.decryptInPlace s.cipher (nonceBytes header.nonce) [] rest = some packet)
    (rep : window.Rep (insert header.nonce accepted)) :
    Decrypted s accepted pkt (some packet) { s with window }

theorem decryptOne_spec (h : s.window.Rep accepted)
    (haddr : ∀ header rest, TransportDataHeader.tryFromFront pkt = some (header,rest) →
      header.receiverId = s.id) :
    ∃ out s', s.decryptOne pkt = .ok (out,s') ∧ s.Decrypted accepted pkt out s' := by
  rw [decryptOne]
  cases hf : TransportDataHeader.tryFromFront pkt with
  | none => exact ⟨none,s,rfl,.dropped⟩
  | some front =>
    obtain ⟨header,rest⟩ := front
    have hid := haddr header rest hf
    simp only [hid,ne_eq,not_true_eq_false,if_false,TransportDataHeader.drop_of_tryFromFront hf]
    by_cases hnew : NewCounter accepted header.nonce
    · have hc := (ReplayWindow.check_iff h).mpr hnew
      obtain ⟨window,hset,hrep⟩ := ReplayWindow.set_spec h hnew
      simp only [hc,Bool.true_eq_false,if_false]
      cases hd : Aead.decryptInPlace s.cipher (nonceBytes header.nonce) [] rest with
      | none => exact ⟨none,s,rfl,.dropped⟩
      | some packet =>
        exact ⟨some packet,{ s with window },by simp [hset],.opened hf hnew hd hrep⟩
    · have hc : s.window.check header.nonce = false := by
        rwa [← Bool.not_eq_true,ReplayWindow.check_iff h]
      simp only [hc,if_true]
      exact ⟨none,s,rfl,.dropped⟩

/-- A datagram opens under a key. -/
def Opens (datagram : Packet) (cipher : Bytes 32) (plaintext : Packet) : Prop :=
  ∃ header rest, TransportDataHeader.tryFromFront datagram = some (header,rest) ∧
    Aead.decryptInPlace cipher (nonceBytes header.nonce) [] rest = some plaintext

theorem decryptOne_ok (h : s.decryptOne pkt = .ok (out,s')) :
    out = none ∧ s' = s ∨ ∃ plaintext window, out = some plaintext ∧ s' = { s with window } ∧
      Opens pkt s.cipher plaintext := by
  rw [decryptOne] at h
  cases hf : TransportDataHeader.tryFromFront pkt with
  | none =>
    rw [hf] at h
    cases h
    exact .inl ⟨rfl,rfl⟩
  | some front =>
    obtain ⟨header,rest⟩ := front
    simp only [hf,TransportDataHeader.drop_of_tryFromFront hf] at h
    split at h
    · cases h
    · split at h
      · cases h
        exact .inl ⟨rfl,rfl⟩
      · cases hd : Aead.decryptInPlace s.cipher (nonceBytes header.nonce) [] rest with
        | none =>
          rw [hd] at h
          cases h
          exact .inl ⟨rfl,rfl⟩
        | some packet =>
          rw [hd] at h
          obtain ⟨window,-,hret⟩ := bind_eq_ok.mp h
          cases hret
          exact .inr ⟨packet,window,rfl,rfl,header,rest,hf,hd⟩

/-- Decrypting changes the window of a session only, and nothing if all is dropped; what is
decrypted opens under the key of the session. -/
theorem decrypt_ok {pkts out : List Packet} (h : s.decrypt pkts = .ok (out,s')) :
    (∃ window, s' = { s with window }) ∧ (out = [] → s' = s) ∧
      ∀ plaintext ∈ out, ∃ datagram ∈ pkts, Opens datagram s.cipher plaintext := by
  induction pkts generalizing s out with
  | nil =>
    cases h
    exact ⟨⟨_,rfl⟩,fun _ => rfl,(fun _ hmem => by cases hmem)⟩
  | cons pkt pkts ih =>
    obtain ⟨⟨one,s1⟩,h1,h⟩ := bind_eq_ok.mp h
    obtain ⟨⟨outs,s2⟩,h2,h⟩ := bind_eq_ok.mp h
    cases h
    obtain ⟨hwindow,hrejected,hopens⟩ := ih h2
    have hrest (plaintext : Packet) (hmem : plaintext ∈ outs) :
        ∃ datagram ∈ pkt::pkts, Opens datagram s1.cipher plaintext := by
      obtain ⟨datagram,hin,ho⟩ := hopens plaintext hmem
      exact ⟨datagram,mem_cons_of_mem _ hin,ho⟩
    rcases decryptOne_ok h1 with ⟨rfl,rfl⟩ | ⟨packet,window,rfl,rfl,hone⟩
    · exact ⟨hwindow,hrejected,hrest⟩
    · obtain ⟨window2,rfl⟩ := hwindow
      refine ⟨⟨window2,rfl⟩,(fun hnil => by cases hnil),fun plaintext hmem => ?_⟩
      rcases mem_cons.mp hmem with rfl | hmem
      · exact ⟨pkt,mem_cons_self,hone⟩
      · exact hrest plaintext hmem

theorem decrypt_id {pkts out : List Packet} (h : s.decrypt pkts = .ok (out,s')) :
    s'.id = s.id ∧ s'.cipher = s.cipher := by
  obtain ⟨⟨window,rfl⟩,-⟩ := decrypt_ok h
  exact ⟨rfl,rfl⟩

theorem decrypt_append (s : ReceiveSession) (pkts pkts' : List Packet) :
    s.decrypt (pkts ++ pkts') = (do
      let (packets,s) ← s.decrypt pkts
      let (packets',s) ← s.decrypt pkts'
      return (packets ++ packets',s)) := by
  induction pkts generalizing s with
  | nil =>
    simp only [nil_append,decrypt,bind_of_ok]
    cases s.decrypt pkts' <;> rfl
  | cons pkt pkts ih =>
    simp only [cons_append,decrypt]
    cases s.decryptOne pkt with
    | error e => rfl
    | ok r =>
      obtain ⟨out,s1⟩ := r
      simp only [bind_of_ok,ih]
      cases s1.decrypt pkts with
      | error e => rfl
      | ok r =>
        obtain ⟨ps,s2⟩ := r
        simp only [bind_of_ok,pure_eq_ok]
        cases s2.decrypt pkts' with
        | error e => rfl
        | ok r => simp

end ReceiveSession
end Tailnet.Wireguard

import Tailnet.Lib.Bytes

/-! Packets of the disco protocol. A packet is built in a buffer: the message is written into the payload,
then the payload is sealed for the receiver, and the key of the sender and the nonce go to the header. The
receiver reads the bytes as a sealed packet, opens it and reads the message. -/
namespace Tailnet.Disco
open Option Bytes

inductive MessageType
  | ping
  | pong
  | callMeMaybe
  | bindUdpRelayEndpoint
  | bindUdpRelayEndpointChallenge
  | bindUdpRelayEndpointAnswer
  | callMeMaybeVia
  | allocateUdpRelayEndpointsRequest
  | allocateUdpRelayEndpointsResponse
  deriving DecidableEq, Repr

namespace MessageType

def toByte : MessageType → UInt8
  | ping => 0x1
  | pong => 0x2
  | callMeMaybe => 0x3
  | bindUdpRelayEndpoint => 0x4
  | bindUdpRelayEndpointChallenge => 0x5
  | bindUdpRelayEndpointAnswer => 0x6
  | callMeMaybeVia => 0x7
  | allocateUdpRelayEndpointsRequest => 0x8
  | allocateUdpRelayEndpointsResponse => 0x9

def tryFrom (value : UInt8) : Option MessageType :=
  match value with
  | 0x1 => some ping
  | 0x2 => some pong
  | 0x3 => some callMeMaybe
  | 0x4 => some bindUdpRelayEndpoint
  | 0x5 => some bindUdpRelayEndpointChallenge
  | 0x6 => some bindUdpRelayEndpointAnswer
  | 0x7 => some callMeMaybeVia
  | 0x8 => some allocateUdpRelayEndpointsRequest
  | 0x9 => some allocateUdpRelayEndpointsResponse
  | _ => none

@[simp] theorem tryFrom_toByte (t : MessageType) : tryFrom t.toByte = some t := by
  cases t <;> rfl

end MessageType

/-- An address of sixteen bytes and a port. -/
abbrev Endpoint := Bytes 18

/-- The messages. The other types have none yet. -/
inductive Message
  | ping (txId : Bytes 12) (nodeKey : Bytes 32) (padding : List UInt8)
  | pong (txId : Bytes 12) (src : Endpoint)
  | callMeMaybe (endpoints : List Endpoint)
  deriving DecidableEq

namespace Message

def typ : Message → MessageType
  | ping _ _ _ => .ping
  | pong _ _ => .pong
  | callMeMaybe _ => .callMeMaybe

def asBytes : Message → List UInt8
  | ping txId nodeKey padding => txId.toList ++ (nodeKey.toList ++ padding)
  | pong txId src => txId.toList ++ src.toList
  | callMeMaybe endpoints => endpoints.flatMap List.Vector.toList

def readEndpoints : ℕ → List UInt8 → List Endpoint
  | 0,_ => []
  | n+1,l =>
    match Bytes.read 18 l with
    | some (endpoint,l) => endpoint::readEndpoints n l
    | none => []

/-- The bytes as a message of the type. All values of the fields are valid, so only the size is checked. -/
def ofBytes (t : MessageType) (b : List UInt8) : Option Message :=
  match t with
  | .ping => do
    let (txId,b) ← Bytes.read 12 b
    let (nodeKey,padding) ← Bytes.read 32 b
    return ping txId nodeKey padding
  | .pong => do
    let (txId,b) ← Bytes.read 12 b
    let (src,b) ← Bytes.read 18 b
    if b.isEmpty then some (pong txId src) else none
  | .callMeMaybe => if b.length%18 = 0 then some (callMeMaybe (readEndpoints (b.length/18) b)) else none
  | _ => none

theorem exists_read {n : ℕ} {l : List UInt8} (h : n ≤ l.length) :
    ∃ a : Bytes n, Bytes.read n l = some (a,l.drop n) :=
  ⟨_,dif_pos h⟩

theorem length_flatMap_endpoints (endpoints : List Endpoint) :
    (endpoints.flatMap List.Vector.toList).length = 18*endpoints.length := by
  induction endpoints with
  | nil => rfl
  | cons e es ih =>
    rw [List.flatMap_cons,List.length_append,e.toList_length,ih,List.length_cons]
    omega

theorem readEndpoints_flatMap (endpoints : List Endpoint) :
    readEndpoints endpoints.length (endpoints.flatMap List.Vector.toList) = endpoints := by
  induction endpoints with
  | nil => rfl
  | cons e es ih => simp [readEndpoints,ih]

theorem length_readEndpoints {n : ℕ} {l : List UInt8} (h : l.length = 18*n) : (readEndpoints n l).length = n := by
  induction n generalizing l with
  | zero => rfl
  | succ n ih =>
    have hle : 18 ≤ l.length := by omega
    have hdrop : (l.drop 18).length = 18*n := by
      rw [List.length_drop]
      omega
    obtain ⟨e,he⟩ := exists_read hle
    simp only [readEndpoints,he,List.length_cons,ih hdrop]

@[simp] theorem ofBytes_asBytes (m : Message) : ofBytes m.typ m.asBytes = some m := by
  cases m with
  | ping txId nodeKey padding => simp [typ,asBytes,ofBytes]
  | pong txId src => simp [typ,asBytes,ofBytes]
  | callMeMaybe endpoints =>
    have hlen := length_flatMap_endpoints endpoints
    simp only [typ,asBytes,ofBytes,hlen,Nat.mul_mod_right,if_true,Nat.mul_div_cancel_left _ (show 0 < 18 by decide),
      readEndpoints_flatMap]

theorem ofBytes_eq_some {t : MessageType} {b : List UInt8} {m : Message} (h : ofBytes t b = some m) :
    m.typ = t ∧ m.asBytes.length = b.length := by
  cases t with
  | ping =>
    obtain ⟨⟨txId,b1⟩,h1,h⟩ := bind_eq_some_iff.mp h
    obtain ⟨⟨nodeKey,padding⟩,h2,h⟩ := bind_eq_some_iff.mp h
    cases h
    rw [read_eq_some h1,read_eq_some h2]
    exact ⟨rfl,rfl⟩
  | pong =>
    obtain ⟨⟨txId,b1⟩,h1,h⟩ := bind_eq_some_iff.mp h
    obtain ⟨⟨src,b2⟩,h2,h⟩ := bind_eq_some_iff.mp h
    simp only [ite_none_right_eq_some,List.isEmpty_iff] at h
    obtain ⟨rfl,h⟩ := h
    cases h
    rw [read_eq_some h1,read_eq_some h2,List.append_nil]
    exact ⟨rfl,rfl⟩
  | callMeMaybe =>
    simp only [ofBytes,ite_none_right_eq_some] at h
    obtain ⟨hmod,h⟩ := h
    cases h
    have hlen : b.length = 18*(b.length/18) := by omega
    refine ⟨rfl,?_⟩
    rw [asBytes,length_flatMap_endpoints,length_readEndpoints hlen,← hlen]
  | bindUdpRelayEndpoint | bindUdpRelayEndpointChallenge | bindUdpRelayEndpointAnswer | callMeMaybeVia
  | allocateUdpRelayEndpointsRequest | allocateUdpRelayEndpointsResponse => cases h

theorem exists_ofBytes (m : Message) {b : List UInt8} (h : b.length = m.asBytes.length) :
    ∃ m', ofBytes m.typ b = some m' := by
  cases m with
  | ping txId nodeKey padding =>
    simp only [asBytes,List.length_append,List.Vector.toList_length] at h
    obtain ⟨a,ha⟩ := exists_read (show 12 ≤ b.length by omega)
    obtain ⟨a',ha'⟩ := exists_read (show 32 ≤ (b.drop 12).length by rw [List.length_drop]; omega)
    exact ⟨_,by simp only [typ,ofBytes,ha,ha',bind_eq_bind,bind_some]; rfl⟩
  | pong txId src =>
    simp only [asBytes,List.length_append,List.Vector.toList_length] at h
    obtain ⟨a,ha⟩ := exists_read (show 12 ≤ b.length by omega)
    obtain ⟨a',ha'⟩ := exists_read (show 18 ≤ (b.drop 12).length by rw [List.length_drop]; omega)
    have hend : ((b.drop 12).drop 18).isEmpty := by
      rw [List.isEmpty_iff,List.drop_drop,List.drop_eq_nil_iff]
      omega
    exact ⟨_,by simp only [typ,ofBytes,ha,ha',bind_eq_bind,bind_some,hend,if_true]; rfl⟩
  | callMeMaybe endpoints =>
    rw [asBytes,length_flatMap_endpoints] at h
    exact ⟨_,if_pos (by omega)⟩

end Message

inductive Error
  | cryptoFailed
  | wrongMagic
  | unknownVersion
  | tooShort
  deriving DecidableEq, Repr

/-- The box of the two keys. -/
class SalsaBox where
  publicKey : Bytes 32 → Bytes 32
  /-- `encrypt_in_place_detached` of the box of the receiver's public key and the sender's secret. -/
  encrypt {n : ℕ} (receiver secret : Bytes 32) (nonce : Bytes 24) (buffer : Bytes n) : Bytes n × Bytes 16
  /-- `decrypt_in_place_detached` of the box of the sender's public key and the receiver's secret. -/
  decrypt {n : ℕ} (sender secret : Bytes 32) (nonce : Bytes 24) (buffer : Bytes n) (tag : Bytes 16) :
    Option (Bytes n)

/-- A box opens what the box of the matching keys has sealed. -/
def SalsaBox.OpensSealed [SalsaBox] : Prop :=
  ∀ {n : ℕ} (sender receiver : Bytes 32) (nonce : Bytes 24) (buffer : Bytes n),
    decrypt (publicKey sender) receiver nonce (encrypt (publicKey receiver) sender nonce buffer).1
      (encrypt (publicKey receiver) sender nonce buffer).2 = some buffer

structure Header where
  magic : Bytes 6
  senderPub : Bytes 32
  nonce : Bytes 24

namespace Header

def correctMagic : Bytes 6 := ⟨[84,83,0xf0,0x9f,0x92,0xac],rfl⟩

def validate (h : Header) : Except Error Unit := if h.magic = correctMagic then .ok () else .error .wrongMagic

end Header

/-- A packet, sealed or not. -/
structure Packet where
  header : Header
  tag : Bytes 16
  payload : List UInt8

namespace Packet

def asBytes (p : Packet) : List UInt8 :=
  p.header.magic.toList ++ (p.header.senderPub.toList ++ (p.header.nonce.toList ++ (p.tag.toList ++ p.payload)))

def fromBytes (b : List UInt8) : Except Error Packet :=
  match (do
    let (magic,b) ← Bytes.read 6 b
    let (senderPub,b) ← Bytes.read 32 b
    let (nonce,b) ← Bytes.read 24 b
    let (tag,payload) ← Bytes.read 16 b
    return (⟨⟨magic,senderPub,nonce⟩,tag,payload⟩ : Packet)) with
  | some p => .ok p
  | none => .error .tooShort

/-- The payload as type, version and message. -/
def plaintext (p : Packet) : Option (UInt8 × UInt8 × List UInt8) :=
  match p.payload with
  | ty::version::message => some (ty,version,message)
  | _ => none

def plaintextVersion : UInt8 := 0

def sizeForMessage (messageSize : ℕ) : ℕ := 62 + (16 + (2 + messageSize))

def validate (p : Packet) : Except Error Unit :=
  match p.plaintext with
  | none => .error .tooShort
  | some (_,version,_) => if version ≠ plaintextVersion then .error .unknownVersion else .ok ()

/-- A closure on a message in place: it keeps the type and the size. -/
structure InitMsg where
  run : Message → Message
  typ_run : ∀ m, (run m).typ = m.typ
  size_run : ∀ m, (run m).asBytes.length = m.asBytes.length

/-- Assign a message in the place of one of its type and size. -/
def InitMsg.assign (msg : Message) : InitMsg where
  run m := if msg.typ = m.typ ∧ msg.asBytes.length = m.asBytes.length then msg else m
  typ_run m := by
    split
    · rename_i h
      exact h.1
    · rfl
  size_run m := by
    split
    · rename_i h
      exact h.2
    · rfl

/-- Neither the magic nor the other fields of the header are set. -/
def initFromBytes (typ : MessageType) (b : List UInt8) (initMsg : InitMsg) : Except Error Packet := do
  let s ← fromBytes b
  match s.plaintext with
  | none => .error .tooShort
  | some (_,_,message) =>
    match Message.ofBytes typ message with
    | none => .error .tooShort
    | some msg =>
      let s := { s with payload := typ.toByte::0::(initMsg.run msg).asBytes }
      s.validate
      return s

def asMsg (typ : MessageType) (p : Packet) : Option Message :=
  match p.plaintext with
  | none => none
  | some (ty,_,message) => if MessageType.tryFrom ty ≠ some typ then none else Message.ofBytes typ message

def fromEncryptedBytesMut (b : List UInt8) : Except Error Packet := do
  let slf ← fromBytes b
  slf.header.validate
  return slf

section
variable [SalsaBox]

def encryptInPlace (p : Packet) (secret receiver : Bytes 32) (nonce : Bytes 24) : Except Error Packet :=
  let header := { p.header with senderPub := SalsaBox.publicKey secret, nonce }
  let (payload,tag) := SalsaBox.encrypt receiver secret nonce (Bytes.ofList p.payload)
  fromBytes (Packet.asBytes ⟨header,tag,payload.toList⟩)

def decryptInPlace (p : Packet) (secret : Bytes 32) : Except Error Packet := do
  match SalsaBox.decrypt p.header.senderPub secret p.header.nonce (Bytes.ofList p.payload) p.tag with
  | none => .error .cryptoFailed
  | some payload =>
    let ret ← fromBytes (Packet.asBytes { p with payload := payload.toList })
    ret.validate
    return ret

end

theorem ok_bind {α β : Type} (a : α) (f : α → Except Error β) : (Except.ok a >>= f) = f a := rfl

@[simp] theorem fromBytes_asBytes (p : Packet) : fromBytes p.asBytes = .ok p := by
  simp [fromBytes,asBytes]

theorem exists_fromBytes {b : List UInt8} (h : 78 ≤ b.length) :
    ∃ p, fromBytes b = .ok p ∧ b = p.asBytes := by
  obtain ⟨magic,h1⟩ := Message.exists_read (show 6 ≤ b.length by omega)
  obtain ⟨senderPub,h2⟩ := Message.exists_read (show 32 ≤ (b.drop 6).length by rw [List.length_drop]; omega)
  obtain ⟨nonce,h3⟩ := Message.exists_read (show 24 ≤ ((b.drop 6).drop 32).length by
    simp only [List.length_drop]
    omega)
  obtain ⟨tag,h4⟩ := Message.exists_read (show 16 ≤ (((b.drop 6).drop 32).drop 24).length by
    simp only [List.length_drop]
    omega)
  have hb : b = asBytes ⟨⟨magic,senderPub,nonce⟩,tag,(((b.drop 6).drop 32).drop 24).drop 16⟩ := by
    rw [asBytes,← read_eq_some h4,← read_eq_some h3,← read_eq_some h2,← read_eq_some h1]
  refine ⟨⟨⟨magic,senderPub,nonce⟩,tag,(((b.drop 6).drop 32).drop 24).drop 16⟩,?_,hb⟩
  conv_lhs => rw [hb]
  exact fromBytes_asBytes _

theorem length_asBytes (p : Packet) : p.asBytes.length = 78 + p.payload.length := by
  simp only [asBytes,List.length_append,List.Vector.toList_length]
  omega

theorem take_asBytes (p : Packet) : p.asBytes.take 6 = p.header.magic.toList :=
  List.take_left' p.header.magic.toList_length

/-- The message is in the payload; the header is the one of the buffer. -/
theorem initFromBytes_assign {p : Packet} (msg : Message) (h : p.payload.length = 2 + msg.asBytes.length) :
    initFromBytes msg.typ p.asBytes (.assign msg) =
      .ok { p with payload := msg.typ.toByte::0::msg.asBytes } := by
  obtain ⟨ty,version,message,hpayload⟩ : ∃ ty version message, p.payload = ty::version::message := by
    match hp : p.payload with
    | [] | [_] =>
      rw [hp] at h
      simp at h
      omega
    | ty::version::message => exact ⟨ty,version,message,rfl⟩
  have hlen : message.length = msg.asBytes.length := by
    rw [hpayload] at h
    simp only [List.length_cons] at h
    omega
  obtain ⟨m,hm⟩ := msg.exists_ofBytes hlen
  obtain ⟨htyp,hsize⟩ := Message.ofBytes_eq_some hm
  have hrun : (InitMsg.assign msg).run m = msg := if_pos ⟨htyp.symm,by rw [hsize,hlen]⟩
  simp only [initFromBytes,fromBytes_asBytes,ok_bind,plaintext,hpayload,hm,hrun]
  rfl

theorem fromEncryptedBytesMut_asBytes (p : Packet) :
    fromEncryptedBytesMut p.asBytes =
      if p.header.magic = Header.correctMagic then .ok p else .error .wrongMagic := by
  rw [fromEncryptedBytesMut,fromBytes_asBytes,ok_bind,Header.validate]
  split <;> rfl

section
variable [SalsaBox]

/-- The way of a message: built in a buffer and sealed by the sender, read and opened by the receiver. -/
def exchange (b : List UInt8) (msg : Message) (sender receiver : Bytes 32) (nonce : Bytes 24) :
    Except Error (Option Message × Bytes 32) := do
  let packet ← initFromBytes msg.typ b (.assign msg)
  let encrypted ← packet.encryptInPlace sender (SalsaBox.publicKey receiver) nonce
  let received ← fromEncryptedBytesMut encrypted.asBytes
  let decrypted ← received.decryptInPlace receiver
  return (decrypted.asMsg msg.typ,decrypted.header.senderPub)

theorem decrypt_toList {n : ℕ} (sender secret : Bytes 32) (nonce : Bytes 24) (body : Bytes n) (tag : Bytes 16) :
    (SalsaBox.decrypt sender secret nonce (Bytes.ofList body.toList) tag).map List.Vector.toList =
      (SalsaBox.decrypt sender secret nonce body tag).map List.Vector.toList := by
  obtain ⟨l,rfl⟩ := body
  rfl

/-- What was sealed for a message is opened to it. -/
theorem decryptInPlace_encrypt (hbox : SalsaBox.OpensSealed) (magic : Bytes 6) (sender receiver : Bytes 32)
    (nonce : Bytes 24) (msg : Message) :
    let box := SalsaBox.encrypt (SalsaBox.publicKey receiver) sender nonce
      (Bytes.ofList (msg.typ.toByte::0::msg.asBytes))
    decryptInPlace ⟨⟨magic,SalsaBox.publicKey sender,nonce⟩,box.2,box.1.toList⟩ receiver =
      .ok ⟨⟨magic,SalsaBox.publicKey sender,nonce⟩,box.2,msg.typ.toByte::0::msg.asBytes⟩ := by
  intro box
  have hopen := decrypt_toList (SalsaBox.publicKey sender) receiver nonce box.1 box.2
  rw [hbox,map_some,map_eq_some_iff] at hopen
  obtain ⟨payload,hpayload,hlist⟩ := hopen
  have hbytes : payload.toList = msg.typ.toByte::0::msg.asBytes := hlist
  simp only [decryptInPlace,hpayload,hbytes,fromBytes_asBytes,ok_bind]
  rfl

theorem exchange_eq (hbox : SalsaBox.OpensSealed) {p : Packet} (msg : Message)
    (h : p.payload.length = 2 + msg.asBytes.length) (sender receiver : Bytes 32) (nonce : Bytes 24) :
    exchange p.asBytes msg sender receiver nonce =
      if p.header.magic = Header.correctMagic then .ok (some msg,SalsaBox.publicKey sender)
      else .error .wrongMagic := by
  simp only [exchange,initFromBytes_assign msg h,encryptInPlace,ok_bind,fromBytes_asBytes,
    fromEncryptedBytesMut_asBytes]
  by_cases hmagic : p.header.magic = Header.correctMagic
  · simp only [if_pos hmagic,ok_bind,decryptInPlace_encrypt hbox]
    simp [asMsg,plaintext]
    rfl
  · simp only [if_neg hmagic]
    rfl

/-- The receiver gets the message and the key of the sender iff the magic was in the buffer before. -/
theorem exchange_iff (hbox : SalsaBox.OpensSealed) (msg : Message) (b : List UInt8)
    (hb : b.length = sizeForMessage msg.asBytes.length) (sender receiver : Bytes 32) (nonce : Bytes 24) :
    exchange b msg sender receiver nonce = .ok (some msg,SalsaBox.publicKey sender) ↔
      b.take 6 = Header.correctMagic.toList := by
  rw [sizeForMessage] at hb
  obtain ⟨p,-,rfl⟩ := exists_fromBytes (show 78 ≤ b.length by omega)
  have hpayload : p.payload.length = 2 + msg.asBytes.length := by
    rw [length_asBytes] at hb
    omega
  rw [exchange_eq hbox msg hpayload,take_asBytes]
  constructor
  · intro h
    by_contra hmagic
    rw [if_neg fun heq => hmagic (congrArg _ heq)] at h
    cases h
  · intro hmagic
    rw [if_pos (List.Vector.toList_injective hmagic)]

end

/-- A box that masks with the product of the keys, and adds up a tag. -/
@[reducible] def sumBox : SalsaBox where
  publicKey a := a.map (3*·)
  encrypt receiver secret nonce buffer :=
    let mask := receiver.head*secret.head
    (buffer.map (mask ^^^ ·),List.Vector.replicate 16 (mask + (nonce.toList ++ buffer.toList).sum))
  decrypt sender secret nonce buffer tag :=
    let mask := sender.head*secret.head
    let opened := buffer.map (mask ^^^ ·)
    if tag = List.Vector.replicate 16 (mask + (nonce.toList ++ opened.toList).sum) then some opened else none

theorem sumBox_opensSealed : @SalsaBox.OpensSealed sumBox := by
  intro n sender receiver nonce buffer
  have hmask : (sender.map (3*·)).head*receiver.head = (receiver.map (3*·)).head*sender.head := by
    rw [← List.Vector.get_zero,← List.Vector.get_zero,← List.Vector.get_zero,← List.Vector.get_zero,
      List.Vector.get_map,List.Vector.get_map,UInt8.mul_assoc,UInt8.mul_assoc,UInt8.mul_comm (sender.get 0)]
  have hopened (mask : UInt8) : (buffer.map (mask ^^^ ·)).map (mask ^^^ ·) = buffer := by
    apply List.Vector.ext
    intro i
    rw [List.Vector.get_map,List.Vector.get_map,← UInt8.xor_assoc,UInt8.xor_self,UInt8.zero_xor]
  simp only [SalsaBox.decrypt,SalsaBox.encrypt,SalsaBox.publicKey,hmask,hopened,if_true]

/-- A pong, in a buffer with the magic. -/
theorem exchange_iff_pong :
    letI := sumBox
    exchange (Header.correctMagic.toList ++ List.replicate 104 0)
      (.pong (List.Vector.replicate 12 1) (List.Vector.replicate 18 2)) (List.Vector.replicate 32 3)
      (List.Vector.replicate 32 4) (List.Vector.replicate 24 5) =
      .ok (some (.pong (List.Vector.replicate 12 1) (List.Vector.replicate 18 2)),
        SalsaBox.publicKey (List.Vector.replicate 32 3)) :=
  (@exchange_iff sumBox sumBox_opensSealed _ _ rfl _ _ _).mpr rfl

/-- A packet that was built in a zeroed buffer is refused. -/
theorem zeroed_buffer_refused :
    letI := sumBox
    exchange (List.replicate 110 0) (.pong (List.Vector.replicate 12 1) (List.Vector.replicate 18 2))
      (List.Vector.replicate 32 3) (List.Vector.replicate 32 4) (List.Vector.replicate 24 5) =
      .error .wrongMagic := by
  decide +kernel

end Packet
end Tailnet.Disco

import Tailnet.Noise.Handshake

/-! The messages of the WireGuard protocol. A message is recognised by its first byte
and its length; handshake messages carry a Noise message and end with two MACs. -/
namespace Tailnet.Wireguard

abbrev Packet := List UInt8

abbrev SessionId := UInt32

abbrev Mac := Bytes 16

inductive MessageType
  | handshakeInitiation
  | handshakeResponse
  | cookieReply
  | transportData
  deriving DecidableEq

namespace MessageType

def toByte : MessageType → UInt8
  | handshakeInitiation => 1
  | handshakeResponse => 2
  | cookieReply => 3
  | transportData => 4

def ofByte (b : UInt8) : Option MessageType :=
  if b = 1 then some handshakeInitiation
  else if b = 2 then some handshakeResponse
  else if b = 3 then some cookieReply
  else if b = 4 then some transportData
  else none

@[simp] theorem ofByte_toByte (t : MessageType) : ofByte t.toByte = some t := by
  cases t <;> rfl

def read : Packet → Option (MessageType × Packet)
  | [] => none
  | b::packet => (ofByte b).map fun t => (t,packet)

@[simp] theorem read_cons (t : MessageType) (packet : Packet) :
    read (t.toByte::packet) = some (t,packet) := by
  simp [read]

end MessageType

/-- Session ids are little-endian on the wire. -/
def SessionId.toBytes (id : SessionId) : Bytes 4 := Bytes.le 4 id.toNat

def SessionId.ofBytes (b : Bytes 4) : SessionId := UInt32.ofNat (Bytes.ofLe b.toList)

@[simp] theorem SessionId.ofBytes_toBytes (id : SessionId) : ofBytes (toBytes id) = id := by
  rw [ofBytes,toBytes,Bytes.ofLe_le_of_lt id.toNat_lt,UInt32.ofNat_toNat]

structure TransportDataHeader where
  msgType : MessageType
  reserved : Bytes 3
  receiverId : SessionId
  nonce : UInt64
  deriving DecidableEq

namespace TransportDataHeader

def size : ℕ := 1 + 3 + 4 + 8

def default : TransportDataHeader := ⟨.transportData,List.Vector.replicate 3 0,0,0⟩

def toBytes (h : TransportDataHeader) : Packet :=
  h.msgType.toByte::(h.reserved.toList ++ (h.receiverId.toBytes.toList ++
    (Bytes.le 8 h.nonce.toNat).toList))

/-- The header at the front of a packet, of any message type, and what follows it. -/
def tryFromFront (packet : Packet) : Option (TransportDataHeader × Packet) := do
  let (msgType,packet) ← MessageType.read packet
  let (reserved,packet) ← Bytes.read 3 packet
  let (receiverId,packet) ← Bytes.read 4 packet
  let (nonce,packet) ← Bytes.read 8 packet
  return (⟨msgType,reserved,SessionId.ofBytes receiverId,UInt64.ofNat (Bytes.ofLe nonce.toList)⟩,
    packet)

@[simp] theorem length_toBytes (h : TransportDataHeader) : h.toBytes.length = size := by
  simp [toBytes,size]

@[simp] theorem tryFromFront_toBytes (h : TransportDataHeader) (rest : Packet) :
    tryFromFront (h.toBytes ++ rest) = some (h,rest) := by
  have hn : Bytes.ofLe (Bytes.le 8 h.nonce.toNat).toList = h.nonce.toNat :=
    Bytes.ofLe_le_of_lt h.nonce.toNat_lt
  simp [tryFromFront,toBytes,hn]

end TransportDataHeader

structure HandshakeInitiation where
  msgType : MessageType
  reserved : Bytes 3
  senderId : SessionId
  noise : Bytes (Noise.Init.size 12)
  mac1 : Mac
  mac2 : Mac
  deriving DecidableEq

structure HandshakeResponse where
  msgType : MessageType
  reserved : Bytes 3
  senderId : SessionId
  receiverId : SessionId
  noise : Bytes Noise.Resp.size
  mac1 : Mac
  mac2 : Mac
  deriving DecidableEq

structure CookieReply where
  msgType : MessageType
  reserved : Bytes 3
  receiverId : SessionId
  nonce : Bytes 24
  cookieSealed : Bytes 32
  deriving DecidableEq

namespace HandshakeInitiation

def default : HandshakeInitiation :=
  ⟨.handshakeInitiation,List.Vector.replicate 3 0,0,List.Vector.replicate _ 0,
    List.Vector.replicate 16 0,List.Vector.replicate 16 0⟩

def toBytes (m : HandshakeInitiation) : Packet :=
  m.msgType.toByte::(m.reserved.toList ++ (m.senderId.toBytes.toList ++ (m.noise.toList ++
    (m.mac1.toList ++ m.mac2.toList))))

def tryFromBytes (packet : Packet) : Option HandshakeInitiation := do
  let (msgType,packet) ← MessageType.read packet
  let (reserved,packet) ← Bytes.read 3 packet
  let (senderId,packet) ← Bytes.read 4 packet
  let (noise,packet) ← Bytes.read (Noise.Init.size 12) packet
  let (mac1,packet) ← Bytes.read 16 packet
  let (mac2,packet) ← Bytes.read 16 packet
  if packet = [] then some ⟨msgType,reserved,SessionId.ofBytes senderId,noise,mac1,mac2⟩ else none

@[simp] theorem tryFromBytes_toBytes (m : HandshakeInitiation) :
    tryFromBytes m.toBytes = some m := by
  simp [tryFromBytes,toBytes]

end HandshakeInitiation

namespace HandshakeResponse

def default : HandshakeResponse :=
  ⟨.handshakeResponse,List.Vector.replicate 3 0,0,0,List.Vector.replicate _ 0,
    List.Vector.replicate 16 0,List.Vector.replicate 16 0⟩

def toBytes (m : HandshakeResponse) : Packet :=
  m.msgType.toByte::(m.reserved.toList ++ (m.senderId.toBytes.toList ++
    (m.receiverId.toBytes.toList ++ (m.noise.toList ++ (m.mac1.toList ++ m.mac2.toList)))))

def tryFromBytes (packet : Packet) : Option HandshakeResponse := do
  let (msgType,packet) ← MessageType.read packet
  let (reserved,packet) ← Bytes.read 3 packet
  let (senderId,packet) ← Bytes.read 4 packet
  let (receiverId,packet) ← Bytes.read 4 packet
  let (noise,packet) ← Bytes.read Noise.Resp.size packet
  let (mac1,packet) ← Bytes.read 16 packet
  let (mac2,packet) ← Bytes.read 16 packet
  if packet = [] then
    some ⟨msgType,reserved,SessionId.ofBytes senderId,SessionId.ofBytes receiverId,noise,mac1,mac2⟩
  else none

@[simp] theorem tryFromBytes_toBytes (m : HandshakeResponse) : tryFromBytes m.toBytes = some m := by
  simp [tryFromBytes,toBytes]

end HandshakeResponse

namespace CookieReply

def tryFromBytes (packet : Packet) : Option CookieReply := do
  let (msgType,packet) ← MessageType.read packet
  let (reserved,packet) ← Bytes.read 3 packet
  let (receiverId,packet) ← Bytes.read 4 packet
  let (nonce,packet) ← Bytes.read 24 packet
  let (cookieSealed,packet) ← Bytes.read 32 packet
  if packet = [] then some ⟨msgType,reserved,SessionId.ofBytes receiverId,nonce,cookieSealed⟩
  else none

end CookieReply

inductive Message
  | handshakeInitiation (m : HandshakeInitiation)
  | handshakeResponse (m : HandshakeResponse)
  | transportData (m : TransportDataHeader)
  | cookieReply (m : CookieReply)
  deriving DecidableEq

namespace Message

def tryFrom (raw : Packet) : Option Message := do
  let (msgType,_) ← MessageType.read raw
  match msgType with
  | .handshakeInitiation => (HandshakeInitiation.tryFromBytes raw).map handshakeInitiation
  | .handshakeResponse => (HandshakeResponse.tryFromBytes raw).map handshakeResponse
  | .transportData => (TransportDataHeader.tryFromFront raw).map fun m => transportData m.1
  | .cookieReply => (CookieReply.tryFromBytes raw).map cookieReply

def receiverId : Message → Option SessionId
  | handshakeInitiation _ => none
  | handshakeResponse m => some m.receiverId
  | transportData m => some m.receiverId
  | cookieReply m => some m.receiverId

theorem tryFrom_transportData {raw : Packet} {header : TransportDataHeader}
    (h : tryFrom raw = some (transportData header)) :
    ∃ rest, TransportDataHeader.tryFromFront raw = some (header,rest) := by
  obtain ⟨⟨msgType,_⟩,_,h⟩ := Option.bind_eq_some_iff.mp h
  cases msgType with
  | transportData =>
    obtain ⟨⟨m,rest⟩,hm,heq⟩ := Option.map_eq_some_iff.mp h
    cases heq
    exact ⟨rest,hm⟩
  | handshakeInitiation =>
    obtain ⟨_,_,heq⟩ := Option.map_eq_some_iff.mp h
    cases heq
  | handshakeResponse =>
    obtain ⟨_,_,heq⟩ := Option.map_eq_some_iff.mp h
    cases heq
  | cookieReply =>
    obtain ⟨_,_,heq⟩ := Option.map_eq_some_iff.mp h
    cases heq

end Message
end Tailnet.Wireguard

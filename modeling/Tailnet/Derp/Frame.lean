import Tailnet.Lib.Bytes
import Tailnet.Lib.Framing

/-! Frames of the DERP protocol: a type, a length of four bytes, a body of the type's layout and, for
some types, a payload after it. The codec writes the parts one after the other and reads them back as
one body. -/
namespace Tailnet.Derp
open Nat

inductive FrameType
  | serverKey
  | clientInfo
  | serverInfo
  | sendPacket
  | forwardPacket
  | recvPacket
  | keepAlive
  | notePreferred
  | peerGone
  | peerPresent
  | watchConns
  | closePeer
  | ping
  | pong
  | health
  | restarting
  deriving DecidableEq, Repr

namespace FrameType

def toByte : FrameType → UInt8
  | serverKey => 0x01
  | clientInfo => 0x02
  | serverInfo => 0x03
  | sendPacket => 0x04
  | forwardPacket => 0x0a
  | recvPacket => 0x05
  | keepAlive => 0x06
  | notePreferred => 0x07
  | peerGone => 0x08
  | peerPresent => 0x09
  | watchConns => 0x10
  | closePeer => 0x11
  | ping => 0x12
  | pong => 0x13
  | health => 0x14
  | restarting => 0x15

/-- The size of the body of the type, without a payload. -/
def bodySize : FrameType → ℕ
  | serverKey => 8 + 32
  | clientInfo => 32 + 24
  | serverInfo => 24
  | sendPacket => 32
  | forwardPacket => 32 + 32
  | recvPacket => 32
  | keepAlive => 0
  | notePreferred => 1
  | peerGone => 32 + 1
  | peerPresent => 32 + 16 + 2
  | watchConns => 0
  | closePeer => 32
  | ping => 8
  | pong => 8
  | health => 0
  | restarting => 4 + 4

end FrameType

inductive FrameError
  | invalidPacketLength (len : ℕ)
  | invalidFrameHeader
  | invalidFrameType (v : UInt8)
  | invalidPeerGoneReason (v : UInt8)
  | incompleteFrame
  deriving DecidableEq, Repr

def FrameType.tryFrom (v : UInt8) : Except FrameError FrameType :=
  match v with
  | 0x01 => .ok .serverKey
  | 0x02 => .ok .clientInfo
  | 0x03 => .ok .serverInfo
  | 0x04 => .ok .sendPacket
  | 0x0a => .ok .forwardPacket
  | 0x05 => .ok .recvPacket
  | 0x06 => .ok .keepAlive
  | 0x07 => .ok .notePreferred
  | 0x08 => .ok .peerGone
  | 0x09 => .ok .peerPresent
  | 0x10 => .ok .watchConns
  | 0x11 => .ok .closePeer
  | 0x12 => .ok .ping
  | 0x13 => .ok .pong
  | 0x14 => .ok .health
  | 0x15 => .ok .restarting
  | _ => .error (.invalidFrameType v)

@[simp] theorem FrameType.tryFrom_toByte (t : FrameType) : tryFrom t.toByte = .ok t := by
  cases t <;> rfl

theorem FrameType.tryFrom_eq_error {v : UInt8} {e : FrameError} (h : tryFrom v = .error e) :
    e = .invalidFrameType v := by
  unfold tryFrom at h
  split at h <;> cases h
  rfl

def maxPacketSize : ℕ := 64 * 2^10

structure RawHeader where
  typ : UInt8
  len : ℕ
  deriving DecidableEq, Repr

/-- A header. Its length is checked wherever one is made. -/
structure Header where
  typ : FrameType
  len : ℕ
  len_le : len ≤ maxPacketSize
  deriving DecidableEq, Repr

namespace RawHeader

def size : ℕ := 5

def asBytes (h : RawHeader) : List UInt8 := h.typ::(Bytes.be 4 h.len).toList

def refFromPrefix : List UInt8 → Option (RawHeader × List UInt8)
  | t::b₃::b₂::b₁::b₀::rest => some (⟨t,Bytes.ofBe [b₃,b₂,b₁,b₀]⟩,rest)
  | _ => none

def ofHeader (h : Header) : RawHeader := ⟨h.typ.toByte,h.len⟩

theorem refFromPrefix_asBytes {h : RawHeader} (hlen : h.len < 2^32) (rest : List UInt8) :
    refFromPrefix (h.asBytes ++ rest) = some (h,rest) := by
  have hbe : Bytes.ofBe (Bytes.be 4 h.len).toList = h.len := Bytes.ofBe_be_of_lt (by omega)
  have hlist : ∃ b₃ b₂ b₁ b₀, (Bytes.be 4 h.len).toList = [b₃,b₂,b₁,b₀] := by
    have hlength := List.Vector.toList_length (Bytes.be 4 h.len)
    match (Bytes.be 4 h.len).toList,hlength with
    | [b₃,b₂,b₁,b₀],_ => exact ⟨b₃,b₂,b₁,b₀,rfl⟩
  obtain ⟨b₃,b₂,b₁,b₀,hb⟩ := hlist
  rw [hb] at hbe
  simp [asBytes,hb,refFromPrefix,hbe]

theorem refFromPrefix_append {src rest : List UInt8} {h : RawHeader}
    (hread : refFromPrefix src = some (h,rest)) (q : List UInt8) :
    refFromPrefix (src ++ q) = some (h,rest ++ q) := by
  match src with
  | [] | [_] | [_,_] | [_,_,_] | [_,_,_,_] => cases hread
  | _::_::_::_::_::_ =>
    cases hread
    rfl

theorem refFromPrefix_eq_none {src : List UInt8} : refFromPrefix src = none ↔ src.length < size := by
  match src with
  | [] | [_] | [_,_] | [_,_,_] | [_,_,_,_] => simp [refFromPrefix,size]
  | _::_::_::_::_::_ => simp [refFromPrefix,size]

theorem eq_drop_of_refFromPrefix {src rest : List UInt8} {h : RawHeader}
    (hread : refFromPrefix src = some (h,rest)) : rest = src.drop size ∧ src.length = size + rest.length := by
  match src with
  | [] | [_] | [_,_] | [_,_,_] | [_,_,_,_] => cases hread
  | _::_::_::_::_::l =>
    cases hread
    simp [size]
    omega

end RawHeader

namespace Header

def new (typ : FrameType) (len : ℕ) : Except FrameError Header :=
  if h : maxPacketSize < len then .error (.invalidPacketLength len) else .ok ⟨typ,len,not_lt.mp h⟩

/-- The length is checked before the type. -/
def tryFrom (raw : RawHeader) : Except FrameError Header :=
  if h : maxPacketSize < raw.len then .error (.invalidPacketLength raw.len)
  else do
    let typ ← FrameType.tryFrom raw.typ
    return ⟨typ,raw.len,not_lt.mp h⟩

@[simp] theorem tryFrom_ofHeader (h : Header) : tryFrom (.ofHeader h) = .ok h := by
  have hle : ¬ maxPacketSize < h.len := not_lt.mpr h.len_le
  simp [tryFrom,hle,RawHeader.ofHeader,bind,Except.bind,pure,Except.pure]

theorem tryFrom_eq_error {raw : RawHeader} {e : FrameError} (h : tryFrom raw = .error e) :
    e = .invalidPacketLength raw.len ∨ e = .invalidFrameType raw.typ := by
  rw [tryFrom] at h
  split at h
  · cases h
    exact .inl rfl
  · cases htyp : FrameType.tryFrom raw.typ with
    | error e' =>
      rw [htyp] at h
      cases h
      exact .inr (FrameType.tryFrom_eq_error htyp)
    | ok typ =>
      rw [htyp] at h
      cases h

theorem len_of_tryFrom {raw : RawHeader} {h : Header} (hh : tryFrom raw = .ok h) : h.len = raw.len := by
  rw [tryFrom] at hh
  split at hh
  · cases hh
  · cases htyp : FrameType.tryFrom raw.typ with
    | error e =>
      rw [htyp] at hh
      cases hh
    | ok typ =>
      rw [htyp] at hh
      cases hh
      rfl

end Header

/-- A value of the body type of a frame type, by its bytes. -/
structure Body where
  typ : FrameType
  bytes : Bytes typ.bodySize

/-- A frame; one that was parsed has its payload in its body. -/
structure RawFrame where
  header : Header
  rawBody : List UInt8
  deriving DecidableEq, Repr

namespace RawFrame

def parse (b : List UInt8) : Except FrameError (RawFrame × List UInt8) :=
  match RawHeader.refFromPrefix b with
  | none => .error .invalidFrameHeader
  | some (raw,rest) => do
    let header ← Header.tryFrom raw
    if header.len ≤ rest.length then .ok (⟨header,rest.take header.len⟩,rest.drop header.len)
    else .error .incompleteFrame

section
variable {b rest : List UInt8} {raw : RawHeader}

theorem parse_of_header {header : Header} (hread : RawHeader.refFromPrefix b = some (raw,rest))
    (hheader : Header.tryFrom raw = .ok header) :
    parse b = if header.len ≤ rest.length then .ok (⟨header,rest.take header.len⟩,rest.drop header.len)
      else .error .incompleteFrame := by
  simp only [parse,hread,hheader]
  rfl

theorem parse_of_error {e : FrameError} (hread : RawHeader.refFromPrefix b = some (raw,rest))
    (hheader : Header.tryFrom raw = .error e) : parse b = .error e := by
  simp only [parse,hread,hheader]
  rfl

end

/-- The body as a value of the type, and the payload after it. -/
def asType (typ : FrameType) (frame : RawFrame) : Option (Bytes typ.bodySize × List UInt8) :=
  if frame.header.typ ≠ typ then none else Bytes.read typ.bodySize frame.rawBody

/-- The length is a `usize`, and is cut to four bytes. -/
def fromBody (t : Body) (payloadLen : ℕ) : Result (Except FrameError RawFrame) :=
  if 2^64 ≤ t.bytes.toList.length + payloadLen then .error .overflow
  else .ok do
    let header ← Header.new t.typ ((t.bytes.toList.length + payloadLen)%2^32)
    return ⟨header,t.bytes.toList⟩

theorem fromBody_eq {t : Body} {n : ℕ} (h : t.typ.bodySize + n < 2^64) :
    fromBody t n = .ok (if hlen : (t.typ.bodySize + n)%2^32 ≤ maxPacketSize then
      .ok ⟨⟨t.typ,(t.typ.bodySize + n)%2^32,hlen⟩,t.bytes.toList⟩
      else .error (.invalidPacketLength ((t.typ.bodySize + n)%2^32))) := by
  rw [fromBody,List.Vector.toList_length,if_neg (not_le.mpr h),Header.new]
  split
  · rename_i hlen
    rw [dif_neg (not_le.mpr hlen)]
    rfl
  · rename_i hlen
    rw [dif_pos (not_lt.mp hlen)]
    rfl

theorem fromBody_overflow {t : Body} {n : ℕ} (h : 2^64 ≤ t.typ.bodySize + n) :
    fromBody t n = .error .overflow := by
  rw [fromBody,List.Vector.toList_length,if_pos h]

theorem fromBody_eq_ok {t : Body} {n : ℕ} {frame : RawFrame} (h : fromBody t n = .ok (.ok frame)) :
    frame.rawBody = t.bytes.toList ∧ frame.header.typ = t.typ ∧
      frame.header.len = (t.bytes.toList.length + n)%2^32 := by
  rw [fromBody,Header.new] at h
  split at h
  · cases h
  · split at h
    · cases h
    · cases h
      exact ⟨rfl,rfl,rfl⟩

end RawFrame

inductive IoError
  | other (text : String)
  | frame (e : FrameError)
  | unexpectedEof (text : String)
  /-- an error of the connection -/
  | connection
  deriving DecidableEq, Repr

namespace Codec

def encode (item : RawFrame × List UInt8) (dst : List UInt8) : Result (Except IoError Unit × List UInt8) := do
  let header := RawHeader.ofHeader item.1.header
  Result.assert (header.len = item.1.rawBody.length + item.2.length)
  return (.ok (),dst ++ header.asBytes ++ item.1.rawBody ++ item.2)

def decode : Framing.Decode Unit UInt8 RawFrame IoError := fun _ src =>
  if src.length < RawHeader.size then .ok (.ok none,(),src)
  else
    match RawHeader.refFromPrefix src with
    | none => .ok (.error (.other "invalid raw header"),(),src)
    | some (raw,rest) =>
      match Header.tryFrom raw with
      | .error e => .ok (.error (.frame e),(),src)
      | .ok header => do
        let headerLen ← Result.sub src.length rest.length
        if src.length < headerLen + header.len then return (.ok none,(),src)
        else
          let src := src.drop headerLen
          return (.ok (some ⟨header,src.take header.len⟩),(),src.drop header.len)

end Codec
end Tailnet.Derp

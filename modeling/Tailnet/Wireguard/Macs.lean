import Tailnet.Wireguard.Clock

/-! The MACs that end handshake messages. The first is keyed by the public key of the
receiver, the second by a cookie that the receiver handed out. -/
namespace Tailnet.Wireguard
open NoisePrimitives

abbrev NodePublicKey := Bytes 32

/-- The primitives of the MACs. -/
class MacPrimitives extends NoisePrimitives where
  /-- BLAKE2s with a key and 16 bytes of output. -/
  keyedMac : List UInt8 → List UInt8 → Mac
  /-- XChaCha20Poly1305 on a cookie. -/
  openCookie (key : Bytes 32) (nonce : Bytes 24) (ad : Mac) (cookieSealed : Bytes 32) :
    Option (Bytes 16)
open MacPrimitives

structure Mac2Cookie where
  key : Bytes 16
  expiry : Instant
  deriving DecidableEq

structure MACSender where
  mac1Key : Bytes 32
  mac2Key : Bytes 32
  cookie : Option Mac2Cookie
  deriving DecidableEq

structure MACReceiver where
  mac1Key : Bytes 32
  deriving DecidableEq

/-- A packet without its MACs, and the MACs in its final 32 bytes. -/
def macTrailer (pkt : Packet) : Option (Packet × Mac × Mac) := do
  let data := pkt.take (pkt.length - 32)
  let (mac1,rest) ← Bytes.read 16 (pkt.drop (pkt.length - 32))
  let (mac2,_) ← Bytes.read 16 rest
  return (data,mac1,mac2)

theorem macTrailer_append (data : Packet) (mac1 mac2 : Mac) :
    macTrailer (data ++ mac1.toList ++ mac2.toList) = some (data,mac1,mac2) := by
  have hlen : (data ++ mac1.toList ++ mac2.toList).length - 32 = data.length := by simp
  rw [macTrailer,hlen,List.append_assoc,List.take_left,List.drop_left,Bytes.read_append]
  simp

def zeroMac : Mac := List.Vector.replicate 16 0

section
variable [MacPrimitives]

def mac1Key (key : NodePublicKey) : Bytes 32 := digest (Bytes.ascii "mac1----" ++ key.toList)

def mac2Key (key : NodePublicKey) : Bytes 32 := digest (Bytes.ascii "cookie--" ++ key.toList)

namespace MACSender

def new (peerKey : NodePublicKey) : MACSender := ⟨Wireguard.mac1Key peerKey,Wireguard.mac2Key peerKey,none⟩

/-- The second MAC: with a cookie that has not expired, a MAC under it. -/
def mac2 (s : MACSender) (now : Instant) (data : Packet) : Mac :=
  match s.cookie with
  | some cookie => if cookie.expiry > now then keyedMac cookie.key.toList data else zeroMac
  | none => zeroMac

/-- Packet MACs in the final 32 bytes of `pkt`, at an instant. -/
def writeMacsAt (s : MACSender) (now : Instant) (pkt : Packet) : Result (Mac × Packet) := do
  let (data,_) ← Result.unwrap (macTrailer pkt)
  let mac1 := keyedMac s.mac1Key.toList data
  let data := data ++ mac1.toList
  return (mac1,data ++ (s.mac2 now data).toList)

/-- The clock is read only if there is a cookie. -/
def cookieNow (s : MACSender) : Prog Env Instant := if s.cookie.isSome then Env.now else pure 0

/-- Write packet MACs to the final 32 bytes of `pkt`, and return the first. -/
def writeMacs (s : MACSender) (pkt : Packet) : Prog Env (Mac × Packet) := do
  let now ← s.cookieNow
  Prog.lift (s.writeMacsAt now pkt)

def receiveCookie (s : MACSender) (cookie : CookieReply) (handshakeMac : Mac) :
    Prog Env MACSender :=
  match openCookie s.mac2Key cookie.nonce handshakeMac cookie.cookieSealed with
  | none => pure s
  | some key => do
    return { s with cookie := some ⟨key,(← Env.now) + Instant.ofSecs 120⟩ }

/-- Without a cookie the second MAC is zero. -/
theorem writeMacs_ok {s : MACSender} {pkt packet : Packet} {mac : Mac} {env env' : Env}
    (h : s.writeMacs pkt env = .ok ((mac,packet),env')) :
    ∃ data mac2, macTrailer packet = some (data,keyedMac s.mac1Key.toList data,mac2) ∧
      (s.cookie = none → mac2 = zeroMac) := by
  obtain ⟨now,_,_,h⟩ := Prog.bind_eq_ok.mp h
  obtain ⟨h,_⟩ := Prog.lift_eq_ok.mp h
  obtain ⟨⟨data,_,_⟩,_,h⟩ := Result.bind_eq_ok.mp h
  cases h
  exact ⟨data,_,macTrailer_append data _ _,fun hnone => by simp [MACSender.mac2,hnone]⟩

theorem receiveCookie_ok {s s' : MACSender} {reply : CookieReply} {mac : Mac} {env env' : Env}
    (h : s.receiveCookie reply mac env = .ok (s',env')) :
    s' = s ∨ ∃ key expiry, openCookie s.mac2Key reply.nonce mac reply.cookieSealed = some key ∧
      s' = { s with cookie := some ⟨key,expiry⟩ } := by
  rw [receiveCookie] at h
  cases hopen : openCookie s.mac2Key reply.nonce mac reply.cookieSealed with
  | none =>
    rw [hopen] at h
    cases h
    exact .inl rfl
  | some key =>
    rw [hopen] at h
    cases h
    exact .inr ⟨key,_,rfl,rfl⟩

end MACSender

namespace MACReceiver

def new (myKey : NodePublicKey) : MACReceiver := ⟨Wireguard.mac1Key myKey⟩

def verifyMacs (r : MACReceiver) (pkt : Packet) : Bool :=
  match macTrailer pkt with
  | none => false
  | some (data,mac1,mac2) => keyedMac r.mac1Key.toList data = mac1 && mac2 = zeroMac

theorem verifyMacs_of_trailer {key : NodePublicKey} {pkt data : Packet}
    (h : macTrailer pkt = some (data,keyedMac (Wireguard.mac1Key key).toList data,zeroMac)) :
    (new key).verifyMacs pkt = true := by
  unfold verifyMacs
  rw [h]
  change (decide _ && decide _) = true
  rw [Bool.and_eq_true]
  exact ⟨decide_eq_true rfl,decide_eq_true rfl⟩

end MACReceiver
end

/-- Concrete primitives: sums of bytes as MACs, and cookies that are masked with the key and
end with such a MAC. -/
@[reducible] def sumMacs : MacPrimitives where
  toNoisePrimitives := Noise.sumPrimitives
  keyedMac key data := List.Vector.replicate 16 (key ++ data).sum
  openCookie key nonce ad cookieSealed :=
    let cookie : Bytes 16 := ⟨cookieSealed.toList.take 16,by simp⟩
    if cookieSealed.toList.drop 16 = List.replicate 16
        (key.toList ++ nonce.toList ++ ad.toList ++ cookie.toList).sum then
      some (cookie.map (key.head ^^^ ·))
    else none

end Tailnet.Wireguard

import Tailnet.Lib.Prog
import Tailnet.Wireguard.Session

/-! What an endpoint draws from outside: instants, the system clock, random numbers and
the order in which a hash map is iterated. Handshake timestamps are TAI64N values, of
which the low bits are masked. -/
namespace Tailnet.Wireguard

structure TAI64N where
  secs : UInt64
  nanos : UInt32
  deriving DecidableEq

namespace TAI64N

/-- The seconds value of the Unix epoch. -/
def taiBase : UInt64 := 0x400000000000000a

def whitenMask : UInt32 := ~~~0xFFFFFF

def whitenIncrement : UInt32 := ~~~whitenMask + 1

/-- Seconds first, then nanoseconds. -/
def lt (a b : TAI64N) : Bool := a.secs < b.secs || (a.secs = b.secs && a.nanos < b.nanos)

/-- Two big-endian numbers. -/
def toBytes (t : TAI64N) : Bytes 12 := (Bytes.be 8 t.secs.toNat).append (Bytes.be 4 t.nanos.toNat)

def ofBytes (b : Bytes 12) : TAI64N :=
  ⟨.ofNat (Bytes.ofBe (b.toList.take 8)),.ofNat (Bytes.ofBe (b.toList.drop 8))⟩

/-- Checked arithmetic on seconds. -/
def checkedSecs (secs : ℤ) : Result UInt64 :=
  if 0 ≤ secs ∧ secs < 2^64 then .ok (.ofNat secs.toNat) else .error .overflow

/-- One second more, if the nanoseconds overflowed. -/
def carrySecs (carry : Bool) (secs : UInt64) : Result UInt64 :=
  if carry then checkedSecs (secs.toNat + 1) else .ok secs

/-- A later timestamp than `min` is returned; otherwise one very shortly after `min`. -/
def clampAfter (t min : TAI64N) : Result TAI64N :=
  if min.lt t then .ok t
  else do
    let nanos := min.nanos + whitenIncrement
    let carry := decide (2^32 ≤ min.nanos.toNat + whitenIncrement.toNat)
    let secs ← carrySecs carry min.secs
    return ⟨secs,nanos &&& whitenMask⟩

/-- A system time, in nanoseconds from the Unix epoch. -/
abbrev SystemTime := ℤ

def ofSystemTime (v : SystemTime) : Result TAI64N :=
  if v < 0 then do
    let now := (-v).toNat
    let (secs,nanos) :=
      if now%10^9 = 0 then (now/10^9,0) else ((now/10^9 + 1 : ℕ),10^9 - now%10^9)
    let secs ← checkedSecs (taiBase.toNat - secs)
    return ⟨secs,.ofNat nanos &&& whitenMask⟩
  else do
    let now := v.toNat
    let secs ← checkedSecs (taiBase.toNat + now/10^9)
    return ⟨secs,.ofNat (now%10^9) &&& whitenMask⟩

end TAI64N

/-- A clock that produces monotonic timestamps. -/
structure TAI64NClock where
  last : TAI64N
  deriving DecidableEq

/-- What is still to be drawn. -/
structure Env where
  instants : Stream' Instant
  systemTimes : Stream' TAI64N.SystemTime
  sessionIds : Stream' SessionId
  ephemerals : Stream' (Bytes 32)
  /-- a rank for each key of a hash map, by which it is iterated -/
  orders : Stream' (SessionId → ℕ)
  /-- how often a loop may run -/
  fuel : ℕ

namespace Env

def now : Prog Env Instant := fun env =>
  .ok (env.instants.head,{ env with instants := env.instants.tail })

def systemTime : Prog Env TAI64N.SystemTime := fun env =>
  .ok (env.systemTimes.head,{ env with systemTimes := env.systemTimes.tail })

def sessionId : Prog Env SessionId := fun env =>
  .ok (env.sessionIds.head,{ env with sessionIds := env.sessionIds.tail })

def ephemeral [NoisePrimitives] : Prog Env Noise.X25519KeyPair := fun env =>
  .ok (.ofSecret env.ephemerals.head,{ env with ephemerals := env.ephemerals.tail })

def order : Prog Env (SessionId → ℕ) := fun env =>
  .ok (env.orders.head,{ env with orders := env.orders.tail })

end Env

namespace TAI64NClock

def new : TAI64NClock := ⟨⟨0,0⟩⟩

def now (clock : TAI64NClock) : Prog Env (TAI64N × TAI64NClock) := do
  let t ← Prog.lift (TAI64N.ofSystemTime (← Env.systemTime))
  let last ← Prog.lift (t.clampAfter clock.last)
  return (last,⟨last⟩)

end TAI64NClock
end Tailnet.Wireguard

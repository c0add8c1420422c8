import Tailnet.Lib.Result

/-! Socket addresses at the C boundary. A `sockaddr` is a family and a union of two payloads;
the conversions to and from it delegate to each other. -/
namespace Tailnet.Ffi

/-- Socket addresses, with the octets of an IPv4 address and the segments of an IPv6 address. -/
inductive SocketAddr
  | v4 (ip : Vector UInt8 4) (port : UInt16)
  | v6 (ip : Vector UInt16 8) (port : UInt16) (flowinfo scopeId : UInt32)
  deriving DecidableEq

namespace SocketAddr

def port : SocketAddr → UInt16
  | v4 _ port => port
  | v6 _ port _ _ => port

def withPort (a : SocketAddr) (port : UInt16) : SocketAddr :=
  match a with
  | v4 ip _ => v4 ip port
  | v6 ip _ flowinfo scopeId => v6 ip port flowinfo scopeId

/-- An IPv6 address has its flow info for a scope id. -/
def ScopeIsFlow : SocketAddr → Prop
  | v4 _ _ => True
  | v6 _ _ flowinfo scopeId => scopeId = flowinfo

end SocketAddr

def afInet : UInt16 := 2
def afInet6 : UInt16 := 23

structure SockaddrIn where
  sinPort : UInt16
  sinAddr : Vector UInt8 4

structure SockaddrIn6 where
  sin6Port : UInt16
  sin6Flowinfo : UInt32
  sin6Addr : Vector UInt16 8
  sin6ScopeId : UInt32

/-- The union, by what is read through each of its fields. -/
structure SockaddrData where
  sockaddrIn : SockaddrIn
  sockaddrIn6 : SockaddrIn6

structure Sockaddr where
  saFamily : UInt16
  saData : SockaddrData

namespace Sockaddr

def ofSockaddrIn (sin : SockaddrIn) : SocketAddr := .v4 sin.sinAddr sin.sinPort

/-- The flow info is passed for the scope id, too. -/
def ofSockaddrIn6 (sin6 : SockaddrIn6) : SocketAddr :=
  .v6 sin6.sin6Addr sin6.sin6Port sin6.sin6Flowinfo sin6.sin6Flowinfo

/-- `TryFrom<&sockaddr>` -/
def tryFromRef (s : Sockaddr) : Option SocketAddr :=
  if s.saFamily = afInet then some (ofSockaddrIn s.saData.sockaddrIn)
  else if s.saFamily = afInet6 then some (ofSockaddrIn6 s.saData.sockaddrIn6)
  else none

/-- `TryFrom<sockaddr>`, with a bound on the depth of calls: its body converts by value, which
is a call of itself. -/
def tryFrom : ℕ → Sockaddr → Option (Option SocketAddr)
  | 0,_ => none
  | depth+1,s => tryFrom depth s

/-- `From<SocketAddr>`. The memory of the union that is not written holds anything. -/
def ofSocketAddr (memory : SockaddrData) : SocketAddr → Sockaddr
  | .v4 ip port => ⟨afInet,{ memory with sockaddrIn := ⟨port,ip⟩ }⟩
  | .v6 ip port flowinfo scopeId =>
    ⟨afInet6,{ memory with sockaddrIn6 := ⟨port,flowinfo,ip,scopeId⟩ }⟩

/-- `ts_sockaddr_set_port`. The block around the read of the union makes a copy of the payload,
and the port of the copy is set. -/
def setPort (addr : Sockaddr) (port : UInt16) : ℤ × Sockaddr :=
  if addr.saFamily = afInet then
    let _copy := { addr.saData.sockaddrIn with sinPort := port }
    (0,addr)
  else if addr.saFamily = afInet6 then
    let _copy := { addr.saData.sockaddrIn6 with sin6Port := port }
    (0,addr)
  else (-1,addr)

/-- The conversion by value terminates with a result. -/
def Returns (s : Sockaddr) (result : Option SocketAddr) : Prop := ∃ depth, tryFrom depth s = some result

variable (memory : SockaddrData) (a : SocketAddr) (port : UInt16)

theorem not_returns (s : Sockaddr) (result : Option SocketAddr) : ¬ Returns s result := by
  rintro ⟨depth,h⟩
  induction depth with
  | zero => cases h
  | succ depth ih => exact ih h

theorem setPort_ofSocketAddr :
    setPort (ofSocketAddr memory a) port = (0,ofSocketAddr memory a) := by
  cases a <;> rfl

theorem tryFromRef_ofSocketAddr :
    tryFromRef (ofSocketAddr memory a) = some (a.withPort port) ↔
      a.ScopeIsFlow ∧ port = a.port := by
  cases a with
  | v4 ip p =>
    have hread : tryFromRef (ofSocketAddr memory (.v4 ip p)) = some (.v4 ip p) := rfl
    simp [hread,SocketAddr.withPort,SocketAddr.ScopeIsFlow,SocketAddr.port,eq_comm]
  | v6 ip p flowinfo scopeId =>
    have hread : tryFromRef (ofSocketAddr memory (.v6 ip p flowinfo scopeId)) =
        some (.v6 ip p flowinfo flowinfo) := rfl
    simp [hread,SocketAddr.withPort,SocketAddr.ScopeIsFlow,SocketAddr.port,eq_comm,and_comm]

/-- The conversion by value never returns. The conversion by reference gives an address back
exactly if it is IPv4 or has its flow info for a scope id; and a port is set, always with
success, exactly if it is there already. -/
theorem socket_address_conversions :
    ¬ Returns (ofSocketAddr memory a) (some a) ∧
    (tryFromRef (ofSocketAddr memory a) = some a ↔ a.ScopeIsFlow) ∧
    (setPort (ofSocketAddr memory a) port).1 = 0 ∧
    (tryFromRef (setPort (ofSocketAddr memory a) port).2 = some (a.withPort port) ↔
      a.ScopeIsFlow ∧ port = a.port) := by
  have hself : a.withPort a.port = a := by cases a <;> rfl
  have href := tryFromRef_ofSocketAddr memory a a.port
  rw [hself,and_iff_left rfl] at href
  rw [setPort_ofSocketAddr]
  exact ⟨not_returns _ _,href,rfl,tryFromRef_ofSocketAddr memory a port⟩

/-- The scope id of a link-local address is lost, the port of a loopback address stays, and the
conversion by value of either does not return. -/
theorem sockaddr_loses_scope_and_port :
    let memory : SockaddrData := ⟨⟨0,.replicate 4 0⟩,⟨0,0,.replicate 8 0,0⟩⟩
    let a : SocketAddr := .v6 #v[0xfe80,0,0,0,0,0,0,1] 80 0 3
    let b : SocketAddr := .v4 #v[127,0,0,1] 80
    tryFromRef (ofSocketAddr memory a) ≠ some a ∧
    tryFromRef (setPort (ofSocketAddr memory b) 443).2 ≠ some (b.withPort 443) ∧
    ¬ Returns (ofSocketAddr memory a) (some a) ∧ ¬ Returns (ofSocketAddr memory b) (some b) := by
  exact ⟨by decide,by decide,not_returns _ _,not_returns _ _⟩

end Sockaddr
end Tailnet.Ffi

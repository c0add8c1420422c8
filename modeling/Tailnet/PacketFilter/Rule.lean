import Tailnet.Lib.OrdMap
import Tailnet.Net
import Tailnet.PacketFilter.PortPrefix

/-! Rules of the packet filter and the map of named rulesets that is filtered by trying every rule. Names of
rulesets and capabilities enter by their order only. -/
namespace Tailnet.PacketFilter

structure DstMatch where
  ports : PortRange
  ips : List IpNet
  deriving DecidableEq

structure SrcMatch (Cap : Type) where
  pfxs : List IpNet
  caps : List Cap

structure Rule (Cap : Type) where
  src : SrcMatch Cap
  protos : List ℤ
  dst : List DstMatch

structure PacketInfo where
  src : IpAddr
  dst : IpAddr
  ipProto : ℤ
  port : Port

section
variable [IpNetOps] {Name Cap : Type}

def DstMatch.matches (d : DstMatch) (info : PacketInfo) : Bool :=
  d.ports.contains info.port && d.ips.any fun pfx => pfx.contains info.dst

variable [LinearOrder Name] [LinearOrder Cap]

def SrcMatch.matches (s : SrcMatch Cap) (info : PacketInfo) (caps : List Cap) : Bool :=
  (s.pfxs.any fun pfx => pfx.contains info.src) || caps.any fun cap => s.caps.any fun c => c == cap

def Rule.matches (r : Rule Cap) (info : PacketInfo) (caps : List Cap) : Bool :=
  r.protos.contains info.ipProto && r.src.matches info caps && r.dst.any fun d => d.matches info

/-- The filter that is a map of rulesets. -/
abbrev MapFilter (Name Cap : Type) [LinearOrder Name] := OrdMap Name (List (Rule Cap))

/-- The name of the first ruleset with a rule that matches. -/
def MapFilter.matchFor (m : MapFilter Name Cap) (info : PacketInfo) (caps : List Cap) : Option Name :=
  m.entries.findSome? fun e => if e.2.any fun rule => rule.matches info caps then some e.1 else none

def MapFilter.matches (m : MapFilter Name Cap) (info : PacketInfo) (caps : List Cap) : Bool :=
  (m.matchFor info caps).isSome

theorem MapFilter.matches_iff (m : MapFilter Name Cap) (info : PacketInfo) (caps : List Cap) :
    m.matches info caps = true ↔
      ∃ name rules, m.get name = some rules ∧ ∃ rule ∈ rules, rule.matches info caps = true := by
  rw [MapFilter.matches,matchFor,List.findSome?_isSome_iff]
  constructor
  · rintro ⟨⟨name,rules⟩,he,h⟩
    split at h
    · rename_i hany
      exact ⟨name,rules,OrdMap.mem_entries.mp he,List.any_eq_true.mp hany⟩
    · cases h
  · rintro ⟨name,rules,hg,hany⟩
    refine ⟨(name,rules),OrdMap.mem_entries.mpr hg,?_⟩
    rw [if_pos (List.any_eq_true.mpr hany)]
    rfl

end
end Tailnet.PacketFilter

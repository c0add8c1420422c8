import Tailnet.Bart.Descendants
import Tailnet.Bart.ExactLookup
import Tailnet.Bart.ReportedPrefix
import Tailnet.Control.Challenge
import Tailnet.Control.Dialer
import Tailnet.ControlNoise.FramedIo
import Tailnet.ControlNoise.Stranded
import Tailnet.Dataplane.Inbound
import Tailnet.Derp.Client
import Tailnet.Derp.Dial
import Tailnet.Disco.Packet
import Tailnet.Ffi
import Tailnet.Http1
import Tailnet.KvStore.Refinement
import Tailnet.Netmon
import Tailnet.PacketFilter.IpRange
import Tailnet.PacketFilter.Updater
import Tailnet.Runtime.Multiderp
import Tailnet.Runtime.RouteLists
import Tailnet.Runtime.RouteUpdater
import Tailnet.SchedulerWakeups
import Tailnet.Shadowvpn.Canonical
import Tailnet.Wireguard.BoundedTable
import Tailnet.Wireguard.Channel
import Tailnet.Wireguard.Completion
import Tailnet.Wireguard.HandshakeTimeouts
import Tailnet.Wireguard.Keepalives
import Tailnet.Wireguard.PeerKeys
import Tailnet.Wireguard.ReceiveExpiry
import Tailnet.Wireguard.Routable
import Tailnet.Wireguard.Timestamps

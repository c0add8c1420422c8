import Tailnet.Lib.Assoc
import Tailnet.Lib.Index
import Tailnet.Shadowvpn.Crypto
import Tailnet.Wireguard.Peer

/-! An endpoint of the protocol with pre-shared keys. Datagrams carry no name of their sender:
a received datagram is tried with the key of each peer in turn. -/
namespace Tailnet.Shadowvpn
open Function Assoc
open Wireguard (PeerId PeerConfig Packet NodePublicKey Outbox)

/-- Shorter packets are not delivered. -/
def minDeliverLen : ℕ := 20

structure Peer where
  id : PeerId
  config : PeerConfig
  masterKey : List UInt8

def Peer.new (id : PeerId) (config : PeerConfig) (c : Cipher) : Peer :=
  ⟨id,config,config.psk.toList.take c.keyLen⟩

structure Endpoint where
  cipher : Cipher
  obfs : Obfuscator
  peers : Assoc PeerId Peer
  byKey : NodePublicKey → Option PeerId
  /-- a peer stands under its id, with the key of its configuration -/
  peers_new : ∀ id peer, peers.get id = some peer → peer = Peer.new id peer.config cipher

namespace Endpoint

def withConfig (cipher : Cipher) (obfs : Obfuscator) : Endpoint :=
  ⟨cipher,obfs,.empty,fun _ => none,fun id peer h => by rw [get_empty] at h; cases h⟩

def new (rng : Rng) : Endpoint × Rng :=
  (Obfuscator.fromName "quic" rng).map (withConfig .chaCha20Poly1305) id

theorem peers_new_insert (e : Endpoint) (id : PeerId) (cfg : PeerConfig) (p : PeerId) (peer : Peer)
    (h : (e.peers.insert id (Peer.new id cfg e.cipher)).get p = some peer) :
    peer = Peer.new p peer.config e.cipher := by
  rw [get_insert] at h
  by_cases hp : p = id
  · rw [if_pos hp] at h
    cases h
    rw [hp]
    rfl
  · rw [if_neg hp] at h
    exact e.peers_new p peer h

theorem peers_new_erase (e : Endpoint) (id p : PeerId) (peer : Peer)
    (h : (e.peers.erase id).get p = some peer) : peer = Peer.new p peer.config e.cipher := by
  rw [get_erase] at h
  by_cases hp : p = id
  · rw [if_pos hp] at h
    cases h
  · rw [if_neg hp] at h
    exact e.peers_new p peer h

/-- Put a peer in, with the index as given. -/
def putPeer (e : Endpoint) (id : PeerId) (cfg : PeerConfig) (byKey : NodePublicKey → Option PeerId) :
    Endpoint :=
  { e with
    peers := e.peers.insert id (Peer.new id cfg e.cipher)
    byKey
    peers_new := e.peers_new_insert id cfg }

def upsertPeer (e : Endpoint) (id : PeerId) (cfg : PeerConfig) : Result (Option PeerConfig × Endpoint) :=
  if (e.byKey cfg.key).any (· ≠ id) then
    .error (.message "nodekey collision")
  else
    match e.peers.get id with
    | some old =>
      let byKey := if old.config.key ≠ cfg.key then
          update (update e.byKey old.config.key none) cfg.key (some id)
        else e.byKey
      .ok (some old.config,e.putPeer id cfg byKey)
    | none => .ok (none,e.putPeer id cfg (update e.byKey cfg.key (some id)))

/-- Remove a peer; the reply says whether it existed. -/
def removePeer (e : Endpoint) (id : PeerId) : Bool × Endpoint :=
  match e.peers.get id with
  | none => (false,e)
  | some peer =>
    (true,{ e with
      peers := e.peers.erase id
      byKey := update e.byKey peer.config.key none
      peers_new := e.peers_new_erase id })

def peerKey (e : Endpoint) (id : PeerId) : Option NodePublicKey :=
  (e.peers.get id).map fun peer => peer.config.key

def peerId (e : Endpoint) (key : NodePublicKey) : Option PeerId := e.byKey key

/-- The index of node keys is exact. -/
def Exact (e : Endpoint) : Prop := Inverse e.peerId e.peerKey

section
variable {e : Endpoint} {id : PeerId}

theorem peerKey_putPeer (e : Endpoint) (id : PeerId) (cfg : PeerConfig)
    (byKey : NodePublicKey → Option PeerId) :
    (e.putPeer id cfg byKey).peerKey = update e.peerKey id (some cfg.key) := by
  funext p
  rw [peerKey,putPeer,get_insert]
  by_cases h : p = id
  · simp [h,Peer.new]
  · simp [h,peerKey]

theorem peerKey_of_get {peer : Peer} (h : e.peers.get id = some peer) :
    e.peerKey id = some peer.config.key := by
  rw [peerKey,h]
  rfl

/-- An upsert of a key that no other peer has keeps the index exact. -/
theorem Exact.upsertPeer (h : e.Exact) (cfg : PeerConfig)
    (hfree : ∀ q, q ≠ id → e.peerKey q ≠ some cfg.key) :
    ∃ old e', e.upsertPeer id cfg = .ok (old,e') ∧ e'.Exact ∧
      e'.peerKey = update e.peerKey id (some cfg.key) := by
  have hno : (e.byKey cfg.key).any (· ≠ id) = false := by
    cases hk : e.byKey cfg.key with
    | none => rfl
    | some q =>
      have hq : q = id := by
        by_contra hq
        exact hfree q hq ((h cfg.key q).mp hk)
      simp [hq]
  rw [Endpoint.upsertPeer,hno]
  simp only [Bool.false_eq_true,if_false]
  have hnone : ∀ old : Option NodePublicKey, e.peerKey id = old → old ≠ some cfg.key →
      e.byKey cfg.key = none := by
    rintro old rfl hne
    refine (Inverse.index_eq_none h).mpr fun q => ?_
    by_cases hq : q = id
    · rwa [hq]
    · exact hfree q hq
  cases hid : e.peers.get id with
  | none =>
    have hkey : e.peerKey id = none := by rw [peerKey,hid]; rfl
    refine ⟨_,_,rfl,?_,peerKey_putPeer ..⟩
    rw [Exact,peerKey_putPeer]
    exact Inverse.insert h (hnone none hkey (by simp)) hkey
  | some old =>
    have hkey := peerKey_of_get hid
    refine ⟨_,_,rfl,?_,peerKey_putPeer ..⟩
    rw [Exact,peerKey_putPeer]
    by_cases hne : old.config.key = cfg.key
    · have hsame : update e.peerKey id (some cfg.key) = e.peerKey := by
        rw [← hne,← hkey,update_eq_self]
      rw [hsame,if_neg (not_not.mpr hne)]
      exact h
    · have hfound := hnone _ hkey fun heq => hne (Option.some.inj heq)
      rw [if_pos hne]
      exact Inverse.change h hkey (Ne.symm hne) hfound

theorem Exact.removePeer (h : e.Exact) (id : PeerId) :
    (e.removePeer id).2.Exact ∧ (e.removePeer id).2.peerKey = update e.peerKey id none := by
  rw [Endpoint.removePeer]
  cases hid : e.peers.get id with
  | none =>
    have hkey : e.peerKey id = none := by rw [peerKey,hid]; rfl
    refine ⟨h,?_⟩
    rw [← hkey,update_eq_self]
  | some peer =>
    have hkey := peerKey_of_get hid
    have hupdate : peerKey { e with
        peers := e.peers.erase id
        byKey := update e.byKey peer.config.key none
        peers_new := e.peers_new_erase id } = update e.peerKey id none := by
      funext p
      rw [peerKey,get_erase]
      by_cases hp : p = id
      · simp [hp]
      · simp [hp,peerKey]
    refine ⟨?_,hupdate⟩
    rw [Exact,hupdate]
    exact Inverse.remove h hkey

end

theorem mem_peers {e : Endpoint} {rank : PeerId → ℕ} {peer : Peer} :
    peer ∈ (e.peers.iter rank).map Prod.snd ↔ ∃ id, e.peers.get id = some peer := by
  rw [List.mem_map]
  constructor
  · rintro ⟨entry,hmem,rfl⟩
    exact ⟨entry.1,mem_iter.mp hmem⟩
  · rintro ⟨id,hid⟩
    exact ⟨(id,peer),mem_iter.mpr hid,rfl⟩

theorem id_of_get {e : Endpoint} {id : PeerId} {peer : Peer} (h : e.peers.get id = some peer) : peer.id = id := by
  rw [e.peers_new id peer h]
  rfl

variable [AeadPrimitives]

/-- Encrypt the packets for a peer, one datagram each. -/
def sealAll (c : Cipher) (masterKey : List UInt8) :
    List Packet → Obfuscator → Rng → Result (List Packet × Obfuscator × Rng)
  | [],obfs,rng => .ok ([],obfs,rng)
  | packet::packets,obfs,rng => do
    let (sealed,rng) ← encryptPacket c masterKey packet rng
    match sealed with
    | .ok datagram =>
      let (wire,obfs,rng) ← obfs.wrap datagram rng
      let (wires,obfs,rng) ← sealAll c masterKey packets obfs rng
      return (wire::wires,obfs,rng)
    -- a failure is only logged
    | .error _ => sealAll c masterKey packets obfs rng

/-- Send packets to peers. The packets for an unknown peer are dropped. -/
def send (e : Endpoint) : List (PeerId × List Packet) → Outbox → Rng → Result (Outbox × Endpoint × Rng)
  | [],out,rng => .ok (out,e,rng)
  | (id,packets)::rest,out,rng =>
    match e.peers.get id with
    | none => send e rest out rng
    | some peer => do
      let (wires,obfs,rng) ← sealAll e.cipher peer.masterKey packets e.obfs rng
      send { e with obfs } rest (out.queueToPeer id wires) rng

/-- The first peer whose key opens a datagram, and what it opens to. -/
def openFirst (c : Cipher) (datagram : List UInt8) : List Peer → Result (Option (PeerId × Packet))
  | [] => .ok none
  | peer::peers => do
    match ← decryptPacket c peer.masterKey datagram with
    | .error _ => openFirst c datagram peers
    | .ok plaintext => return some (peer.id,plaintext)

/-- What a received packet delivers. The peers are tried in the order of their ranks. -/
def recvPacket (e : Endpoint) (rank : PeerId → ℕ) (packet : Packet) : Result (Option (PeerId × Packet)) := do
  match ← e.obfs.unwrap packet with
  | none => return none
  | some datagram =>
    match ← openFirst e.cipher datagram ((e.peers.iter rank).map Prod.snd) with
    | none => return none
    | some (id,plaintext) =>
      if plaintext.length < minDeliverLen then return none else return some (id,plaintext)

def recv (e : Endpoint) (rank : PeerId → ℕ) (packets : List Packet) : Result Outbox :=
  packets.foldlM (fun out packet => do
    match ← e.recvPacket rank packet with
    | none => return out
    | some (id,plaintext) => return out.queueToLocal id [plaintext]) .default

end Endpoint
end Tailnet.Shadowvpn

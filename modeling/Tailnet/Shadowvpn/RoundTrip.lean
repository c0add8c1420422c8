import Tailnet.Shadowvpn.Endpoint

/-! What an endpoint sends is delivered by an endpoint with the same cipher and obfuscation,
among the datagrams of others. The cipher is taken as ideal for the datagrams that arrive: each
opens with no installed key but the one that sealed it. -/
namespace Tailnet.Shadowvpn
open List Result Option
open Wireguard (PeerId PeerConfig Packet Outbox)

/-- A packet of the wire, as its origin knows it. -/
inductive Arrival
  | sealed (masterKey : List UInt8) (packet wire : Packet)
  | foreign (wire : Packet)

namespace Arrival

def wire : Arrival → Packet
  | sealed _ _ wire => wire
  | foreign wire => wire

def key : Arrival → Option (List UInt8)
  | sealed masterKey _ _ => some masterKey
  | foreign _ => none

/-- The wire packet, if it was sealed with the key. -/
def wireFrom (masterKey : List UInt8) (x : Arrival) : Option Packet :=
  if x.key = some masterKey then some x.wire else none

end Arrival

namespace Endpoint

def DistinctKeys (e : Endpoint) : Prop :=
  ∀ p q peer peer', e.peers.get p = some peer → e.peers.get q = some peer' →
    peer.masterKey = peer'.masterKey → p = q

/-- What an arrival delivers from a peer: the packet, if the key of the peer sealed it and it is
not too short. -/
def delivers (e : Endpoint) (p : PeerId) : Arrival → Option Packet
  | .sealed masterKey packet _ =>
    if (e.peers.get p).any (fun peer => peer.masterKey = masterKey) ∧ minDeliverLen ≤ packet.length then
      some packet
    else none
  | .foreign _ => none

/-- An arrival that delivers a packet is the sealed packet, and long enough. -/
theorem delivers_eq_some {e : Endpoint} {p : PeerId} {x : Arrival} {packet : Packet} :
    e.delivers p x = some packet ↔ ∃ peer wire, e.peers.get p = some peer ∧
      x = .sealed peer.masterKey packet wire ∧ minDeliverLen ≤ packet.length := by
  cases x with
  | foreign wire => simp [delivers]
  | sealed masterKey packet' wire =>
    cases hp : e.peers.get p with
    | none => simp [delivers,hp]
    | some peer =>
      simp only [delivers,hp,any_some,decide_eq_true_eq,ite_none_right_eq_some,
        Option.some.injEq,Arrival.sealed.injEq]
      constructor
      · rintro ⟨⟨hkey,hlen⟩,rfl⟩
        exact ⟨peer,wire,rfl,⟨hkey.symm,rfl,rfl⟩,hlen⟩
      · rintro ⟨_,_,rfl,⟨hkey,rfl,_⟩,hlen⟩
        exact ⟨⟨hkey.symm,hlen⟩,rfl⟩

def sentTo (p : PeerId) (sends : List (PeerId × List Packet)) : List Packet :=
  (sends.filter fun s => s.1 = p).flatMap Prod.snd

/-- A queue that is created by its first packet. -/
def entry (packets : List Packet) : Option (List Packet) :=
  if packets = [] then none else some packets

theorem sentTo_cons_self (p : PeerId) (packets : List Packet) (sends : List (PeerId × List Packet)) :
    sentTo p ((p,packets)::sends) = packets ++ sentTo p sends := by
  simp [sentTo]

theorem sentTo_cons_of_ne {p q : PeerId} (h : q ≠ p) (packets : List Packet)
    (sends : List (PeerId × List Packet)) : sentTo p ((q,packets)::sends) = sentTo p sends := by
  simp [sentTo,h]

end Endpoint

section
variable [AeadPrimitives]

/-- A wire packet that was sealed with a key, at an end that agrees on the obfuscation. -/
def SealedBy (c : Cipher) (obfs : Obfuscator) (masterKey : List UInt8) (packet wire : Packet) : Prop :=
  ∃ o rng datagram rng₁ o₁ rng₂, Obfuscator.Agree o obfs ∧
    encryptPacket c masterKey packet rng = .ok (.ok datagram,rng₁) ∧
    o.wrap datagram rng₁ = .ok (wire,o₁,rng₂)

namespace Arrival

/-- It was sealed as it says. -/
def Genuine (e : Endpoint) : Arrival → Prop
  | sealed masterKey packet wire => SealedBy e.cipher e.obfs masterKey packet wire
  | foreign _ => True

/-- It opens with no installed key but the one that sealed it. -/
def Authentic (e : Endpoint) (x : Arrival) : Prop :=
  ∀ datagram id peer packet, e.obfs.unwrap x.wire = .ok (some datagram) →
    e.peers.get id = some peer → decryptPacket e.cipher peer.masterKey datagram = .ok (.ok packet) →
    x.key = some peer.masterKey

/-- The key of a peer opens a wire packet. -/
def opensWith (e : Endpoint) (peer : Peer) (wire : Packet) : Bool :=
  match e.obfs.unwrap wire with
  | .ok (some datagram) =>
    match decryptPacket e.cipher peer.masterKey datagram with
    | .ok (.ok _) => true
    | _ => false
  | _ => false

theorem authentic_of_opensWith {e : Endpoint} {x : Arrival}
    (h : ∀ q ∈ e.peers.entries, opensWith e q.2 x.wire = true → x.key = some q.2.masterKey) :
    x.Authentic e := by
  intro datagram id peer packet hunwrap hid hdec
  apply h (id,peer) (Assoc.mem_entries.mpr hid)
  rw [opensWith,hunwrap]
  simp only [hdec]

end Arrival

section
variable {c : Cipher} {obfs o : Obfuscator} {masterKey : List UInt8} {packet packet' wire : Packet}

theorem SealedBy.opens (h : SealedBy c obfs masterKey packet wire) :
    ∃ datagram, obfs.unwrap wire = .ok (some datagram) ∧
      decryptPacket c masterKey datagram = .ok (.ok packet) := by
  obtain ⟨o,rng,datagram,rng₁,o₁,rng₂,hagree,henc,hwrap⟩ := h
  obtain ⟨datagram',_,henc',hdec⟩ := encryptPacket_spec c masterKey packet rng
  obtain ⟨wire',_,_,hwrap',_,hunwrap⟩ := Obfuscator.wrap_spec hagree datagram rng₁
  rw [henc] at henc'
  cases henc'
  rw [hwrap] at hwrap'
  cases hwrap'
  exact ⟨datagram,hunwrap,hdec⟩

/-- A wire packet holds one packet for a key. -/
theorem SealedBy.unique (h : SealedBy c obfs masterKey packet wire)
    (h' : SealedBy c obfs masterKey packet' wire) : packet = packet' := by
  obtain ⟨datagram,hunwrap,hdec⟩ := h.opens
  obtain ⟨datagram',hunwrap',hdec'⟩ := h'.opens
  rw [hunwrap] at hunwrap'
  cases hunwrap'
  rw [hdec] at hdec'
  cases hdec'
  rfl

/-- An arrival that opens with the key that sealed it holds what was opened. -/
theorem Arrival.eq_sealed {e : Endpoint} {x : Arrival} (hgen : x.Genuine e) (hkey : x.key = some masterKey)
    {datagram : List UInt8} (hunwrap : e.obfs.unwrap x.wire = .ok (some datagram))
    (hdec : decryptPacket e.cipher masterKey datagram = .ok (.ok packet)) :
    ∃ wire, x = .sealed masterKey packet wire := by
  cases x with
  | foreign wire => cases hkey
  | sealed masterKey' packet' wire =>
    cases hkey
    obtain ⟨datagram',hunwrap',hdec'⟩ := SealedBy.opens hgen
    change e.obfs.unwrap wire = _ at hunwrap
    rw [hunwrap] at hunwrap'
    cases hunwrap'
    rw [hdec] at hdec'
    cases hdec'
    exact ⟨wire,rfl⟩

theorem Endpoint.sealAll_spec (masterKey : List UInt8) (packets : List Packet) (h : o.Agree obfs)
    (rng : Rng) : ∃ wires o' rng', sealAll c masterKey packets o rng = .ok (wires,o',rng') ∧
      o'.Agree obfs ∧ List.Forall₂ (SealedBy c obfs masterKey) packets wires := by
  induction packets generalizing o rng with
  | nil => exact ⟨[],o,rng,rfl,h,.nil⟩
  | cons packet packets ih =>
    obtain ⟨datagram,rng₁,henc,_⟩ := encryptPacket_spec c masterKey packet rng
    obtain ⟨wire,o₁,rng₂,hwrap,hagree,_⟩ := Obfuscator.wrap_spec h datagram rng₁
    obtain ⟨wires,o',rng',hrest,hagree',hall⟩ := ih hagree rng₂
    refine ⟨wire::wires,o',rng',?_,hagree',.cons ⟨o,rng,datagram,rng₁,o₁,rng₂,h,henc,hwrap⟩ hall⟩
    rw [sealAll]
    simp only [henc,hwrap,hrest,bind_of_ok]
    rfl

end

namespace Endpoint
variable {e : Endpoint} {obfs : Obfuscator}

/-- Sending does not panic, and queues for each known peer one wire packet for each of its
packets, in order. -/
theorem send_spec (sends : List (PeerId × List Packet)) (out : Outbox) (rng : Rng)
    (h : e.obfs.Agree obfs) :
    ∃ out' e' rng', e.send sends out rng = .ok (out',e',rng') ∧
      ∀ p peer, e.peers.get p = some peer →
        ∃ wires, List.Forall₂ (SealedBy e.cipher obfs peer.masterKey) (sentTo p sends) wires ∧
          (out'.toPeers p).getD [] = (out.toPeers p).getD [] ++ wires := by
  induction sends generalizing e out rng with
  | nil => exact ⟨out,e,rng,rfl,fun p peer _ => ⟨[],.nil,by simp⟩⟩
  | cons s sends ih =>
    obtain ⟨id,packets⟩ := s
    rw [send]
    cases hid : e.peers.get id with
    | none =>
      obtain ⟨out',e',rng',hsend,hall⟩ := ih out rng h
      refine ⟨out',e',rng',hsend,fun p peer hp => ?_⟩
      have hne : id ≠ p := by
        rintro rfl
        rw [hid] at hp
        cases hp
      rw [sentTo_cons_of_ne hne]
      exact hall p peer hp
    | some peer =>
      obtain ⟨wires,o,rng₁,hseal,hagree,hwires⟩ := sealAll_spec (c := e.cipher) peer.masterKey packets h rng
      obtain ⟨out',e',rng',hsend,hall⟩ := ih (e := { e with obfs := o }) (out.queueToPeer id wires) rng₁ hagree
      refine ⟨out',e',rng',by simp only [hseal,bind_of_ok]; exact hsend,fun p q hq => ?_⟩
      obtain ⟨wires',hwires',hout⟩ := hall p q hq
      by_cases hp : id = p
      · subst hp
        rw [hid] at hq
        cases hq
        refine ⟨wires ++ wires',?_,?_⟩
        · rw [sentTo_cons_self]
          exact rel_append hwires hwires'
        · simp only [hout,Outbox.queueToPeer,Function.update_self,getD_some,append_assoc]
      · refine ⟨wires',by rwa [sentTo_cons_of_ne hp],?_⟩
        simp only [hout,Outbox.queueToPeer,Function.update_of_ne (Ne.symm hp)]

theorem openFirst_ok (c : Cipher) (datagram : List UInt8) (peers : List Peer) :
    ∃ r, openFirst c datagram peers = .ok r := by
  induction peers with
  | nil => exact ⟨none,rfl⟩
  | cons peer peers ih =>
    obtain ⟨r,hr⟩ := decryptPacket_ok c peer.masterKey datagram
    rw [openFirst,hr]
    cases r with
    | error err => exact ih
    | ok plaintext => exact ⟨_,rfl⟩

variable {datagram : List UInt8} {c : Cipher}

theorem openFirst_none {peers : List Peer}
    (h : ∀ peer ∈ peers, ∀ packet, decryptPacket c peer.masterKey datagram ≠ .ok (.ok packet)) :
    openFirst c datagram peers = .ok none := by
  induction peers with
  | nil => rfl
  | cons peer peers ih =>
    obtain ⟨r,hr⟩ := decryptPacket_ok c peer.masterKey datagram
    rw [openFirst,hr]
    cases r with
    | error err => exact ih fun q hq => h q (mem_cons_of_mem _ hq)
    | ok plaintext => exact (h peer mem_cons_self plaintext hr).elim

/-- The key of one peer only opens the datagram, wherever the peer stands. -/
theorem openFirst_some {peers : List Peer} {peer : Peer} {packet : Packet} (hmem : peer ∈ peers)
    (hopen : decryptPacket c peer.masterKey datagram = .ok (.ok packet))
    (honly : ∀ q ∈ peers, ∀ m, decryptPacket c q.masterKey datagram = .ok (.ok m) → q = peer) :
    openFirst c datagram peers = .ok (some (peer.id,packet)) := by
  induction peers with
  | nil => cases hmem
  | cons q peers ih =>
    obtain ⟨r,hr⟩ := decryptPacket_ok c q.masterKey datagram
    rw [openFirst,hr]
    cases r with
    | error err =>
      have hne : peer ≠ q := by
        rintro rfl
        rw [hr] at hopen
        cases hopen
      exact ih (mem_of_ne_of_mem hne hmem) fun q' hq' => honly q' (mem_cons_of_mem _ hq')
    | ok plaintext =>
      have hq := honly q mem_cons_self plaintext hr
      subst hq
      rw [hr] at hopen
      cases hopen
      rfl

theorem recvPacket_ok (e : Endpoint) (rank : PeerId → ℕ) (packet : Packet) :
    ∃ r, e.recvPacket rank packet = .ok r := by
  obtain ⟨r,hr⟩ := e.obfs.unwrap_ok packet
  rw [recvPacket,hr]
  cases r with
  | none => exact ⟨_,rfl⟩
  | some datagram =>
    obtain ⟨r,hr⟩ := openFirst_ok e.cipher datagram ((e.peers.iter rank).map Prod.snd)
    simp only [bind_of_ok,hr]
    cases r with
    | none => exact ⟨_,rfl⟩
    | some found =>
      by_cases hlen : found.2.length < minDeliverLen
      · exact ⟨none,by simp [hlen]⟩
      · exact ⟨some found,by simp [hlen]⟩

theorem recv_ok (e : Endpoint) (rank : PeerId → ℕ) (packets : List Packet) :
    ∃ out, e.recv rank packets = .ok out := by
  rw [recv]
  generalize Outbox.default = out
  induction packets generalizing out with
  | nil => exact ⟨out,rfl⟩
  | cons packet packets ih =>
    obtain ⟨r,hr⟩ := e.recvPacket_ok rank packet
    rw [foldlM_cons,hr]
    cases r with
    | none => exact ih out
    | some found => exact ih _

/-- With an ideal cipher the first key that opens a datagram is the only one. -/
theorem openFirst_authentic (hkeys : e.DistinctKeys) (rank : PeerId → ℕ) {x : Arrival}
    (hauth : x.Authentic e) (hunwrap : e.obfs.unwrap x.wire = .ok (some datagram))
    {id : PeerId} {peer : Peer} (hid : e.peers.get id = some peer) {packet : Packet}
    (hdec : decryptPacket e.cipher peer.masterKey datagram = .ok (.ok packet)) :
    openFirst e.cipher datagram ((e.peers.iter rank).map Prod.snd) = .ok (some (id,packet)) := by
  have hkey := hauth datagram id peer packet hunwrap hid hdec
  rw [← id_of_get hid]
  refine openFirst_some (mem_peers.mpr ⟨id,hid⟩) hdec fun q hq m hm => ?_
  obtain ⟨id',hid'⟩ := mem_peers.mp hq
  have hkey' := hauth datagram id' q m hunwrap hid' hm
  rw [hkey] at hkey'
  rw [hkeys id' id q peer hid' hid (Option.some.inj hkey').symm,hid] at hid'
  exact (Option.some.inj hid').symm

/-- What the receipt of an arrival delivers. -/
theorem recvPacket_spec (hkeys : e.DistinctKeys) (rank : PeerId → ℕ) {x : Arrival} (hgen : x.Genuine e)
    (hauth : x.Authentic e) : ∃ r, e.recvPacket rank x.wire = .ok r ∧
      ∀ p packet, e.delivers p x = some packet ↔ r = some (p,packet) := by
  -- an arrival that delivers something opens with the key of its peer
  have hopens : ∀ {p packet}, e.delivers p x = some packet → ∃ datagram peer,
      e.obfs.unwrap x.wire = .ok (some datagram) ∧ e.peers.get p = some peer ∧
      decryptPacket e.cipher peer.masterKey datagram = .ok (.ok packet) := by
    intro p packet h
    obtain ⟨peer,wire,hp,rfl,_⟩ := delivers_eq_some.mp h
    obtain ⟨datagram,hunwrap,hdec⟩ := SealedBy.opens hgen
    exact ⟨datagram,peer,hunwrap,hp,hdec⟩
  have hnone : (∀ p packet, e.delivers p x ≠ some packet) →
      ∀ p packet, e.delivers p x = some packet ↔ (none : Option (PeerId × Packet)) = some (p,packet) :=
    fun h p packet => ⟨fun hd => (h p packet hd).elim,fun hd => by cases hd⟩
  obtain ⟨r,hr⟩ := e.obfs.unwrap_ok x.wire
  rw [recvPacket,hr,bind_of_ok]
  cases r with
  | none =>
    refine ⟨none,rfl,hnone fun p packet h => ?_⟩
    obtain ⟨datagram,_,hunwrap,_⟩ := hopens h
    rw [hr] at hunwrap
    cases hunwrap
  | some datagram =>
    by_cases hex : ∃ id peer packet, e.peers.get id = some peer ∧
        decryptPacket e.cipher peer.masterKey datagram = .ok (.ok packet)
    · obtain ⟨id,peer,packet,hid,hdec⟩ := hex
      have hfirst := openFirst_authentic hkeys rank hauth hr hid hdec
      obtain ⟨wire,rfl⟩ := Arrival.eq_sealed hgen (hauth datagram id peer packet hr hid hdec) hr hdec
      have honly : ∀ p m, e.delivers p (.sealed peer.masterKey packet wire) = some m ↔
          p = id ∧ m = packet ∧ minDeliverLen ≤ packet.length := by
        intro p m
        rw [delivers_eq_some]
        constructor
        · rintro ⟨peer',_,hp,heq,hlen⟩
          injection heq with hsame hm _
          subst hm
          exact ⟨hkeys p id peer' peer hp hid hsame.symm,rfl,hlen⟩
        · rintro ⟨rfl,rfl,hlen⟩
          exact ⟨peer,wire,hid,rfl,hlen⟩
      simp only [hfirst,bind_of_ok]
      by_cases hlen : packet.length < minDeliverLen
      · rw [if_pos hlen]
        exact ⟨none,rfl,hnone fun p m h => not_le.mpr hlen ((honly p m).mp h).2.2⟩
      · rw [if_neg hlen]
        refine ⟨_,rfl,fun p m => (honly p m).trans ?_⟩
        constructor
        · rintro ⟨rfl,rfl,_⟩
          rfl
        · intro h
          cases h
          exact ⟨rfl,rfl,not_lt.mp hlen⟩
    · have hfirst : openFirst e.cipher datagram ((e.peers.iter rank).map Prod.snd) = .ok none :=
        openFirst_none fun peer hpeer packet hdec => by
          obtain ⟨id,hid⟩ := mem_peers.mp hpeer
          exact hex ⟨id,peer,packet,hid,hdec⟩
      simp only [hfirst,bind_of_ok]
      refine ⟨none,rfl,hnone fun p packet h => ?_⟩
      obtain ⟨datagram',peer,hunwrap,hp,hdec⟩ := hopens h
      rw [hr] at hunwrap
      cases hunwrap
      exact hex ⟨p,peer,packet,hp,hdec⟩

/-- The body of the loop of `recv`. -/
def queueReceived (e : Endpoint) (rank : PeerId → ℕ) (out : Outbox) (packet : Packet) :
    Result Outbox := do
  match ← e.recvPacket rank packet with
  | none => return out
  | some (id,plaintext) => return out.queueToLocal id [plaintext]

/-- What arrives is delivered by peer, in order. -/
theorem recv_spec (hkeys : e.DistinctKeys) (rank : PeerId → ℕ) {arrivals : List Arrival}
    (h : ∀ x ∈ arrivals, x.Genuine e ∧ x.Authentic e) :
    ∃ out, e.recv rank (arrivals.map Arrival.wire) = .ok out ∧
      ∀ p, out.toLocal p = entry (arrivals.filterMap (e.delivers p)) := by
  -- the loop extends the queues that it starts from
  have hloop : ∀ out : Outbox, ∃ out',
      (arrivals.map Arrival.wire).foldlM (e.queueReceived rank) out = .ok out' ∧
      ∀ p, out'.toLocal p = if arrivals.filterMap (e.delivers p) = [] then out.toLocal p
        else some ((out.toLocal p).getD [] ++ arrivals.filterMap (e.delivers p)) := by
    induction arrivals with
    | nil => exact fun out => ⟨out,rfl,fun p => rfl⟩
    | cons x arrivals ih =>
      intro out
      obtain ⟨hgen,hauth⟩ := h x mem_cons_self
      obtain ⟨r,hr,hdel⟩ := recvPacket_spec hkeys rank hgen hauth
      rw [map_cons,foldlM_cons,queueReceived,hr]
      cases r with
      | none =>
        obtain ⟨out',hout',hall⟩ := ih (fun y hy => h y (mem_cons_of_mem _ hy)) out
        refine ⟨out',hout',fun p => ?_⟩
        have hp : e.delivers p x = none :=
          eq_none_iff_forall_ne_some.mpr fun packet hp => by cases (hdel p packet).mp hp
        rw [filterMap_cons_none hp]
        exact hall p
      | some found =>
        obtain ⟨id,packet⟩ := found
        obtain ⟨out',hout',hall⟩ := ih (fun y hy => h y (mem_cons_of_mem _ hy))
          (out.queueToLocal id [packet])
        refine ⟨out',hout',fun p => ?_⟩
        rw [hall p]
        by_cases hp : p = id
        · subst hp
          rw [filterMap_cons_some ((hdel p packet).mpr rfl)]
          by_cases hnil : arrivals.filterMap (e.delivers p) = []
          · simp [hnil,Outbox.queueToLocal]
          · simp [hnil,Outbox.queueToLocal]
        · have hnone : e.delivers p x = none :=
            eq_none_iff_forall_ne_some.mpr fun m hm => by
              cases (hdel p m).mp hm
              exact hp rfl
          rw [filterMap_cons_none hnone]
          simp [Outbox.queueToLocal,hp]
  obtain ⟨out,hout,hall⟩ := hloop .default
  refine ⟨out,hout,fun p => (hall p).trans ?_⟩
  simp [entry,Outbox.default]

/-- The arrivals that were sealed with the key of a peer, if they are the wire packets of its
packets, deliver these. -/
theorem delivers_sent {p : PeerId} {peer : Peer} (hp : e.peers.get p = some peer)
    {arrivals : List Arrival} (hgen : ∀ x ∈ arrivals, x.Genuine e) {packets wires : List Packet}
    (hsealed : List.Forall₂ (SealedBy e.cipher e.obfs peer.masterKey) packets wires)
    (hwires : arrivals.filterMap (Arrival.wireFrom peer.masterKey) = wires) :
    arrivals.filterMap (e.delivers p) = packets.filter fun m => minDeliverLen ≤ m.length := by
  induction arrivals generalizing packets wires with
  | nil =>
    subst hwires
    cases hsealed
    rfl
  | cons x arrivals ih =>
    have hgen' : ∀ y ∈ arrivals, y.Genuine e := fun y hy => hgen y (mem_cons_of_mem _ hy)
    by_cases hkey : x.key = some peer.masterKey
    · cases x with
      | foreign wire => cases hkey
      | sealed masterKey m wire =>
        cases hkey
        have hfrom : Arrival.wireFrom peer.masterKey (.sealed peer.masterKey m wire) = some wire :=
          if_pos rfl
        rw [filterMap_cons_some hfrom] at hwires
        subst hwires
        cases hsealed with
        | cons hfirst hrest =>
          rename_i packet packets
          have hm : packet = m := hfirst.unique (hgen _ mem_cons_self)
          subst hm
          rw [filter_cons]
          by_cases hlen : minDeliverLen ≤ packet.length
          · have hdel : e.delivers p (.sealed peer.masterKey packet wire) = some packet :=
              delivers_eq_some.mpr ⟨peer,wire,hp,rfl,hlen⟩
            rw [filterMap_cons_some hdel,ih hgen' hrest rfl,if_pos (by simpa using hlen)]
          · have hdel : e.delivers p (.sealed peer.masterKey packet wire) = none :=
              eq_none_iff_forall_ne_some.mpr fun m' h => by
                obtain ⟨_,_,_,heq,hlen'⟩ := delivers_eq_some.mp h
                injection heq with _ hm _
                exact hlen (hm ▸ hlen')
            rw [filterMap_cons_none hdel,ih hgen' hrest rfl,if_neg (by simpa using hlen)]
    · have hdel : e.delivers p x = none :=
        eq_none_iff_forall_ne_some.mpr fun m h => by
          obtain ⟨_,_,hp',rfl,_⟩ := delivers_eq_some.mp h
          rw [hp] at hp'
          cases hp'
          exact hkey rfl
      have hfrom : Arrival.wireFrom peer.masterKey x = none := if_neg hkey
      rw [filterMap_cons_none hdel]
      rw [filterMap_cons_none hfrom] at hwires
      exact ih hgen' hsealed hwires

/-- What an endpoint sends to a peer is delivered at the other end under the id of the peer whose
key sealed it, in order and without the packets that are too short, whatever else arrives. No input
makes sending or receiving panic. -/
theorem send_recv_delivers {a b : Endpoint} (hcipher : a.cipher = b.cipher) (hobfs : a.obfs.Agree b.obfs)
    (hkeys : b.DistinctKeys) (sends : List (PeerId × List Packet)) (rng : Rng) (rank : PeerId → ℕ) :
    (∃ out a' rng', a.send sends .default rng = .ok (out,a',rng') ∧
      ∀ arrivals : List Arrival, (∀ x ∈ arrivals, x.Genuine b ∧ x.Authentic b) →
        ∃ inbox, b.recv rank (arrivals.map Arrival.wire) = .ok inbox ∧
          (∀ p, inbox.toLocal p = entry (arrivals.filterMap (b.delivers p))) ∧
          ∀ pa pb peerA peerB, a.peers.get pa = some peerA → b.peers.get pb = some peerB →
            peerA.masterKey = peerB.masterKey →
            arrivals.filterMap (Arrival.wireFrom peerB.masterKey) = (out.toPeers pa).getD [] →
            inbox.toLocal pb = entry ((sentTo pa sends).filter fun m => minDeliverLen ≤ m.length)) ∧
    ∀ packets, ∃ inbox, b.recv rank packets = .ok inbox := by
  refine ⟨?_,b.recv_ok rank⟩
  obtain ⟨out,a',rng',hsend,hall⟩ := send_spec sends .default rng hobfs
  refine ⟨out,a',rng',hsend,fun arrivals h => ?_⟩
  obtain ⟨inbox,hrecv,hlocal⟩ := recv_spec hkeys rank h
  refine ⟨inbox,hrecv,hlocal,fun pa pb peerA peerB hpa hpb hsame hwires => ?_⟩
  obtain ⟨wires,hsealed,hout⟩ := hall pa peerA hpa
  rw [hcipher,hsame] at hsealed
  have hwires : arrivals.filterMap (Arrival.wireFrom peerB.masterKey) = wires := hwires.trans hout
  rw [hlocal pb,delivers_sent hpb (fun x hx => (h x hx).1) hsealed hwires]

/-- A packet that a peer sealed is delivered under no other peer, and one that was sealed without
the key of a peer is not delivered. -/
structure Attributes (e : Endpoint) : Prop where
  peer : ∀ q peer packet wire, e.peers.get q = some peer →
    SealedBy e.cipher e.obfs peer.masterKey packet wire →
    Arrival.Authentic e (.sealed peer.masterKey packet wire) →
    ∀ rank p m, e.recvPacket rank wire = .ok (some (p,m)) → p = q
  outsider : ∀ x : Arrival, x.Genuine e → x.Authentic e →
    (∀ q peer, e.peers.get q = some peer → x.key ≠ some peer.masterKey) →
    ∀ rank, e.recvPacket rank x.wire = .ok none

theorem DistinctKeys.attributes (h : e.DistinctKeys) : e.Attributes where
  peer q peer packet wire hq hsealed hauth rank p m hrecv := by
    obtain ⟨r,hr,hdel⟩ := recvPacket_spec (x := .sealed peer.masterKey packet wire) h rank hsealed hauth
    change e.recvPacket rank wire = .ok r at hr
    rw [hrecv] at hr
    cases hr
    obtain ⟨peer',_,hp,heq,_⟩ := delivers_eq_some.mp ((hdel p m).mpr rfl)
    injection heq with hkey _ _
    exact h p q peer' peer hp hq hkey.symm
  outsider x hgen hauth hno rank := by
    obtain ⟨r,hr,hdel⟩ := recvPacket_spec h rank hgen hauth
    cases r with
    | none => exact hr
    | some found =>
      obtain ⟨peer,_,hp,rfl,_⟩ := delivers_eq_some.mp ((hdel found.1 found.2).mpr rfl)
      exact absurd rfl (hno found.1 peer hp)

theorem openFirst_head {peer : Peer} (peers : List Peer)
    {packet : Packet} (h : decryptPacket c peer.masterKey datagram = .ok (.ok packet)) :
    openFirst c datagram (peer::peers) = .ok (some (peer.id,packet)) := by
  rw [openFirst,h]
  rfl

/-- Peers with one key are not told apart: the packets of all are delivered under the one that is
tried first. -/
theorem not_attributes_of_equal_keys {masterKey : List UInt8}
    (hall : ∀ id peer, e.peers.get id = some peer → peer.masterKey = masterKey) {p q : PeerId}
    {peer peer' : Peer} (hp : e.peers.get p = some peer) (hq : e.peers.get q = some peer') (hne : p ≠ q) :
    ¬ e.Attributes := by
  intro h
  let packet : Packet := List.replicate minDeliverLen 0
  obtain ⟨datagram,rng,henc,hdec⟩ := encryptPacket_spec e.cipher masterKey packet (Stream'.const 0)
  obtain ⟨wire,o,rng',hwrap,_,hunwrap⟩ := Obfuscator.wrap_spec e.obfs.agree_refl datagram rng
  have hsealed : SealedBy e.cipher e.obfs masterKey packet wire :=
    ⟨e.obfs,_,datagram,rng,o,rng',e.obfs.agree_refl,henc,hwrap⟩
  have hauth : Arrival.Authentic e (.sealed masterKey packet wire) := fun _ id peer _ _ hid _ =>
    congrArg some (hall id peer hid).symm
  -- the first peer of an iteration gets the packet
  obtain ⟨first,rest,hiter⟩ : ∃ first rest, (e.peers.iter fun _ => 0).map Prod.snd = first::rest :=
    exists_cons_of_ne_nil (ne_nil_of_mem (mem_peers.mpr ⟨p,hp⟩))
  obtain ⟨id,hid⟩ := mem_peers.mp (hiter ▸ mem_cons_self : first ∈ (e.peers.iter fun _ => 0).map Prod.snd)
  have hrecv : e.recvPacket (fun _ => 0) wire = .ok (some (id,packet)) := by
    rw [← hall id first hid] at hdec
    rw [recvPacket,hunwrap]
    simp only [bind_of_ok,hiter,openFirst_head rest hdec,id_of_get hid]
    rfl
  have hto : ∀ q peer, e.peers.get q = some peer → id = q := fun q peer hq =>
    h.peer q peer packet wire hq (hall q peer hq ▸ hsealed) (hall q peer hq ▸ hauth) _ id packet hrecv
  exact hne ((hto p peer hp).symm.trans (hto q peer' hq))

end Endpoint
end

/-- A cipher whose tag is the beginning of the key, for runs on fixed inputs. -/
@[reducible] def keyTagged : AeadPrimitives where
  hkdf _ ikm _ len := some ((ikm ++ List.replicate len 0).take len)
  sealWith _ key plaintext := (plaintext,⟨(key ++ List.replicate 16 0).take 16,by simp⟩)
  openWith _ key ciphertext tag :=
    if tag.toList = (key ++ List.replicate 16 0).take 16 then some ciphertext else none
  hkdf_some _ ikm _ len _ := ⟨_,rfl,by simp⟩
  open_seal _ _ _ _ := if_pos rfl

section
attribute [local instance] keyTagged

def uniformConfig (key psk : UInt8) : PeerConfig :=
  ⟨⟨List.replicate 32 key,rfl⟩,⟨List.replicate 32 psk,rfl⟩⟩

def quicOf (b : UInt8) : Obfuscator := .quic ⟨[b,b],2,0,rfl⟩

def twoPeers : Endpoint :=
  ((Endpoint.withConfig .aes128Gcm (quicOf 9)).putPeer 1 (uniformConfig 10 1) fun _ => none).putPeer 2
    (uniformConfig 11 2) fun _ => none

def onePeer : Endpoint :=
  (Endpoint.withConfig .aes128Gcm (quicOf 8)).putPeer 7 (uniformConfig 12 1) fun _ => none

/-- The wire packet of a packet under a key that is one byte throughout. -/
def wireOf (psk pn : UInt8) (packet : Packet) : Packet :=
  [0x41,8,8,0,pn] ++ List.replicate 16 0 ++ packet ++ List.replicate 16 psk

/-- Packets of one peer between foreign bytes and a packet of another peer. -/
def mixedArrivals : List Arrival :=
  [.foreign [0x40],.sealed (List.replicate 16 2) (List.replicate 21 5) (wireOf 2 0 (List.replicate 21 5)),
    .sealed (List.replicate 16 1) (List.replicate 20 6) (wireOf 1 0 (List.replicate 20 6)),
    .foreign (List.replicate 60 0x41),.sealed (List.replicate 16 1) [1] (wireOf 1 1 [1])]

theorem Endpoint.send_recv_delivers_mixed :
    ∃ inbox, twoPeers.recv UInt32.toNat (mixedArrivals.map Arrival.wire) = .ok inbox ∧
      inbox.toLocal 1 = some [List.replicate 20 6] ∧ inbox.toLocal 2 = some [List.replicate 21 5] := by
  have hkeys : twoPeers.DistinctKeys := by
    have hcheck : ∀ x ∈ twoPeers.peers.entries, ∀ y ∈ twoPeers.peers.entries,
        x.2.masterKey = y.2.masterKey → x.1 = y.1 := by decide +kernel
    intro p q peer peer' hp hq hkey
    exact hcheck (p,peer) (Assoc.mem_entries.mpr hp) (q,peer') (Assoc.mem_entries.mpr hq) hkey
  have hgen : ∀ x ∈ mixedArrivals, x.Genuine twoPeers := by
    simp only [mixedArrivals,forall_mem_cons]
    refine ⟨trivial,?_,?_,trivial,?_,by simp⟩
    · exact ⟨quicOf 8,Stream'.const 0,_,_,_,_,rfl,rfl,rfl⟩
    · exact ⟨quicOf 8,Stream'.const 0,_,_,_,_,rfl,rfl,rfl⟩
    · exact ⟨.quic ⟨[8,8],2,1,rfl⟩,Stream'.const 0,_,_,_,_,rfl,rfl,rfl⟩
  have hauth : ∀ x ∈ mixedArrivals, x.Authentic twoPeers := by
    have hcheck : ∀ x ∈ mixedArrivals, ∀ q ∈ twoPeers.peers.entries,
        Arrival.opensWith twoPeers q.2 x.wire = true → x.key = some q.2.masterKey := by decide +kernel
    exact fun x hx => Arrival.authentic_of_opensWith (hcheck x hx)
  obtain ⟨⟨out,a',rng',hsend,hall⟩,_⟩ := send_recv_delivers (a := onePeer) (b := twoPeers) rfl rfl hkeys
    [(7,[List.replicate 20 6,[1]])] (Stream'.const 0) UInt32.toNat
  obtain ⟨inbox,hrecv,hlocal,hshared⟩ := hall mixedArrivals fun x hx => ⟨hgen x hx,hauth x hx⟩
  have hout : (out.toPeers 7).getD [] = [wireOf 1 0 (List.replicate 20 6),wireOf 1 1 [1]] := by
    have hrun : (onePeer.send [(7,[List.replicate 20 6,[1]])] .default (Stream'.const 0)).toOption.map
        (fun r => (r.1.toPeers 7).getD []) = some [wireOf 1 0 (List.replicate 20 6),wireOf 1 1 [1]] := by
      decide +kernel
    rw [hsend] at hrun
    exact Option.some.inj hrun
  refine ⟨inbox,hrecv,?_,?_⟩
  · rw [hshared 7 1 (Peer.new 7 (uniformConfig 12 1) .aes128Gcm) (Peer.new 1 (uniformConfig 10 1) .aes128Gcm)
      rfl rfl rfl (by rw [hout]; decide +kernel)]
    decide +kernel
  · rw [hlocal 2]
    decide +kernel

end
end Tailnet.Shadowvpn

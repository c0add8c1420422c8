import Tailnet.Derp.Stream

/-! The client of a DERP server: packets are sent in frames, and received frames are handled one after
the other until one of them is a packet. -/
namespace Tailnet.Derp
open List RawFrame Nat

inductive Error
  | frame (e : FrameError)
  | ioFailure (e : IoError)
  | unexpectedRecvFrameType (t : FrameType)
  deriving DecidableEq, Repr

inductive PeerGoneReason
  | disconnected
  | notHere
  deriving DecidableEq, Repr

def PeerGoneReason.tryFrom (v : UInt8) : Except FrameError PeerGoneReason :=
  match v with
  | 0 => .ok .disconnected
  | 1 => .ok .notHere
  | _ => .error (.invalidPeerGoneReason v)

/-- The sending half of the connection: the bytes written, and how the next flushes of them end; those
after that succeed. -/
structure Writer where
  written : List UInt8
  flushes : List (Except IoError Unit)

namespace Client

def sendFrameWithExtra (frame : Body) (additionalPayload : List UInt8) (w : Writer) :
    Result (Except Error Unit × Writer) := do
  match ← RawFrame.fromBody frame additionalPayload.length with
  | .error e => return (.error (.frame e),w)
  | .ok raw =>
    let (r,written) ← Codec.encode (raw,additionalPayload) w.written
    match r with
    | .error e => return (.error (.ioFailure e),{ w with written })
    | .ok () =>
      match w.flushes with
      | .error e::flushes => return (.error (.ioFailure e),⟨written,flushes⟩)
      | flushes => return (.ok (),⟨written,flushes.tail⟩)

def sendFrame (frame : Body) (w : Writer) : Result (Except Error Unit × Writer) :=
  sendFrameWithExtra frame [] w

def sendOne (nodeKey : Bytes 32) (msg : List UInt8) (w : Writer) : Result (Except Error Unit × Writer) :=
  sendFrameWithExtra ⟨.sendPacket,nodeKey⟩ msg w

/-- The body of the loop of `recv_one`: what it returns, if it does not go on. The reason of a peer to be
gone is read only when it is logged. -/
def handle (debug : Bool) (frame : RawFrame) (w : Writer) :
    Result (Option (Except Error (Bytes 32 × List UInt8)) × Writer) :=
  match frame.header.typ with
  | .keepAlive => .ok (none,w)
  | .ping =>
    match frame.asType .ping with
    | none => .ok (none,w)
    | some (ping,_) => do
      let (r,w) ← sendFrame ⟨.pong,ping⟩ w
      match r with
      | .error e => return (some (.error e),w)
      | .ok () => return (none,w)
  | .peerGone => do
    let (gone,_) ← Result.unwrap (frame.asType .peerGone)
    if debug then
      match PeerGoneReason.tryFrom gone.last with
      | .error e => return (some (.error (.frame e)),w)
      | .ok _ => return (none,w)
    else return (none,w)
  | .recvPacket => do
    let (src,payload) ← Result.unwrap (frame.asType .recvPacket)
    return (some (.ok (src,payload)),w)
  | t => .ok (some (.error (.unexpectedRecvFrameType t)),w)

/-- The frames and errors that the stream is going to yield, until it ends. -/
abbrev Incoming := List (Except IoError RawFrame)

def recvOne (debug : Bool) : Incoming → Writer → Result (Except Error (Bytes 32 × List UInt8) × Incoming × Writer)
  | [],w => .ok (.error (.ioFailure (.unexpectedEof "derp stream ended")),[],w)
  | .error e::stream,w => .ok (.error (.ioFailure e),stream,w)
  | .ok frame::stream,w => do
    let (r,w) ← handle debug frame w
    match r with
    | some r => return (r,stream,w)
    | none => recvOne debug stream w

/-- A frame whose body is shorter than its type requires, and is unwrapped. -/
def Short (frame : RawFrame) : Prop :=
  (frame.header.typ = .peerGone ∨ frame.header.typ = .recvPacket) ∧
    frame.rawBody.length < frame.header.typ.bodySize

/-- A well-formed frame is handled as its type requires, and no packet comes from any other. -/
structure Treated (frame : RawFrame) (w : Writer) (r : Option (Except Error (Bytes 32 × List UInt8)))
    (w' : Writer) : Prop where
  malformed : frame.rawBody.length < frame.header.typ.bodySize → r = none ∨ ∃ e, r = some (.error e)
  packet : ∀ (src : Bytes 32) payload, frame.header.typ = .recvPacket → frame.rawBody = src.toList ++ payload →
    r = some (.ok (src,payload))
  ping : ∀ (ping : Bytes 8) rest, frame.header.typ = .ping → frame.rawBody = ping.toList ++ rest →
    w'.written = w.written ++ (RawHeader.asBytes ⟨FrameType.pong.toByte,8⟩ ++ ping.toList)
  other : frame.header.typ ∉ [.keepAlive,.ping,.peerGone,.recvPacket] →
    r = some (.error (.unexpectedRecvFrameType frame.header.typ))

variable {debug : Bool} {frame : RawFrame} {w : Writer}

theorem sendFrame_pong (ping : Bytes 8) (w : Writer) :
    ∃ r w', sendFrame ⟨.pong,ping⟩ w = .ok (r,w') ∧
      w'.written = w.written ++ (RawHeader.asBytes ⟨FrameType.pong.toByte,8⟩ ++ ping.toList) := by
  have hbuild : RawFrame.fromBody ⟨.pong,ping⟩ 0 = .ok (.ok ⟨⟨.pong,8,by decide⟩,ping.toList⟩) := by
    rw [fromBody_eq (show 8 + 0 < 2^64 by decide)]
    rfl
  have hfits : Codec.Fits (⟨⟨.pong,8,by decide⟩,ping.toList⟩,[]) := by
    simp [Codec.Fits,Codec.received]
  have hencode := Codec.encode_of_fits hfits w.written
  rw [Codec.wire,Codec.received,append_nil] at hencode
  simp only [sendFrame,sendFrameWithExtra,length_nil,hbuild,hencode,Result.bind_of_ok]
  split
  · exact ⟨_,_,rfl,rfl⟩
  · exact ⟨_,_,rfl,rfl⟩

theorem asType_of_le {typ : FrameType} (htyp : frame.header.typ = typ)
    (hlen : typ.bodySize ≤ frame.rawBody.length) :
    ∃ b rest, frame.asType typ = some (b,rest) ∧ frame.rawBody = b.toList ++ rest := by
  have hread : frame.asType typ = Bytes.read typ.bodySize frame.rawBody := by
    rw [RawFrame.asType,if_neg (not_not.mpr htyp)]
  rw [hread,Bytes.read,dif_pos hlen]
  exact ⟨_,_,rfl,(take_append_drop _ _).symm⟩

theorem asType_of_lt {typ : FrameType} (hlen : frame.rawBody.length < typ.bodySize) :
    frame.asType typ = none := by
  rw [RawFrame.asType,Bytes.read,dif_neg (not_le.mpr hlen)]
  split <;> rfl

theorem front_unique {n : ℕ} {a b : Bytes n} {l l' : List UInt8} (h : a.toList ++ l = b.toList ++ l') :
    a = b ∧ l = l' := by
  have hread := Bytes.read_append a l
  rw [h,Bytes.read_append] at hread
  obtain ⟨rfl,rfl⟩ := Prod.mk.inj (Option.some.inj hread)
  exact ⟨rfl,rfl⟩

theorem handle_short (h : Short frame) (w : Writer) : handle debug frame w = .error .unwrapNone := by
  obtain ⟨htyp | htyp,hlen⟩ := h
  · rw [htyp] at hlen
    simp only [handle,htyp,asType_of_lt hlen]
    rfl
  · rw [htyp] at hlen
    simp only [handle,htyp,asType_of_lt hlen]
    rfl

/-- Every frame that is not too short to be unwrapped is treated as it should be. -/
theorem handle_treated (debug : Bool) (h : ¬ Short frame) (w : Writer) :
    ∃ r w', handle debug frame w = .ok (r,w') ∧ Treated frame w r w' := by
  cases htyp : frame.header.typ with
  | keepAlive =>
    refine ⟨none,w,by simp [handle,htyp],fun _ => .inl rfl,?_,?_,?_⟩ <;> simp [htyp]
  | ping =>
    by_cases hlen : frame.rawBody.length < FrameType.ping.bodySize
    · refine ⟨none,w,by simp [handle,htyp,asType_of_lt hlen],fun _ => .inl rfl,by simp [htyp],?_,by simp [htyp]⟩
      intro ping rest _ hbody
      rw [hbody,length_append,ping.toList_length] at hlen
      exact absurd hlen (not_lt.mpr (le_add_right 8 rest.length))
    · obtain ⟨ping,rest,hread,hbody⟩ := asType_of_le htyp (not_lt.mp hlen)
      obtain ⟨r,w',hsend,hwritten⟩ := sendFrame_pong ping w
      have hpong : ∀ (ping' : Bytes 8) rest', frame.header.typ = .ping → frame.rawBody = ping'.toList ++ rest' →
          w'.written = w.written ++ (RawHeader.asBytes ⟨FrameType.pong.toByte,8⟩ ++ ping'.toList) := by
        intro ping' rest' _ hbody'
        obtain ⟨rfl,-⟩ := front_unique (hbody.symm.trans hbody')
        exact hwritten
      cases r with
      | error e =>
        exact ⟨some (.error e),w',by simp [handle,htyp,hread,hsend],fun _ => .inr ⟨e,rfl⟩,by simp [htyp],hpong,
          by simp [htyp]⟩
      | ok _ =>
        exact ⟨none,w',by simp [handle,htyp,hread,hsend],fun _ => .inl rfl,by simp [htyp],hpong,by simp [htyp]⟩
  | peerGone =>
    have hlen : FrameType.peerGone.bodySize ≤ frame.rawBody.length :=
      not_lt.mp fun hlt => h ⟨.inl htyp,htyp ▸ hlt⟩
    obtain ⟨gone,rest,hread,-⟩ := asType_of_le htyp hlen
    have hgone : ∃ r, handle debug frame w = .ok (r,w) ∧ (r = none ∨ ∃ e, r = some (.error e)) := by
      simp only [handle,htyp,hread,Result.unwrap,Result.bind_of_ok]
      cases debug with
      | false => exact ⟨none,rfl,.inl rfl⟩
      | true =>
        cases PeerGoneReason.tryFrom gone.last with
        | error e => exact ⟨_,rfl,.inr ⟨_,rfl⟩⟩
        | ok _ => exact ⟨none,rfl,.inl rfl⟩
    obtain ⟨r,hr,hcases⟩ := hgone
    exact ⟨r,w,hr,fun _ => hcases,by simp [htyp],by simp [htyp],by simp [htyp]⟩
  | recvPacket =>
    have hlen : FrameType.recvPacket.bodySize ≤ frame.rawBody.length :=
      not_lt.mp fun hlt => h ⟨.inr htyp,htyp ▸ hlt⟩
    obtain ⟨src,payload,hread,hbody⟩ := asType_of_le htyp hlen
    refine ⟨some (.ok (src,payload)),w,by simp [handle,htyp,hread,Result.unwrap],fun hlt => ?_,?_,by simp [htyp],
      by simp [htyp]⟩
    · rw [htyp] at hlt
      omega
    · intro src' payload' _ hbody'
      obtain ⟨rfl,rfl⟩ := front_unique (hbody.symm.trans hbody')
      rfl
  | serverKey | clientInfo | serverInfo | sendPacket | forwardPacket | notePreferred | peerPresent
  | watchConns | closePeer | pong | health | restarting =>
    refine ⟨some (.error (.unexpectedRecvFrameType frame.header.typ)),w,by simp [handle,htyp],
      fun _ => .inr ⟨_,rfl⟩,?_,?_,fun _ => rfl⟩ <;> simp [htyp]

/-- A call of the client, with the state of its connection. -/
def run (debug : Bool) : Unit → Incoming × Writer →
    Result (Except Error (Bytes 32 × List UInt8) × Incoming × Writer) :=
  fun _ s => recvOne debug s.1 s.2

/-- A call takes frames off the stream, and does not panic without a short one. -/
theorem recvOne_of_not_short (debug : Bool) {stream : Incoming} (h : ∀ frame, .ok frame ∈ stream → ¬ Short frame)
    (w : Writer) : ∃ r stream' w', recvOne debug stream w = .ok (r,stream',w') ∧ stream' <:+ stream := by
  induction stream generalizing w with
  | nil => exact ⟨_,[],w,rfl,suffix_refl []⟩
  | cons item stream ih =>
    cases item with
    | error e => exact ⟨_,stream,w,rfl,suffix_cons _ _⟩
    | ok frame =>
      obtain ⟨r,w1,hhandle,-⟩ := handle_treated debug (h frame mem_cons_self) w
      cases r with
      | some r => exact ⟨r,stream,w1,by simp [recvOne,hhandle],suffix_cons _ _⟩
      | none =>
        obtain ⟨r,stream',w',hrest,hsuffix⟩ := ih (fun frame hframe => h frame (mem_cons_of_mem _ hframe)) w1
        exact ⟨r,stream',w',by simp [recvOne,hhandle,hrest],hsuffix.trans (suffix_cons _ _)⟩

/-- A short frame is reached by some call. -/
theorem exists_panic (debug : Bool) {stream : Incoming} {frame : RawFrame} (hframe : .ok frame ∈ stream) (hshort : Short frame)
    (w : Writer) : ∃ n p, runAll (run debug) (List.replicate n ()) (stream,w) = .error p := by
  induction stream generalizing w with
  | nil => cases hframe
  | cons item stream ih =>
    have hafter : ∀ r w', recvOne debug (item::stream) w = .ok (r,stream,w') → .ok frame ∈ stream →
        ∃ n p, runAll (run debug) (List.replicate n ()) (item::stream,w) = .error p := by
      intro r w' hcall hmem
      obtain ⟨n,p,hn⟩ := ih hmem w'
      refine ⟨n+1,p,?_⟩
      rw [replicate_succ,runAll,run,hcall,Result.bind_of_ok]
      simp only [hn]
      rfl
    cases item with
    | error e => exact hafter _ w rfl (by simpa using hframe)
    | ok frame' =>
      by_cases hshort' : Short frame'
      · refine ⟨1,.unwrapNone,?_⟩
        rw [replicate_one,runAll,run,recvOne,handle_short hshort']
        rfl
      · have hmem : .ok frame ∈ stream := by
          rcases mem_cons.mp hframe with heq | hmem
          · cases heq
            exact absurd hshort hshort'
          · exact hmem
        obtain ⟨r,w',hhandle,-⟩ := handle_treated debug hshort' w
        cases r with
        | some r => exact hafter r w' (by simp [recvOne,hhandle]) hmem
        | none =>
          -- the call goes on with the rest of the stream
          have hgo : recvOne debug (.ok frame'::stream) w = recvOne debug stream w' := by
            simp [recvOne,hhandle]
          obtain ⟨n,p,hn⟩ := ih hmem w'
          refine ⟨n,p,?_⟩
          cases n with
          | zero => cases hn
          | succ n =>
            rw [replicate_succ,runAll,run] at hn ⊢
            rw [hgo]
            exact hn

/-- However often the client is called, no call panics, and every frame is treated as it should be. -/
def Survives (debug : Bool) (stream : Incoming) : Prop :=
  (∀ n w, ∃ rs s, runAll (run debug) (List.replicate n ()) (stream,w) = .ok (rs,s)) ∧
    ∀ frame, .ok frame ∈ stream → ∀ w, ∃ r w', handle debug frame w = .ok (r,w') ∧ Treated frame w r w'

theorem survives_iff (debug : Bool) (stream : Incoming) :
    Survives debug stream ↔ ∀ frame, .ok frame ∈ stream → ¬ Short frame := by
  constructor
  · rintro ⟨hruns,-⟩ frame hframe hshort
    obtain ⟨n,p,hn⟩ := exists_panic debug hframe hshort ⟨[],[]⟩
    obtain ⟨rs,s,hrun⟩ := hruns n ⟨[],[]⟩
    rw [hn] at hrun
    cases hrun
  · intro h
    refine ⟨fun n w => ?_,fun frame hframe w => handle_treated debug (h frame hframe) w⟩
    have hstep : ∀ (i : Unit) (s : Incoming × Writer), (∀ frame, .ok frame ∈ s.1 → ¬ Short frame) →
        ∃ o s', run debug i s = .ok (o,s') ∧ ∀ frame, .ok frame ∈ s'.1 → ¬ Short frame := by
      intro _ s hs
      obtain ⟨r,stream',w',hcall,hsuffix⟩ := recvOne_of_not_short debug hs s.2
      exact ⟨r,(stream',w'),hcall,fun frame hframe => hs frame (hsuffix.subset hframe)⟩
    obtain ⟨rs,s,hrun,-⟩ := runAll_total hstep (List.replicate n ()) (s := (stream,w)) h
    exact ⟨rs,s,hrun⟩

/-- However the bytes of the server are cut, the decoder returns, and the client survives what it yields
iff there is no short frame in it. -/
theorem bytes_survived_iff (debug : Bool) (events : List (Framing.Event UInt8)) :
    ∃ os s, runAll (Framing.Event.run Codec.decode) events ((),[]) = .ok (os,s) ∧
      (Survives debug (Framing.yields os) ↔ ∀ frame, .ok frame ∈ Framing.yields os → ¬ Short frame) := by
  have hstep : ∀ (e : Framing.Event UInt8) (s : Unit × List UInt8), True →
      ∃ o s', Framing.Event.run Codec.decode e s = .ok (o,s') ∧ True := by
    intro e s _
    cases e with
    | append chunk => exact ⟨_,_,rfl,trivial⟩
    | decode => exact ⟨_,_,by rw [Framing.Event.run,Codec.decode_eq]; rfl,trivial⟩
  obtain ⟨os,s,hrun,-⟩ := runAll_total hstep events (s := ((),[])) trivial
  exact ⟨os,s,hrun,survives_iff debug _⟩

/-- A frame that says that a peer is gone, without the peer, makes the client panic. -/
theorem short_peerGone_panics :
    ∃ os s, runAll (Framing.Event.run Codec.decode) [.append [8,0,0,0,0],.decode] ((),[]) = .ok (os,s) ∧
      recvOne true (Framing.yields os) ⟨[],[]⟩ = .error .unwrapNone :=
  ⟨_,_,rfl,rfl⟩

/-- A payload of `n` bytes is sent iff it is not too long, to every peer. -/
def SendContract (n : ℕ) : Prop :=
  ∀ key : Bytes 32, ∃ r, RawFrame.fromBody ⟨.sendPacket,key⟩ n = .ok r ∧
    (n ≤ maxPacketSize → ∃ frame, r = .ok frame ∧ frame.header.len = 32 + n) ∧
    (maxPacketSize < n → ∃ e, r = .error e)

/-- A payload of `n` bytes that is not too long is received, from every peer. -/
def RecvContract (n : ℕ) : Prop :=
  n ≤ maxPacketSize → ∀ (src : Bytes 32) (payload rest : List UInt8), payload.length = n →
    ∃ frame, Codec.decode () (RawHeader.asBytes ⟨FrameType.recvPacket.toByte,32 + n⟩ ++ (src.toList ++ payload) ++ rest) =
        .ok (.ok (some frame),(),rest) ∧
      ∀ debug stream w, ∃ w', recvOne debug (.ok frame::stream) w = .ok (.ok (src,payload),stream,w')

theorem sendContract_iff (n : ℕ) :
    SendContract n ↔ n + 32 ≤ maxPacketSize ∨
      maxPacketSize < n ∧ n + 32 < 2^64 ∧ maxPacketSize < (n + 32)%2^32 := by
  have hmax : maxPacketSize = 65536 := rfl
  rw [add_comm n 32]
  by_cases hbig : 32 + n < 2^64
  · have hbody (key : Bytes 32) : RawFrame.fromBody ⟨.sendPacket,key⟩ n =
        .ok (if hlen : (32 + n)%2^32 ≤ maxPacketSize then .ok ⟨⟨.sendPacket,(32 + n)%2^32,hlen⟩,key.toList⟩
          else .error (.invalidPacketLength ((32 + n)%2^32))) := fromBody_eq hbig
    constructor
    · intro h
      obtain ⟨r,hr,hok,herr⟩ := h (List.Vector.replicate 32 0)
      rcases lt_or_ge maxPacketSize n with hn | hn
      · obtain ⟨e,rfl⟩ := herr hn
        refine .inr ⟨hn,hbig,not_le.mp fun hle => ?_⟩
        rw [hbody,dif_pos hle] at hr
        cases hr
      · obtain ⟨frame,-,hlen⟩ := hok hn
        exact .inl (hlen ▸ frame.header.len_le)
    · rintro (h | ⟨hn,-,hcut⟩) key
      · have hmod : (32 + n)%2^32 = 32 + n := mod_eq_of_lt (by omega)
        refine ⟨_,hbody key,fun _ => ?_,fun hn => by omega⟩
        rw [dif_pos (show (32 + n)%2^32 ≤ maxPacketSize by omega)]
        exact ⟨_,rfl,hmod⟩
      · refine ⟨_,hbody key,fun hn' => by omega,fun _ => ?_⟩
        rw [dif_neg (not_le.mpr hcut)]
        exact ⟨_,rfl⟩
  · constructor
    · intro h
      obtain ⟨r,hr,-⟩ := h (List.Vector.replicate 32 0)
      rw [fromBody_overflow (not_lt.mp hbig)] at hr
      cases hr
    · rintro (h | ⟨-,hsmall,-⟩)
      · omega
      · exact absurd hsmall hbig

theorem recvContract_iff (n : ℕ) : RecvContract n ↔ n + 32 ≤ maxPacketSize ∨ maxPacketSize < n := by
  have hmax : maxPacketSize = 65536 := rfl
  constructor
  · intro h
    by_contra hn
    obtain ⟨frame,hdecode,-⟩ := h (by omega) (List.Vector.replicate 32 0) (List.replicate n 0) []
      length_replicate
    rw [Codec.decode_eq_some_iff,append_assoc] at hdecode
    have hread := RawHeader.refFromPrefix_asBytes (h := ⟨FrameType.recvPacket.toByte,32 + n⟩)
      (show 32 + n < 2^32 by omega) (((List.Vector.replicate 32 (0 : UInt8)).toList ++ List.replicate n 0) ++ [])
    cases hheader : Header.tryFrom ⟨FrameType.recvPacket.toByte,32 + n⟩ with
    | error e =>
      rw [parse_of_error hread hheader] at hdecode
      cases hdecode
    | ok header =>
      have hlen : header.len = 32 + n := Header.len_of_tryFrom hheader
      have hle := header.len_le
      omega
  · rintro (h | h) hle src payload rest hpayload
    · have hfits : Codec.Fits (⟨⟨.recvPacket,32 + n,by omega⟩,src.toList⟩,payload) := by
        simp [Codec.Fits,Codec.received,hpayload]
      refine ⟨_,(Codec.isFrame_wire hfits).whole rest,fun debug stream w => ?_⟩
      have hlong : ¬ Short (Codec.received (⟨⟨.recvPacket,32 + n,by omega⟩,src.toList⟩,payload)) := by
        rintro ⟨-,hshort⟩
        rw [Codec.received,length_append,src.toList_length] at hshort
        exact absurd hshort (not_lt.mpr (le_add_right 32 _))
      obtain ⟨r,w',hhandle,htreated⟩ := handle_treated debug hlong w
      obtain rfl := htreated.packet src payload rfl rfl
      exact ⟨w',by simp [recvOne,hhandle]⟩
    · omega

/-- Payloads are sent and received up to the documented length, and longer ones are refused, for exactly
those lengths where the body makes no difference and the length is not cut. -/
theorem payload_contract_iff (n : ℕ) :
    SendContract n ∧ RecvContract n ↔ n + 32 ≤ maxPacketSize ∨
      maxPacketSize < n ∧ n + 32 < 2^64 ∧ maxPacketSize < (n + 32)%2^32 := by
  rw [sendContract_iff,recvContract_iff]
  tauto

/-- The longest payload is refused on both sides, and one of four gigabytes is accepted. -/
theorem longest_payload_refused :
    (∃ e, RawFrame.fromBody ⟨.sendPacket,List.Vector.replicate 32 0⟩ maxPacketSize = .ok (.error e)) ∧
      ¬ RecvContract maxPacketSize ∧
      ∃ frame, RawFrame.fromBody ⟨.sendPacket,List.Vector.replicate 32 0⟩ (2^32 - 32) = .ok (.ok frame) := by
  refine ⟨?_,mt (recvContract_iff _).mp (by decide),?_⟩
  · rw [fromBody_eq (by decide),dif_neg (by decide)]
    exact ⟨_,rfl⟩
  · rw [fromBody_eq (by decide),dif_pos (by decide)]
    exact ⟨_,rfl⟩

end Client
end Tailnet.Derp

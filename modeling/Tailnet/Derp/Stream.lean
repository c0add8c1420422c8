import Tailnet.Derp.Frame

/-! Streams of frames. The decoder of the codec does what the parser of a frame does, and waits while
there is none. Frames that were built from a body and a payload come out of the decoder as they were
put in, unless the payload is so long that the length in the header was cut. -/
namespace Tailnet.Derp
open List Header RawFrame

/-- A whole frame is at the front of the buffer. -/
def Complete (src : List UInt8) : Prop :=
  ∃ raw rest, RawHeader.refFromPrefix src = some (raw,rest) ∧ raw.len ≤ rest.length

namespace Codec
variable {src : List UInt8}

/-- What the decoder returns, by what the parser returns. -/
def answer (src : List UInt8) :
    Except FrameError (RawFrame × List UInt8) → Except IoError (Option RawFrame) × Unit × List UInt8
  | .ok (frame,rest) => (.ok (some frame),(),rest)
  | .error .invalidFrameHeader => (.ok none,(),src)
  | .error .incompleteFrame => (.ok none,(),src)
  | .error e => (.error (.frame e),(),src)

theorem decode_eq (src : List UInt8) : decode () src = .ok (answer src (RawFrame.parse src)) := by
  cases hread : RawHeader.refFromPrefix src with
  | none =>
    have hshort := RawHeader.refFromPrefix_eq_none.mp hread
    simp [decode,hshort,RawFrame.parse,hread,answer]
  | some p =>
    obtain ⟨raw,rest⟩ := p
    obtain ⟨hrest,hlen⟩ := RawHeader.eq_drop_of_refFromPrefix hread
    have hlong : ¬ src.length < RawHeader.size := by omega
    cases hheader : Header.tryFrom raw with
    | error e =>
      rw [parse_of_error hread hheader]
      simp only [decode,if_neg hlong,hread,hheader]
      rcases tryFrom_eq_error hheader with rfl | rfl <;> rfl
    | ok header =>
      have hsub : Result.sub src.length rest.length = .ok RawHeader.size := by
        rw [hlen,Result.sub_of_le (Nat.le_add_left _ _),Nat.add_sub_cancel]
      have hdecode : decode () src = if src.length < RawHeader.size + header.len then .ok (.ok none,(),src)
          else .ok (.ok (some ⟨header,rest.take header.len⟩),(),rest.drop header.len) := by
        simp only [decode,if_neg hlong,hread,hheader,hsub,Result.bind_of_ok,← hrest]
        rfl
      rw [hdecode,parse_of_header hread hheader]
      by_cases hle : header.len ≤ rest.length
      · rw [if_pos hle,if_neg (by omega)]
        rfl
      · rw [if_neg hle,if_pos (by omega)]
        rfl

/-- The decoder agrees with the parser on every buffer. -/
theorem decode_eq_some_iff {frame : RawFrame} {rest : List UInt8} :
    decode () src = .ok (.ok (some frame),(),rest) ↔ RawFrame.parse src = .ok (frame,rest) := by
  rw [decode_eq]
  constructor
  · intro h
    cases hparse : RawFrame.parse src with
    | ok p =>
      rw [hparse] at h
      cases h
      rfl
    | error e =>
      rw [hparse] at h
      cases e <;> cases h
  · intro h
    rw [h]
    rfl

theorem complete_of_parse {frame : RawFrame} {rest : List UInt8}
    (h : RawFrame.parse src = .ok (frame,rest)) : Complete src := by
  cases hread : RawHeader.refFromPrefix src with
  | none =>
    rw [RawFrame.parse,hread] at h
    cases h
  | some p =>
    obtain ⟨raw,rest'⟩ := p
    refine ⟨raw,rest',hread,?_⟩
    cases hheader : Header.tryFrom raw with
    | error e =>
      rw [parse_of_error hread hheader] at h
      cases h
    | ok header =>
      rw [← len_of_tryFrom hheader]
      by_contra hle
      rw [parse_of_header hread hheader,if_neg hle] at h
      cases h

/-- The decoder waits only while no frame is complete. -/
theorem not_complete_of_decode (h : decode () src = .ok (.ok none,(),src)) : ¬ Complete src := by
  rintro ⟨raw,rest,hread,hle⟩
  rw [decode_eq] at h
  cases hheader : Header.tryFrom raw with
  | error e =>
    rw [parse_of_error hread hheader] at h
    rcases tryFrom_eq_error hheader with rfl | rfl <;> cases h
  | ok header =>
    rw [parse_of_header hread hheader,if_pos (len_of_tryFrom hheader ▸ hle)] at h
    cases h

/-- A frame as it is received: its payload is part of its body. -/
def received (item : RawFrame × List UInt8) : RawFrame := ⟨item.1.header,item.1.rawBody ++ item.2⟩

def wire (item : RawFrame × List UInt8) : List UInt8 :=
  (RawHeader.ofHeader item.1.header).asBytes ++ (received item).rawBody

variable {item : RawFrame × List UInt8}

/-- The header of the frame has the length of its body and payload. -/
def Fits (item : RawFrame × List UInt8) : Prop := item.1.header.len = (received item).rawBody.length

theorem encode_of_fits (h : Fits item) (dst : List UInt8) : encode item dst = .ok (.ok (),dst ++ wire item) := by
  have hlen : item.1.header.len = item.1.rawBody.length + item.2.length := by
    rw [h,received,length_append]
  simp [encode,Result.assert,RawHeader.ofHeader,hlen,wire,received]

theorem encode_eq_error (h : ¬ Fits item) (dst : List UInt8) : encode item dst = .error .assertion := by
  have hlen : ¬ item.1.header.len = item.1.rawBody.length + item.2.length := by
    rwa [← length_append]
  simp [encode,Result.assert,RawHeader.ofHeader,hlen]

theorem refFromPrefix_wire (item : RawFrame × List UInt8) (rest : List UInt8) :
    RawHeader.refFromPrefix (wire item ++ rest) =
      some (.ofHeader item.1.header,(received item).rawBody ++ rest) := by
  have hsmall : (RawHeader.ofHeader item.1.header).len < 2^32 :=
    lt_of_le_of_lt item.1.header.len_le (by decide)
  rw [wire,append_assoc,RawHeader.refFromPrefix_asBytes hsmall]

theorem isFrame_wire (h : Fits item) : Framing.IsFrame decode () (wire item) (received item) () := by
  constructor
  · intro rest
    rw [decode_eq_some_iff,parse_of_header (refFromPrefix_wire item rest) (tryFrom_ofHeader _),
      if_pos (by rw [h,length_append]; omega),h,take_left,drop_left]
    rfl
  · intro p q hq hpq
    have hpos : 0 < q.length := length_pos_of_ne_nil hq
    rw [decode_eq]
    cases hread : RawHeader.refFromPrefix p with
    | none =>
      rw [RawFrame.parse,hread]
      rfl
    | some r =>
      obtain ⟨raw,rest⟩ := r
      -- the header is whole, so it is the one of the frame
      have hwire := refFromPrefix_wire item []
      rw [append_nil,hpq,RawHeader.refFromPrefix_append hread q,append_nil] at hwire
      obtain ⟨rfl,hrest⟩ := Prod.mk.inj (Option.some.inj hwire)
      have hshort : ¬ item.1.header.len ≤ rest.length := by
        rw [h,← hrest,length_append]
        omega
      rw [parse_of_header hread (tryFrom_ofHeader _),if_neg hshort]
      rfl

variable {items : List (RawFrame × List UInt8)}

theorem carries_wire (h : ∀ item ∈ items, Fits item) :
    Framing.Carries decode () (items.map received) (items.flatMap wire) := by
  induction items with
  | nil => exact .nil rfl
  | cons item items ih =>
    exact .cons (isFrame_wire (h item mem_cons_self))
      (ih fun item hitem => h item (mem_cons_of_mem _ hitem))

theorem runAll_encode (h : ∀ item ∈ items, Fits item) (dst : List UInt8) :
    runAll encode items dst = .ok (items.map fun _ => .ok (),dst ++ items.flatMap wire) := by
  induction items generalizing dst with
  | nil => simp [runAll]
  | cons item items ih =>
    have hrest := ih (fun item hitem => h item (mem_cons_of_mem _ hitem)) (dst ++ wire item)
    rw [append_assoc] at hrest
    exact runAll_cons (encode_of_fits (h item mem_cons_self) dst) hrest

theorem fits_of_runAll_encode {dst dst' : List UInt8}
    {rs : List (Except IoError Unit)} (h : runAll encode items dst = .ok (rs,dst')) :
    ∀ item ∈ items, Fits item := by
  induction items generalizing dst rs with
  | nil => exact fun _ hitem => absurd hitem not_mem_nil
  | cons item items ih =>
    have hfits : Fits item := by
      by_contra hfits
      rw [runAll,encode_eq_error hfits] at h
      cases h
    rw [runAll,encode_of_fits hfits,Result.bind_of_ok] at h
    obtain ⟨⟨rs',dst1⟩,hrun,heq⟩ := Result.bind_eq_ok.mp h
    cases heq
    exact forall_mem_cons.mpr ⟨hfits,ih hrun⟩

/-- At a call of the decoder it waits, without taking anything, iff no frame is complete, and it agrees
with the parser. -/
def CallRight (s : Unit × List UInt8) : Prop :=
  (decode s.1 s.2 = .ok (.ok none,s) ↔ ¬ Complete s.2) ∧
    ∀ frame rest, decode s.1 s.2 = .ok (.ok (some frame),(),rest) ↔ RawFrame.parse s.2 = .ok (frame,rest)

theorem callRight_of_carries (st : Unit) (is : List RawFrame) (buf rest : List UInt8)
    (h : Framing.Carries decode st is (buf ++ rest)) : CallRight (st,buf) := by
  refine ⟨⟨not_complete_of_decode,fun hcomplete => ?_⟩,fun _ _ => decode_eq_some_iff⟩
  rcases h.decode with ⟨hwait,-⟩ | ⟨i,is',st',buf',-,hsome,-⟩
  · exact hwait
  · exact absurd (complete_of_parse (decode_eq_some_iff.mp hsome)) hcomplete

/-- The frames come out of the decoder as they were put in, however the bytes are cut and whenever it is
called. -/
def RoundTrips (items : List (RawFrame × List UInt8)) : Prop :=
  ∃ bytes, runAll encode items [] = .ok (items.map fun _ => .ok (),bytes) ∧
    ∀ events n, events.flatMap Framing.Event.bytes = bytes → items.length ≤ n →
      AtEveryState (Framing.Event.run decode) CallRight (events ++ List.replicate n .decode) ((),[]) ∧
      ∃ os, runAll (Framing.Event.run decode) (events ++ List.replicate n .decode) ((),[]) = .ok (os,(),[]) ∧
        Framing.NoError os ∧ Framing.items os = items.map received

theorem roundTrips_of_fits (h : ∀ item ∈ items, Fits item) : RoundTrips items := by
  have hcarries := carries_wire h
  refine ⟨items.flatMap wire,by simpa using runAll_encode h [],fun events n hbytes hn => ?_⟩
  rw [← hbytes] at hcarries
  constructor
  · have hall : Framing.Carries decode () (items.map received)
        ([] ++ ((events ++ List.replicate n Framing.Event.decode).flatMap Framing.Event.bytes ++ [])) := by
      simpa using hcarries
    exact hall.atEveryState callRight_of_carries
  · obtain ⟨os,_,hrun,herr,hitems⟩ := hcarries.exhaust events (n := n) (by simpa using hn)
    exact ⟨os,hrun,herr,hitems⟩

/-- A frame was built from a body for the payload. -/
def Built (item : RawFrame × List UInt8) : Prop :=
  ∃ body, RawFrame.fromBody body item.2.length = .ok (.ok item.1)

/-- The length of a frame that was built is the one of its body and payload, cut to four bytes. -/
theorem Built.header (h : Built item) :
    item.1.header.len = (received item).rawBody.length%2^32 := by
  obtain ⟨body,hbody⟩ := h
  obtain ⟨hraw,-,hlen⟩ := fromBody_eq_ok hbody
  rw [hlen,received,length_append,hraw]

theorem Built.fits_iff (h : Built item) : Fits item ↔ item.1.rawBody.length + item.2.length < 2^32 := by
  rw [Fits,h.header,received,length_append,Nat.mod_eq_iff_lt (by decide)]

/-- Frames that were built go through the codec iff no length was cut. -/
theorem roundTrips_iff (items : List (RawFrame × List UInt8)) (hbuilt : ∀ item ∈ items, Built item) :
    RoundTrips items ↔ ∀ item ∈ items, item.1.rawBody.length + item.2.length < 2^32 := by
  constructor
  · rintro ⟨bytes,hencode,-⟩ item hitem
    exact (hbuilt item hitem).fits_iff.mp (fits_of_runAll_encode hencode item hitem)
  · intro hlen
    exact roundTrips_of_fits fun item hitem => (hbuilt item hitem).fits_iff.mpr (hlen item hitem)

/-- A ping, and a packet of three bytes. -/
def twoFrames : List (RawFrame × List UInt8) :=
  [(⟨⟨.ping,8,by decide⟩,List.replicate 8 7⟩,[]),(⟨⟨.sendPacket,35,by decide⟩,List.replicate 32 1⟩,[1,2,3])]

theorem roundTrips_iff_twoFrames : RoundTrips twoFrames := by
  refine (roundTrips_iff twoFrames fun item hitem => ?_).mpr (by decide)
  rcases mem_pair.mp hitem with rfl | rfl
  · exact ⟨⟨.ping,List.Vector.replicate 8 7⟩,rfl⟩
  · exact ⟨⟨.sendPacket,List.Vector.replicate 32 1⟩,rfl⟩

/-- A packet whose frame has four gigabytes is built with the length zero, and is not encoded. -/
theorem cut_length_panics :
    ∃ frame, RawFrame.fromBody ⟨.sendPacket,List.Vector.replicate 32 0⟩ (2^32 - 32) = .ok (.ok frame) ∧
      encode (frame,List.replicate (2^32 - 32) 0) [] = .error .assertion ∧
      ¬ RoundTrips [(frame,List.replicate (2^32 - 32) 0)] := by
  have hframe := fromBody_eq (t := ⟨.sendPacket,List.Vector.replicate 32 0⟩) (n := 2^32 - 32) (by decide)
  rw [dif_pos (by decide)] at hframe
  refine ⟨_,hframe,?_⟩
  have hbuilt : Built (_,List.replicate (2^32 - 32) 0) :=
    ⟨_,by rw [length_replicate]; exact hframe⟩
  have hfits : ¬ Fits _ := mt hbuilt.fits_iff.mp (by
    rw [length_replicate,List.Vector.toList_length]
    decide)
  refine ⟨encode_eq_error hfits [],?_⟩
  rintro ⟨bytes,hencode,-⟩
  exact hfits (fits_of_runAll_encode hencode _ mem_cons_self)

end Codec
end Tailnet.Derp

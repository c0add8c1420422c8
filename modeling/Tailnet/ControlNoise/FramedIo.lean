import Tailnet.ControlNoise.Codec
import Tailnet.Lib.Reader

/-! The control connection as a byte stream. The records of the inner stream are read through a chunk
that is kept until it is used up; each write is encoded at once. What is written at one end is what is
read at the other. -/
namespace Tailnet.ControlNoise
open List

/-- The adapter, with what the polls of the inner stream return, one after the other, until it ends. -/
structure FramedIo (ε : Type) where
  inner : List (Poll (Except ε (List UInt8)))
  chunk : Option (List UInt8)

namespace FramedIo
variable {ε : Type}

def new (inner : List (Poll (Except ε (List UInt8)))) : FramedIo ε := ⟨inner,none⟩

def hasChunk : Option (List UInt8) → Bool
  | some chunk => 0 < chunk.length
  | none => false

def fillBuf (chunk : Option (List UInt8)) :
    List (Poll (Except ε (List UInt8))) → Poll (Except ε (List UInt8)) × FramedIo ε
  | [] => (.ready (.ok (chunk.getD [])),⟨[],chunk⟩)
  | r::inner =>
    if hasChunk chunk then (.ready (.ok (chunk.getD [])),⟨r::inner,chunk⟩)
    else
      match r with
      | .ready (.ok chunk) => fillBuf (some chunk) inner
      | .ready (.error e) => (.ready (.error e),⟨inner,chunk⟩)
      | .pending => (.pending,⟨inner,chunk⟩)

def pollFillBuf (io : FramedIo ε) : Poll (Except ε (List UInt8)) × FramedIo ε := fillBuf io.chunk io.inner

def consume (amt : ℕ) (io : FramedIo ε) : Result (FramedIo ε) :=
  if 0 < amt then
    match io.chunk with
    | some chunk => do return { io with chunk := some (← Result.sliceFrom chunk amt) }
    | none => .error (.message "No chunk present")
  else .ok io

def pollRead : Reader.Read (FramedIo ε) UInt8 ε := fun room io =>
  if room = 0 then .ok (.ready (.ok []),io)
  else
    match io.pollFillBuf with
    | (.ready (.ok buf),io) => do
      let len := min buf.length room
      return (.ready (.ok (buf.take len)),← io.consume len)
    | (.ready (.error e),io) => .ok (.ready (.error e),io)
    | (.pending,io) => .ok (.pending,io)

/-- The bytes that are still to be read. -/
def bytes (io : FramedIo ε) : List UInt8 := io.chunk.getD [] ++ io.inner.flatMap Reader.got

/-- The inner stream has the bytes to come, and no error. -/
def Holds (io : FramedIo ε) (bytes : List UInt8) : Prop :=
  (∀ e, .ready (.error e) ∉ io.inner) ∧ io.bytes = bytes

theorem fillBuf_of_hasChunk {chunk : Option (List UInt8)} (h : hasChunk chunk)
    (inner : List (Poll (Except ε (List UInt8)))) :
    fillBuf chunk inner = (.ready (.ok (chunk.getD [])),⟨inner,chunk⟩) := by
  cases inner with
  | nil => rfl
  | cons r inner => rw [fillBuf.eq_def]; simp [h]

/-- What is filled is the front of the bytes to come, and empty only at their end. -/
theorem fillBuf_holds {inner : List (Poll (Except ε (List UInt8)))} (chunk : Option (List UInt8))
    {bytes : List UInt8} (h : Holds ⟨inner,chunk⟩ bytes) :
    (∃ io, fillBuf chunk inner = (.pending,io) ∧ io.Holds bytes) ∨
    ∃ buf io, fillBuf chunk inner = (.ready (.ok buf),io) ∧ io.Holds bytes ∧ io.chunk.getD [] = buf ∧
      (buf = [] → bytes = []) := by
  induction inner generalizing chunk with
  | nil =>
    refine .inr ⟨chunk.getD [],⟨[],chunk⟩,rfl,h,rfl,fun hnil => ?_⟩
    simpa [FramedIo.bytes,hnil] using h.2.symm
  | cons r inner ih =>
    by_cases hchunk : hasChunk chunk
    · rw [fillBuf_of_hasChunk hchunk]
      refine .inr ⟨chunk.getD [],⟨r::inner,chunk⟩,rfl,h,rfl,fun hnil => ?_⟩
      cases chunk <;> simp_all [hasChunk]
    · rw [fillBuf.eq_def]
      simp only [if_neg hchunk]
      have hempty : chunk.getD [] = [] := by
        cases chunk <;> simp_all [hasChunk]
      have herr : ∀ e, .ready (.error e) ∉ inner := fun e he => h.1 e (mem_cons_of_mem r he)
      match r with
      | .ready (.ok chunk') =>
        refine ih (some chunk') ⟨herr,?_⟩
        simpa [FramedIo.bytes,hempty,Reader.got] using h.2
      | .ready (.error e) => exact absurd mem_cons_self (h.1 e)
      | .pending =>
        refine .inl ⟨⟨inner,chunk⟩,rfl,herr,?_⟩
        simpa [FramedIo.bytes,Reader.got] using h.2

theorem pollRead_next (room : ℕ) (io : FramedIo ε) (bytes : List UInt8) (h : io.Holds bytes) :
    ∃ r io' rest, io.pollRead room = .ok (r,io') ∧ Reader.Next room r bytes rest ∧ io'.Holds rest := by
  by_cases hroom : room = 0
  · exact ⟨.ready (.ok []),io,bytes,by simp [pollRead,hroom],⟨rfl,by simp,fun _ => .inl hroom⟩,h⟩
  · rcases fillBuf_holds io.chunk h with ⟨io',hfill,h'⟩ | ⟨buf,io',hfill,h',hbuf,hend⟩
    · exact ⟨.pending,io',bytes,by simp [pollRead,hroom,pollFillBuf,hfill],rfl,h'⟩
    · obtain ⟨inner,chunk⟩ := io'
      have hread : io.pollRead room = (fun io => (.ready (.ok (buf.take (min buf.length room))),io)) <$>
          consume (min buf.length room) ⟨inner,chunk⟩ := by
        simp only [pollRead,if_neg hroom,pollFillBuf,hfill]
        rfl
      by_cases hnil : buf = []
      · refine ⟨.ready (.ok []),⟨inner,chunk⟩,bytes,?_,⟨rfl,by simp,fun _ => .inr (hend hnil)⟩,h'⟩
        simp [hread,hnil,consume]
      · cases chunk with
        | none => exact absurd hbuf.symm hnil
        | some c =>
          obtain rfl : c = buf := hbuf
          have hpos : 0 < min c.length room :=
            lt_min (length_pos_of_ne_nil hnil) (Nat.pos_of_ne_zero hroom)
          refine ⟨.ready (.ok (c.take (min c.length room))),⟨inner,some (c.drop (min c.length room))⟩,
            c.drop (min c.length room) ++ inner.flatMap Reader.got,?_,⟨?_,?_,?_⟩,h'.1,rfl⟩
          · simp [hread,consume,hpos,Result.sliceFrom_of_le (min_le_left c.length room)]
          · rw [← append_assoc,take_append_drop]
            exact h'.2.symm
          · rw [length_take]
            omega
          · intro htake
            have hlen := congrArg List.length htake
            rw [length_take,length_nil] at hlen
            omega

section
variable [Aead]

/-- `poll_write`, with the answer of the sink when it is asked whether it is ready. -/
def pollWrite (call : Poll (Except ErrorKind Unit) × List UInt8) (s : Codec × List UInt8) :
    Result (Poll (Except ErrorKind ℕ) × Codec × List UInt8) :=
  match call with
  | (.pending,_) => .ok (.pending,s)
  | (.ready (.error e),_) => .ok (.ready (.error e),s)
  | (.ready (.ok ()),buf) => do
    let (r,s) ← Codec.encode buf s
    match r with
    | .ok () => return (.ready (.ok buf.length),s)
    | .error e => return (.ready (.error e),s)

/-- The byte string of a write that the sink takes. -/
def accepted : Poll (Except ErrorKind Unit) × List UInt8 → Option (List UInt8)
  | (.ready (.ok ()),buf) => some buf
  | _ => none

/-- What a write returns: all of its bytes are taken, or none. -/
def reply : Poll (Except ErrorKind Unit) × List UInt8 → Poll (Except ErrorKind ℕ)
  | (.ready (.ok ()),buf) => .ready (.ok buf.length)
  | (.ready (.error e),_) => .ready (.error e)
  | (.pending,_) => .pending

theorem runAll_pollWrite (calls : List (Poll (Except ErrorKind Unit) × List UInt8)) {s s' : Codec × List UInt8}
    {rs : List (Except ErrorKind Unit)} (h : runAll Codec.encode (calls.filterMap accepted) s = .ok (rs,s')) :
    runAll pollWrite calls s = .ok (calls.map reply,s') := by
  induction calls generalizing s rs with
  | nil =>
    cases h
    rfl
  | cons call calls ih =>
    match call with
    | (.pending,buf) => exact runAll_cons rfl (ih h)
    | (.ready (.error e),buf) => exact runAll_cons rfl (ih h)
    | (.ready (.ok ()),buf) =>
      change (Codec.encode buf s >>= _) = _ at h
      obtain ⟨⟨r,s1⟩,hs1,hrest⟩ := Result.bind_eq_ok.mp h
      obtain ⟨⟨rs',s2⟩,hs2,heq⟩ := Result.bind_eq_ok.mp hrest
      cases heq
      obtain rfl : r = .ok () := by
        obtain ⟨_,-,heq⟩ := Result.bind_eq_ok.mp hs1
        cases heq
        rfl
      exact runAll_cons (by simp [pollWrite,hs1,reply]) (ih hs2)

def values {β : Type} (polls : List (Poll β)) : List β :=
  polls.filterMap fun | .ready b => some b | .pending => none

omit [Aead] in
theorem flatMap_got {inner : List (Poll (Except ε (List UInt8)))} {records : List (List UInt8)}
    (h : values inner = records.map .ok) :
    (∀ e, .ready (.error e) ∉ inner) ∧ inner.flatMap Reader.got = records.flatten := by
  induction inner generalizing records with
  | nil =>
    obtain rfl : records = [] := map_eq_nil_iff.mp h.symm
    exact ⟨fun e => not_mem_nil,rfl⟩
  | cons r inner ih =>
    match r with
    | .pending =>
      obtain ⟨herr,hgot⟩ := ih h
      exact ⟨fun e he => herr e (by simpa using he),hgot⟩
    | .ready v =>
      have hcons : v::values inner = records.map .ok := h
      cases records with
      | nil => cases hcons
      | cons record records =>
        obtain ⟨rfl,hrest⟩ := List.cons.inj hcons
        obtain ⟨herr,hgot⟩ := ih hrest
        exact ⟨fun e he => herr e (by simpa using he),by simp [Reader.got,hgot]⟩

/-- What is written at one end is read at the other: however the bytes on the wire are cut and
whenever the decoder is called, it returns records that make what was written, and through the adapter
every sequence of reads shows that stream. -/
theorem written_is_read (haead : Aead.OpensSealed) (key : Bytes 32) (nonce : ℕ) (writes : List (List UInt8))
    (hcount : nonce + (writes.flatMap (Framing.chunks maxChunkSize)).length ≤ Codec.maxNonce) :
    ∃ tx wire, runAll Codec.encode writes (⟨key,nonce⟩,[]) = .ok (writes.map fun _ => .ok (),tx,wire) ∧
      (∀ calls, calls.filterMap accepted = writes →
        runAll pollWrite calls (⟨key,nonce⟩,[]) = .ok (calls.map reply,tx,wire)) ∧
      ∀ events n, events.flatMap Framing.Event.bytes = wire →
        (writes.flatMap (Framing.chunks maxChunkSize)).length ≤ n →
        ∃ os rx, runAll (Framing.Event.run Codec.decode) (events ++ List.replicate n .decode)
            (⟨key,nonce⟩,[]) = .ok (os,rx,[]) ∧
          Framing.NoError os ∧ (Framing.items os).flatten = writes.flatten ∧
          ∀ (inner : List (Poll (Except ErrorKind (List UInt8)))) rooms,
            values inner = (Framing.items os).map .ok →
            ∃ rs io, runAll pollRead rooms (new inner) = .ok (rs,io) ∧
              Reader.Shows writes.flatten rooms rs := by
  have hlen : ∀ chunk ∈ writes.flatMap (Framing.chunks maxChunkSize), chunk.length ≤ maxChunkSize := by
    intro chunk hchunk
    obtain ⟨b,-,hb⟩ := mem_flatMap.mp hchunk
    exact Framing.length_of_mem_chunks hb
  have hflatten := Framing.flatten_flatMap_chunks (show 0 < maxChunkSize by decide) writes
  obtain ⟨wire,hwire,hcarries⟩ := Codec.foldlM_encodeChunk haead ⟨key,nonce⟩ [] hlen hcount
  have hencode := Codec.runAll_encode writes (⟨key,nonce⟩,[])
  rw [hwire] at hencode
  refine ⟨_,wire,hencode,?_,?_⟩
  · rintro calls rfl
    exact runAll_pollWrite calls hencode
  · rintro events n rfl hn
    obtain ⟨os,rx,hrun,herr,hitems⟩ := hcarries.exhaust events hn
    refine ⟨os,rx,hrun,herr,by rw [hitems,hflatten],fun inner rooms hvalues => ?_⟩
    obtain ⟨hnoerr,hgot⟩ := flatMap_got hvalues
    have hholds : (new inner).Holds writes.flatten := by
      refine ⟨hnoerr,?_⟩
      rw [← hflatten,← hitems,← hgot]
      rfl
    exact Reader.shows_of_simulates pollRead_next rooms hholds

end

/-- Two writes, received in one piece. -/
theorem written_is_read_two :
    letI := Noise.sumPrimitives.toAead
    ∃ tx wire, runAll Codec.encode [[1,2,3],[4]] (⟨List.Vector.replicate 32 7,0⟩,[]) =
        .ok ([.ok (),.ok ()],tx,wire) ∧
      ∃ os rx, runAll (Framing.Event.run Codec.decode) ([.decode,.append wire] ++ List.replicate 2 .decode)
          (⟨List.Vector.replicate 32 7,0⟩,[]) = .ok (os,rx,[]) ∧
        Framing.NoError os ∧ (Framing.items os).flatten = [1,2,3,4] := by
  obtain ⟨tx,wire,hencode,-,hdecode⟩ := @written_is_read Noise.sumPrimitives.toAead
    Noise.sumPrimitives_opensSealed (List.Vector.replicate 32 7) 0 [[1,2,3],[4]] (by decide)
  obtain ⟨os,rx,hrun,herr,hitems,-⟩ := hdecode [.decode,.append wire] 2
    (by simp [Framing.Event.bytes]) (by decide)
  exact ⟨tx,wire,hencode,os,rx,hrun,herr,hitems⟩

end FramedIo
end Tailnet.ControlNoise

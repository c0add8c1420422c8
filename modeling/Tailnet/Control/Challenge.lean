import Tailnet.Lib.Bytes
import Tailnet.Lib.Reader

/-! The optional challenge before the HTTP/2 stream of the control server. Its first bytes are read, and
put back in front of the stream when they are not the magic of a challenge. -/
namespace Tailnet.Control
open List Nat

def challengeMagic : List UInt8 := [0xff,0xff,0xff,84,83]

def maxChallengeLength : ℕ := 1024

inductive ConnectionError
  | networkError
  | io
  | challengeLength
  deriving DecidableEq, Repr

/-- A connection: its reads, and the operations of the runtime on top of them. -/
structure Conn (σ ε : Type) where
  pollRead : Reader.Read σ UInt8 ε
  /-- `read_exact`: fill a buffer of some length. -/
  readExact : ℕ → σ → Except ε (List UInt8) × σ
  /-- `take` and `copy` to a sink: drop some bytes, or all if there are fewer. -/
  discard : ℕ → σ → Except ε Unit × σ
  isNetworkError : ε → Bool

/-- The connection delivers the bytes that are related to its state. -/
structure Conn.Streams {σ ε : Type} (conn : Conn σ ε) (rel : σ → List UInt8 → Prop) : Prop where
  pollRead : ∀ n s bytes, rel s bytes →
    ∃ r s' rest, conn.pollRead n s = .ok (r,s') ∧ Reader.Next n r bytes rest ∧ rel s' rest
  readExact : ∀ n s bytes, rel s bytes → n ≤ bytes.length →
    ∃ s', conn.readExact n s = (.ok (bytes.take n),s') ∧ rel s' (bytes.drop n)
  readExact_eof : ∀ n s bytes, rel s bytes → bytes.length < n → ∃ e s', conn.readExact n s = (.error e,s')
  discard : ∀ n s bytes, rel s bytes → ∃ s', conn.discard n s = (.ok (),s') ∧ rel s' (bytes.drop n)

/-- A stream with bytes in front of it. -/
structure PrefixedReader (σ : Type) where
  prefixBytes : List UInt8
  inner : σ

section
variable {σ ε : Type} (conn : Conn σ ε)

namespace PrefixedReader

/-- The bytes in front are put into the buffer as a whole, which panics without room for them. -/
def pollRead : Reader.Read (PrefixedReader σ) UInt8 ε := fun room r =>
  if r.prefixBytes.isEmpty then do
    let (p,inner) ← conn.pollRead room r.inner
    return (p,{ r with inner })
  else if room < r.prefixBytes.length then .error .capacity
  else .ok (.ready (.ok r.prefixBytes),{ r with prefixBytes := [] })

end PrefixedReader

def ioError (err : ε) : ConnectionError :=
  if conn.isNetworkError err then .networkError else .io

def readChallengePacket (s : σ) : Except ConnectionError (PrefixedReader σ) :=
  match conn.readExact challengeMagic.length s with
  | (.error err,_) => .error (ioError conn err)
  | (.ok magic,s) =>
    if magic ≠ challengeMagic then .ok ⟨magic,s⟩
    else
      match conn.readExact 4 s with
      | (.error err,_) => .error (ioError conn err)
      | (.ok len,s) =>
        if maxChallengeLength < Bytes.ofBe len then .error .challengeLength
        else
          match conn.discard (Bytes.ofBe len) s with
          | (.error err,_) => .error (ioError conn err)
          | (.ok (),s) => .ok ⟨[],s⟩

/-- The stream without the challenge in front of it. -/
def afterChallenge (bytes : List UInt8) : List UInt8 :=
  if challengeMagic <+: bytes then
    ((bytes.drop challengeMagic.length).drop 4).drop (Bytes.ofBe ((bytes.drop challengeMagic.length).take 4))
  else bytes

variable {conn} {rel : σ → List UInt8 → Prop} {s : σ} {bytes : List UInt8} {reader : PrefixedReader σ}

/-- What is returned has the rest of the stream, and the bytes in front that were not a challenge. -/
theorem readChallengePacket_eq_ok (hconn : conn.Streams rel) (hs : rel s bytes)
    (h : readChallengePacket conn s = .ok reader) :
    (challengeMagic <+: bytes ∧ reader.prefixBytes = [] ∧ rel reader.inner (afterChallenge bytes)) ∨
    (¬ challengeMagic <+: bytes ∧ reader.prefixBytes.length = challengeMagic.length ∧
      ∃ rest, bytes = reader.prefixBytes ++ rest ∧ rel reader.inner rest) := by
  rw [readChallengePacket] at h
  rcases lt_or_ge bytes.length challengeMagic.length with hlen | hlen
  · obtain ⟨e,s',heof⟩ := hconn.readExact_eof _ s bytes hs hlen
    rw [heof] at h
    cases h
  · obtain ⟨s1,hread,hs1⟩ := hconn.readExact _ s bytes hs hlen
    rw [hread] at h
    have hmagic : challengeMagic <+: bytes ↔ bytes.take challengeMagic.length = challengeMagic := by
      rw [prefix_iff_eq_take,eq_comm]
    by_cases htake : bytes.take challengeMagic.length = challengeMagic
    · left
      simp only [htake,ne_eq,not_true_eq_false,if_false] at h
      rcases lt_or_ge (bytes.drop challengeMagic.length).length 4 with hlen | hlen
      · obtain ⟨e,s',heof⟩ := hconn.readExact_eof _ s1 _ hs1 hlen
        rw [heof] at h
        cases h
      · obtain ⟨s2,hread2,hs2⟩ := hconn.readExact _ s1 _ hs1 hlen
        rw [hread2] at h
        simp only at h
        split at h
        · cases h
        · obtain ⟨s3,hdiscard,hs3⟩ :=
            hconn.discard (Bytes.ofBe ((bytes.drop challengeMagic.length).take 4)) s2 _ hs2
          rw [hdiscard] at h
          cases h
          refine ⟨hmagic.mpr htake,rfl,?_⟩
          rw [afterChallenge,if_pos (hmagic.mpr htake)]
          exact hs3
    · right
      simp only [htake,ne_eq,not_false_eq_true,if_true] at h
      cases h
      exact ⟨mt hmagic.mp htake,length_take_of_le hlen,_,(take_append_drop _ bytes).symm,hs1⟩

namespace PrefixedReader

theorem pollRead_next (hconn : conn.Streams rel) (n : ℕ) (r : PrefixedReader σ) (bytes : List UInt8)
    (h : r.prefixBytes = [] ∧ rel r.inner bytes) :
    ∃ p r' rest, pollRead conn n r = .ok (p,r') ∧ Reader.Next n p bytes rest ∧
      r'.prefixBytes = [] ∧ rel r'.inner rest := by
  obtain ⟨p,s',rest,hread,hnext,hrel⟩ := hconn.pollRead n r.inner bytes h.2
  exact ⟨p,{ r with inner := s' },rest,by simp [pollRead,h.1,hread],hnext,h.1,hrel⟩

end PrefixedReader

/-- Reading through the returned stream shows exactly the stream without a challenge, for exactly those
sequences of reads whose first one has room for the bytes that were put back. -/
theorem challenge_transparent_iff (hconn : conn.Streams rel) (hs : rel s bytes)
    (h : readChallengePacket conn s = .ok reader) (rooms : List ℕ) :
    (∃ rs r', runAll (PrefixedReader.pollRead conn) rooms reader = .ok (rs,r') ∧
      Reader.Shows (afterChallenge bytes) rooms rs) ↔
    ∀ n ∈ rooms.head?, challengeMagic <+: bytes ∨ challengeMagic.length ≤ n := by
  rcases readChallengePacket_eq_ok hconn hs h with ⟨hmagic,hnil,hrel⟩ | ⟨hmagic,hlen,rest,hbytes,hrel⟩
  · have hshows := Reader.shows_of_simulates (PrefixedReader.pollRead_next hconn) rooms ⟨hnil,hrel⟩
    exact ⟨fun _ _ _ => .inl hmagic,fun _ => hshows⟩
  · have hafter : afterChallenge bytes = bytes := if_neg hmagic
    have hempty : reader.prefixBytes.isEmpty = false := by
      cases hp : reader.prefixBytes with
      | nil =>
        rw [hp] at hlen
        cases hlen
      | cons b l => rfl
    cases rooms with
    | nil => 
      refine ⟨fun _ _ hn => absurd hn (by simp),fun _ => ⟨[],reader,rfl,Reader.shows_of_runsTo (.nil _)⟩⟩
    | cons n rooms =>
      simp only [List.head?_cons,Option.mem_def,Option.some.injEq,forall_eq',hmagic,false_or,← hlen]
      constructor
      · rintro ⟨rs,r',hrun,-⟩
        by_contra hroom
        have hpanic : PrefixedReader.pollRead conn n reader = .error .capacity := by
          simp [PrefixedReader.pollRead,hempty,not_le.mp hroom]
        rw [runAll,hpanic] at hrun
        cases hrun
      · intro hroom
        have hfirst : PrefixedReader.pollRead conn n reader =
            .ok (.ready (.ok reader.prefixBytes),{ reader with prefixBytes := [] }) := by
          simp [PrefixedReader.pollRead,hempty,not_lt.mpr hroom]
        obtain ⟨rs,r',rest',hrun,hruns,-⟩ := runAll_simulates _ (PrefixedReader.pollRead_next hconn) rooms
          (s := { reader with prefixBytes := [] }) ⟨rfl,hrel⟩
        refine ⟨_,r',runAll_cons hfirst hrun,Reader.shows_of_runsTo (.cons ⟨?_,hroom,?_⟩ hruns)⟩
        · rw [hafter]
          exact hbytes
        · intro hp
          rw [hp] at hempty
          cases hempty

end

def listConn : Conn (List UInt8) Unit where
  pollRead n l := .ok (.ready (.ok (l.take n)),l.drop n)
  readExact n l := if n ≤ l.length then (.ok (l.take n),l.drop n) else (.error (),[])
  discard n l := (.ok (),l.drop n)
  isNetworkError _ := false

theorem listConn_streams : listConn.Streams Eq := by
  constructor
  · rintro n l _ rfl
    refine ⟨_,_,_,rfl,⟨(take_append_drop n l).symm,length_take_le n l,?_⟩,rfl⟩
    exact take_eq_nil_iff.mp
  · rintro n l _ rfl hn
    exact ⟨_,if_pos hn,rfl⟩
  · rintro n l _ rfl hn
    exact ⟨_,_,if_neg (not_le.mpr hn)⟩
  · rintro n l _ rfl
    exact ⟨_,rfl,rfl⟩

/-- A challenge of one byte, then reads of one byte. -/
theorem challenge_transparent_iff_list :
    ∃ rs r', runAll (PrefixedReader.pollRead listConn) [1,1,1] ⟨[],[1,2]⟩ = .ok (rs,r') ∧
      Reader.Shows [1,2] [1,1,1] rs :=
  (challenge_transparent_iff listConn_streams (rfl : challengeMagic ++ [0,0,0,1,9,1,2] = _) rfl [1,1,1]).mpr
    fun _ _ => .inl (by decide)

/-- A first read with room for one byte panics when there was no challenge. -/
theorem small_read_panics :
    readChallengePacket listConn [80,82,73,32,42,32] = .ok ⟨[80,82,73,32,42],[32]⟩ ∧
      runAll (PrefixedReader.pollRead listConn) [1] ⟨[80,82,73,32,42],[32]⟩ = .error .capacity :=
  ⟨rfl,rfl⟩

end Tailnet.Control

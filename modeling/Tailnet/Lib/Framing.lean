import Tailnet.Lib.Run

/-! Decoders of framed streams. Bytes come in chunks and are appended to a buffer; between them the
decoder is called, which takes a frame off the front of the buffer, or leaves the buffer as it is
and waits for more. However a stream of frames is cut into chunks, and whenever the decoder is
called, it returns the items of the stream in order. -/
namespace Tailnet.Framing
open List

section
variable {α : Type}

/-- Cut a list into pieces of length `n`; the last one may be shorter. The fuel is the length. -/
def chunksFrom (n : ℕ) : ℕ → List α → List (List α)
  | 0,_ => []
  | fuel+1,l => if l.isEmpty then [] else l.take n::chunksFrom n fuel (l.drop n)

/-- `slice::chunks`. -/
def chunks (n : ℕ) (l : List α) : List (List α) := chunksFrom n l.length l

theorem flatten_chunksFrom {n : ℕ} (hn : 0 < n) {fuel : ℕ} {l : List α} (h : l.length ≤ fuel) :
    (chunksFrom n fuel l).flatten = l := by
  induction fuel generalizing l with
  | zero =>
    obtain rfl := eq_nil_of_length_eq_zero (Nat.le_zero.mp h)
    rfl
  | succ fuel ih =>
    rw [chunksFrom]
    cases l with
    | nil => rfl
    | cons a l =>
      have hdrop : ((a::l).drop n).length ≤ fuel := by
        rw [length_drop]
        omega
      simp [ih hdrop]

theorem flatten_chunks {n : ℕ} (hn : 0 < n) (l : List α) : (chunks n l).flatten = l :=
  flatten_chunksFrom hn le_rfl

theorem flatten_flatMap_chunks {n : ℕ} (hn : 0 < n) (ls : List (List α)) :
    (ls.flatMap (chunks n)).flatten = ls.flatten := by
  induction ls with
  | nil => rfl
  | cons l ls ih => rw [flatMap_cons,flatten_append,flatten_cons,ih,flatten_chunks hn]

theorem length_of_mem_chunksFrom {n fuel : ℕ} {l c : List α} (h : c ∈ chunksFrom n fuel l) :
    c.length ≤ n := by
  induction fuel generalizing l with
  | zero => cases h
  | succ fuel ih =>
    rw [chunksFrom] at h
    split at h
    · cases h
    · rcases mem_cons.mp h with rfl | h
      · exact length_take_le n l
      · exact ih h

theorem length_of_mem_chunks {n : ℕ} {l c : List α} (h : c ∈ chunks n l) : c.length ≤ n :=
  length_of_mem_chunksFrom h

end

section
variable {σ α ι ε : Type}

/-- A decoder returns its answer, its next state and what it leaves in the buffer. -/
abbrev Decode (σ α ι ε : Type) := σ → List α → Result (Except ε (Option ι) × σ × List α)

/-- What happens to the buffer of a decoder. -/
inductive Event (α : Type)
  | append (chunk : List α)
  | decode

namespace Event

def bytes : Event α → List α
  | append chunk => chunk
  | decode => []

@[simp] theorem flatMap_bytes_decode (n : ℕ) :
    (List.replicate n (decode : Event α)).flatMap bytes = [] := by
  induction n with
  | zero => rfl
  | succ n ih => rw [replicate_succ,flatMap_cons,ih,bytes,nil_append]

def run (d : Decode σ α ι ε) (e : Event α) (s : σ × List α) :
    Result (Option (Except ε (Option ι)) × σ × List α) :=
  match e with
  | append chunk => .ok (none,s.1,s.2 ++ chunk)
  | decode => do
    let (r,s) ← d s.1 s.2
    return (some r,s)

end Event

def item : Option (Except ε (Option ι)) → Option ι
  | some (.ok (some i)) => some i
  | _ => none

def items (os : List (Option (Except ε (Option ι)))) : List ι := os.filterMap item

/-- The items and errors among answers, as a stream of them yields. -/
def yields (os : List (Option (Except ε (Option ι)))) : List (Except ε ι) :=
  os.filterMap fun
    | some (.ok (some i)) => some (.ok i)
    | some (.error e) => some (.error e)
    | _ => none

def NoError (os : List (Option (Except ε (Option ι)))) : Prop := ∀ e, some (.error e) ∉ os

@[simp] theorem items_append_cons (os : List (Option (Except ε (Option ι)))) :
    items (none::os) = items os := rfl

@[simp] theorem items_wait_cons (os : List (Option (Except ε (Option ι)))) :
    items (some (.ok none)::os) = items os := rfl

@[simp] theorem items_item_cons (i : ι) (os : List (Option (Except ε (Option ι)))) :
    items (some (.ok (some i))::os) = i::items os := rfl

@[simp] theorem noError_cons {o : Option (Except ε (Option ι))} {os : List (Option (Except ε (Option ι)))} :
    NoError (o::os) ↔ (∀ e, some (.error e) ≠ o) ∧ NoError os := by
  simp [NoError,not_or,forall_and]

/-- A frame is taken off a buffer whole, and a part of one is left. -/
structure IsFrame (d : Decode σ α ι ε) (st : σ) (frame : List α) (i : ι) (st' : σ) : Prop where
  whole : ∀ rest, d st (frame ++ rest) = .ok (.ok (some i),st',rest)
  part : ∀ p q, q ≠ [] → frame = p ++ q → d st p = .ok (.ok none,st,p)

/-- The bytes are the frames of the items, from a state of the decoder on. -/
inductive Carries (d : Decode σ α ι ε) : σ → List ι → List α → Prop
  | nil {st : σ} (h : d st [] = .ok (.ok none,st,[])) : Carries d st [] []
  | cons {st st' : σ} {frame bytes : List α} {i : ι} {is : List ι} (h : IsFrame d st frame i st')
    (rest : Carries d st' is bytes) : Carries d st (i::is) (frame ++ bytes)

variable {d : Decode σ α ι ε} {st : σ} {is : List ι} {buf rest : List α}

/-- A call on a part of the stream waits for more, or returns the next item. -/
theorem Carries.decode (h : Carries d st is (buf ++ rest)) :
    (d st buf = .ok (.ok none,st,buf) ∧ (rest = [] → is = [] ∧ buf = [])) ∨
    ∃ i is' st' buf', is = i::is' ∧ d st buf = .ok (.ok (some i),st',buf') ∧
      Carries d st' is' (buf' ++ rest) := by
  generalize hbytes : buf ++ rest = bytes at h
  cases h with
  | nil hnil =>
    obtain ⟨rfl,rfl⟩ := append_eq_nil_iff.mp hbytes
    exact .inl ⟨hnil,fun _ => ⟨rfl,rfl⟩⟩
  | @cons _ st' frame bytes i is' hframe hrest =>
    -- the buffer ends inside of the frame, or holds all of it
    rcases append_eq_append_iff.mp hbytes with ⟨q,hq,hr⟩ | ⟨q,hq,hr⟩
    · by_cases hnil : q = []
      · subst hnil
        rw [append_nil] at hq
        have hdecode := hframe.whole []
        rw [append_nil,hq] at hdecode
        refine .inr ⟨i,is',st',[],rfl,hdecode,?_⟩
        rw [hr]
        exact hrest
      · refine .inl ⟨hframe.part buf q hnil hq,fun hempty => ?_⟩
        rw [hempty] at hr
        exact absurd (append_eq_nil_iff.mp hr.symm).1 hnil
    · refine .inr ⟨i,is',st',q,rfl,?_,?_⟩
      · rw [hq]
        exact hframe.whole q
      · rw [← hr]
        exact hrest

/-- Along any run, the items returned so far and those of the bytes that are left make the stream. -/
theorem Carries.run (events : List (Event α))
    (h : Carries d st is (buf ++ (events.flatMap Event.bytes ++ rest))) :
    ∃ os st' is' buf', runAll (Event.run d) events (st,buf) = .ok (os,st',buf') ∧ NoError os ∧
      is = items os ++ is' ∧ Carries d st' is' (buf' ++ rest) := by
  induction events generalizing st is buf with
  | nil => exact ⟨[],st,is,buf,rfl,fun _ => not_mem_nil,rfl,h⟩
  | cons e events ih =>
    cases e with
    | append chunk =>
      have h' : Carries d st is ((buf ++ chunk) ++ (events.flatMap Event.bytes ++ rest)) := by
        simpa [Event.bytes] using h
      obtain ⟨os,st',is',buf',hrun,herr,his,hcarries⟩ := ih h'
      exact ⟨none::os,st',is',buf',by simp [runAll,Event.run,hrun],by simpa using herr,his,hcarries⟩
    | decode =>
      rcases h.decode with ⟨hd,-⟩ | ⟨i,is1,st1,buf1,rfl,hd,hcarries1⟩
      · obtain ⟨os,st',is',buf',hrun,herr,his,hcarries⟩ := ih h
        exact ⟨some (.ok none)::os,st',is',buf',by simp [runAll,Event.run,hd,hrun],by simpa using herr,
          his,hcarries⟩
      · obtain ⟨os,st',is',buf',hrun,herr,his,hcarries⟩ := ih hcarries1
        exact ⟨some (.ok (some i))::os,st',is',buf',by simp [runAll,Event.run,hd,hrun],
          by simpa using herr,by simp [his],hcarries⟩

/-- What holds of every buffer with a part of a stream holds all along a run. -/
theorem Carries.atEveryState {P : σ × List α → Prop}
    (hP : ∀ st is buf rest, Carries d st is (buf ++ rest) → P (st,buf)) (events : List (Event α))
    (h : Carries d st is (buf ++ (events.flatMap Event.bytes ++ rest))) :
    AtEveryState (Event.run d) P events (st,buf) := by
  induction events generalizing st is buf with
  | nil => exact hP st is buf _ h
  | cons e events ih =>
    refine ⟨hP st is buf _ h,?_⟩
    rintro o ⟨st',buf'⟩ hs'
    cases e with
    | append chunk =>
      cases hs'
      have h' : Carries d st is ((buf ++ chunk) ++ (events.flatMap Event.bytes ++ rest)) := by
        simpa [Event.bytes] using h
      exact ih h'
    | decode =>
      rcases h.decode with ⟨hd,-⟩ | ⟨i,is1,st1,buf1,-,hd,hcarries⟩
      · rw [Event.run,hd] at hs'
        cases hs'
        exact ih h
      · rw [Event.run,hd] at hs'
        cases hs'
        exact ih hcarries

/-- As many calls as there are frames in the buffer return all of them. -/
theorem Carries.drain {n : ℕ} (h : Carries d st is buf) (hn : is.length ≤ n) :
    ∃ os st', runAll (Event.run d) (List.replicate n .decode) (st,buf) = .ok (os,st',[]) ∧ NoError os ∧
      items os = is := by
  induction n generalizing st is buf with
  | zero =>
    obtain rfl : is = [] := eq_nil_of_length_eq_zero (Nat.le_zero.mp hn)
    cases h
    exact ⟨[],st,rfl,fun _ => not_mem_nil,rfl⟩
  | succ n ih =>
    have h' : Carries d st is (buf ++ []) := by rwa [append_nil]
    rcases h'.decode with ⟨hd,hend⟩ | ⟨i,is1,st1,buf1,rfl,hd,hcarries⟩
    · obtain ⟨rfl,rfl⟩ := hend rfl
      obtain ⟨os,st',hrun,herr,his⟩ := ih h (Nat.zero_le n)
      exact ⟨some (.ok none)::os,st',by simp [replicate_succ,runAll,Event.run,hd,hrun],
        by simpa using herr,his⟩
    · rw [append_nil] at hcarries
      obtain ⟨os,st',hrun,herr,his⟩ := ih hcarries (Nat.le_of_succ_le_succ hn)
      exact ⟨some (.ok (some i))::os,st',by simp [replicate_succ,runAll,Event.run,hd,hrun],
        by simpa using herr,by simp [his]⟩

/-- However the stream is cut and whenever the decoder is called, in the end it has returned all items
and the buffer is empty. -/
theorem Carries.exhaust {n : ℕ} (events : List (Event α)) (h : Carries d st is (events.flatMap Event.bytes))
    (hn : is.length ≤ n) :
    ∃ os st', runAll (Event.run d) (events ++ List.replicate n .decode) (st,[]) = .ok (os,st',[]) ∧
      NoError os ∧ items os = is := by
  have h' : Carries d st is ([] ++ (events.flatMap Event.bytes ++ [])) := by simpa using h
  obtain ⟨os1,st1,is1,buf1,hrun1,herr1,rfl,hcarries⟩ := h'.run
  rw [append_nil] at hcarries
  have hn1 : is1.length ≤ n := by
    rw [length_append] at hn
    omega
  obtain ⟨os2,st2,hrun2,herr2,rfl⟩ := hcarries.drain hn1
  refine ⟨os1 ++ os2,st2,runAll_append hrun1 hrun2,fun e he => ?_,by simp [items]⟩
  rcases mem_append.mp he with he | he
  · exact herr1 e he
  · exact herr2 e he

end
end Tailnet.Framing

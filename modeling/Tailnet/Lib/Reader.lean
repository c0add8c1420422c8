import Tailnet.Lib.Run

/-! Byte streams that are read piece by piece. A read has room for some bytes; it is not ready, or it
returns the next bytes of the stream, and no byte only without room or at the end. What readers
return is compared with the reads of a plain list. -/
namespace Tailnet
open List

inductive Poll (β : Type)
  | pending
  | ready (b : β)
  deriving DecidableEq, Repr

namespace Reader

section
variable {σ α ε : Type}

/-- A read with room for some bytes. -/
abbrev Read (σ α ε : Type) := ℕ → σ → Result (Poll (Except ε (List α)) × σ)

/-- The reads of a list: what a read with room `n` returns, and what is left. -/
def Next (n : ℕ) : Poll (Except ε (List α)) → List α → List α → Prop
  | .pending,bytes,rest => rest = bytes
  | .ready (.error _),_,_ => False
  | .ready (.ok l),bytes,rest => bytes = l ++ rest ∧ l.length ≤ n ∧ (l = [] → n = 0 ∨ bytes = [])

/-- The bytes that a read has returned. -/
def got : Poll (Except ε (List α)) → List α
  | .ready (.ok l) => l
  | _ => []

/-- How many reads had room and were ready. -/
def served : List ℕ → List (Poll (Except ε (List α))) → ℕ
  | n::rooms,.ready _::rs => served rooms rs + if 0 < n then 1 else 0
  | _::rooms,.pending::rs => served rooms rs
  | _,_ => 0

variable {rooms : List ℕ} {rs : List (Poll (Except ε (List α)))} {bytes rest : List α}

/-- What was read and what is left make the stream. -/
theorem got_append (h : RunsTo Next rooms rs bytes rest) : rs.flatMap got ++ rest = bytes := by
  induction h with
  | nil a => rfl
  | @cons n r _ _ a b c step _ ih =>
    match r,step with
    | .pending,step =>
      have hb : b = a := step
      simpa [got,hb] using ih
    | .ready (.ok l),⟨ha,_,_⟩ => simp [got,ih,ha]

/-- Reads with room that are ready come to the end of the stream. -/
theorem rest_eq_nil (h : RunsTo Next rooms rs bytes rest) (hserved : bytes.length < served rooms rs) :
    rest = [] := by
  have hcount : served rooms rs ≤ (rs.flatMap got).length ∨ rest = [] := by
    clear hserved
    induction h with
    | nil a => exact .inl le_rfl
    | @cons n r _ _ a b c step hruns ih =>
      match r,step with
      | .pending,_ => simpa [served,got] using ih
      | .ready (.ok l),⟨ha,_,hnil⟩ =>
        -- a read without a byte has no room, or the stream is at its end
        by_cases hl : l = []
        · rcases hnil hl with hn | hn
          · simpa [served,got,hl,hn] using ih
          · have hb : b = [] := by simpa [hl,hn] using ha.symm
            have hend := got_append hruns
            rw [hb] at hend
            exact .inr (append_eq_nil_iff.mp hend).2
        · have hpos : 0 < l.length := length_pos_of_ne_nil hl
          rcases ih with ih | ih
          · left
            simp only [served,flatMap_cons,got,length_append]
            split <;> omega
          · exact .inr ih
  have hlen := congrArg List.length (got_append h)
  rw [length_append] at hlen
  rcases hcount with hcount | hcount
  · omega
  · exact hcount

theorem no_error (h : RunsTo Next rooms rs bytes rest) (e : ε) : .ready (.error e) ∉ rs := by
  induction h with
  | nil a => exact not_mem_nil
  | @cons n r _ _ a b c step _ ih =>
    intro hmem
    rcases mem_cons.mp hmem with heq | hmem
    · rw [← heq] at step
      exact step
    · exact ih hmem

/-- What the reads of a stream show: no error, the bytes in order, and in the end all of them. -/
structure Shows (bytes : List α) (rooms : List ℕ) (rs : List (Poll (Except ε (List α)))) : Prop where
  no_error : ∀ e, .ready (.error e) ∉ rs
  next : ∃ rest, RunsTo Next rooms rs bytes rest
  so_far : rs.flatMap got <+: bytes
  whole : bytes.length < served rooms rs → rs.flatMap got = bytes

theorem shows_of_runsTo (h : RunsTo Next rooms rs bytes rest) : Shows bytes rooms rs := by
  refine ⟨no_error h,⟨rest,h⟩,⟨rest,got_append h⟩,fun hserved => ?_⟩
  have happ := got_append h
  rwa [rest_eq_nil h hserved,append_nil] at happ

/-- A reader whose every read returns the next bytes of the stream. -/
theorem shows_of_simulates {read : Read σ α ε} {rel : σ → List α → Prop}
    (hread : ∀ n s bytes, rel s bytes →
      ∃ r s' rest, read n s = .ok (r,s') ∧ Next n r bytes rest ∧ rel s' rest)
    (rooms : List ℕ) {s : σ} (h : rel s bytes) :
    ∃ rs s', runAll read rooms s = .ok (rs,s') ∧ Shows bytes rooms rs := by
  obtain ⟨rs,s',rest,hrun,hruns,-⟩ := runAll_simulates rel hread rooms h
  exact ⟨rs,s',hrun,shows_of_runsTo hruns⟩

end
end Reader
end Tailnet

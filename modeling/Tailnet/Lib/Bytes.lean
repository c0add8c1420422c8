import Mathlib

/-! Byte strings of fixed length, as they stand in the fields of wire messages. A
message is the concatenation of its fields; reading takes the fields off one by one. -/
namespace Tailnet

/-- Byte strings of length `n`. -/
abbrev Bytes (n : ℕ) := List.Vector UInt8 n

namespace Bytes
variable {n : ℕ}

def ofList (l : List UInt8) : Bytes l.length := ⟨l,rfl⟩

def append {m : ℕ} (a : Bytes m) (b : Bytes n) : Bytes (m + n) := ⟨a.toList ++ b.toList,by simp⟩

theorem toList_append {m : ℕ} (a : Bytes m) (b : Bytes n) :
    (a.append b).toList = a.toList ++ b.toList := rfl

def ascii (s : String) : List UInt8 := s.toUTF8.data.toList

/-- Take the first `n` bytes off a byte string. -/
def read (n : ℕ) (l : List UInt8) : Option (Bytes n × List UInt8) :=
  if h : n ≤ l.length then some (⟨l.take n,by simp [h]⟩,l.drop n) else none

@[simp] theorem read_append (b : Bytes n) (l : List UInt8) :
    read n (b.toList ++ l) = some (b,l) := by
  obtain ⟨a,ha⟩ := b
  subst ha
  simp [read,List.Vector.toList]

@[simp] theorem read_toList (b : Bytes n) : read n b.toList = some (b,[]) := by
  simpa using read_append b []

theorem read_eq_some {l l' : List UInt8} {b : Bytes n} (h : read n l = some (b,l')) :
    l = b.toList ++ l' := by
  rw [read] at h
  split at h
  · cases h
    exact (List.take_append_drop n l).symm
  · cases h

/-- A buffer overwritten by bytes of its own length. -/
def write (b : Bytes n) (l : List UInt8) : Bytes n := if h : l.length = n then ⟨l,h⟩ else b

/-- Little-endian numbers of `n` bytes. -/
def le : (n : ℕ) → ℕ → Bytes n
  | 0,_ => List.Vector.nil
  | n+1,v => List.Vector.cons (UInt8.ofNat v) (le n (v/256))

def ofLe : List UInt8 → ℕ
  | [] => 0
  | b::l => b.toNat + 256*ofLe l

theorem ofLe_le (n v : ℕ) : ofLe (le n v).toList = v%256^n := by
  induction n generalizing v with
  | zero => simp [le,ofLe,Nat.mod_one]
  | succ n ih =>
    rw [le,List.Vector.toList_cons,ofLe,ih,UInt8.toNat_ofNat']
    change v%256 + 256*(v/256%256^n) = v%256^(n+1)
    rw [show 256^(n+1) = 256*256^n from pow_succ' 256 n,Nat.mod_mul]

theorem ofLe_le_of_lt {n v : ℕ} (h : v < 256^n) : ofLe (le n v).toList = v := by
  rw [ofLe_le,Nat.mod_eq_of_lt h]

/-- Big-endian numbers of `n` bytes. -/
def be (n v : ℕ) : Bytes n := (le n v).reverse

def ofBe (l : List UInt8) : ℕ := ofLe l.reverse

theorem ofBe_be_of_lt {n v : ℕ} (h : v < 256^n) : ofBe (be n v).toList = v := by
  rw [ofBe,be,List.Vector.toList_reverse,List.reverse_reverse,ofLe_le_of_lt h]

end Bytes
end Tailnet

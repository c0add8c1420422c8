import Tailnet.Lib.Result

/-! Searches from the greatest index down. `downTo f n` lists the values of a
partial function at the indices below `n`, the greatest index first; its head is
the value at the greatest index where the function is defined. An iterator yields
a list when it returns its members one by one and then nothing. -/
namespace Tailnet
open List

section
variable {α : Type}

def downTo (f : ℕ → Option α) : ℕ → List α
  | 0 => []
  | n+1 => (f n).toList ++ downTo f n

theorem downTo_add (f : ℕ → Option α) (a b : ℕ) :
    downTo f (a + b) = downTo (fun n => f (n + b)) a ++ downTo f b := by
  induction a with
  | zero => simp [downTo]
  | succ a ih => rw [Nat.succ_add,downTo,downTo,ih,append_assoc]

theorem length_downTo_le (f : ℕ → Option α) (n : ℕ) : (downTo f n).length ≤ n := by
  induction n with
  | zero => exact le_rfl
  | succ n ih =>
    rw [downTo,length_append]
    cases f n <;> simp <;> omega

variable {n : ℕ}

theorem downTo_congr {f g : ℕ → Option α} (h : ∀ m < n, f m = g m) : downTo f n = downTo g n := by
  induction n with
  | zero => rfl
  | succ n ih => rw [downTo,downTo,h n (by omega),ih (fun m hm => h m (by omega))]

variable {f : ℕ → Option α}

theorem downTo_eq_nil : downTo f n = [] ↔ ∀ m < n, f m = none := by
  induction n with
  | zero => simp [downTo]
  | succ n ih =>
    rw [downTo,append_eq_nil_iff,ih,Nat.forall_lt_succ_right,and_comm]
    simp

theorem downTo_single {n k : ℕ} {v : α} (hk : k < n) (hv : f k = some v)
    (h : ∀ m < n, m ≠ k → f m = none) : downTo f n = [v] := by
  induction n with
  | zero => omega
  | succ n ih =>
    rw [downTo]
    rcases Nat.lt_succ_iff_lt_or_eq.mp hk with hlt | rfl
    · rw [h n (by omega) (by omega),ih hlt (fun m hm => h m (by omega))]
      rfl
    · rw [hv,downTo_eq_nil.mpr (fun m hm => h m (by omega) (by omega))]
      rfl

theorem downTo_of_greatest {n m : ℕ} {v : α} (hm : m < n) (hv : f m = some v)
    (h : ∀ m', m < m' → m' < n → f m' = none) : downTo f n = v::downTo f m := by
  induction n with
  | zero => omega
  | succ n ih =>
    rw [downTo]
    rcases Nat.lt_succ_iff_lt_or_eq.mp hm with hlt | rfl
    · rw [h n hlt (by omega),ih hlt (fun m' h1 h2 => h m' h1 (by omega))]
      rfl
    · rw [hv]
      rfl

theorem mem_downTo {a : α} : a ∈ downTo f n ↔ ∃ m < n, f m = some a := by
  induction n with
  | zero => simp [downTo]
  | succ n ih =>
    rw [downTo,mem_append,ih,Option.mem_toList]
    constructor
    · rintro (h | ⟨m,hm,h⟩)
      · exact ⟨n,by omega,h⟩
      · exact ⟨m,by omega,h⟩
    · rintro ⟨m,hm,h⟩
      rcases Nat.lt_succ_iff_lt_or_eq.mp hm with hlt | rfl
      · exact .inr ⟨m,hlt,h⟩
      · exact .inl h

/-- A measure that gives the index back decreases along the list. -/
theorem downTo_pairwise (size : α → ℕ) (h : ∀ m < n, ∀ a, f m = some a → size a = m) :
    (downTo f n).Pairwise fun a b => size b < size a := by
  induction n with
  | zero => exact List.Pairwise.nil
  | succ n ih =>
    have ih := ih fun m hm => h m (by omega)
    rw [downTo]
    cases hn : f n with
    | none => exact ih
    | some a =>
      refine List.Pairwise.cons ?_ ih
      intro b hb
      obtain ⟨m,hm,hb⟩ := mem_downTo.mp hb
      rw [h m (by omega) b hb,h n (by omega) a hn]
      exact hm

theorem downTo_map {β : Type} {g : ℕ → Option β}
    (look : α → Option β) (h : ∀ m < n, (f m).bind look = g m ∧ (f m).isSome = (g m).isSome) :
    (downTo f n).map look = (downTo g n).map some := by
  induction n with
  | zero => rfl
  | succ n ih =>
    rw [downTo,downTo,map_append,map_append,ih fun m hm => h m (by omega)]
    obtain ⟨hb,hs⟩ := h n (by omega)
    cases hf : f n with
    | none =>
      rw [hf] at hb
      rw [← hb]
      rfl
    | some a =>
      rw [hf] at hb hs
      obtain ⟨b,hg⟩ := Option.isSome_iff_exists.mp hs.symm
      rw [hg] at hb ⊢
      simp only [Option.bind_some] at hb
      simp [hb]

end

section
variable {σ α : Type}

/-- The state `s` yields the members of `l` in order and then the end. -/
def Yields (next : σ → Result (Option α × σ)) (s : σ) : List α → Prop
  | [] => ∃ s', next s = .ok (none,s')
  | a::l => ∃ s', next s = .ok (some a,s') ∧ Yields next s' l

/-- A state that stands for a list, step by step, yields it. -/
theorem yields_of_step {next : σ → Result (Option α × σ)} (rep : σ → List α → Prop)
    (step : ∀ s l, rep s l → ∃ s', next s = .ok (l.head?,s') ∧ rep s' l.tail) {s : σ} {l : List α}
    (h : rep s l) : Yields next s l := by
  induction l generalizing s with
  | nil =>
    obtain ⟨s',hs,_⟩ := step s [] h
    exact ⟨s',hs⟩
  | cons a l ih =>
    obtain ⟨s',hs,hrep⟩ := step s (a::l) h
    exact ⟨s',hs,ih hrep⟩

/-- Call an iterator until it ends, at most so many times. -/
def drain (next : σ → Result (Option α × σ)) : ℕ → σ → Result (List α)
  | 0,_ => .error .divergence
  | n+1,s => do
    match ← next s with
    | (none,_) => return []
    | (some a,s) => return a :: (← drain next n s)

theorem drain_of_yields {next : σ → Result (Option α × σ)} {n : ℕ} {s : σ} {l : List α} (h : Yields next s l)
    (hn : l.length < n) : drain next n s = .ok l := by
  induction l generalizing n s with
  | nil =>
    obtain ⟨s',hs⟩ := h
    obtain ⟨k,rfl⟩ : ∃ k, n = k+1 := ⟨n - 1,by simp at hn; omega⟩
    simp [drain,hs]
  | cons a l ih =>
    obtain ⟨s',hs,hrest⟩ := h
    rw [length_cons] at hn
    obtain ⟨k,rfl⟩ : ∃ k, n = k+1 := ⟨n - 1,by omega⟩
    have hk : l.length < k := by omega
    simp [drain,hs,ih hrest hk]

end
end Tailnet

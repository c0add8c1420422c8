import Tailnet.Lib.Result

/-! Runs of a component that is called again and again. A run applies a list of
calls, collects what they return and stops at the first panic; a reference with
the same calls never panics. A relation kept by every call relates whole runs. -/
namespace Tailnet

section
variable {ι σ τ ο : Type}

def runAll (step : ι → σ → Result (ο × σ)) : List ι → σ → Result (List ο × σ)
  | [],s => .ok ([],s)
  | i::is,s => do
    let (o,s) ← step i s
    let (os,s) ← runAll step is s
    return (o::os,s)

def specAll (step : ι → τ → ο × τ) : List ι → τ → List ο × τ
  | [],a => ([],a)
  | i::is,a =>
    let (o,a) := step i a
    let (os,a) := specAll step is a
    (o::os,a)

variable {step : ι → σ → Result (ο × σ)} {is js : List ι} {s s' : σ} {a : τ}

variable {spec : ι → τ → ο × τ}

/-- A component that follows its reference in every call follows it in every run. -/
theorem runAll_refines (rel : σ → τ → Prop)
    (hstep : ∀ i s a, rel s a → ∃ s', step i s = .ok ((spec i a).1,s') ∧ rel s' (spec i a).2)
    (is : List ι) (h : rel s a) :
    ∃ s', runAll step is s = .ok ((specAll spec is a).1,s') ∧ rel s' (specAll spec is a).2 := by
  induction is generalizing s a with
  | nil => exact ⟨s,rfl,h⟩
  | cons i is ih =>
    obtain ⟨s1,hs1,h1⟩ := hstep i s a h
    obtain ⟨s2,hs2,h2⟩ := ih h1
    exact ⟨s2,by simp [runAll,hs1,hs2,specAll],h2⟩

/-- `P` holds of the call and the state of the reference, at every call of a run. -/
def AtEveryInput (spec : ι → τ → ο × τ) (P : ι → τ → Prop) : List ι → τ → Prop
  | [],_ => True
  | i::is,a => P i a ∧ AtEveryInput spec P is (spec i a).2

theorem AtEveryInput.first {P : ι → τ → Prop}
    (h : AtEveryInput spec P (is ++ js) a) : AtEveryInput spec P is a := by
  induction is generalizing a with
  | nil => trivial
  | cons i is ih => exact ⟨h.1,ih h.2⟩

/-- A component that follows its reference where `P` holds follows it in the runs where `P` holds
at every call. -/
theorem specAll_refines {step : ι → σ → ο × σ} {P : ι → τ → Prop} (rel : σ → τ → Prop)
    (hstep : ∀ i s a, rel s a → P i a → (step i s).1 = (spec i a).1 ∧ rel (step i s).2 (spec i a).2)
    (is : List ι) (h : rel s a) (hP : AtEveryInput spec P is a) :
    (specAll step is s).1 = (specAll spec is a).1 ∧ rel (specAll step is s).2 (specAll spec is a).2 := by
  induction is generalizing s a with
  | nil => exact ⟨rfl,h⟩
  | cons i is ih =>
    obtain ⟨ho,h1⟩ := hstep i s a h hP.1
    obtain ⟨hos,h2⟩ := ih h1 hP.2
    exact ⟨congrArg₂ List.cons ho hos,h2⟩

/-- The runs of a reference that is a relation between calls, replies and states. -/
inductive RunsTo (spec : ι → ο → τ → τ → Prop) : List ι → List ο → τ → τ → Prop
  | nil (a : τ) : RunsTo spec [] [] a a
  | cons {i : ι} {o : ο} {is : List ι} {os : List ο} {a b c : τ} (step : spec i o a b)
    (rest : RunsTo spec is os b c) : RunsTo spec (i::is) (o::os) a c

/-- A component whose calls are steps of its reference never panics, and its runs are runs of
the reference. -/
theorem runAll_simulates {spec : ι → ο → τ → τ → Prop} (rel : σ → τ → Prop)
    (hstep : ∀ i s a, rel s a → ∃ o s' a', step i s = .ok (o,s') ∧ spec i o a a' ∧ rel s' a')
    (is : List ι) (h : rel s a) :
    ∃ os s' a', runAll step is s = .ok (os,s') ∧ RunsTo spec is os a a' ∧ rel s' a' := by
  induction is generalizing s a with
  | nil => exact ⟨[],s,a,rfl,.nil a,h⟩
  | cons i is ih =>
    obtain ⟨o,s1,a1,hs1,hspec,h1⟩ := hstep i s a h
    obtain ⟨os,s2,a2,hs2,hruns,h2⟩ := ih h1
    exact ⟨o::os,s2,a2,by simp [runAll,hs1,hs2],.cons hspec hruns,h2⟩

/-- Calls that succeed and keep an invariant never panic. -/
theorem runAll_total {inv : σ → Prop}
    (hstep : ∀ i s, inv s → ∃ o s', step i s = .ok (o,s') ∧ inv s') (is : List ι) (h : inv s) :
    ∃ os s', runAll step is s = .ok (os,s') ∧ inv s' := by
  induction is generalizing s with
  | nil => exact ⟨[],s,rfl,h⟩
  | cons i is ih =>
    obtain ⟨o,s1,hs1,h1⟩ := hstep i s h
    obtain ⟨os,s2,hs2,h2⟩ := ih h1
    exact ⟨o::os,s2,by simp [runAll,hs1,hs2],h2⟩

/-- A run that returns in a state of which `P` holds. -/
theorem exists_of_runAll_any (P : σ → Bool)
    (h : (runAll step is s).toOption.any (fun r => P r.2) = true) :
    ∃ os s', runAll step is s = .ok (os,s') ∧ P s' = true := by
  cases hrun : runAll step is s with
  | error p =>
    rw [hrun] at h
    cases h
  | ok r =>
    rw [hrun] at h
    exact ⟨r.1,r.2,rfl,h⟩

/-- `P` holds of the state and the call, at every call of a run. -/
def AtEveryCall (step : ι → σ → Result (ο × σ)) (P : σ → ι → Prop) : List ι → σ → Prop
  | [],_ => True
  | i::is,s => P s i ∧ ∀ o s', step i s = .ok (o,s') → AtEveryCall step P is s'

/-- `P` holds of every state of a run. -/
def AtEveryState (step : ι → σ → Result (ο × σ)) (P : σ → Prop) : List ι → σ → Prop
  | [],s => P s
  | i::is,s => P s ∧ ∀ o s', step i s = .ok (o,s') → AtEveryState step P is s'

variable {os : List ο}

theorem runAll_cons_eq_ok {i : ι} (h : runAll step (i::is) s = .ok (os,s')) :
    ∃ o s1 os', step i s = .ok (o,s1) ∧ runAll step is s1 = .ok (os',s') ∧ os = o::os' := by
  rw [runAll,Result.bind_eq_ok] at h
  obtain ⟨⟨o,s1⟩,hs1,hrest⟩ := h
  obtain ⟨⟨os',s2⟩,hs2,heq⟩ := Result.bind_eq_ok.mp hrest
  cases heq
  exact ⟨o,s1,os',hs1,hs2,rfl⟩

variable {P : σ → Prop}

theorem AtEveryState.first (h : AtEveryState step P is s) : P s := by
  cases is with
  | nil => exact h
  | cons i is => exact h.1

theorem AtEveryState.mono {P Q : σ → Prop} (h : AtEveryState step P is s) (hPQ : ∀ s, P s → Q s) :
    AtEveryState step Q is s := by
  induction is generalizing s with
  | nil => exact hPQ s h
  | cons i is ih => exact ⟨hPQ s h.1,fun o s' hs' => ih (h.2 o s' hs')⟩

theorem AtEveryState.last (h : AtEveryState step P is s)
    (hrun : runAll step is s = .ok (os,s')) : P s' := by
  induction is generalizing s os with
  | nil =>
    cases hrun
    exact h
  | cons i is ih =>
    obtain ⟨o,s1,os',hs1,hs2,-⟩ := runAll_cons_eq_ok hrun
    exact ih (h.2 o s1 hs1) hs2

theorem AtEveryCall.and {P Q : σ → ι → Prop} (hP : AtEveryCall step P is s)
    (hQ : AtEveryCall step Q is s) : AtEveryCall step (fun s i => P s i ∧ Q s i) is s := by
  induction is generalizing s with
  | nil => trivial
  | cons i is ih => exact ⟨⟨hP.1,hQ.1⟩,fun o s' h => ih (hP.2 o s' h) (hQ.2 o s' h)⟩

theorem AtEveryState.calls {Q : σ → ι → Prop} (hP : AtEveryState step P is s)
    (hQ : AtEveryCall step Q is s) : AtEveryCall step (fun s i => P s ∧ Q s i) is s := by
  induction is generalizing s with
  | nil => trivial
  | cons i is ih => exact ⟨⟨hP.1,hQ.1⟩,fun o s' h => ih (hP.2 o s' h) (hQ.2 o s' h)⟩

theorem AtEveryCall.mono {P Q : σ → ι → Prop} (h : AtEveryCall step P is s)
    (hPQ : ∀ s i, P s i → Q s i) : AtEveryCall step Q is s := by
  induction is generalizing s with
  | nil => trivial
  | cons i is ih => exact ⟨hPQ s i h.1,fun o s' hs' => ih (h.2 o s' hs')⟩

/-- What holds of the calls alone holds along a run. -/
theorem AtEveryCall.of_forall_mem {P : ι → Prop} (h : ∀ i ∈ is, P i) (s : σ) :
    AtEveryCall step (fun _ i => P i) is s := by
  induction is generalizing s with
  | nil => trivial
  | cons i is ih =>
    exact ⟨h i List.mem_cons_self,fun o s' _ => ih (fun j hj => h j (List.mem_cons_of_mem i hj)) s'⟩

/-- What holds of all states with an invariant holds all along a run of calls that keep it. -/
theorem atEvery_of_invariant (inv : σ → Prop) {Q : σ → Prop} {C P : σ → ι → Prop}
    (hQ : ∀ s, inv s → Q s)
    (hstep : ∀ s i, inv s → C s i → P s i ∧ ∀ o s', step i s = .ok (o,s') → inv s')
    (is : List ι) (h : inv s) (hC : AtEveryCall step C is s) :
    AtEveryState step Q is s ∧ AtEveryCall step P is s := by
  induction is generalizing s with
  | nil => exact ⟨hQ s h,trivial⟩
  | cons i is ih =>
    obtain ⟨hP,hinv⟩ := hstep s i h hC.1
    have hrest : ∀ o s', step i s = .ok (o,s') →
        AtEveryState step Q is s' ∧ AtEveryCall step P is s' :=
      fun o s' hs' => ih (hinv o s' hs') (hC.2 o s' hs')
    exact ⟨⟨hQ s h,fun o s' hs' => (hrest o s' hs').1⟩,hP,fun o s' hs' => (hrest o s' hs').2⟩

/-- What follows from an invariant that every call keeps holds of every state of a run. -/
theorem atEveryState_of_invariant (inv : σ → Prop) {Q : σ → Prop} (hQ : ∀ s, inv s → Q s)
    (hstep : ∀ s i o s', inv s → step i s = .ok (o,s') → inv s') (is : List ι) (h : inv s) :
    AtEveryState step Q is s := by
  induction is generalizing s with
  | nil => exact hQ s h
  | cons i is ih => exact ⟨hQ s h,fun o s' hs' => ih (hstep s i o s' h hs')⟩

theorem forall_step_iff {i : ι} {o : ο} (h : step i s = .ok (o,s')) :
    (∀ o1 s1, step i s = .ok (o1,s1) → P s1) ↔ P s' := by
  constructor
  · intro hall
    exact hall o s' h
  · intro hs' o1 s1 h1
    rw [h] at h1
    cases h1
    exact hs'

theorem forall_step_of_error {i : ι} {p : Panic} (h : step i s = .error p) :
    ∀ o1 s1, step i s = .ok (o1,s1) → P s1 := by
  intro o1 s1 h1
  rw [h] at h1
  cases h1

instance AtEveryState.decidable {P : σ → Prop} [DecidablePred P] :
    (is : List ι) → (s : σ) → Decidable (AtEveryState step P is s)
  | [],s => inferInstanceAs (Decidable (P s))
  | i::is,s =>
    match h : step i s with
    | .ok (_,s') =>
      have : Decidable (AtEveryState step P is s') := AtEveryState.decidable is s'
      decidable_of_iff (P s ∧ AtEveryState step P is s') (and_congr_right' (forall_step_iff h).symm)
    | .error _ => decidable_of_iff (P s) (and_iff_left (forall_step_of_error h)).symm

instance AtEveryCall.decidable {P : σ → ι → Prop} [∀ s i, Decidable (P s i)] :
    (is : List ι) → (s : σ) → Decidable (AtEveryCall step P is s)
  | [],_ => inferInstanceAs (Decidable True)
  | i::is,s =>
    match h : step i s with
    | .ok (_,s') =>
      have : Decidable (AtEveryCall step P is s') := AtEveryCall.decidable is s'
      decidable_of_iff (P s i ∧ AtEveryCall step P is s') (and_congr_right' (forall_step_iff h).symm)
    | .error _ => decidable_of_iff (P s i) (and_iff_left (forall_step_of_error h)).symm

/-- Two computations return the same with related states, or stop with the same panic. -/
def Agrees (rel : σ → τ → Prop) (x : Result (ο × σ)) (y : Result (ο × τ)) : Prop :=
  match y with
  | .ok (o,a) => ∃ s, x = .ok (o,s) ∧ rel s a
  | .error p => x = .error p

variable {rel : σ → τ → Prop}

theorem Agrees.bind {α β σ' τ' : Type} {rel' : σ' → τ' → Prop}
    {x : Result (α × σ)} {y : Result (α × τ)} {f : α × σ → Result (β × σ')}
    {g : α × τ → Result (β × τ')} (h : Agrees rel x y)
    (hfg : ∀ a s b, rel s b → Agrees rel' (f (a,s)) (g (a,b))) : Agrees rel' (x >>= f) (y >>= g) := by
  cases y with
  | error p =>
    have hx : x = .error p := h
    rw [hx]
    rfl
  | ok r =>
    obtain ⟨s,hs,hrel⟩ := h
    rw [hs]
    exact hfg r.1 s r.2 hrel

theorem Agrees.map_fst {x : Result (ο × σ)} {y : Result (ο × τ)}
    (h : Agrees rel x y) : Prod.fst <$> x = Prod.fst <$> y := by
  cases y with
  | error p =>
    have hx : x = .error p := h
    rw [hx]
    rfl
  | ok r =>
    obtain ⟨s,hs,-⟩ := h
    rw [hs]
    rfl

theorem AtEveryCall.append {P : σ → ι → Prop} (h : AtEveryCall step P (is ++ js) s)
    (hrun : runAll step is s = .ok (os,s')) : AtEveryCall step P is s ∧ AtEveryCall step P js s' := by
  induction is generalizing s os with
  | nil =>
    cases hrun
    exact ⟨trivial,h⟩
  | cons i is ih =>
    obtain ⟨o,s1,os',hs1,hs2,-⟩ := runAll_cons_eq_ok hrun
    obtain ⟨his,hjs⟩ := ih ((forall_step_iff hs1).mp h.2) hs2
    exact ⟨⟨h.1,(forall_step_iff hs1).mpr his⟩,hjs⟩

/-- Components whose calls agree under a condition have runs that agree. -/
theorem runAll_agrees_of {spec : ι → τ → Result (ο × τ)} {C : σ → ι → Prop}
    (hstep : ∀ i s a, rel s a → C s i → Agrees rel (step i s) (spec i a)) (is : List ι)
    (h : rel s a) (hC : AtEveryCall step C is s) : Agrees rel (runAll step is s) (runAll spec is a) := by
  induction is generalizing s a with
  | nil => exact ⟨s,rfl,h⟩
  | cons i is ih =>
    have hagrees := hstep i s a h hC.1
    cases hspec : spec i a with
    | error p =>
      rw [hspec] at hagrees
      have hs : step i s = .error p := hagrees
      rw [runAll,runAll,hs,hspec]
      rfl
    | ok r =>
      rw [hspec] at hagrees
      obtain ⟨s1,hs1,hrel⟩ := hagrees
      rw [runAll,runAll,hs1,hspec]
      refine (ih hrel ((forall_step_iff hs1).mp hC.2)).bind fun os s a hrel => ?_
      exact ⟨s,rfl,hrel⟩

theorem runAll_agrees {spec : ι → τ → Result (ο × τ)}
    (hstep : ∀ i s a, rel s a → Agrees rel (step i s) (spec i a)) (is : List ι) (h : rel s a) :
    Agrees rel (runAll step is s) (runAll spec is a) :=
  runAll_agrees_of (fun i s a hrel _ => hstep i s a hrel) is h
    (AtEveryCall.of_forall_mem (fun _ _ => trivial) s)

theorem runAll_cons {i : ι} {o : ο} {s1 s2 : σ} (h : step i s = .ok (o,s1))
    (hs : runAll step is s1 = .ok (os,s2)) : runAll step (i::is) s = .ok (o::os,s2) := by
  simp [runAll,h,hs]

theorem runAll_append {os os' : List ο} {s1 s2 : σ} (his : runAll step is s = .ok (os,s1))
    (hjs : runAll step js s1 = .ok (os',s2)) :
    runAll step (is ++ js) s = .ok (os ++ os',s2) := by
  induction is generalizing s os with
  | nil =>
    cases his
    exact hjs
  | cons i is ih =>
    obtain ⟨o,s',os1,hs',hs2,rfl⟩ := runAll_cons_eq_ok his
    simp [runAll,hs',ih hs2]

theorem runAll_map {κ : Type} (step : ι → σ → Result (ο × σ)) (f : κ → ι) (ks : List κ) (s : σ) :
    runAll step (ks.map f) s = runAll (fun k => step (f k)) ks s := by
  induction ks generalizing s with
  | nil => rfl
  | cons k ks ih => simp only [List.map_cons,runAll,ih]

/-- What every panic of a call is, every panic of a run is. -/
theorem runAll_eq_error {Q : Panic → Prop}
    (hstep : ∀ i s p, step i s = .error p → Q p) {p : Panic}
    (h : runAll step is s = .error p) : Q p := by
  induction is generalizing s with
  | nil => cases h
  | cons i is ih =>
    rw [runAll,Result.bind_eq_error] at h
    rcases h with h | ⟨⟨o,s1⟩,-,h⟩
    · exact hstep i s p h
    · rcases Result.bind_eq_error.mp h with h | ⟨r,-,h⟩
      · exact ih h
      · cases h

end
end Tailnet

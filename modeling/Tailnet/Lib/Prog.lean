import Tailnet.Lib.Result

/-! Programs over a state that may panic, with rules of postconditions. A program
ensures a postcondition if it returns in a state with it or stops with a panic that is
allowed; the rules follow the structure of programs. -/
namespace Tailnet
open List

/-- A program over a state. A panic loses the state. -/
abbrev Prog (σ α : Type) := StateT σ (Except Panic) α

namespace Prog
variable {σ τ α β γ : Type}

def lift (r : Result α) : Prog σ α := fun s =>
  match r with
  | .ok a => .ok (a,s)
  | .error p => .error p

/-- A program over a part of the state. -/
def zoom (get : σ → τ) (put : τ → σ → σ) (m : Prog τ α) : Prog σ α := fun s =>
  match m (get s) with
  | .ok (a,t) => .ok (a,put t s)
  | .error p => .error p

/-- A program that is run for each element of a list. -/
def forEach (f : α → Prog σ Unit) : List α → Prog σ Unit
  | [] => pure ()
  | a::as => do
    f a
    forEach f as

/-- What is logged along a loop: what `log` says of each iteration that is reached. -/
def logEach (f : α → Prog σ Unit) (log : α → σ → List β) : List α → σ → List β
  | [],_ => []
  | a::as,s => log a s ++
    match f a s with
    | .ok (_,s) => logEach f log as s
    | .error _ => []

variable {f : α → Prog σ β}

/-- A program that returned did so through each of its steps. -/
theorem bind_eq_ok {m : Prog σ α} {s s' : σ} {b : β} :
    (m >>= f) s = .ok (b,s') ↔ ∃ a s1, m s = .ok (a,s1) ∧ f a s1 = .ok (b,s') := by
  rw [show (m >>= f) s = (m s >>= fun r => f r.1 r.2) from rfl]
  cases m s with
  | error p => simp
  | ok r =>
    obtain ⟨a,s1⟩ := r
    simp

variable {r : Result α}

theorem lift_eq_ok {s s' : σ} {a : α} : lift r s = .ok (a,s') ↔ r = .ok a ∧ s' = s := by
  cases r with
  | error p => simp [lift]
  | ok b => simp [lift,eq_comm]

/-- From `s`, the program returns with `post` or stops with an allowed panic. -/
def Ensures (allowed : Panic → Prop) (m : Prog σ α) (s : σ) (post : α → σ → Prop) : Prop :=
  match m s with
  | .ok (a,s') => post a s'
  | .error p => allowed p

variable {allowed : Panic → Prop} {m : Prog σ α} {s : σ} {post : α → σ → Prop}

theorem Ensures.of_ok {a : α} {s' : σ} (h : Ensures allowed m s post) (hm : m s = .ok (a,s')) :
    post a s' := by
  rw [Ensures,hm] at h
  exact h

theorem Ensures.of_error {p : Panic} (h : Ensures allowed m s post) (hm : m s = .error p) :
    allowed p := by
  rw [Ensures,hm] at h
  exact h

theorem ensures_iff : Ensures allowed m s post ↔
    (∀ a s', m s = .ok (a,s') → post a s') ∧ ∀ p, m s = .error p → allowed p := by
  constructor
  · intro h
    exact ⟨fun _ _ hm => h.of_ok hm,fun _ hm => h.of_error hm⟩
  · rintro ⟨hok,herr⟩
    rw [Ensures]
    cases hm : m s with
    | error p => exact herr p hm
    | ok r => exact hok r.1 r.2 hm

theorem Ensures.mono {post' : α → σ → Prop} (h : Ensures allowed m s post)
    (hpost : ∀ a s', post a s' → post' a s') : Ensures allowed m s post' := by
  rw [ensures_iff] at h ⊢
  exact ⟨fun a s' hm => hpost a s' (h.1 a s' hm),h.2⟩

theorem Ensures.and {post' : α → σ → Prop} (h : Ensures allowed m s post)
    (h' : Ensures allowed m s post') : Ensures allowed m s fun a s' => post a s' ∧ post' a s' := by
  rw [Ensures] at h h' ⊢
  cases hm : m s with
  | error p =>
    rw [hm] at h
    exact h
  | ok r =>
    rw [hm] at h h'
    exact ⟨h,h'⟩

theorem ensures_pure {a : α} (h : post a s) : Ensures allowed (pure a) s post := h

theorem ensures_bind {mid : α → σ → Prop} {post : β → σ → Prop} (hm : Ensures allowed m s mid)
    (hf : ∀ a s', mid a s' → Ensures allowed (f a) s' post) : Ensures allowed (m >>= f) s post := by
  rw [Ensures,show (m >>= f) s = (m s >>= fun r => f r.1 r.2) from rfl]
  cases h : m s with
  | error p => exact hm.of_error h
  | ok r => exact hf r.1 r.2 (hm.of_ok h)

/-- As `ensures_bind`, for a continuation that needs to know how the first program ran. -/
theorem ensures_bind_run {mid : α → σ → Prop} {post : β → σ → Prop} (hm : Ensures allowed m s mid)
    (hf : ∀ a s', m s = .ok (a,s') → mid a s' → Ensures allowed (f a) s' post) :
    Ensures allowed (m >>= f) s post := by
  have hrun : Ensures allowed m s fun a s' => m s = .ok (a,s') ∧ mid a s' :=
    ensures_iff.mpr ⟨fun _ _ h => ⟨h,hm.of_ok h⟩,fun _ h => hm.of_error h⟩
  exact ensures_bind hrun fun a s' h => hf a s' h.1 h.2

theorem ensures_lift {post : β → σ → Prop}
    (herr : ∀ p, r = .error p → allowed p) (hok : ∀ a, r = .ok a → Ensures allowed (f a) s post) :
    Ensures allowed (lift r >>= f) s post := by
  cases r with
  | error p => exact herr p rfl
  | ok a => exact hok a rfl

/-- The program stops with allowed panics only, from every state. -/
def PanicsOnly (allowed : Panic → Prop) (m : Prog σ α) : Prop := ∀ s p, m s = .error p → allowed p

theorem PanicsOnly.pure (a : α) : PanicsOnly allowed (pure a : Prog σ α) := fun _ _ h => by cases h

theorem PanicsOnly.lift (h : ∀ p, r = .error p → allowed p) :
    PanicsOnly allowed (Prog.lift r : Prog σ α) := by
  intro s p hp
  cases r with
  | ok a => cases hp
  | error q =>
    cases hp
    exact h p rfl

theorem PanicsOnly.bind (hm : PanicsOnly allowed m)
    (hf : ∀ a, PanicsOnly allowed (f a)) : PanicsOnly allowed (m >>= f) := by
  intro s p hp
  rw [show (m >>= f) s = (m s >>= fun r => f r.1 r.2) from rfl] at hp
  cases h : m s with
  | error q =>
    rw [h] at hp
    cases hp
    exact hm s p h
  | ok r =>
    rw [h] at hp
    exact hf r.1 r.2 p hp

theorem PanicsOnly.ensures (h : PanicsOnly allowed m) :
    Ensures allowed m s fun a s' => m s = .ok (a,s') :=
  ensures_iff.mpr ⟨fun _ _ hm => hm,h s⟩

theorem ensures_zoom {get : σ → τ} {put : τ → σ → σ} {m : Prog τ α}
    (h : Ensures allowed m (get s) fun a t => post a (put t s)) :
    Ensures allowed (zoom get put m) s post := by
  rw [Ensures,zoom]
  cases hm : m (get s) with
  | error p => exact h.of_error hm
  | ok r => exact h.of_ok hm

theorem ensures_get {f : σ → Prog σ β} {post : β → σ → Prop} (h : Ensures allowed (f s) s post) :
    Ensures allowed (get >>= f) s post := h

theorem ensures_modify {g : σ → σ} {f : Unit → Prog σ β} {post : β → σ → Prop}
    (h : Ensures allowed (f ()) (g s) post) : Ensures allowed (modify g >>= f) s post := h

variable {log : α → σ → List β} {as : List α}

/-- A loop of which all that is logged is good keeps a fact about the iterations that remain,
if each iteration does. -/
theorem ensures_forEach_log {f : α → Prog σ Unit} {good : β → Prop} (inv : List α → σ → Prop)
    (hf : ∀ a as s, inv (a::as) s → (∀ b ∈ log a s, good b) →
      Ensures allowed (f a) s fun _ => inv as)
    (hgood : ∀ b ∈ logEach f log as s, good b) (h : inv as s) :
    Ensures allowed (forEach f as) s fun _ => inv [] := by
  induction as generalizing s with
  | nil => exact h
  | cons a as ih =>
    rw [logEach,forall_mem_append] at hgood
    refine ensures_bind_run (hf a as s h hgood.1) fun _ s' hrun h' => ?_
    rw [hrun] at hgood
    exact ih hgood.2 h'

theorem forEach_map {f : β → Prog σ Unit} {g : α → β} :
    forEach f (as.map g) = forEach (fun a => f (g a)) as := by
  induction as with
  | nil => rfl
  | cons a as ih => rw [map_cons,forEach,forEach,ih]

theorem logEach_map {f : β → Prog σ Unit} {g : α → β} {log : β → σ → List γ} :
    logEach f log (as.map g) s = logEach (fun a => f (g a)) (fun a => log (g a)) as s := by
  induction as generalizing s with
  | nil => rfl
  | cons a as ih =>
    rw [map_cons,logEach,logEach]
    cases f (g a) s with
    | error p => rfl
    | ok r => exact congrArg _ ih

/-- What holds whenever an iteration is reached, the log says. -/
theorem forall_mem_logEach_of_inv {f : α → Prog σ Unit} {good : β → Prop}
    {log' : α → σ → List γ} {good' : γ → Prop} (inv : List α → σ → Prop)
    (hf : ∀ a as s, inv (a::as) s → (∀ b ∈ log a s, good b) →
      Ensures allowed (f a) s fun _ => inv as)
    (hlog : ∀ a as s, inv (a::as) s → ∀ b ∈ log' a s, good' b)
    (hgood : ∀ b ∈ logEach f log as s, good b) (h : inv as s) :
    ∀ b ∈ logEach f log' as s, good' b := by
  induction as generalizing s with
  | nil => exact fun b hb => by cases hb
  | cons a as ih =>
    rw [logEach,forall_mem_append] at hgood ⊢
    refine ⟨hlog a as s h,?_⟩
    cases hrun : f a s with
    | error p => exact fun b hb => by cases hb
    | ok r =>
      rw [hrun] at hgood
      exact ih hgood.2 ((hf a as s h hgood.1).of_ok hrun)

/-- What the log of an iteration says of another log of it, the log of a loop says. -/
theorem forall_mem_logEach (good : β → Prop) {f : α → Prog σ Unit}
    {log' : α → σ → List γ} {good' : γ → Prop}
    (h : ∀ a s, (∀ b ∈ log a s, good b) → ∀ b ∈ log' a s, good' b)
    (hgood : ∀ b ∈ logEach f log as s, good b) : ∀ b ∈ logEach f log' as s, good' b := by
  induction as generalizing s with
  | nil => exact fun b hb => by cases hb
  | cons a as ih =>
    simp only [logEach,forall_mem_append] at hgood ⊢
    refine ⟨h a s hgood.1,?_⟩
    cases hrun : f a s with
    | error p => exact fun b hb => by cases hb
    | ok r =>
      rw [hrun] at hgood
      exact ih hgood.2

/-- A loop is logged by a relation that composes, if each iteration is. -/
theorem forEach_logged (inv : σ → Prop) (logged : σ → List β → σ → Prop) {f : α → Prog σ Unit} (hnil : ∀ s, logged s [] s)
    (happend : ∀ s1 s2 s3 bs bs', logged s1 bs s2 → logged s2 bs' s3 → logged s1 (bs ++ bs') s3) (hf : ∀ a ∈ as, ∀ s s', inv s → f a s = .ok ((),s') → inv s' ∧ logged s (log a s) s')
    {s' : σ} (h : inv s) (hrun : forEach f as s = .ok ((),s')) : logged s (logEach f log as s) s' := by
  induction as generalizing s with
  | nil =>
    cases hrun
    exact hnil _
  | cons a as ih =>
    obtain ⟨_,s1,hone,hrest⟩ := bind_eq_ok.mp hrun
    obtain ⟨h1,hlogged⟩ := hf a mem_cons_self s s1 h hone
    rw [logEach,hone]
    exact happend _ _ _ _ _ hlogged
      (ih (fun b hb => hf b (mem_cons_of_mem a hb)) h1 hrest)

end Prog
end Tailnet

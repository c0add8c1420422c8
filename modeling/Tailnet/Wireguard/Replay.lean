import Tailnet.Lib.Run

/-! The replay window of a receive session: a ring of four blocks of 64 bits, indexed
by masked counters. The ring holds the accepted counters of the last four blocks, and
the window is three blocks wide, so that every counter in it is held. -/
namespace Tailnet
open Function Nat

structure ReplayWindow where
  /-- the counter at the end of the sliding window -/
  last : UInt64
  blocks : Fin 4 → BitVec 64
  deriving DecidableEq

namespace ReplayWindow

def nBlocks : UInt64 := 4

def windowSize : UInt64 := (nBlocks - 1)*64

def default : ReplayWindow := ⟨0,fun _ => 0#64⟩

def saturatingSub (a b : UInt64) : UInt64 := if b ≤ a then a - b else 0

variable (r : ReplayWindow)

def smallestValid : UInt64 := saturatingSub r.last (windowSize - 1)

variable (counter : UInt64)

def blockIdxUnbounded : UInt64 := counter >>> 6

def bitIdx : UInt64 := counter &&& 63

/-- The block index masked to the ring. -/
def ringIdx (block : UInt64) : Fin 4 :=
  ⟨(block &&& (nBlocks - 1)).toNat,by
    rw [UInt64.toNat_and]
    exact lt_succ_of_le and_le_right⟩

def blockIdxAndBitMask : Fin 4 × BitVec 64 :=
  (ringIdx (blockIdxUnbounded counter),1#64 <<< (bitIdx counter).toNat)

/-- Report whether a counter is a new value that can be processed. -/
def check : Bool :=
  if counter > r.last then true
  else if counter < r.smallestValid then false
  else
    let (blockIdx,bitMask) := blockIdxAndBitMask counter
    r.blocks blockIdx &&& bitMask == 0#64

/-- The loop of `set` that zeroes the `n` blocks after the block `i`. -/
def zeroBlocks : ℕ → UInt64 → (Fin 4 → BitVec 64) → Fin 4 → BitVec 64
  | 0,_,blocks => blocks
  | n+1,i,blocks => zeroBlocks n (i+1) (update blocks (ringIdx (i+1)) 0#64)

/-- The window after its end moved to a later counter. -/
def advance : ReplayWindow :=
  let curBlock := blockIdxUnbounded r.last
  let newBlock := blockIdxUnbounded counter
  let delta := newBlock - curBlock
  if delta ≥ nBlocks then ⟨counter,fun _ => 0#64⟩
  else ⟨counter,zeroBlocks delta.toNat curBlock r.blocks⟩

/-- The window with the bit of a counter set. -/
def mark : ReplayWindow :=
  let (blockIdx,bitMask) := blockIdxAndBitMask counter
  ⟨r.last,update r.blocks blockIdx (r.blocks blockIdx ||| bitMask)⟩

/-- Mark a counter as seen and accepted; it panics unless `check` is true. -/
def set (r : ReplayWindow) (counter : UInt64) : Result ReplayWindow :=
  let smallest := r.smallestValid
  if counter < smallest then
    .error (.message s!"invalid set: counter {counter} is older than smallest valid {smallest}")
  else
    let r := if counter > r.last then r.advance counter else r
    let (blockIdx,bitMask) := blockIdxAndBitMask counter
    if r.blocks blockIdx &&& bitMask != 0#64 then
      .error (.message s!"invalid set: counter {counter} was already set previously")
    else .ok (r.mark counter)

/-- A counter is presented: it is checked, and set when the check is true. -/
def present : Result (Bool × ReplayWindow) :=
  if r.check counter then do
    let r ← r.set counter
    return (true,r)
  else return (false,r)

end ReplayWindow

/-- The ideal replay set: a counter is new when it was never accepted and is at most
191 behind the largest accepted one. -/
def NewCounter (accepted : Finset UInt64) (counter : UInt64) : Prop :=
  counter ∉ accepted ∧ ∀ a ∈ accepted, a.toNat ≤ counter.toNat + 191

instance (accepted : Finset UInt64) (counter : UInt64) : Decidable (NewCounter accepted counter) :=
  inferInstanceAs (Decidable (_ ∧ _))

/-- The ideal replay set accepts new counters. -/
def NewCounter.present (counter : UInt64) (accepted : Finset UInt64) : Bool × Finset UInt64 :=
  if NewCounter accepted counter then (true,insert counter accepted) else (false,accepted)

namespace ReplayWindow
variable {r : ReplayWindow} {accepted : Finset UInt64} {c : UInt64} {blocks : Fin 4 → BitVec 64}

theorem blockIdxUnbounded_toNat (c : UInt64) : (blockIdxUnbounded c).toNat = c.toNat/64 := by
  rw [blockIdxUnbounded,UInt64.toNat_shiftRight]
  exact shiftRight_eq_div_pow _ 6

theorem bitIdx_toNat (c : UInt64) : (bitIdx c).toNat = c.toNat%64 := by
  rw [bitIdx,UInt64.toNat_and]
  exact and_two_pow_sub_one_eq_mod _ 6

theorem ringIdx_val (b : UInt64) : (ringIdx b).val = b.toNat%4 := by
  change (b &&& 3).toNat = _
  rw [UInt64.toNat_and]
  exact and_two_pow_sub_one_eq_mod _ 2

theorem saturatingSub_toNat (a b : UInt64) : (saturatingSub a b).toNat = a.toNat - b.toNat := by
  rw [saturatingSub]
  split
  · rename_i h
    exact UInt64.toNat_sub_of_le _ _ h
  · rename_i h
    rw [UInt64.le_iff_toNat_le] at h
    change 0 = _
    omega

theorem smallestValid_toNat (r : ReplayWindow) : r.smallestValid.toNat = r.last.toNat - 191 :=
  saturatingSub_toNat _ _

/-- The bit of a counter is bit `i` of block `j`. -/
def Slot (c : UInt64) (j : Fin 4) (i : ℕ) : Prop := c.toNat/64%4 = j.val ∧ c.toNat%64 = i

theorem and_mask (x : BitVec 64) {i : ℕ} (hi : i < 64) :
    x &&& 1#64 <<< i = 0#64 ↔ x.getLsbD i = false := by
  constructor
  · intro h
    have := congrArg (fun y => y.getLsbD i) h
    simpa [hi] using this
  · intro h
    apply BitVec.eq_of_getLsbD_eq
    intro k hk
    by_cases hki : k = i
    · subst hki
      simp [h]
    · simp [hk]
      omega

theorem getLsbD_or_mask (x : BitVec 64) {i k : ℕ} (hi : i < 64) :
    (x ||| 1#64 <<< i).getLsbD k = true ↔ x.getLsbD k = true ∨ k = i := by
  by_cases hki : k = i
  · subst hki
    simp [hi]
  · simp [hki]
    omega

/-- The ring holds the accepted counters of the last four blocks. -/
def Holds (r : ReplayWindow) (accepted : Finset UInt64) : Prop :=
  ∀ j i, (r.blocks j).getLsbD i = true ↔
    ∃ a ∈ accepted, r.last.toNat/64 < a.toNat/64 + 4 ∧ Slot a j i

/-- The window stands for the set of accepted counters. -/
structure Rep (r : ReplayWindow) (accepted : Finset UInt64) : Prop where
  le_last : ∀ a ∈ accepted, a.toNat ≤ r.last.toNat
  last_mem : 0 < r.last.toNat → r.last ∈ accepted
  holds : r.Holds accepted

theorem default_rep : default.Rep ∅ := by
  refine ⟨fun a ha => absurd ha (Finset.notMem_empty a),fun h => absurd h (by decide),?_⟩
  intro j i
  simp [default]

/-- The test of a counter's bit, for a counter of the last four blocks. -/
theorem Holds.test (h : r.Holds accepted) (hle : ∀ a ∈ accepted, a.toNat ≤ r.last.toNat)
    (hc : c.toNat ≤ r.last.toNat) (hlast : r.last.toNat/64 < c.toNat/64 + 4) :
    r.blocks (blockIdxAndBitMask c).1 &&& (blockIdxAndBitMask c).2 = 0#64 ↔ c ∉ accepted := by
  have hslot : Slot c (blockIdxAndBitMask c).1 (bitIdx c).toNat := by
    rw [Slot,blockIdxAndBitMask,ringIdx_val,blockIdxUnbounded_toNat,bitIdx_toNat]
    exact ⟨rfl,rfl⟩
  rw [show (blockIdxAndBitMask c).2 = 1#64 <<< (bitIdx c).toNat from rfl,
    and_mask _ (by rw [bitIdx_toNat]; omega),← Bool.not_eq_true,h]
  refine not_congr ⟨?_,fun hmem => ⟨c,hmem,hlast,hslot⟩⟩
  rintro ⟨a,ha,hwin,hs⟩
  -- counters of the last four blocks with one slot are equal
  have hac : a.toNat = c.toNat := by
    have := hle a ha
    obtain ⟨h1,h2⟩ := hs
    obtain ⟨h3,h4⟩ := hslot
    omega
  rwa [← UInt64.toNat_inj.mp hac]

theorem check_iff (h : r.Rep accepted) : r.check c = true ↔ NewCounter accepted c := by
  have hs := r.smallestValid_toNat
  rw [check]
  split
  · rename_i hgt
    have hgt : r.last.toNat < c.toNat := hgt
    refine iff_of_true rfl ⟨fun hmem => ?_,fun a ha => ?_⟩
    · have := h.le_last c hmem
      omega
    · have := h.le_last a ha
      omega
  · rename_i hgt
    have hle : c.toNat ≤ r.last.toNat := not_lt.mp hgt
    split
    · rename_i hlt
      have hlt : c.toNat < r.smallestValid.toNat := hlt
      refine iff_of_false (by simp) fun hnew => ?_
      have := hnew.2 r.last (h.last_mem (by omega))
      omega
    · rename_i hlt
      have hge : r.smallestValid.toNat ≤ c.toNat := not_lt.mp hlt
      rw [beq_iff_eq,h.holds.test h.le_last hle (by omega)]
      refine ⟨fun hmem => ⟨hmem,fun a ha => ?_⟩,fun hnew => hnew.1⟩
      have := h.le_last a ha
      omega

/-- Zeroing the blocks after block `i` erases the slots of these blocks. -/
theorem getLsbD_zeroBlocks (n : ℕ) {i : UInt64} (hi : i.toNat + n < 2^64) (j : Fin 4) (k : ℕ) :
    (zeroBlocks n i blocks j).getLsbD k = true ↔
      (blocks j).getLsbD k = true ∧ ∀ b, i.toNat < b → b ≤ i.toNat + n → b%4 ≠ j.val := by
  induction n generalizing i blocks with
  | zero =>
    rw [zeroBlocks]
    refine ⟨fun h => ⟨h,fun b h1 h2 => by omega⟩,fun h => h.1⟩
  | succ n ih =>
    have hnext : (i+1).toNat = i.toNat + 1 := by
      rw [UInt64.toNat_add]
      exact mod_eq_of_lt (by change i.toNat + 1 < 2^64; omega)
    rw [zeroBlocks,ih (by omega),hnext]
    by_cases hj : j = ringIdx (i+1)
    · subst hj
      rw [update_self]
      refine iff_of_false (by simp) fun h => h.2 (i.toNat+1) (by omega) (by omega) ?_
      rw [ringIdx_val,hnext]
    · rw [update_of_ne hj]
      refine and_congr_right fun _ => ⟨fun h b h1 h2 => ?_,fun h b h1 h2 => h b (by omega) (by omega)⟩
      by_cases hb : b = i.toNat + 1
      · intro he
        apply hj
        apply Fin.ext
        rw [ringIdx_val,hnext,← hb,he]
      · exact h b (by omega) (by omega)

theorem Holds.advance (h : r.Holds accepted) (hle : ∀ a ∈ accepted, a.toNat ≤ r.last.toNat)
    (hc : r.last.toNat < c.toNat) : (r.advance c).Holds accepted ∧ (r.advance c).last = c := by
  have hcur := blockIdxUnbounded_toNat r.last
  have hnew := blockIdxUnbounded_toNat c
  have hdelta : (blockIdxUnbounded c - blockIdxUnbounded r.last).toNat =
      c.toNat/64 - r.last.toNat/64 := by
    rw [UInt64.toNat_sub_of_le,hcur,hnew]
    rw [UInt64.le_iff_toNat_le,hcur,hnew]
    omega
  have hbound := c.toNat_lt
  simp only [ReplayWindow.advance]
  split
  · rename_i hbig
    have hbig : 4 ≤ c.toNat/64 - r.last.toNat/64 := by
      rw [← hdelta]
      exact hbig
    refine ⟨fun j i => ?_,rfl⟩
    refine iff_of_false (by simp) ?_
    rintro ⟨a,ha,hwin,_⟩
    have := hle a ha
    dsimp only at hwin
    omega
  · refine ⟨fun j i => ?_,rfl⟩
    dsimp only
    rw [getLsbD_zeroBlocks _ (by rw [hcur,hdelta]; omega),h,hcur,hdelta]
    constructor
    · rintro ⟨⟨a,ha,hwin,hslot⟩,hkeep⟩
      refine ⟨a,ha,?_,hslot⟩
      -- otherwise the block of the counter would have been zeroed
      by_contra hout
      have := hle a ha
      exact hkeep (a.toNat/64 + 4) (by omega) (by omega) (by rw [← hslot.1]; omega)
    · rintro ⟨a,ha,hwin,hslot⟩
      have := hle a ha
      refine ⟨⟨a,ha,by omega,hslot⟩,fun b h1 h2 he => ?_⟩
      have := hslot.1
      omega

/-- Marking a counter of the last four blocks that is not held. -/
theorem Holds.mark (h : r.Holds accepted) (hlast : r.last.toNat/64 < c.toNat/64 + 4) :
    (r.mark c).Holds (insert c accepted) := by
  have hidx : (blockIdxAndBitMask c).1.val = c.toNat/64%4 := by
    rw [blockIdxAndBitMask,ringIdx_val,blockIdxUnbounded_toNat]
  intro j i
  have hins : (∃ a ∈ insert c accepted, r.last.toNat/64 < a.toNat/64 + 4 ∧ Slot a j i) ↔
      (∃ a ∈ accepted, r.last.toNat/64 < a.toNat/64 + 4 ∧ Slot a j i) ∨ Slot c j i := by
    simp only [Finset.exists_mem_insert,hlast,true_and]
    exact or_comm
  simp only [ReplayWindow.mark]
  rw [hins,← h]
  by_cases hj : j = (blockIdxAndBitMask c).1
  · subst hj
    rw [update_self,show (blockIdxAndBitMask c).2 = 1#64 <<< (bitIdx c).toNat from rfl,
      getLsbD_or_mask _ (by rw [bitIdx_toNat]; omega),bitIdx_toNat,Slot,hidx]
    exact or_congr_right ⟨fun he => ⟨rfl,he.symm⟩,fun he => he.2.symm⟩
  · rw [update_of_ne hj,Slot,← hidx]
    simp [Fin.val_inj,Ne.symm hj]

theorem set_error {p : Panic} (h : r.set c = .error p) :
    ∃ text, p = .message ("invalid set: counter " ++ text) := by
  simp only [set] at h
  generalize (if c > r.last then r.advance c else r) = r' at h
  split at h
  · cases h
    exact ⟨_,by simp only [toString,String.append_assoc]; rfl⟩
  · split at h
    · cases h
      exact ⟨_,by simp only [toString,String.append_assoc]; rfl⟩
    · cases h

theorem set_spec (h : r.Rep accepted) (hnew : NewCounter accepted c) :
    ∃ r', r.set c = .ok r' ∧ r'.Rep (insert c accepted) := by
  have hs := r.smallestValid_toNat
  have hvalid : ¬ c < r.smallestValid := by
    rw [UInt64.lt_iff_toNat_lt]
    intro hlt
    have := hnew.2 r.last (h.last_mem (by omega))
    omega
  -- the window whose end is not before the counter
  obtain ⟨r1,hr1,hh,hle,hc,hwin,hlast⟩ : ∃ r1, (if c > r.last then r.advance c else r) = r1 ∧
      r1.Holds accepted ∧ (∀ a ∈ accepted, a.toNat ≤ r1.last.toNat) ∧ c.toNat ≤ r1.last.toNat ∧
      r1.last.toNat/64 < c.toNat/64 + 4 ∧ (0 < r1.last.toNat → r1.last ∈ insert c accepted) := by
    by_cases hgt : c > r.last
    · have hgt' : r.last.toNat < c.toNat := hgt
      obtain ⟨hh,hl⟩ := h.holds.advance h.le_last hgt'
      refine ⟨_,if_pos hgt,hh,?_⟩
      rw [hl]
      refine ⟨fun a ha => ?_,le_rfl,by omega,fun _ => Finset.mem_insert_self c accepted⟩
      have := h.le_last a ha
      omega
    · have hle : c.toNat ≤ r.last.toNat := not_lt.mp hgt
      rw [UInt64.lt_iff_toNat_lt] at hvalid
      exact ⟨r,if_neg hgt,h.holds,h.le_last,hle,by omega,
        fun hpos => Finset.mem_insert_of_mem (h.last_mem hpos)⟩
  have htest : ¬ (r1.blocks (blockIdxAndBitMask c).1 &&& (blockIdxAndBitMask c).2 != 0#64) = true := by
    rw [bne_iff_ne,not_not,hh.test hle hc hwin]
    exact hnew.1
  refine ⟨r1.mark c,by simp only [set,if_neg hvalid,hr1,if_neg htest],?_,hlast,hh.mark hwin⟩
  intro a ha
  rcases Finset.mem_insert.mp ha with rfl | ha
  · exact hc
  · exact hle a ha

theorem present_spec (h : r.Rep accepted) (c : UInt64) :
    ∃ r', r.present c = .ok ((NewCounter.present c accepted).1,r') ∧
      r'.Rep (NewCounter.present c accepted).2 := by
  rw [present,NewCounter.present]
  by_cases hnew : NewCounter accepted c
  · obtain ⟨r',hr',hrep⟩ := set_spec h hnew
    exact ⟨r',by simp [(check_iff h).mpr hnew,hr',hnew],by rwa [if_pos hnew]⟩
  · have hcheck : r.check c = false := by
      rwa [← Bool.not_eq_true,check_iff h]
    exact ⟨r,by simp [hcheck,hnew],by rwa [if_neg hnew]⟩

/-- The window follows the ideal replay set in every run, whose calls of `set` never
panic; after the run `check` tells the new counters from all others, and `set` succeeds
on each of them. -/
theorem present_refines_replay_set (counters : List UInt64) :
    ∃ r, runAll (fun c r => present r c) counters default =
        .ok ((specAll NewCounter.present counters ∅).1,r) ∧
      ∀ c, (r.check c = true ↔ NewCounter (specAll NewCounter.present counters ∅).2 c) ∧
        (r.check c = true → ∃ r', r.set c = .ok r') := by
  obtain ⟨r,hrun,hrep⟩ := runAll_refines Rep (fun c _ _ h => present_spec h c) counters default_rep
  refine ⟨r,hrun,fun c => ⟨check_iff hrep,fun hc => ?_⟩⟩
  obtain ⟨r',hr',_⟩ := set_spec hrep ((check_iff hrep).mp hc)
  exact ⟨r',hr'⟩

end ReplayWindow
end Tailnet

import Tailnet.Wireguard.Clock

/-! The timestamps that a clock issues are strictly increasing, whatever the system clock does.
A timestamp is read as one number: whitening clears its low bits, and the step beyond the last
timestamp is the least number that whitening does not clear. -/
namespace Tailnet.Wireguard
open Prog List

namespace TAI64N
variable {t last r : TAI64N} {v w : ℤ}

/-- A timestamp as one number, by which timestamps are ordered. -/
def key (t : TAI64N) : ℕ := t.secs.toNat*2^32 + t.nanos.toNat

theorem lt_iff (a b : TAI64N) : a.lt b = true ↔ a.key < b.key := by
  have ha := a.nanos.toNat_lt
  have hb := b.nanos.toNat_lt
  simp only [lt,key,Bool.or_eq_true,Bool.and_eq_true,decide_eq_true_eq,UInt64.lt_iff_toNat_lt,
    UInt32.lt_iff_toNat_lt,← UInt64.toNat_inj]
  omega

/-- The low bits of the nanoseconds are clear. -/
def Whitened (t : TAI64N) : Prop := t.nanos.toNat%2^24 = 0

theorem toNat_whiten (n : UInt32) : (n &&& whitenMask).toNat = n.toNat/2^24*2^24 := by
  have hmask : whitenMask.toNat = 2^24*(2^8 - 1) := by decide
  rw [UInt32.toNat_and,hmask,mul_comm]
  refine Nat.eq_of_testBit_eq fun i => ?_
  rw [Nat.testBit_and,Nat.testBit_mul_two_pow,Nat.testBit_mul_two_pow,Nat.testBit_two_pow_sub_one,
    Nat.testBit_div_two_pow]
  by_cases hi : 24 ≤ i
  · have hcancel : i - 24 + 24 = i := by omega
    by_cases hlarge : i < 32
    · simp [hi,hcancel,show i - 24 < 8 by omega]
    · have hhigh : n.toNat.testBit i = false :=
        Nat.testBit_lt_two_pow (lt_of_lt_of_le n.toNat_lt (Nat.pow_le_pow_right two_pos (by omega)))
      simp [hcancel,hhigh]
  · simp [hi]

theorem whitened_whiten (secs : UInt64) (n : UInt32) : Whitened ⟨secs,n &&& whitenMask⟩ := by
  rw [Whitened,toNat_whiten]
  omega

theorem checkedSecs_of_lt {secs : ℕ} (h : secs < 2^64) :
    checkedSecs secs = .ok (.ofNat secs) := by
  rw [checkedSecs,if_pos (by omega),Int.toNat_natCast]

/-- The second after a timestamp, if its nanoseconds overflow. -/
theorem carrySecs_spec (carry : Bool) (secs : UInt64) (h : secs.toNat + carry.toNat < 2^64) :
    ∃ r, carrySecs carry secs = .ok r ∧ r.toNat = secs.toNat + carry.toNat := by
  cases carry with
  | false => exact ⟨secs,rfl,rfl⟩
  | true =>
    rw [Bool.toNat_true] at h ⊢
    refine ⟨.ofNat (secs.toNat + 1),?_,UInt64.toNat_ofNat_of_lt' h⟩
    rw [carrySecs,if_pos rfl,← checkedSecs_of_lt h,Nat.cast_add,Nat.cast_one]

theorem clampAfter_of_lt (h : last.lt t = true) : t.clampAfter last = .ok t := by
  rw [clampAfter,if_pos h]

/-- A reading that is not after the last timestamp is replaced by the next whitened number. -/
theorem clampAfter_of_not_lt (hw : last.Whitened) (hroom : last.key + 2^24 < 2^96)
    (h : ¬ last.lt t = true) :
    ∃ r, t.clampAfter last = .ok r ∧ r.Whitened ∧ r.key = last.key + 2^24 := by
  rw [Whitened] at hw
  rw [key] at hroom
  have hn := last.nanos.toNat_lt
  have hinc : whitenIncrement.toNat = 2^24 := by decide
  let carry := decide (2^32 ≤ last.nanos.toNat + whitenIncrement.toNat)
  have hcarry : carry.toNat*2^32 + (last.nanos.toNat + 2^24)%2^32 = last.nanos.toNat + 2^24 := by
    simp only [carry,hinc]
    by_cases hbig : 2^32 ≤ last.nanos.toNat + 2^24
    · rw [decide_eq_true hbig,Bool.toNat_true]
      omega
    · rw [decide_eq_false hbig,Bool.toNat_false]
      omega
  obtain ⟨secs,hsecs,hval⟩ := carrySecs_spec carry last.secs (by omega)
  refine ⟨⟨secs,(last.nanos + whitenIncrement) &&& whitenMask⟩,?_,whitened_whiten _ _,?_⟩
  · rw [clampAfter,if_neg h]
    exact Result.bind_eq_ok.mpr ⟨secs,hsecs,rfl⟩
  · have hclear : 2^24 ∣ (last.nanos.toNat + 2^24)%2^32 :=
      (Nat.dvd_mod_iff (pow_dvd_pow 2 (by decide))).mpr
        ((Nat.dvd_of_mod_eq_zero hw).add dvd_rfl)
    rw [key,key,toNat_whiten,UInt32.toNat_add,hinc,hval,Nat.div_mul_cancel hclear,add_mul,add_assoc,add_assoc,hcarry]

/-- Both branches of the conversion round towards the past. -/
theorem ofSystemTime_eq (v : ℤ) : ofSystemTime v = do
    let secs ← checkedSecs (taiBase.toNat + v/10^9)
    return ⟨secs,.ofNat (v%10^9).toNat &&& whitenMask⟩ := by
  rw [ofSystemTime]
  by_cases hneg : v < 0
  · rw [if_pos hneg]
    by_cases hsub : (-v).toNat%10^9 = 0
    · simp only [hsub]
      have hs : (taiBase.toNat : ℤ) - ((-v).toNat/10^9 : ℕ) = taiBase.toNat + v/10^9 := by omega
      have hn : (v%10^9).toNat = 0 := by omega
      simp only [if_true,hs,hn]
    · have hs : (taiBase.toNat : ℤ) - ((-v).toNat/10^9 + 1 : ℕ) = taiBase.toNat + v/10^9 := by omega
      have hn : (v%10^9).toNat = 10^9 - (-v).toNat%10^9 := by omega
      simp only [if_neg hsub,hs,hn]
  · have hs : (taiBase.toNat : ℤ) + (v.toNat/10^9 : ℕ) = taiBase.toNat + v/10^9 := by omega
    have hn : (v%10^9).toNat = v.toNat%10^9 := by omega
    simp only [if_neg hneg,hn]
    rw [← hs]
    rfl

/-- The number of a system time: its second and its whitened nanoseconds. -/
theorem key_of_ofSystemTime (h : ofSystemTime v = .ok t) :
    t.Whitened ∧ (t.key : ℤ) = (taiBase.toNat + v/10^9)*2^32 + v%10^9/2^24*2^24 := by
  rw [ofSystemTime_eq] at h
  obtain ⟨secs,hsecs,h⟩ := Result.bind_eq_ok.mp h
  cases h
  refine ⟨whitened_whiten _ _,?_⟩
  rw [checkedSecs] at hsecs
  split at hsecs
  · rename_i hrange
    cases hsecs
    have hlt : (taiBase.toNat + v/10^9).toNat < 2^64 := by omega
    have hn : (v%10^9).toNat < 2^32 := by omega
    rw [key,toNat_whiten,UInt64.toNat_ofNat_of_lt' hlt,UInt32.toNat_ofNat_of_lt' hn]
    omega
  · cases hsecs

/-- The conversion is monotone, also from before the epoch to after it. -/
theorem ofSystemTime_mono (h : ofSystemTime v = .ok t) (h' : ofSystemTime w = .ok r) (hvw : v ≤ w) :
    t.key ≤ r.key := by
  have ht := (key_of_ofSystemTime h).2
  have hr := (key_of_ofSystemTime h').2
  omega

/-- At most so many seconds from the Unix epoch, on either side. -/
def Within (secs : ℕ) (v : SystemTime) : Prop := |v| ≤ secs*10^9

theorem ofSystemTime_of_within (h : Within (2^61) v) :
    ∃ t, ofSystemTime v = .ok t ∧ t.Whitened ∧ t.key < (taiBase.toNat + 2^61 + 1)*2^32 := by
  have hv : (-(2^61*10^9) : ℤ) ≤ v ∧ v ≤ 2^61*10^9 := by
    rw [Within,abs_le] at h
    exact_mod_cast h
  have hbase : taiBase.toNat = 0x400000000000000a := by decide
  have hrange : 0 ≤ (taiBase.toNat + v/10^9 : ℤ) ∧ (taiBase.toNat + v/10^9 : ℤ) < 2^64 := by omega
  have hok : ofSystemTime v = .ok ⟨.ofNat (taiBase.toNat + v/10^9).toNat,
      .ofNat (v%10^9).toNat &&& whitenMask⟩ := by
    rw [ofSystemTime_eq,checkedSecs,if_pos hrange]
    rfl
  obtain ⟨hw,hkey⟩ := key_of_ofSystemTime hok
  exact ⟨_,hok,hw,by omega⟩

end TAI64N
open TAI64N

namespace TAI64NClock
variable {clock : TAI64NClock} {env : Env} {t : TAI64N}

/-- A call of `now`, in a run that keeps the clock and what is still to be drawn. -/
def step (_ : Unit) (s : TAI64NClock × Env) : Result (TAI64N × (TAI64NClock × Env)) := do
  let r ← s.1.now s.2
  return (r.1.1,(r.1.2,r.2))

/-- The environment after a system time was drawn. -/
def drawn (env : Env) : Env := { env with systemTimes := env.systemTimes.tail }

theorem now_eq {last : TAI64N} (hread : ofSystemTime env.systemTimes.head = .ok t)
    (hclamp : t.clampAfter clock.last = .ok last) :
    clock.now env = .ok ((last,⟨last⟩),drawn env) := by
  refine bind_eq_ok.mpr ⟨_,_,rfl,bind_eq_ok.mpr ⟨t,_,lift_eq_ok.mpr ⟨hread,rfl⟩,?_⟩⟩
  exact bind_eq_ok.mpr ⟨last,_,lift_eq_ok.mpr ⟨hclamp,rfl⟩,rfl⟩

theorem step_eq {last : TAI64N} (hread : ofSystemTime env.systemTimes.head = .ok t)
    (hclamp : t.clampAfter clock.last = .ok last) :
    step () (clock,env) = .ok (last,(⟨last⟩,drawn env)) := by
  rw [step,now_eq hread hclamp]
  rfl

/-- The largest number that the clock can have reached when `left` of its calls are still to come. -/
def ceiling (left : ℕ) : ℕ := (taiBase.toNat + 2^61 + 1)*2^32 + (2^60 - left)*2^24

/-- A call issues a timestamp after the last one. -/
theorem step_spec {left : ℕ} (hw : clock.last.Whitened) (hlast : clock.last.key ≤ ceiling (left + 1))
    (hleft : left + 1 ≤ 2^60) (hread : Within (2^61) env.systemTimes.head) :
    ∃ t, step () (clock,env) = .ok (t,(⟨t⟩,drawn env)) ∧ t.Whitened ∧ clock.last.key < t.key ∧
      t.key ≤ ceiling left := by
  obtain ⟨v,hv,hvw,hvkey⟩ := ofSystemTime_of_within hread
  have hbase : taiBase.toNat = 0x400000000000000a := by decide
  rw [ceiling] at hlast ⊢
  by_cases hlt : clock.last.lt v = true
  · refine ⟨v,step_eq hv (clampAfter_of_lt hlt),hvw,(lt_iff _ _).mp hlt,by omega⟩
  · obtain ⟨t,ht,htw,hkey⟩ := clampAfter_of_not_lt hw (by omega) hlt
    exact ⟨t,step_eq hv ht,htw,by omega,by omega⟩

/-- The timestamps of a run are after the last one before it, in increasing order. -/
theorem run_spec (n : ℕ) (hn : n ≤ 2^60) (hw : clock.last.Whitened)
    (hlast : clock.last.key ≤ ceiling n) (hread : ∀ k < n, Within (2^61) (env.systemTimes.get k)) :
    ∃ stamps s, runAll step (List.replicate n ()) (clock,env) = .ok (stamps,s) ∧
      stamps.length = n ∧ (clock.last::stamps).Pairwise fun a b => a.key < b.key := by
  induction n generalizing clock env with
  | zero => exact ⟨[],_,rfl,rfl,pairwise_singleton ..⟩
  | succ n ih =>
    obtain ⟨t,hstep,htw,hlt,hceil⟩ := step_spec hw hlast hn (hread 0 (by omega))
    have hrest : ∀ k < n, Within (2^61) ((drawn env).systemTimes.get k) :=
      fun k hk => hread (k + 1) (by omega)
    obtain ⟨stamps,s,hrun,hlen,hsorted⟩ := ih (by omega) htw hceil hrest
    refine ⟨t::stamps,s,?_,by rw [length_cons,hlen],?_⟩
    · rw [replicate_succ,runAll,hstep,Result.bind_of_ok]
      simp only [hrun,Result.bind_of_ok,Result.pure_eq_ok]
    · refine pairwise_cons.mpr ⟨?_,hsorted⟩
      intro a ha
      rcases mem_cons.mp ha with rfl | ha
      · exact hlt
      · exact hlt.trans (rel_of_pairwise_cons hsorted ha)

/-- Successive timestamps of a clock are strictly increasing, the conversion of system times is
monotone, and a reading after the last timestamp is issued as it is. -/
theorem timestamps_increase (env : Env) (n : ℕ) (hn : n ≤ 2^60)
    (hread : ∀ k < n, Within (2^61) (env.systemTimes.get k)) :
    (∃ stamps s, runAll step (List.replicate n ()) (new,env) = .ok (stamps,s) ∧
      stamps.length = n ∧ stamps.Pairwise fun a b => a.lt b = true) ∧
    (∀ v, Within (2^61) v → ∃ t, ofSystemTime v = .ok t) ∧
    (∀ v w t r, v ≤ w → ofSystemTime v = .ok t → ofSystemTime w = .ok r → ¬ r.lt t = true) ∧
    ∀ (clock : TAI64NClock) (env : Env) (t : TAI64N),
      ofSystemTime env.systemTimes.head = .ok t → clock.last.lt t = true →
      clock.now env = .ok ((t,⟨t⟩),drawn env) := by
  refine ⟨?_,?_,?_,?_⟩
  · have hzero : new.last.key = 0 := rfl
    have hw : new.last.Whitened := rfl
    obtain ⟨stamps,s,hrun,hlen,hsorted⟩ :=
      run_spec n hn hw (hzero.trans_le (Nat.zero_le _)) hread
    refine ⟨stamps,s,hrun,hlen,hsorted.of_cons.imp fun h => ?_⟩
    exact (lt_iff _ _).mpr h
  · intro v hv
    obtain ⟨t,ht,-⟩ := ofSystemTime_of_within hv
    exact ⟨t,ht⟩
  · intro v w t r hvw ht hr hlt
    exact absurd ((lt_iff _ _).mp hlt) (ofSystemTime_mono ht hr hvw).not_gt
  · intro clock env t ht hlt
    exact now_eq ht (clampAfter_of_lt hlt)

/-- A system clock that stands still, just before the epoch. -/
theorem timestamps_increase_still :
    let env : Env := ⟨.const 0,.const (-1),.const 0,.const (List.Vector.replicate 32 0),
      .const fun _ => 0,1⟩
    ∃ stamps s, runAll step (List.replicate 300 ()) (new,env) = .ok (stamps,s) ∧
      stamps.length = 300 ∧ stamps.Pairwise fun a b => a.lt b = true :=
  (timestamps_increase _ 300 (by decide) fun _ _ => show |(-1 : ℤ)| ≤ _ by norm_num).1

end TAI64NClock
end Tailnet.Wireguard

import Tailnet.Lib.Descending
import Tailnet.Bart.BaseIndex

/-! Prefixes of port numbers. A range of ports is cut into prefixes of the sixteen bits: up to seven bits a
base index of the high byte, from eight to fifteen a base index of the low byte, and single ports. -/
namespace Tailnet.PacketFilter
open BaseIndex BitVec

abbrev Port := Fin 65536

structure PortRange where
  start : Port
  stop : Port
  deriving DecidableEq

def PortRange.contains (r : PortRange) (port : Port) : Bool := decide (r.start ≤ port ∧ port ≤ r.stop)

inductive PortPrefix
  | pfx (idx : BaseIndex)
  | childPrefix (hi : UInt8) (loPfx : BaseIndex)
  | singleton (port : Port)
  deriving DecidableEq

def portByte (port : Port) : UInt8 := UInt8.ofNat (port.val/256)

def childPortByte (port : Port) : UInt8 := UInt8.ofNat (port.val % 256)

namespace PortPrefix

def fromPfx (port : Port) (pfx : ℕ) : Result PortPrefix :=
  if pfx = 16 then return .singleton port
  else if pfx < 8 then PortPrefix.pfx <$> BaseIndex.fromPrefix (portByte port) pfx
  else .childPrefix (portByte port) <$> BaseIndex.fromPrefix (childPortByte port) (pfx - 8)

/-- The first port and the number of bits. -/
def prefixForm : PortPrefix → ℕ × ℕ
  | .singleton port => (port,16)
  | .childPrefix hi loPfx =>
    let (loAddr,loLen) := loPfx.octetPrefix
    (hi.toNat*256 + loAddr.toNat,8 + loLen)
  | .pfx idx =>
    let (addr,len) := idx.octetPrefix
    (addr.toNat*256,len)

def start (p : PortPrefix) : ℕ := p.prefixForm.1

def stop (p : PortPrefix) : ℕ :=
  let (addr,len) := p.prefixForm
  if len = 0 then 65535 else min (addr + (32768/2^(len - 1) - 1)) 65535

def contains (p : PortPrefix) (port : Port) : Bool := decide (p.start ≤ port ∧ port ≤ p.stop)

end PortPrefix

structure PortPrefixIter where
  start : Port
  stop : Port

def saturate (n : ℕ) : Port := ⟨min n 65535,by omega⟩

/-- The length of the longest prefix that begins with `start` and has at most `range` ports. -/
def newPrefixLen (start : Port) (range : ℕ) : ℕ :=
  let rangeBits := 16 - (BitVec.ofNat 16 range).clz.toNat - 1
  let startTz := (BitVec.ofNat 16 start.val).ctz.toNat
  16 - min rangeBits startTz

def PortPrefixIter.next (it : PortPrefixIter) : Result (Option PortPrefix × PortPrefixIter) :=
  if it.start < it.stop then do
    let range := min (it.stop.val - it.start.val + 1) 65535
    -- a range of 65535 ports counts as all of them
    if range = 65535 then return (some (← PortPrefix.fromPfx 0 0),⟨1,0⟩)
    else
      let ret ← PortPrefix.fromPfx it.start (newPrefixLen it.start range)
      let start := saturate (ret.stop + 1)
      return (some ret,⟨start,if start = 65535 then 0 else it.stop⟩)
  else if it.start = it.stop then return (some (.singleton it.start),⟨1,0⟩)
  else return (none,it)

def PortRange.all : PortRange := ⟨0,65535⟩

/-- The prefixes of a range; there are at most as many as ports. -/
def iterPrefixes (ports : PortRange) : Result (List PortPrefix) :=
  drain PortPrefixIter.next 65537 ⟨ports.start,ports.stop⟩

theorem portByte_toNat (port : Port) : (portByte port).toNat = port.val/256 := by
  rw [portByte,UInt8.toNat_ofNat']
  omega

theorem childPortByte_toNat (port : Port) : (childPortByte port).toNat = port.val % 256 := by
  rw [childPortByte,UInt8.toNat_ofNat']
  omega

/-- An index covers an octet when the octet lies in the range of its prefix. -/
theorem eq_ofBits_iff (idx : BaseIndex) (h : idx.octetPrefix.2 < 8) (o : UInt8) :
    idx = .ofBits o ⟨idx.octetPrefix.2,h⟩ ↔
      idx.octetPrefix.1.toNat ≤ o.toNat ∧ o.toNat < idx.octetPrefix.1.toNat + 2^(8 - idx.octetPrefix.2) := by
  have hdvd : 2^(8 - idx.octetPrefix.2) ∣ idx.octetPrefix.1.toNat := by
    rw [octetPrefix_fst,octetPrefix_snd]
    exact dvd_mul_left _ _
  have hidx : idx = .ofBits o ⟨idx.octetPrefix.2,h⟩ ↔
      idx.octetPrefix.1.toNat/2^(8 - idx.octetPrefix.2) = o.toNat/2^(8 - idx.octetPrefix.2) := by
    conv_lhs => lhs; rw [← idx.ofBits_octetPrefix h]
    rw [ofBits_inj]
    simp
  rw [hidx]
  obtain ⟨c,hc⟩ := hdvd
  have hpos : 0 < 2^(8 - idx.octetPrefix.2) := by positivity
  rw [hc,Nat.mul_div_cancel_left _ hpos,eq_comm,Nat.div_eq_iff hpos,mul_comm c]
  omega

theorem octetPrefix_lt (idx : BaseIndex) : idx.octetPrefix.2 < 8 := by
  obtain ⟨h1,h8,-⟩ := idx.len_bounds
  rw [octetPrefix_snd]
  omega

theorem octetPrefix_le (idx : BaseIndex) : idx.octetPrefix.1.toNat + 2^(8 - idx.octetPrefix.2) ≤ 256 := by
  obtain ⟨h1,h8,hle,hlt⟩ := idx.len_bounds
  rw [octetPrefix_fst,octetPrefix_snd]
  obtain ⟨m,hm⟩ : ∃ m, idx.len = m+1 := ⟨idx.len - 1,by omega⟩
  rw [hm] at h8 hle hlt ⊢
  rw [Nat.add_sub_cancel] at hle ⊢
  have hm8 : m < 8 := by omega
  have hpow : 2^m*2^(8 - m) = 256 := by
    rw [← pow_add,Nat.add_sub_cancel' (by omega)]
    rfl
  have hx : idx.val.toNat - 2^m + 1 ≤ 2^m := by
    rw [pow_succ] at hlt
    omega
  calc (idx.val.toNat - 2^m)*2^(8 - m) + 2^(8 - m) = (idx.val.toNat - 2^m + 1)*2^(8 - m) := by ring
    _ ≤ 2^m*2^(8 - m) := Nat.mul_le_mul_right _ hx
    _ = 256 := hpow

namespace PortPrefix

def bits (p : PortPrefix) : ℕ := p.prefixForm.2

theorem bits_le (p : PortPrefix) : p.bits ≤ 16 := by
  cases p with
  | singleton port => exact le_rfl
  | childPrefix hi lo =>
    have := octetPrefix_lt lo
    simp only [bits,prefixForm]
    omega
  | pfx idx =>
    have := octetPrefix_lt idx
    simp only [bits,prefixForm]
    omega

theorem start_add_le (p : PortPrefix) : p.start + 2^(16 - p.bits) ≤ 65536 := by
  cases p with
  | singleton port =>
    have := port.isLt
    simp only [start,bits,prefixForm,Nat.sub_self,pow_zero]
    omega
  | childPrefix hi lo =>
    have hlo := octetPrefix_le lo
    have hhi := hi.toNat_lt
    have hlen : 16 - (8 + lo.octetPrefix.2) = 8 - lo.octetPrefix.2 := by omega
    simp only [start,bits,prefixForm,hlen]
    omega
  | pfx idx =>
    have hle := octetPrefix_le idx
    have hlen : 16 - idx.octetPrefix.2 = 8 + (8 - idx.octetPrefix.2) := by
      have := octetPrefix_lt idx
      omega
    simp only [start,bits,prefixForm,hlen,pow_add]
    omega

theorem stop_eq (p : PortPrefix) : p.stop + 1 = p.start + 2^(16 - p.bits) := by
  have hle := p.start_add_le
  have hbits := p.bits_le
  have hstop : p.stop = if p.bits = 0 then 65535 else min (p.start + (32768/2^(p.bits - 1) - 1)) 65535 := rfl
  rw [hstop]
  generalize p.bits = n at hle hbits
  interval_cases n <;> simp at hle ⊢ <;> omega

theorem contains_iff (p : PortPrefix) (port : Port) :
    p.contains port = true ↔ p.start ≤ port ∧ port < p.start + 2^(16 - p.bits) := by
  have := p.stop_eq
  rw [contains,decide_eq_true_eq]
  omega

theorem contains_pfx (idx : BaseIndex) (port : Port) :
    (pfx idx).contains port = true ↔ idx = .ofBits (portByte port) ⟨idx.octetPrefix.2,octetPrefix_lt idx⟩ := by
  have hlen : 16 - idx.octetPrefix.2 = 8 + (8 - idx.octetPrefix.2) := by
    have := octetPrefix_lt idx
    omega
  rw [contains_iff,eq_ofBits_iff,portByte_toNat]
  simp only [start,bits,prefixForm,hlen,pow_add]
  omega

theorem contains_childPrefix (hi : UInt8) (lo : BaseIndex) (port : Port) :
    (childPrefix hi lo).contains port = true ↔
      portByte port = hi ∧ lo = .ofBits (childPortByte port) ⟨lo.octetPrefix.2,octetPrefix_lt lo⟩ := by
  have hlen : 16 - (8 + lo.octetPrefix.2) = 8 - lo.octetPrefix.2 := by omega
  have hle := octetPrefix_le lo
  rw [contains_iff,eq_ofBits_iff,← UInt8.toNat_inj,portByte_toNat,childPortByte_toNat]
  simp only [start,bits,prefixForm,hlen]
  omega

theorem contains_singleton (p port : Port) : (singleton p).contains port = true ↔ p = port := by
  rw [contains_iff,Fin.ext_iff]
  simp only [start,bits,prefixForm,Nat.sub_self,pow_zero]
  omega

/-- The prefix of a port whose last bits are zero begins with the port. -/
theorem fromPfx_spec (port : Port) {k : ℕ} (hk : k ≤ 16) (hdvd : 2^k ∣ port.val) :
    ∃ p, fromPfx port (16 - k) = .ok p ∧ p.start = port ∧ p.bits = 16 - k := by
  obtain ⟨c,hc⟩ := hdvd
  have hport := port.isLt
  have hfst : ∀ (o : UInt8) (l : Fin 8),
      (BaseIndex.ofBits o l).octetPrefix.1.toNat = o.toNat/2^(8 - l.val)*2^(8 - l.val) := by
    intro o l
    rw [octetPrefix_fst,len_ofBits,ofBits_toNat,Nat.add_sub_cancel,
      Nat.add_sub_cancel]
  have hsnd : ∀ (o : UInt8) (l : Fin 8), (BaseIndex.ofBits o l).octetPrefix.2 = l.val := by
    intro o l
    rw [octetPrefix_snd,len_ofBits,Nat.add_sub_cancel]
  rw [fromPfx]
  by_cases h16 : 16 - k = 16
  · rw [if_pos h16]
    exact ⟨_,rfl,rfl,h16.symm⟩
  · rw [if_neg h16]
    by_cases h8 : 16 - k < 8
    · rw [if_pos h8,fromPrefix_eq _ ⟨16 - k,h8⟩]
      refine ⟨_,rfl,?_,hsnd _ _⟩
      simp only [start,prefixForm,hfst,portByte_toNat]
      rw [hc]
      rw [hc] at hport
      interval_cases k <;> omega
    · rw [if_neg h8,fromPrefix_eq _ ⟨16 - k - 8,by omega⟩]
      refine ⟨_,rfl,?_,?_⟩
      · simp only [start,prefixForm,hfst,portByte_toNat,childPortByte_toNat]
        rw [hc]
        rw [hc] at hport
        interval_cases k <;> omega
      · simp only [bits,prefixForm,hsnd]
        omega

end PortPrefix

theorem two_pow_dvd_of_le_ctz {n k : ℕ} (hn : n < 65536) (hk : k ≤ (BitVec.ofNat 16 n).ctz.toNat) : 2^k ∣ n := by
  apply Nat.dvd_of_mod_eq_zero
  apply Nat.eq_of_testBit_eq
  intro i
  rw [Nat.testBit_mod_two_pow,Nat.zero_testBit]
  by_cases hi : i < k
  · have hf := getLsbD_false_of_lt_ctz (x := BitVec.ofNat 16 n) (i := i) (by omega)
    rw [getLsbD_ofNat] at hf
    by_cases h16 : i < 16
    · simpa [hi,h16] using hf
    · have := Nat.testBit_lt_two_pow (lt_of_lt_of_le hn (Nat.pow_le_pow_right (n := 2) (by decide) (not_lt.mp h16)))
      simp [this]
  · simp [hi]

/-- The prefix that comes next begins with the first port and does not reach beyond the last one. -/
theorem newPrefixLen_spec (start : Port) {range : ℕ} (h1 : 1 ≤ range) (hr : range < 65536) :
    ∃ k ≤ 15, newPrefixLen start range = 16 - k ∧ 2^k ≤ range ∧ 2^k ∣ start.val := by
  have hne : BitVec.ofNat 16 range ≠ 0#16 := by
    intro h
    have hz := congrArg BitVec.toNat h
    rw [toNat_ofNat,Nat.mod_eq_of_lt hr] at hz
    simp at hz
    omega
  have hclz := two_pow_sub_clz_le_toNat_of_ne_zero (by decide) hne
  rw [toNat_ofNat,Nat.mod_eq_of_lt hr] at hclz
  refine ⟨_,?_,rfl,?_,two_pow_dvd_of_le_ctz start.isLt (Nat.min_le_right _ _)⟩
  · omega
  · refine le_trans (Nat.pow_le_pow_right (by decide) (Nat.min_le_left _ _)) ?_
    have : 16 - (BitVec.ofNat 16 range).clz.toNat - 1 = 16 - 1 - (BitVec.ofNat 16 range).clz.toNat := by omega
    rw [this]
    exact hclz

/-- One prefix is cut off the front of a range. -/
theorem PortPrefixIter.next_spec {it : PortPrefixIter} (hlt : it.start < it.stop)
    (hrange : it.stop.val - it.start.val + 1 < 65535) :
    ∃ p, it.next = .ok (some p,⟨saturate (p.stop + 1),if saturate (p.stop + 1) = 65535 then 0 else it.stop⟩) ∧
      p.start = it.start ∧ p.start ≤ p.stop ∧ p.stop ≤ it.stop ∧ p.stop ≠ 65534 := by
  have hlt' : it.start.val < it.stop.val := hlt
  have hmin : min (it.stop.val - it.start.val + 1) 65535 = it.stop.val - it.start.val + 1 := by omega
  obtain ⟨k,hk,hlen,hle,hdvd⟩ := newPrefixLen_spec it.start
    (show 1 ≤ it.stop.val - it.start.val + 1 by omega) (by omega)
  obtain ⟨p,hp,hstart,hbits⟩ := PortPrefix.fromPfx_spec it.start (by omega) hdvd
  have hstop := p.stop_eq
  rw [hbits,hstart,show 16 - (16 - k) = k by omega] at hstop
  have hpos : 0 < 2^k := by positivity
  refine ⟨p,?_,hstart,by omega,by omega,fun hlast => ?_⟩
  · rw [next,if_pos hlt]
    simp only [hmin,hrange.ne,if_false,hlen,hp,Result.bind_of_ok]
    rfl
  · -- only a single port could end there, but the two last ports are one prefix
    have hk0 : k = 0 := by
      by_contra hk0
      have h2 : 2 ∣ 2^k := dvd_pow_self 2 hk0
      have := h2.trans hdvd
      omega
    subst hk0
    have hfirst : it.start = 65534 := Fin.ext (by simp; omega)
    have hlast' : it.stop.val - it.start.val + 1 = 2 := by omega
    rw [hfirst] at hlen hlast'
    rw [hlast',show newPrefixLen 65534 2 = 15 by decide] at hlen
    omega

/-- Prefixes that follow each other from a port up to another. -/
def Tiles : ℕ → ℕ → List PortPrefix → Prop
  | a,b,[] => a = b
  | a,b,p::l => p.start = a ∧ p.start ≤ p.stop ∧ Tiles (p.stop + 1) b l

theorem Tiles.le {a b : ℕ} {l : List PortPrefix} (h : Tiles a b l) : a ≤ b := by
  induction l generalizing a with
  | nil => exact le_of_eq h
  | cons p l ih =>
    obtain ⟨hstart,hle,hrest⟩ := h
    have := ih hrest
    omega

theorem Tiles.contains_iff {a b : ℕ} {l : List PortPrefix} (h : Tiles a b l) (port : Port) :
    (∃ q ∈ l, q.contains port = true) ↔ a ≤ port ∧ port < b := by
  induction l generalizing a with
  | nil =>
    have : a = b := h
    simp
    omega
  | cons p l ih =>
    obtain ⟨hstart,hle,hrest⟩ := h
    have hb := hrest.le
    rw [List.exists_mem_cons_iff,ih hrest,PortPrefix.contains,decide_eq_true_eq]
    omega

theorem PortPrefixIter.drain_of_gt {n : ℕ} {it : PortPrefixIter} (h : it.stop < it.start) :
    drain next (n+1) it = .ok [] := by
  have hnot : ¬ it.start < it.stop := not_lt.mpr h.le
  simp [drain,next,hnot,h.ne']

/-- A range that is not taken for the whole space is cut into prefixes that follow each other. -/
theorem PortPrefixIter.drain_tiles (n : ℕ) (it : PortPrefixIter) (h : it.stop.val + 1 - it.start.val < n)
    (hle : it.start ≤ it.stop) (hrange : it.stop.val - it.start.val + 1 < 65535) :
    ∃ l, drain next n it = .ok l ∧ Tiles it.start (it.stop.val + 1) l := by
  induction n generalizing it with
  | zero => omega
  | succ n ih =>
    have hcons : ∀ p it' l, it.next = .ok (some p,it') → drain next n it' = .ok l → p.start = it.start.val →
        p.start ≤ p.stop → Tiles (p.stop + 1) (it.stop.val + 1) l →
        ∃ l, drain next (n+1) it = .ok l ∧ Tiles it.start (it.stop.val + 1) l := by
      intro p it' l hnext hl hstart hple htiles
      exact ⟨p::l,by simp [drain,hnext,hl],hstart,hple,htiles⟩
    rcases lt_or_eq_of_le hle with hlt | heq
    · obtain ⟨p,hnext,hstart,hple,hstop,hne⟩ := next_spec hlt hrange
      have hlt' : it.start.val < it.stop.val := hlt
      have hsat : (saturate (p.stop + 1)).val = min (p.stop + 1) 65535 := rfl
      by_cases hend : p.stop = it.stop.val
      · -- the last prefix: the iterator is left with an empty range
        obtain ⟨m,rfl⟩ : ∃ m, n = m+1 := ⟨n - 1,by omega⟩
        refine hcons p _ [] hnext (drain_of_gt ?_) hstart hple (by rw [hend]; rfl)
        rw [Fin.lt_def]
        dsimp only
        split
        · rename_i h65535
          rw [h65535]
          decide
        · rename_i h65535
          rw [Fin.ext_iff,hsat] at h65535
          rw [hsat]
          simp at h65535
          omega
      · have hval : (saturate (p.stop + 1)).val = p.stop + 1 := by omega
        have h65535 : saturate (p.stop + 1) ≠ 65535 := by
          rw [ne_eq,Fin.ext_iff,hval]
          simp
          omega
        rw [if_neg h65535] at hnext
        obtain ⟨l,hl,htiles⟩ := ih ⟨saturate (p.stop + 1),it.stop⟩ (by simp only [hval]; omega)
          (Fin.le_def.mpr (by simp only [hval]; omega)) (by simp only [hval]; omega)
        rw [hval] at htiles
        exact hcons p _ l hnext hl hstart hple htiles
    · obtain ⟨m,rfl⟩ : ∃ m, n = m+1 := ⟨n - 1,by rw [heq] at h; omega⟩
      have hnext : it.next = .ok (some (.singleton it.start),⟨1,0⟩) := by
        rw [next,if_neg (by simp [heq]),if_pos heq]
        rfl
      have hstop := (PortPrefix.singleton it.start).stop_eq
      simp only [PortPrefix.start,PortPrefix.bits,PortPrefix.prefixForm,Nat.sub_self,pow_zero] at hstop
      refine hcons _ _ [] hnext (drain_of_gt (by decide)) rfl ?_ ?_
      · simp only [PortPrefix.start,PortPrefix.prefixForm]
        omega
      · rw [Tiles,hstop,heq]

/-- The iterator takes a range of all ports but one for the whole space. -/
def PortRange.nearlyAll (r : PortRange) : Bool := decide (r.start.val + 65534 = r.stop.val)

theorem PortPrefixIter.drain_whole (n : ℕ) (it : PortPrefixIter) (h : 65534 ≤ it.stop.val - it.start.val) :
    ∃ p, drain next (n+2) it = .ok [p] ∧ ∀ port, p.contains port = true := by
  obtain ⟨p,hp,hstart,hbits⟩ := PortPrefix.fromPfx_spec 0 (le_refl 16) (dvd_zero _)
  have hlt : it.start < it.stop := by
    rw [Fin.lt_def]
    omega
  have hmin : min (it.stop.val - it.start.val + 1) 65535 = 65535 := by omega
  have hnext : it.next = .ok (some p,⟨1,0⟩) := by
    rw [next,if_pos hlt]
    simp only [hmin,if_true,show PortPrefix.fromPfx 0 0 = .ok p from hp,Result.bind_of_ok]
    rfl
  refine ⟨p,?_,fun port => ?_⟩
  · have hrest : drain next (n+1) (⟨1,0⟩ : PortPrefixIter) = .ok [] := drain_of_gt (by decide)
    rw [drain,hnext]
    simp [hrest]
  · have := port.isLt
    rw [PortPrefix.contains_iff,hstart,hbits]
    simp

theorem iterPrefixes_contains (ports : PortRange) : ∃ l, iterPrefixes ports = .ok l ∧
    ∀ port, (∃ q ∈ l, q.contains port = true) ↔ ports.nearlyAll = true ∨ ports.contains port = true := by
  have hstart := ports.start.isLt
  have hstop := ports.stop.isLt
  simp only [iterPrefixes,PortRange.nearlyAll,PortRange.contains,decide_eq_true_eq,Fin.le_def]
  by_cases hle : ports.start ≤ ports.stop
  · rw [Fin.le_def] at hle
    by_cases hrange : ports.stop.val - ports.start.val + 1 < 65535
    · obtain ⟨l,hl,htiles⟩ := PortPrefixIter.drain_tiles 65537 ⟨ports.start,ports.stop⟩
        (by dsimp only; omega) hle hrange
      refine ⟨l,hl,fun port => ?_⟩
      rw [htiles.contains_iff]
      dsimp only
      omega
    · obtain ⟨p,hp,hall⟩ := PortPrefixIter.drain_whole 65535 ⟨ports.start,ports.stop⟩ (by dsimp only; omega)
      refine ⟨[p],hp,fun port => iff_of_true ⟨p,List.mem_singleton_self p,hall port⟩ ?_⟩
      have := port.isLt
      omega
  · have hgt : ports.stop.val < ports.start.val := not_le.mp hle
    refine ⟨[],PortPrefixIter.drain_of_gt (n := 65536) hgt,fun port => ?_⟩
    simp
    omega

theorem iterPrefixes_ok (ports : PortRange) : ∃ l, iterPrefixes ports = .ok l := by
  obtain ⟨l,hl,-⟩ := iterPrefixes_contains ports
  exact ⟨l,hl⟩

/-- The prefixes follow each other, no two of them share a port, and the ports are those of the range. -/
structure PortRange.Decomposes (r : PortRange) (l : List PortPrefix) : Prop where
  consecutive : l.IsChain (fun p q => q.start = p.stop + 1)
  disjoint : l.Pairwise (fun p q => ∀ port, p.contains port = true → q.contains port = false)
  covers : ∀ port, (∃ q ∈ l, q.contains port = true) ↔ r.contains port = true
  empty : r.stop < r.start → l = []

theorem Tiles.consecutive {a b : ℕ} {l : List PortPrefix} (h : Tiles a b l) :
    l.IsChain (fun p q => q.start = p.stop + 1) := by
  induction l generalizing a with
  | nil => exact .nil
  | cons p l ih =>
    obtain ⟨-,-,hrest⟩ := h
    cases l with
    | nil => exact .singleton p
    | cons q l => exact .cons_cons hrest.1 (ih hrest)

theorem Tiles.disjoint {a b : ℕ} {l : List PortPrefix} (h : Tiles a b l) :
    l.Pairwise (fun p q => ∀ port, p.contains port = true → q.contains port = false) := by
  induction l generalizing a with
  | nil => exact .nil
  | cons p l ih =>
    obtain ⟨-,-,hrest⟩ := h
    refine .cons (fun q hq port hp => ?_) (ih hrest)
    rw [Bool.eq_false_iff]
    intro hport
    -- the ports of the rest come after the last one of `p`
    have hafter := (hrest.contains_iff port).mp ⟨q,hq,hport⟩
    rw [PortPrefix.contains,decide_eq_true_eq] at hp
    omega

theorem Tiles.decomposes {r : PortRange} {l : List PortPrefix} (hle : r.start ≤ r.stop)
    (h : Tiles r.start (r.stop.val + 1) l) : r.Decomposes l where
  consecutive := h.consecutive
  disjoint := h.disjoint
  covers port := by
    rw [h.contains_iff,PortRange.contains,decide_eq_true_eq,Fin.le_def,Fin.le_def]
    omega
  empty hlt := absurd hle (not_le.mpr hlt)

/-- A range is cut into its ports exactly when it has not all ports but one. -/
theorem iterPrefixes_decomposes_iff (ports : PortRange) :
    (∃ l, iterPrefixes ports = .ok l ∧ ports.Decomposes l) ↔ ports.nearlyAll = false := by
  have hstart := ports.start.isLt
  have hstop := ports.stop.isLt
  constructor
  · rintro ⟨l,hl,hdec⟩
    obtain ⟨l',hl',hcovers⟩ := iterPrefixes_contains ports
    obtain rfl : l = l' := Except.ok.inj (hl.symm.trans hl')
    rw [Bool.eq_false_iff]
    intro hall
    -- both ends of the space are covered, one of them is outside of the range
    have hin : ∀ port, ports.contains port = true := fun port =>
      (hdec.covers port).mp ((hcovers port).mpr (Or.inl hall))
    have hfirst := hin 0
    have hlast := hin 65535
    simp only [PortRange.nearlyAll,PortRange.contains,decide_eq_true_eq,Fin.le_def] at hall hfirst hlast
    simp at hfirst hlast
    omega
  · intro hnot
    simp only [PortRange.nearlyAll,decide_eq_false_iff_not] at hnot
    by_cases hle : ports.start ≤ ports.stop
    · have hle' := Fin.le_def.mp hle
      by_cases hrange : ports.stop.val - ports.start.val + 1 < 65535
      · obtain ⟨l,hl,htiles⟩ := PortPrefixIter.drain_tiles 65537 ⟨ports.start,ports.stop⟩
          (by dsimp only; omega) hle hrange
        exact ⟨l,hl,htiles.decomposes hle⟩
      · obtain ⟨p,hp,hall⟩ := PortPrefixIter.drain_whole 65535 ⟨ports.start,ports.stop⟩
          (by dsimp only; omega)
        refine ⟨[p],hp,.singleton p,List.pairwise_singleton _ p,fun port => ?_,fun hlt => absurd hle (not_le.mpr hlt)⟩
        have hport := port.isLt
        refine iff_of_true ⟨p,List.mem_singleton_self p,hall port⟩ ?_
        rw [PortRange.contains,decide_eq_true_eq,Fin.le_def,Fin.le_def]
        omega
    · have hgt : ports.stop < ports.start := not_le.mp hle
      have hgt' := Fin.lt_def.mp hgt
      refine ⟨[],PortPrefixIter.drain_of_gt (n := 65536) hgt,.nil,.nil,fun port => ?_,fun _ => rfl⟩
      rw [PortRange.contains,decide_eq_true_eq,Fin.le_def,Fin.le_def]
      simp
      omega

/-- The ports up to `65534` are answered with the whole space. -/
theorem iterPrefixes_nearlyAll : ∃ p, iterPrefixes ⟨0,65534⟩ = .ok [p] ∧ p.contains 65535 = true ∧
    ¬ PortRange.Decomposes ⟨0,65534⟩ [p] := by
  obtain ⟨p,hp,hall⟩ := PortPrefixIter.drain_whole 65535 ⟨0,65534⟩ (by decide)
  refine ⟨p,hp,hall 65535,fun hdec => ?_⟩
  have hin := (hdec.covers 65535).mp ⟨p,List.mem_singleton_self p,hall 65535⟩
  exact absurd hin (by decide)

end Tailnet.PacketFilter

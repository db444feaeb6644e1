import Mathlib.Data.Int.Basic
import Mathlib.Tactic.Common
import Mathlib.Data.List.Induction
import Mathlib.Tactic.Positivity
import Mathlib.Tactic.Ring

/-! The 32-bit `int` of C in two's complement, and big-endian byte strings. -/
namespace MyProgram.Lib

abbrev Bytes := List UInt8

/-- Reduction of a mathematical integer to the range of `int`. -/
def wrap32 (n : Int) : Int := n.bmod (2^32)

/-- Reduction to the range of a 64-bit `long`. -/
def wrap64 (n : Int) : Int := n.bmod (2^64)

/-- Bitwise conjunction of two `int` values. -/
def and32 (a b : Int) : Int := (BitVec.ofInt 32 a &&& BitVec.ofInt 32 b).toInt

theorem wrap32_eq {n : Int} (hl : -2^31 ≤ n) (hu : n < 2^31) : wrap32 n = n :=
  Int.bmod_eq_of_le (by omega) (by omega)

theorem wrap32_range (n : Int) : -2^31 ≤ wrap32 n ∧ wrap32 n < 2^31 := by
  have hl := @Int.le_bmod n (2^32) (by norm_num)
  have hu := @Int.bmod_lt n (2^32) (by norm_num)
  unfold wrap32
  omega

theorem wrap32_dvd (n : Int) : ∃ k, wrap32 n = n - 2^32 * k := by
  obtain ⟨k,hk⟩ := (Int.dvd_self_sub_bmod : ((2^32 : Nat) : Int) ∣ n - n.bmod (2^32))
  refine ⟨k,?_⟩
  unfold wrap32
  omega

theorem wrap32_add_left (a b : Int) : wrap32 (wrap32 a + b) = wrap32 (a + b) := by
  unfold wrap32
  exact Int.bmod_add_bmod

theorem wrap64_eq {n : Int} (hl : -2^63 ≤ n) (hu : n < 2^63) : wrap64 n = n :=
  Int.bmod_eq_of_le (by omega) (by omega)

theorem wrap64_sub_left (a b : Int) : wrap64 (wrap64 a - b) = wrap64 (a - b) := by
  unfold wrap64
  exact Int.bmod_sub_bmod

/-- A wrapped length is never larger than the length. -/
theorem wrap32_natCast_le (n : Nat) : wrap32 n ≤ n := by
  obtain ⟨k,hk⟩ := wrap32_dvd n
  have := wrap32_range n
  omega

/-- Subtracting no more than the wrapped value commutes with wrapping. -/
theorem wrap32_sub {n m : Nat} (h : (m : Int) ≤ wrap32 n) : wrap32 n - m = wrap32 ((n - m : Nat) : Int) := by
  obtain ⟨k,hk⟩ := wrap32_dvd n
  obtain ⟨j,hj⟩ := wrap32_dvd ((n - m : Nat) : Int)
  have hn := wrap32_natCast_le n
  have := wrap32_range n
  have := wrap32_range ((n - m : Nat) : Int)
  omega

private theorem toNat_ofInt_mask {k : Nat} (hk : k ≤ 30) : (BitVec.ofInt 32 (2^k - 1)).toNat = 2^k - 1 := by
  have hle : 2^k ≤ 2^30 := Nat.pow_le_pow_right (by norm_num) hk
  have hpos : 0 < 2^k := Nat.two_pow_pos k
  have he : ((2:Int)^k - 1) = ((2^k - 1 : Nat) : Int) := by push_cast [Nat.cast_sub hpos]; rfl
  rw [BitVec.toNat_ofInt,he,← Int.natCast_mod,Int.toNat_natCast,Nat.mod_eq_of_lt (by omega)]

/-- Masking with `2^k - 1` is reduction modulo `2^k`, for negative values too. -/
theorem and32_mask {k : Nat} (hk : k ≤ 30) (n : Int) : and32 n (2^k - 1) = n % 2^k := by
  have hle : 2^k ≤ 2^30 := Nat.pow_le_pow_right (by norm_num) hk
  have hpos : (0:Int) < 2^k := by positivity
  have hnat : (BitVec.ofInt 32 n &&& BitVec.ofInt 32 (2^k - 1)).toNat = (n % 2^k).toNat := by
    rw [BitVec.toNat_and,toNat_ofInt_mask hk,Nat.and_two_pow_sub_one_eq_mod,BitVec.toNat_ofInt]
    have hd : ((2^k : Nat) : Int) ∣ ((2^32 : Nat) : Int) :=
      Int.natCast_dvd_natCast.mpr (Nat.pow_dvd_pow 2 (by omega))
    have hm := Int.emod_emod_of_dvd n hd
    have h0 := Int.emod_nonneg n (show ((2^32 : Nat) : Int) ≠ 0 by norm_num)
    apply Int.natCast_inj.mp
    rw [Int.natCast_mod,Int.toNat_of_nonneg h0,hm]
    push_cast
    rw [Int.toNat_of_nonneg (Int.emod_nonneg n hpos.ne')]
  have hlt := Int.emod_lt_of_pos n hpos
  have hge := Int.emod_nonneg n hpos.ne'
  have hcast : ((2:Int)^k) = ((2^k : Nat) : Int) := by push_cast; rfl
  rw [and32,BitVec.toInt_eq_toNat_of_lt (by rw [hnat]; omega),hnat,Int.toNat_of_nonneg hge]

/-- The value of a big-endian byte string. -/
def ofBytes (l : Bytes) : Nat := l.foldl (fun n b => 256 * n + b.toNat) 0

/-- The big-endian encoding of a number in `w` bytes. -/
def toBytes : Nat → Nat → Bytes
  | 0, _ => []
  | w+1, n => toBytes w (n / 256) ++ [UInt8.ofNat n]

theorem toBytes_succ (w n : Nat) : toBytes (w + 1) n = toBytes w (n / 256) ++ [UInt8.ofNat n] := rfl

@[simp] theorem length_toBytes (w n : Nat) : (toBytes w n).length = w := by
  induction w generalizing n with
  | zero => rfl
  | succ w ih => simp [toBytes_succ,ih]

theorem ofBytes_append_singleton (l : Bytes) (b : UInt8) : ofBytes (l ++ [b]) = 256 * ofBytes l + b.toNat := by
  simp [ofBytes]

/-- Decoding inverts encoding for every number that fits. -/
theorem ofBytes_toBytes (w n : Nat) (h : n < 256^w) : ofBytes (toBytes w n) = n := by
  induction w generalizing n with
  | zero =>
    have h0 : n = 0 := by simpa using h
    rw [h0]
    rfl
  | succ w ih =>
    have hd : n / 256 < 256^w := Nat.div_lt_of_lt_mul (by rwa [pow_succ,Nat.mul_comm] at h)
    rw [toBytes_succ,ofBytes_append_singleton,ih _ hd]
    have hm : (UInt8.ofNat n).toNat = n % 256 := by simp
    omega

theorem ofBytes_lt (l : Bytes) : ofBytes l < 256^l.length := by
  induction l using List.reverseRecOn with
  | nil => simp [ofBytes]
  | append_singleton l b ih =>
    rw [ofBytes_append_singleton,List.length_append,List.length_singleton,pow_succ]
    have := UInt8.toNat_lt b
    omega

/-- Encoding inverts decoding on every byte string. -/
theorem toBytes_ofBytes (l : Bytes) : toBytes l.length (ofBytes l) = l := by
  induction l using List.reverseRecOn with
  | nil => rfl
  | append_singleton l b ih =>
    have hb := UInt8.toNat_lt b
    have hd : (256 * ofBytes l + b.toNat) / 256 = ofBytes l := by omega
    have hm : UInt8.ofNat (256 * ofBytes l + b.toNat) = b := by
      apply UInt8.toNat_inj.mp
      simp
    rw [ofBytes_append_singleton,List.length_append,List.length_singleton,toBytes_succ,hd,hm,ih]

/-- The usual shift-and-or reading of four bytes. -/
theorem shift_or_eq_ofBytes (a b c d : UInt8) :
    a.toNat <<< 24 ||| b.toNat <<< 16 ||| c.toNat <<< 8 ||| d.toNat = ofBytes [a,b,c,d] := by
  have ha := UInt8.toNat_lt a
  have hb := UInt8.toNat_lt b
  have hc := UInt8.toNat_lt c
  have hd := UInt8.toNat_lt d
  rw [Nat.or_assoc,Nat.or_assoc,← Nat.shiftLeft_add_eq_or_of_lt (show d.toNat < 2^8 by omega) c.toNat,
    ← Nat.shiftLeft_add_eq_or_of_lt (show c.toNat <<< 8 + d.toNat < 2^16 by simp only [Nat.shiftLeft_eq]; omega) b.toNat,
    ← Nat.shiftLeft_add_eq_or_of_lt
      (show b.toNat <<< 16 + (c.toNat <<< 8 + d.toNat) < 2^24 by simp only [Nat.shiftLeft_eq]; omega) a.toNat]
  simp only [Nat.shiftLeft_eq,ofBytes,List.foldl_cons,List.foldl_nil]
  omega

end MyProgram.Lib

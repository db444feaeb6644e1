import Mathlib.Algebra.CharP.Two
import Mathlib.Algebra.Polynomial.Div
import Mathlib.Algebra.Field.ZMod
import Mathlib.Data.Nat.Bitwise
import Mathlib.Tactic.LinearCombination
import MyProgram.Lib.CInt

/-! Cyclic redundancy checks. The bits of a number are a polynomial over the field of two
elements, and a check driven by a table computes a remainder of it. -/
namespace MyProgram.Lib
open Polynomial

/-- The polynomial whose coefficients are the bits. -/
noncomputable def gf2 (n : Nat) : (ZMod 2)[X] := if n = 0 then 0 else ((n % 2 : Nat) : (ZMod 2)[X]) + X * gf2 (n / 2)
termination_by n
decreasing_by omega

variable {n k w g : Nat} {table : List Nat} {s : Bytes}

theorem gf2_zero : gf2 0 = 0 := by rw [gf2,if_pos rfl]

theorem gf2_rec (n : Nat) : gf2 n = ((n % 2 : Nat) : (ZMod 2)[X]) + X * gf2 (n / 2) := by
  by_cases h : n = 0
  · simp [h,gf2_zero]
  · rw [gf2,if_neg h]

theorem gf2_one : gf2 1 = 1 := by
  rw [gf2_rec]
  simp [gf2_zero]

/-- Bits are added without a carry. -/
theorem gf2_xor (a b : Nat) : gf2 (a ^^^ b) = gf2 a + gf2 b := by
  induction a using Nat.strongRecOn generalizing b with
  | ind a ih =>
    by_cases ha : a = 0
    · simp [ha,gf2_zero]
    · have hbit : (((a ^^^ b) % 2 : Nat) : (ZMod 2)[X]) = ((a % 2 : Nat) : (ZMod 2)[X]) + ((b % 2 : Nat) : (ZMod 2)[X]) := by
        rw [Nat.xor_mod_two_eq,← CharP.cast_eq_mod (ZMod 2)[X] 2,← CharP.cast_eq_mod (ZMod 2)[X] 2,← CharP.cast_eq_mod (ZMod 2)[X] 2,
          Nat.cast_add]
      rw [gf2_rec (a ^^^ b),hbit,Nat.xor_div_two,ih (a / 2) (by omega),gf2_rec a,gf2_rec b]
      ring

/-- High bits and low bits. -/
theorem gf2_split (k n : Nat) : gf2 n = X ^ k * gf2 (n / 2 ^ k) + gf2 (n % 2 ^ k) := by
  induction k generalizing n with
  | zero => simp [Nat.mod_one,gf2_zero]
  | succ k ih =>
    have hlow : gf2 (n % 2 ^ (k + 1)) = ((n % 2 : Nat) : (ZMod 2)[X]) + X * gf2 (n / 2 % 2 ^ k) := by
      have hmod : n % 2 ^ (k + 1) % 2 = n % 2 := Nat.mod_mod_of_dvd n (dvd_pow_self 2 (by omega))
      have hdiv : n % 2 ^ (k + 1) / 2 = n / 2 % 2 ^ k := by
        rw [pow_succ']
        exact Nat.mod_mul_right_div_self n 2 (2 ^ k)
      rw [gf2_rec,hmod,hdiv]
    rw [gf2_rec n,ih (n / 2),hlow,Nat.div_div_eq_div_mul,← pow_succ']
    ring

theorem gf2_mul_pow (k n : Nat) : gf2 (n * 2 ^ k) = X ^ k * gf2 n := by
  rw [gf2_split k,Nat.mul_div_cancel _ (Nat.two_pow_pos k),Nat.mul_mod_left,gf2_zero,add_zero]

theorem coeff_gf2 (n i : Nat) : (gf2 n).coeff i = if n.testBit i then 1 else 0 := by
  induction i generalizing n with
  | zero =>
    rw [gf2_rec,coeff_add,coeff_natCast_ite,if_pos rfl,mul_coeff_zero,coeff_X_zero,zero_mul,add_zero,Nat.testBit_zero]
    rcases Nat.mod_two_eq_zero_or_one n with h | h <;> simp [h]
  | succ i ih =>
    rw [gf2_rec,coeff_add,coeff_natCast_ite,if_neg (Nat.succ_ne_zero i),coeff_X_mul,ih,Nat.cast_zero,zero_add,Nat.testBit_succ]

theorem degree_gf2_lt (h : n < 2 ^ k) : (gf2 n).degree < k := by
  rw [degree_lt_iff_coeff_zero]
  intro i hi
  rw [coeff_gf2,Nat.testBit_lt_two_pow (h.trans_le (Nat.pow_le_pow_right (by decide) hi))]
  rfl

/-- A generator of degree `w`. -/
theorem monic_gf2 (h : 2 ^ w ≤ g) (h' : g < 2 ^ (w + 1)) : (gf2 g).Monic ∧ (gf2 g).degree = w := by
  have hsplit : gf2 g = X ^ w + gf2 (g % 2 ^ w) := by
    have hdiv : g / 2 ^ w = 1 := by
      rw [pow_succ] at h'
      exact Nat.div_eq_of_lt_le (by omega) (by omega)
    rw [gf2_split w,hdiv,gf2_one,mul_one]
  have hlow : (gf2 (g % 2 ^ w)).degree < (w : WithBot Nat) := degree_gf2_lt (Nat.mod_lt g (Nat.two_pow_pos w))
  rw [hsplit]
  refine ⟨monic_X_pow_add hlow,?_⟩
  rw [degree_add_eq_left_of_degree_lt (by rwa [degree_X_pow]),degree_X_pow]

/-- One step of the shift register. -/
def crcShift (w g c : Nat) : Nat := if c.testBit (w - 1) then 2 * c ^^^ g else 2 * c

/-- Each entry is what eight steps make of its index. -/
def CrcTable (w g : Nat) (table : List Nat) : Prop :=
  ∀ i < 256, table.getD i 0 < 2 ^ w ∧ table.getD i 0 = (crcShift w g)^[8] (i * 2 ^ (w - 8))

instance (w g : Nat) (table : List Nat) : Decidable (CrcTable w g table) := 
  Nat.decidableBallLT 256 fun i _ => table.getD i 0 < 2 ^ w ∧ table.getD i 0 = (crcShift w g)^[8] (i * 2 ^ (w - 8))

/-- The entries in turn, without a search for each index. -/
theorem crcTable_of_eq (h : table = (List.range 256).map fun i => (crcShift w g)^[8] (i * 2 ^ (w - 8))) (hlt : ∀ x ∈ table, x < 2 ^ w) :
    CrcTable w g table := by
  intro i hi
  have hget : table.getD i 0 = (crcShift w g)^[8] (i * 2 ^ (w - 8)) := by simp [h,hi]
  have hmem : (crcShift w g)^[8] (i * 2 ^ (w - 8)) ∈ table := h ▸ List.mem_map_of_mem (List.mem_range.mpr hi)
  rw [hget]
  exact ⟨hlt _ hmem,rfl⟩

/-- The check of one byte. -/
def crcStep (w : Nat) (table : List Nat) (crc : Nat) (b : UInt8) : Nat :=
  (crc <<< 8 &&& (2 ^ w - 1)) ^^^ table.getD ((crc >>> (w - 8) ^^^ b.toNat) &&& 0xff) 0

theorem gf2_crcShift (w g c : Nat) : gf2 g ∣ gf2 (crcShift w g c) - X * gf2 c := by
  have hdouble : gf2 (2 * c) = X * gf2 c := by
    have h := gf2_mul_pow 1 c
    rwa [pow_one,pow_one,Nat.mul_comm] at h
  unfold crcShift
  split
  · rw [gf2_xor,hdouble,add_sub_cancel_left]
  · rw [hdouble,sub_self]
    exact dvd_zero _

theorem gf2_crcShift_iterate (w g k c : Nat) : gf2 g ∣ gf2 ((crcShift w g)^[k] c) - X ^ k * gf2 c := by
  induction k with
  | zero => simp
  | succ k ih =>
    rw [Function.iterate_succ_apply']
    have h := dvd_add (gf2_crcShift w g ((crcShift w g)^[k] c)) (ih.mul_left X)
    refine (congrArg (gf2 g ∣ ·) ?_).mp h
    ring

/-- An entry is the remainder of its index, moved behind the check. -/
theorem CrcTable.entry (h : CrcTable w g table) (hw : 8 ≤ w) {i : Nat} (hi : i < 256) :
    gf2 g ∣ gf2 (table.getD i 0) - X ^ w * gf2 i := by
  have hs := gf2_crcShift_iterate w g 8 (i * 2 ^ (w - 8))
  rw [← (h i hi).2,gf2_mul_pow,← mul_assoc,← pow_add,Nat.add_sub_cancel' hw] at hs
  exact hs

/-- What holds behind every byte: the check is congruent to the text, moved behind it. -/
theorem crcStep_spec (h : CrcTable w g table) (hw : 8 ≤ w) {crc : Nat} (hc : crc < 2 ^ w) (hd : gf2 g ∣ gf2 crc - X ^ w * gf2 n)
    (b : UInt8) : crcStep w table crc b < 2 ^ w ∧ gf2 g ∣ gf2 (crcStep w table crc b) - X ^ w * gf2 (256 * n + b.toNat) := by
  have hb : b.toNat < 2 ^ 8 := b.toNat_lt
  have hhi : crc / 2 ^ (w - 8) < 2 ^ 8 := by
    rw [Nat.div_lt_iff_lt_mul (Nat.two_pow_pos _),← pow_add,Nat.add_sub_cancel' hw]
    exact hc
  have hj : crc / 2 ^ (w - 8) ^^^ b.toNat < 256 := Nat.xor_lt_two_pow hhi hb
  have hindex : (crc >>> (w - 8) ^^^ b.toNat) &&& 0xff = crc / 2 ^ (w - 8) ^^^ b.toNat := by
    rw [Nat.shiftRight_eq_div_pow,Nat.and_two_pow_sub_one_eq_mod _ 8,Nat.mod_eq_of_lt hj]
  have hlow : crc <<< 8 &&& (2 ^ w - 1) = crc % 2 ^ (w - 8) * 2 ^ 8 := by
    rw [Nat.and_two_pow_sub_one_eq_mod,Nat.shiftLeft_eq]
    conv_lhs => rw [← Nat.sub_add_cancel hw,pow_add]
    exact Nat.mul_mod_mul_right (2 ^ 8) crc (2 ^ (w - 8))
  rw [crcStep,hindex,hlow]
  refine ⟨Nat.xor_lt_two_pow ?_ (h _ hj).1,?_⟩
  · rw [← hlow,Nat.and_two_pow_sub_one_eq_mod]
    exact Nat.mod_lt _ (Nat.two_pow_pos w)
  · have hentry := h.entry hw hj
    have htext : gf2 (256 * n + b.toNat) = X ^ 8 * gf2 n + gf2 b.toNat := by
      rw [gf2_split 8,show (256 * n + b.toNat) / 2 ^ 8 = n by omega,show (256 * n + b.toNat) % 2 ^ 8 = b.toNat by omega]
    have hcrc := gf2_split (w - 8) crc
    have hpow : (X : (ZMod 2)[X]) ^ w = X ^ (w - 8) * X ^ 8 := by rw [← pow_add,Nat.sub_add_cancel hw]
    rw [gf2_xor] at hentry
    rw [gf2_xor,gf2_mul_pow,htext]
    refine (congrArg (gf2 g ∣ ·) ?_).mp (dvd_add hentry (hd.mul_left (X ^ 8)))
    rw [hcrc,hpow]
    ring

/-- A check driven by a table is the remainder of the text, taken as a polynomial and moved
behind the check, for the generator. -/
theorem crc_remainder (h : CrcTable w g table) (hw : 8 ≤ w) (hg : 2 ^ w ≤ g) (hg' : g < 2 ^ (w + 1)) (s : Bytes) :
    s.foldl (crcStep w table) 0 < 2 ^ w ∧ gf2 (s.foldl (crcStep w table) 0) = (gf2 (ofBytes s) * X ^ w) %ₘ gf2 g := by
  have hrun : s.foldl (crcStep w table) 0 < 2 ^ w ∧ gf2 g ∣ gf2 (s.foldl (crcStep w table) 0) - X ^ w * gf2 (ofBytes s) := by
    induction s using List.reverseRecOn with
    | nil => simp [ofBytes,gf2_zero]
    | append_singleton s b ih =>
      rw [List.foldl_append,ofBytes,List.foldl_append]
      exact crcStep_spec h hw ih.1 ih.2 b
  obtain ⟨hmonic,hdeg⟩ := monic_gf2 hg hg'
  refine ⟨hrun.1,?_⟩
  rw [mul_comm,← modByMonic_eq_of_dvd_sub hmonic hrun.2,(modByMonic_eq_self_iff hmonic).mpr]
  rw [hdeg]
  exact degree_gf2_lt hrun.1

end MyProgram.Lib

import Mathlib.Algebra.Order.Ring.Nat
import MyProgram.Lib.Chain
import MyProgram.Lib.Regions
import MyProgram.StlAlloc.Model

/-! The size classes of the allocator and the regions it keeps apart. -/
namespace MyProgram.StlAlloc
open Lib
variable {b n x : Nat}

private theorem and_mask (h : x < 2^64) : x &&& (2^64 - ALIGN) = x / 8 * 8 := by
  apply Nat.eq_of_testBit_eq
  intro i
  have hmask : (2^64 - ALIGN : Nat) = (2^61 - 1) <<< 3 := by decide
  have hshift : x / 8 * 8 = (x >>> 3) <<< 3 := by
    rw [Nat.shiftLeft_eq,Nat.shiftRight_eq_div_pow]
  rw [Nat.testBit_and,hmask,hshift,Nat.testBit_shiftLeft,Nat.testBit_shiftLeft,Nat.testBit_shiftRight,Nat.testBit_two_pow_sub_one]
  by_cases hi : 3 ≤ i
  · rw [show 3 + (i - 3) = i by omega]
    by_cases hb : i < 64
    · simp [hi,show i - 3 < 61 by omega]
    · rw [Nat.testBit_lt_two_pow (lt_of_lt_of_le h (Nat.pow_le_pow_right (by omega) (by omega)))]
      simp
  · simp [hi]

theorem addSize_eq (h : b + n < 2^64) : addSize b n = b + n := Nat.mod_eq_of_lt h

theorem subSize_eq (h : n ≤ b) : subSize b n = b - n := if_pos h

theorem roundUp_eq (h : b + 7 < 2^64) : roundUp b = (b + 7) / 8 * 8 := by
  have hadd : addSize b (ALIGN - 1) = b + 7 := addSize_eq h
  rw [roundUp,hadd,and_mask h]

theorem freelistIndex_eq (h : 1 ≤ b) (hb : b + 7 < 2^64) : freelistIndex b = (b + 7) / 8 - 1 := by
  have hadd : addSize b (ALIGN - 1) = b + 7 := addSize_eq hb
  rw [freelistIndex,hadd,subSize_eq]
  · rfl
  · change 1 ≤ (b + 7) / 8
    omega

/-- A request belongs to the class of blocks of its rounded size. -/
theorem roundUp_class (h : 1 ≤ n) (hn : n ≤ 128) :
    roundUp n = 8 * (freelistIndex n + 1) ∧ freelistIndex n < 16 ∧ n ≤ roundUp n := by
  rw [roundUp_eq (by omega),freelistIndex_eq h (by omega)]
  omega

/-- A multiple of eight is the size of its own class. -/
theorem freelistIndex_mul (k : Nat) (hk : k < 2^60) : freelistIndex (8 * (k + 1)) = k := by
  rw [freelistIndex_eq (by omega) (by omega)]
  omega

/-- The blocks on the free lists. -/
def blocks (free : Nat → List Nat) : List (Nat × Nat) :=
  (List.range NFREELISTS).flatMap fun k => (free k).map fun a => (a,8 * (k + 1))

/-- The blocks of the clients and those on the free lists. -/
def held (live : List (Nat × Nat)) (free : Nat → List Nat) : List (Nat × Nat) :=
  live.map (fun b => (b.1,roundUp b.2)) ++ blocks free

/-- The free lists are linked in memory. No two regions have a byte in common and
each is memory that was given. -/
structure Core (links heads : Nat → Option Nat) (got live : List (Nat × Nat)) (free : Nat → List Nat)
    (rest : List (Nat × Nat)) : Prop where
  chains : ∀ k < NFREELISTS, Chain links (heads k) (free k)
  apart : (bytesOf (held live free ++ rest)).Nodup
  inside : ∀ r ∈ held live free ++ rest, Inside got r

variable {links links' heads : Nat → Option Nat} {got live : List (Nat × Nat)} {free : Nat → List Nat}
  {rest rest' : List (Nat × Nat)} {k p : Nat}

theorem mem_blocks {r : Nat × Nat} : r ∈ blocks free ↔ ∃ k < NFREELISTS, ∃ a ∈ free k, r = (a,8 * (k + 1)) := by
  simp only [blocks,List.mem_flatMap,List.mem_range,List.mem_map,eq_comm]

theorem blocks_extend (hk : k < NFREELISTS) (new : List Nat) :
    (blocks (Function.update free k (new ++ free k))).Perm ((new.map fun a => (a,8 * (k + 1))) ++ blocks free) := by
  have hf : (fun j => (Function.update free k (new ++ free k) j).map fun a => (a,8 * (j + 1))) =
      Function.update (fun j => (free j).map fun a => (a,8 * (j + 1))) k
        ((new.map fun a => (a,8 * (k + 1))) ++ (free k).map fun a => (a,8 * (k + 1))) := by
    funext j
    by_cases hj : j = k
    · subst hj
      simp
    · rw [Function.update_of_ne hj,Function.update_of_ne hj]
  rw [blocks,hf]
  exact flatMap_update_perm List.nodup_range (List.mem_range.mpr hk) _

theorem blocks_pop (hk : k < NFREELISTS) {t : List Nat} (hp : free k = p :: t) :
    (blocks free).Perm ((p,8 * (k + 1)) :: blocks (Function.update free k t)) := by
  have h := @blocks_extend (Function.update free k t) k hk [p]
  rwa [Function.update_self,Function.update_idem,List.singleton_append,← hp,Function.update_eq_self] at h

private theorem apart_disjoint {xs ys : List (Nat × Nat)} {r r' : Nat × Nat} (h : (bytesOf (xs ++ ys)).Nodup) (hr : r ∈ xs)
    (hr' : r' ∈ ys) (hpos : 0 < r.2) (hpos' : 0 < r'.2) : r.1 ≠ r'.1 := by
  intro he
  rw [bytesOf_append] at h
  refine (List.nodup_append.mp h).2.2 r.1 (mem_bytesOf.mpr ⟨r,hr,le_refl _,by omega⟩) r.1 (mem_bytesOf.mpr ⟨r',hr',?_,?_⟩) rfl
  · omega
  · omega

namespace Core

/-- The regions beside the lists may be cut and ordered in another way. -/
theorem replace (h : Core links heads got live free rest) (hb : (bytesOf rest').Perm (bytesOf rest))
    (hi : ∀ r ∈ rest', Inside got r) : Core links heads got live free rest' := by
  refine ⟨h.chains,?_,fun r hr => ?_⟩
  · have hp : (bytesOf (held live free ++ rest')).Perm (bytesOf (held live free ++ rest)) := by
      rw [bytesOf_append,bytesOf_append]
      exact hb.append_left _
    exact hp.nodup_iff.mpr h.apart
  · rcases List.mem_append.mp hr with hr | hr
    · exact h.inside r (List.mem_append_left _ hr)
    · exact hi r hr

/-- Another division of the same regions between clients, lists and the rest. -/
theorem exchange {live' : List (Nat × Nat)} {free' : Nat → List Nat} {heads' : Nat → Option Nat}
    (h : Core links heads got live free rest) (hc : ∀ k < NFREELISTS, Chain links' (heads' k) (free' k))
    (hp : (held live' free' ++ rest').Perm (held live free ++ rest)) : Core links' heads' got live' free' rest' :=
  ⟨hc,(bytesOf_perm hp).nodup_iff.mpr h.apart,fun r hr => h.inside r (hp.mem_iff.mp hr)⟩

/-- Regions of one class beside the lists are no blocks of the lists. -/
theorem notMem_free {new : List Nat} (h : Core links heads got live free ((new.map fun a => (a,8 * (k + 1))) ++ rest))
    {a j : Nat} (ha : a ∈ new) (hj : j < NFREELISTS) : a ∉ free j := by
  intro hm
  have hn : (bytesOf (blocks free ++ ((new.map fun a => (a,8 * (k + 1))) ++ rest))).Nodup := by
    have := h.apart
    rw [held,List.append_assoc,bytesOf_append] at this
    exact (List.nodup_append.mp this).2.1
  exact apart_disjoint hn (mem_blocks.mpr ⟨j,hj,a,hm,rfl⟩) (List.mem_append_left _ (List.mem_map.mpr ⟨a,ha,rfl⟩))
    (by simp) (by simp) rfl

/-- Blocks go to the front of the list of their class. -/
theorem extend {new : List Nat} {head : Option Nat}
    (h : Core links heads got live free ((new.map fun a => (a,8 * (k + 1))) ++ rest)) (hk : k < NFREELISTS)
    (hl : ∀ a ∉ new, links' a = links a) (hc : Chain links' head (new ++ free k)) :
    Core links' (Function.update heads k head) got live (Function.update free k (new ++ free k)) rest := by
  refine h.exchange (fun j hj => ?_) ?_
  · by_cases hjk : j = k
    · subst hjk
      rw [Function.update_self,Function.update_self]
      exact hc
    · rw [Function.update_of_ne hjk,Function.update_of_ne hjk]
      exact (h.chains j hj).congr fun a ha => hl a fun hm => h.notMem_free hm hj ha
  · rw [held,held,List.append_assoc,List.append_assoc]
    refine List.Perm.append_left _ ?_
    refine ((blocks_extend hk new).append_right rest).trans ?_
    rw [List.append_assoc]
    exact List.perm_append_comm_assoc _ _ _

/-- The first block of a list is taken. -/
theorem pop {t : List Nat} (h : Core links heads got live free rest) (hk : k < NFREELISTS) (hp : free k = p :: t) :
    Core links (Function.update heads k (links p)) got live (Function.update free k t) ((p,8 * (k + 1)) :: rest) := by
  refine h.exchange (fun j hj => ?_) ?_
  · by_cases hjk : j = k
    · subst hjk
      rw [Function.update_self,Function.update_self]
      have := h.chains j hj
      rw [hp] at this
      exact this.2
    · rw [Function.update_of_ne hjk,Function.update_of_ne hjk]
      exact h.chains j hj
  · rw [held,held,List.append_assoc,List.append_assoc]
    refine List.Perm.append_left _ ?_
    exact List.perm_middle.trans ((blocks_pop hk hp).symm.append_right rest)

/-- A region of memory that was elsewhere before. -/
theorem adopt {got' : List (Nat × Nat)} {bytes : Nat} (h : Core links heads got live free []) (hm : ∀ r, Inside got r → Inside got' r)
    (hi : Inside got' (p,bytes)) (hd : ∀ x ∈ List.range' p bytes, x ∉ bytesOf (held live free)) :
    Core links heads got' live free [(p,bytes)] := by
  have hall := h.apart
  rw [List.append_nil] at hall
  refine ⟨h.chains,?_,fun r hr => ?_⟩
  · rw [bytesOf_append,bytesOf_cons,bytesOf_nil,List.append_nil]
    refine List.nodup_append.mpr ⟨hall,List.nodup_range',?_⟩
    rintro x hx y hy rfl
    exact hd x hy hx
  · rcases List.mem_append.mp hr with hr | hr
    · exact hm r (h.inside r (List.mem_append_left _ hr))
    · rw [List.mem_singleton.mp hr]
      exact hi

/-- Regions beside the lists are left out. -/
theorem forget (h : Core links heads got live free (rest ++ rest')) : Core links heads got live free rest' := by
  have hsub : (held live free ++ rest').Sublist (held live free ++ (rest ++ rest')) :=
    (List.sublist_append_right rest rest').append_left _
  exact ⟨h.chains,h.apart.sublist (hsub.flatMap _),fun r hr => h.inside r (hsub.subset hr)⟩

/-- A client gets a block. -/
theorem handOut (h : Core links heads got live free ((p,roundUp n) :: rest)) : Core links heads got ((p,n) :: live) free rest := by
  refine h.exchange h.chains ?_
  exact List.perm_middle.symm

/-- A client gives a block back. -/
theorem takeBack (h : Core links heads got live free rest) (hm : (p,n) ∈ live) :
    Core links heads got (live.erase (p,n)) free ((p,roundUp n) :: rest) := by
  refine h.exchange h.chains ?_
  refine List.perm_middle.trans ?_
  have hp := (List.perm_cons_erase hm).map fun b => (b.1,roundUp b.2)
  exact (hp.symm.append_right (blocks free)).append_right rest

end Core
end MyProgram.StlAlloc

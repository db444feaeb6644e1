import MyProgram.SkynetGate.Hashid
import MyProgram.Lib.Chain
import Mathlib.Logic.Function.Basic

/-! The representation invariant of the id hash, and what each operation does
to the two columns of the node array under it. -/
namespace MyProgram.SkynetGate
open Lib

namespace Hashid

def idAt (hi : Hashid) (s : Nat) : Option Int := hi.id[s]?.map (·.id)

def next (hi : Hashid) (s : Nat) : Option Nat := hi.id[s]?.bind (·.next)

def head (hi : Hashid) (h : Nat) : Option Nat := hi.hash[h]?.join

/-- Each used slot is in the chain of its own bucket and in no other, each free
slot is in none and has no successor, and no two slots hold the same id. -/
structure Wf (hi : Hashid) : Prop where
  mask : ∃ k, 4 ≤ k ∧ k ≤ 30 ∧ hi.hashmod = 2^k - 1 ∧ hi.hash.length = 2^k
  cap : hi.cap = hi.id.length
  cap_le : hi.id.length ≤ hi.hash.length
  ids : ∀ s i, hi.idAt s = some i → -1 ≤ i
  free : ∀ s, hi.idAt s = some (-1) → hi.next s = none
  inj : ∀ s t i, i ≠ -1 → hi.idAt s = some i → hi.idAt t = some i → s = t
  chains : ∀ h < hi.hash.length, ∃ l, Chain hi.next (hi.head h) l ∧
    ∀ s, s ∈ l ↔ ∃ i, hi.idAt s = some i ∧ i ≠ -1 ∧ i % hi.hash.length = h
  count : hi.count = hi.id.countP (fun n => n.id ≠ -1)

/-- The slot that holds an id. -/
def slot (hi : Hashid) (id : Int) : Option Nat :=
  if 0 ≤ id then hi.id.findIdx? (fun n => n.id = id) else none

/-- The C result for a slot that may be missing. -/
def ret : Option Nat → Int
  | some s => s
  | none => -1

variable {hi hi' : Hashid} {id i : Int} {s t : Nat}

theorem idAt_lt (h : hi.idAt s = some i) : s < hi.id.length := by
  unfold idAt at h
  by_contra hge
  rw [List.getElem?_eq_none (by omega)] at h
  cases h

/-- A slot of the array reads as its id and its successor. -/
theorem node_eq (h : hi.idAt s = some i) : hi.node s = .ok ⟨i,hi.next s⟩ [] := by
  unfold idAt at h
  obtain ⟨n,hn,rfl⟩ := Option.map_eq_some_iff.mp h
  rw [node,Act.read_natCast hn,next,hn]
  rfl

theorem idAt_set (n : HashidNode) (hs : s < hi.id.length) :
    ({ hi with id := hi.id.set s n }).idAt = Function.update hi.idAt s (some n.id) := by
  funext t
  by_cases h : t = s
  · subst h
    simp [idAt,hs]
  · rw [Function.update_of_ne h]
    simp [idAt,List.getElem?_set_ne (Ne.symm h)]

theorem next_set (n : HashidNode) (hs : s < hi.id.length) :
    ({ hi with id := hi.id.set s n }).next = Function.update hi.next s n.next := by
  funext t
  by_cases h : t = s
  · subst h
    simp [next,hs]
  · rw [Function.update_of_ne h]
    simp [next,List.getElem?_set_ne (Ne.symm h)]

theorem head_set (p : Option Nat) {h : Nat} (hh : h < hi.hash.length) :
    ({ hi with hash := hi.hash.set h p }).head = Function.update hi.head h p := by
  funext t
  by_cases he : t = h
  · subst he
    simp [head,hh]
  · rw [Function.update_of_ne he]
    simp [head,List.getElem?_set_ne (Ne.symm he)]

/-- The bucket an id belongs to. -/
def index (hi : Hashid) (id : Int) : Nat := (id % hi.hash.length).toNat

namespace Wf

theorem hash_pos (w : hi.Wf) : 0 < hi.hash.length := by
  obtain ⟨k,_,_,_,h⟩ := w.mask
  rw [h]
  exact Nat.two_pow_pos k

theorem hash_le (w : hi.Wf) : hi.hash.length ≤ 2^30 := by
  obtain ⟨k,_,hk,_,h⟩ := w.mask
  rw [h]
  exact Nat.pow_le_pow_right (by omega) hk

theorem index_cast (w : hi.Wf) (id : Int) : (hi.index id : Int) = id % hi.hash.length := by
  have := w.hash_pos
  exact Int.toNat_of_nonneg (Int.emod_nonneg _ (by omega))

theorem index_lt (w : hi.Wf) (id : Int) : hi.index id < hi.hash.length := by
  have hp := w.hash_pos
  have hc := w.index_cast id
  have := Int.emod_lt_of_pos id (show (0:Int) < hi.hash.length by omega)
  omega

theorem bucket_eq (w : hi.Wf) (id : Int) : hi.bucket id = hi.index id := by
  obtain ⟨k,_,hk,hm,hl⟩ := w.mask
  rw [w.index_cast,bucket,hm,and32_mask hk,hl]
  push_cast
  rfl

/-- Every int, negative ones included, addresses a bucket. -/
theorem read_bucket (w : hi.Wf) (id : Int) :
    Act.read Site.hashid hi.hash (hi.bucket id) = (.ok (hi.head (hi.index id)) [] : GateM _) := by
  have hlt := w.index_lt id
  rw [w.bucket_eq]
  apply Act.read_natCast
  simp [head,hlt]

theorem slot_eq_some (w : hi.Wf) : hi.slot id = some s ↔ id ≠ -1 ∧ hi.idAt s = some id := by
  unfold slot
  split
  · rename_i h0
    rw [List.findIdx?_eq_some_iff_getElem]
    constructor
    · rintro ⟨hs,he,_⟩
      have he : hi.id[s].id = id := by simpa using he
      exact ⟨by omega,by simp [idAt,hs,he]⟩
    · rintro ⟨hne,hs⟩
      have hlt := idAt_lt hs
      refine ⟨hlt,by simpa [idAt,hlt] using hs,?_⟩
      intro t ht he
      have he : hi.idAt t = some id := by simpa [idAt,show t < hi.id.length by omega] using he
      have := w.inj t s id hne he hs
      omega
  · rename_i h0
    constructor
    · intro h
      cases h
    · rintro ⟨hne,hs⟩
      have := w.ids s id hs
      omega

theorem slot_eq_none (w : hi.Wf) : hi.slot id = none ↔ id = -1 ∨ ∀ s, hi.idAt s ≠ some id := by
  rw [← not_iff_not,← ne_eq,Option.ne_none_iff_exists']
  simp only [w.slot_eq_some]
  simp

/-- A chain is no longer than the node array. -/
theorem chain_length {l : List Nat} {h : Nat} {p : Option Nat} (hc : Chain hi.next p l)
    (hm : ∀ s, s ∈ l ↔ ∃ i, hi.idAt s = some i ∧ i ≠ -1 ∧ i % hi.hash.length = h) :
    l.length ≤ hi.id.length := by
  have hsub : l ⊆ List.range hi.id.length := by
    intro s hs
    obtain ⟨i,hi',_⟩ := (hm s).mp hs
    exact List.mem_range.mpr (idAt_lt hi')
  simpa using (hc.nodup.subperm hsub).length_le

end Wf

private theorem lookupLoop_eq (l : List Nat) (p : Option Nat) (fuel : Nat) (hc : Chain hi.next p l)
    (hl : ∀ s ∈ l, ∃ i, hi.idAt s = some i) (hf : l.length ≤ fuel) :
    lookupLoop hi id fuel p = .ok (ret (l.find? fun s => hi.idAt s = some id)) [] := by
  induction l generalizing p fuel with
  | nil =>
    subst hc
    cases fuel <;> rfl
  | cons c l ih =>
    obtain ⟨rfl,ht⟩ := hc
    obtain ⟨i,hi'⟩ := hl c (by simp)
    cases fuel with
    | zero => simp at hf
    | succ fuel =>
      rw [lookupLoop,node_eq hi']
      by_cases he : i = id
      · subst he
        simp [hi',ret]
      · have hne : ¬ hi.idAt c = some id := by rw [hi']; simpa using he
        simp only [Act.bind_ok,if_neg he,Act.after_nil]
        rw [ih _ fuel ht (fun s hs => hl s (by simp [hs])) (by simpa using hf)]
        simp [hne]

/-- Looking an id up finds its slot: the walk along its bucket meets the slot
exactly when some slot holds the id. -/
theorem Wf.lookup_eq (w : hi.Wf) (id : Int) : hashidLookup hi id = .ok (ret (hi.slot id)) [] := by
  obtain ⟨l,hc,hm⟩ := w.chains _ (w.index_lt id)
  rw [hashidLookup,w.read_bucket]
  simp only [Act.bind_ok,Act.after_nil]
  rw [lookupLoop_eq l _ _ hc (fun s hs => by obtain ⟨i,h,_⟩ := (hm s).mp hs; exact ⟨i,h⟩) (Wf.chain_length hc hm)]
  congr 2
  cases hs : hi.slot id with
  | some s =>
    obtain ⟨hne,hs⟩ := w.slot_eq_some.mp hs
    have hmem : s ∈ l := (hm s).mpr ⟨id,hs,hne,(w.index_cast id).symm⟩
    cases hf : l.find? (fun s => hi.idAt s = some id) with
    | none => exact absurd (by simpa using hs) (List.find?_eq_none.mp hf s hmem)
    | some t =>
      have ht : hi.idAt t = some id := by simpa using List.find?_some hf
      rw [w.inj t s id hne ht hs]
  | none =>
    rw [List.find?_eq_none]
    intro s hmem he
    obtain ⟨i,hi',hne,_⟩ := (hm s).mp hmem
    have he : hi.idAt s = some id := by simpa using he
    rcases w.slot_eq_none.mp hs with rfl | h
    · rw [hi'] at he
      exact hne (Option.some.inj he)
    · exact h s he

end Hashid
end MyProgram.SkynetGate

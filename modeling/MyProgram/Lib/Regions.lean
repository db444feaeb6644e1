import Mathlib.Algebra.Order.Ring.Nat
import Mathlib.Data.List.Flatten
import Mathlib.Data.List.Nodup
import Mathlib.Data.List.Perm.Subperm
import Mathlib.Data.List.Range
import Mathlib.Logic.Function.Basic
import Mathlib.Tactic.Common

/-! Address ranges, each given by its first address and its length, as lists of the
bytes they cover. -/
namespace MyProgram.Lib

/-- All bytes of some regions. -/
def bytesOf (rs : List (Nat × Nat)) : List Nat := rs.flatMap fun r => List.range' r.1 r.2

/-- Two regions have no byte in common. -/
def Apart (r r' : Nat × Nat) : Prop := ∀ x, r.1 ≤ x → x < r.1 + r.2 → r'.1 ≤ x → ¬ x < r'.1 + r'.2

/-- A region is empty or lies in one of these. -/
def Inside (gs : List (Nat × Nat)) (r : Nat × Nat) : Prop := r.2 = 0 ∨ ∃ g ∈ gs, g.1 ≤ r.1 ∧ r.1 + r.2 ≤ g.1 + g.2

/-- Objects of one size, one behind the other. -/
def objects (p n : Nat) : Nat → List Nat
  | 0 => []
  | k+1 => p :: objects (p + n) n k

variable {rs rs' gs : List (Nat × Nat)} {r r' : Nat × Nat} {p n m k x : Nat}

@[simp] theorem bytesOf_nil : bytesOf [] = [] := rfl

@[simp] theorem bytesOf_cons : bytesOf (r :: rs) = List.range' r.1 r.2 ++ bytesOf rs := rfl

@[simp] theorem bytesOf_append : bytesOf (rs ++ rs') = bytesOf rs ++ bytesOf rs' := List.flatMap_append

theorem mem_bytesOf : x ∈ bytesOf rs ↔ ∃ r ∈ rs, r.1 ≤ x ∧ x < r.1 + r.2 := by
  simp only [bytesOf,List.mem_flatMap,List.mem_range'_1]

theorem bytesOf_perm (h : rs.Perm rs') : (bytesOf rs).Perm (bytesOf rs') := h.flatMap_right _

theorem length_bytesOf (rs : List (Nat × Nat)) : (bytesOf rs).length = (rs.map (·.2)).sum := by
  induction rs with
  | nil => rfl
  | cons r rs ih => simp [ih]

/-- Bytes that occur once belong to regions without common bytes. -/
theorem pairwise_apart (h : (bytesOf rs).Nodup) : rs.Pairwise Apart := by
  refine (List.nodup_flatMap.mp h).2.imp ?_
  intro r r' hd x h₁ h₂ h₃ h₄
  exact hd (List.mem_range'_1.mpr ⟨h₁,h₂⟩) (List.mem_range'_1.mpr ⟨h₃,h₄⟩)

theorem Inside.sub {q : Nat} (h : Inside gs (p,n)) (hp : p ≤ q) (hq : q + m ≤ p + n) : Inside gs (q,m) := by
  rcases h with h | ⟨g,hg,h₁,h₂⟩
  · left
    dsimp only at h ⊢
    omega
  · right
    dsimp only at h₁ h₂ ⊢
    exact ⟨g,hg,by omega,by omega⟩

theorem Inside.mono (h : Inside gs r) (g : Nat × Nat) : Inside (g :: gs) r := by
  rcases h with h | ⟨g',hg,hr⟩
  · exact .inl h
  · exact .inr ⟨g',List.mem_cons_of_mem _ hg,hr⟩

/-- Bytes of regions that lie in others are bytes of the others. -/
theorem mem_of_inside (hi : ∀ r ∈ rs, Inside gs r) (hx : x ∈ bytesOf rs) : x ∈ bytesOf gs := by
  obtain ⟨r,hr,h₁,h₂⟩ := mem_bytesOf.mp hx
  rcases hi r hr with h | ⟨g,hg,h₃,h₄⟩
  · omega
  · exact mem_bytesOf.mpr ⟨g,hg,by omega,by omega⟩

theorem range'_split (p n m : Nat) : List.range' p (n + m) = List.range' p n ++ List.range' (p + n) m := by
  rw [List.range'_append_1]

/-- A region is its first bytes and the others. -/
theorem bytesOf_cut (h : m ≤ n) : bytesOf [(p,m),(p + m,n - m)] = bytesOf [(p,n)] := by
  obtain ⟨d,rfl⟩ := Nat.exists_eq_add_of_le h
  simp only [bytesOf_cons,bytesOf_nil,List.append_nil,Nat.add_sub_cancel_left,range'_split]

theorem mem_objects {a : Nat} : a ∈ objects p n k ↔ ∃ i < k, a = p + i * n := by
  induction k generalizing p with
  | zero => simp [objects]
  | succ k ih =>
    rw [objects,List.mem_cons,ih]
    constructor
    · rintro (rfl | ⟨i,hi,rfl⟩)
      · exact ⟨0,by omega,by simp⟩
      · exact ⟨i + 1,by omega,by rw [Nat.add_one_mul]; omega⟩
    · rintro ⟨i,hi,rfl⟩
      cases i with
      | zero => exact .inl (by simp)
      | succ i => exact .inr ⟨i,by omega,by rw [Nat.add_one_mul]; omega⟩

/-- Objects one behind the other cover one range. -/
theorem bytesOf_objects (p n k : Nat) : bytesOf ((objects p n k).map fun a => (a,n)) = List.range' p (n * k) := by
  induction k generalizing p with
  | zero => rfl
  | succ k ih =>
    rw [objects,List.map_cons,bytesOf_cons,ih,Nat.mul_succ,Nat.add_comm (n * k),range'_split]

section Update
variable {ι α : Type} [DecidableEq ι] {l : List ι} {i : ι} {f : ι → List α}

/-- More elements in one of the lists that are strung together. -/
theorem flatMap_update_perm (hn : l.Nodup) (hi : i ∈ l) (new : List α) :
    (l.flatMap (Function.update f i (new ++ f i))).Perm (new ++ l.flatMap f) := by
  obtain ⟨a,b,rfl⟩ := List.append_of_mem hi
  obtain ⟨hni,_⟩ := List.nodup_cons.mp (List.nodup_middle.mp hn)
  have hfar : ∀ c : List ι, (∀ j ∈ c, j ∈ a ++ b) → c.flatMap (Function.update f i (new ++ f i)) = c.flatMap f := by
    intro c hc
    refine List.flatMap_congr fun j hj => Function.update_of_ne ?_ _ _
    rintro rfl
    exact hni (hc j hj)
  rw [List.flatMap_append,List.flatMap_append,List.flatMap_cons,List.flatMap_cons,Function.update_self,
    hfar a (by simp +contextual),hfar b (by simp +contextual),List.append_assoc]
  exact List.perm_append_comm_assoc _ _ _

end Update
end MyProgram.Lib

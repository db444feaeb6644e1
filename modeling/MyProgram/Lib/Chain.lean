import Mathlib.Data.List.Basic
import Mathlib.Data.List.Nodup
import Mathlib.Data.List.Perm.Basic
import Mathlib.Tactic.Common

/-! Singly linked lists threaded through memory by a `next` pointer. -/
namespace MyProgram.Lib
variable {ι : Type*}

/-- Following `next` from `p` visits exactly the cells `l` and then ends in NULL. -/
def Chain (next : ι → Option ι) : Option ι → List ι → Prop
  | p, [] => p = none
  | p, a :: l => p = some a ∧ Chain next (next a) l

namespace Chain
variable {next next' : ι → Option ι} {p : Option ι} {l r : List ι} {a b : ι}

@[simp] theorem nil_iff : Chain next p [] ↔ p = none := Iff.rfl

@[simp] theorem cons_iff : Chain next p (a :: l) ↔ p = some a ∧ Chain next (next a) l := Iff.rfl

@[simp] theorem none_iff : Chain next none l ↔ l = [] := by
  cases l <;> simp

theorem head_some (h : Chain next (some a) l) : ∃ t, l = a :: t ∧ Chain next (next a) t := by
  cases l with
  | nil => cases h
  | cons b t =>
    obtain ⟨hb,ht⟩ := h
    cases hb
    exact ⟨t,rfl,ht⟩

/-- A start pointer determines at most one finite chain. -/
theorem unique (h : Chain next p l) (h' : Chain next p r) : l = r := by
  induction l generalizing p r with
  | nil => subst h; exact (none_iff.mp h').symm
  | cons a l ih =>
    obtain ⟨rfl,ht⟩ := h
    obtain ⟨t,rfl,ht'⟩ := h'.head_some
    rw [ih ht ht']

/-- Every visited cell starts a chain of its own, no longer than the rest. -/
private theorem tail_from (h : Chain next p l) (ha : a ∈ l) :
    ∃ t, Chain next (some a) t ∧ t.length ≤ l.length := by
  induction l generalizing p with
  | nil => cases ha
  | cons b l ih =>
    obtain ⟨rfl,ht⟩ := h
    rcases List.mem_cons.mp ha with rfl | hm
    · exact ⟨a :: l,⟨rfl,ht⟩,Nat.le_refl _⟩
    · obtain ⟨t,hc,hle⟩ := ih ht hm
      exact ⟨t,hc,Nat.le_succ_of_le hle⟩

/-- A finite chain visits no cell twice: it is acyclic. -/
theorem nodup (h : Chain next p l) : l.Nodup := by
  induction l generalizing p with
  | nil => exact List.nodup_nil
  | cons a l ih =>
    obtain ⟨rfl,ht⟩ := h
    refine List.nodup_cons.mpr ⟨fun hm => ?_,ih ht⟩
    obtain ⟨t,hc,hle⟩ := ht.tail_from hm
    have he := hc.unique (show Chain next (some a) (a :: l) from ⟨rfl,ht⟩)
    rw [he,List.length_cons] at hle
    omega

/-- Writes outside the visited cells leave the chain as it is. -/
theorem congr (h : Chain next p l) (he : ∀ a ∈ l, next' a = next a) : Chain next' p l := by
  induction l generalizing p with
  | nil => exact h
  | cons a l ih =>
    obtain ⟨rfl,ht⟩ := h
    refine ⟨rfl,?_⟩
    rw [he a (by simp)]
    exact ih ht (fun b hb => he b (by simp [hb]))

/-- A write at the last cell extends the chain by one cell. -/
theorem concat (h : Chain next p (l ++ [a])) (hl : ∀ c ∈ l, next' c = next c) (ha : next' a = some b)
    (hb : next' b = none) : Chain next' p (l ++ [a] ++ [b]) := by
  induction l generalizing p with
  | nil => exact ⟨h.1,ha,hb⟩
  | cons c l ih =>
    obtain ⟨rfl,ht⟩ := h
    refine ⟨rfl,?_⟩
    change Chain next' (next' c) (l ++ [a] ++ [b])
    rw [hl c (by simp)]
    exact ih ht (fun d hd => hl d (by simp [hd]))

/-- Redirecting the link of the cell before `b` removes `b` from the chain. -/
theorem unlink (h : Chain next p (l ++ a :: b :: r)) (ha : next' a = next b)
    (he : ∀ c ∈ l ++ r, next' c = next c) : Chain next' p (l ++ a :: r) := by
  induction l generalizing p with
  | nil =>
    obtain ⟨rfl,_,ht⟩ := h
    exact ⟨rfl,by rw [ha]; exact ht.congr (fun c hc => he c (by simp [hc]))⟩
  | cons c l ih =>
    obtain ⟨rfl,ht⟩ := h
    refine ⟨rfl,?_⟩
    rw [he c (by simp)]
    exact ih ht (fun d hd => he d (by simpa using Or.inr (by simpa using hd)))

/-- Consecutive addresses linked in order form a chain up to the last one. -/
theorem range' {next : Nat → Option Nat} {s n : Nat}
    (hs : ∀ i, i + 1 < n → next (s + i) = some (s + i + 1)) (hl : 0 < n → next (s + (n - 1)) = none) :
    Chain next (if n = 0 then none else some s) (List.range' s n) := by
  induction n generalizing s with
  | zero => rfl
  | succ n ih =>
    refine ⟨by simp,?_⟩
    cases n with
    | zero => simpa using hl (by omega)
    | succ n =>
      have h0 := hs 0 (by omega)
      rw [Nat.add_zero] at h0
      rw [h0]
      have := ih (s := s + 1) (fun i hi => by
          have := hs (i + 1) (by omega)
          rw [show s + 1 + i = s + (i + 1) by omega,this])
        (fun _ => by
          have := hl (by omega)
          rw [show s + 1 + (n + 1 - 1) = s + (n + 1 + 1 - 1) by omega,this])
      simpa using this

end Chain

/-- Follow `next` for at most this many cells. -/
def follow (next : ι → Option ι) : Nat → Option ι → List ι
  | n+1, some a => a :: follow next n (next a)
  | _, _ => []

theorem Chain.follow_eq {next : ι → Option ι} {p : Option ι} {l : List ι} {n : Nat} (h : Chain next p l) (hn : l.length ≤ n) :
    follow next n p = l := by
  induction l generalizing p n with
  | nil =>
    subst h
    cases n <;> rfl
  | cons a l ih =>
    obtain ⟨rfl,ht⟩ := h
    obtain ⟨n,rfl⟩ : ∃ m, n = m + 1 := ⟨n - 1,by rw [List.length_cons] at hn; omega⟩
    rw [follow,ih ht (by simpa using hn)]

end MyProgram.Lib

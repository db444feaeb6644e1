import Mathlib.Data.Fintype.Card
import Mathlib.Data.Fintype.Fin
import Mathlib.Data.Fintype.Option

/-! Injective partial maps from keys to a bounded supply of slots. -/
namespace MyProgram.Lib

/-- Every key holds at most one slot and every slot is held by at most one key. -/
@[ext] structure SlotMap (κ : Type*) (n : Nat) where
  slot : κ → Option (Fin n)
  inj : ∀ a b s, slot a = some s → slot b = some s → a = b

namespace SlotMap
variable {κ : Type*} {n : Nat}

def Free (m : SlotMap κ n) (s : Fin n) : Prop := ∀ k, m.slot k ≠ some s

def empty (κ : Type*) (n : Nat) : SlotMap κ n := ⟨fun _ => none,nofun⟩

/-- Give a free slot to a key. -/
def insert [DecidableEq κ] (m : SlotMap κ n) (k : κ) (s : Fin n) (h : m.Free s) : SlotMap κ n where
  slot := Function.update m.slot k (some s)
  inj a b t ha hb := by
    by_cases hak : a = k <;> by_cases hbk : b = k
    · exact hak.trans hbk.symm
    · subst hak
      rw [Function.update_self] at ha
      rw [Function.update_of_ne hbk] at hb
      exact absurd (hb.trans ha.symm) (h b)
    · subst hbk
      rw [Function.update_self] at hb
      rw [Function.update_of_ne hak] at ha
      exact absurd (ha.trans hb.symm) (h a)
    · rw [Function.update_of_ne hak] at ha
      rw [Function.update_of_ne hbk] at hb
      exact m.inj a b t ha hb

/-- Take the slot of a key away. -/
def erase [DecidableEq κ] (m : SlotMap κ n) (k : κ) : SlotMap κ n where
  slot := Function.update m.slot k none
  inj a b t ha hb := by
    have hak : a ≠ k := by rintro rfl; simp at ha
    have hbk : b ≠ k := by rintro rfl; simp at hb
    rw [Function.update_of_ne hak] at ha
    rw [Function.update_of_ne hbk] at hb
    exact m.inj a b t ha hb

open Classical in
/-- The number of keys that hold a slot, counted by their slots. -/
noncomputable def size (m : SlotMap κ n) : Nat := (Finset.univ.filter fun s => ∃ k, m.slot k = some s).card

end SlotMap

/-- Counting the entries of a list that satisfy `p` counts their positions. -/
theorem card_filter_positions {α : Type*} (p : α → Bool) (l : List α) :
    (Finset.univ.filter fun i : Fin l.length => p l[i] = true).card = l.countP p := by
  induction l with
  | nil => rfl
  | cons a l ih =>
    rw [List.countP_cons,← ih]
    refine (Fin.card_filter_univ_succ (fun i : Fin (l.length + 1) => p (a :: l)[i] = true)).trans ?_
    by_cases ha : p a = true <;> simp [ha]

end MyProgram.Lib

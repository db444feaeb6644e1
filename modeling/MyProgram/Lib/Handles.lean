import Mathlib.Tactic.Common

/-! Handles that a program obtains from a library, uses and gives back. -/
namespace MyProgram.Lib
variable {ι : Type}

/-- What a library call does with a handle. -/
inductive HandleCall (ι : Type) where
  | acquire (h : ι)
  | use (h : ι)
  | release (h : ι)
  deriving DecidableEq, Repr

variable [DecidableEq ι]

/-- The handles that are open after the calls, or nothing when a call hands out a handle
that is still open, or uses or releases one that is not. -/
def handlesAfter : List ι → List (HandleCall ι) → Option (List ι)
  | hs, [] => some hs
  | hs, .acquire h :: cs => if h ∈ hs then none else handlesAfter (h :: hs) cs
  | hs, .use h :: cs => if h ∈ hs then handlesAfter hs cs else none
  | hs, .release h :: cs => if h ∈ hs then handlesAfter (hs.erase h) cs else none

variable {h : ι} {hs : List ι} {cs : List (HandleCall ι)}

theorem handlesAfter_append (hs : List ι) (cs cs' : List (HandleCall ι)) :
    handlesAfter hs (cs ++ cs') = (handlesAfter hs cs).bind fun hs' => handlesAfter hs' cs' := by
  induction cs generalizing hs with
  | nil => rfl
  | cons c cs ih =>
    cases c with
    | acquire h =>
      rw [List.cons_append,handlesAfter,handlesAfter,ih]
      split <;> rfl
    | use h =>
      rw [List.cons_append,handlesAfter,handlesAfter,ih]
      split <;> rfl
    | release h =>
      rw [List.cons_append,handlesAfter,handlesAfter,ih]
      split <;> rfl

@[simp] theorem handlesAfter_nil : handlesAfter hs [] = some hs := rfl

@[simp] theorem handlesAfter_acquire : handlesAfter [] (.acquire h :: cs) = handlesAfter [h] cs := if_neg (by simp)

@[simp] theorem handlesAfter_use : handlesAfter [h] (.use h :: cs) = handlesAfter [h] cs := if_pos (by simp)

@[simp] theorem handlesAfter_release : handlesAfter [h] (.release h :: cs) = handlesAfter [] cs := by
  rw [handlesAfter,if_pos (by simp),List.erase_cons_head]

end MyProgram.Lib

import Mathlib.Tactic.Common

/-! Effectful C code as a shallow embedding: a call either leaves defined
behaviour with a fault or returns a value together with its external effects. -/
namespace MyProgram.Lib

/-- What went wrong when a call did not return. -/
inductive FaultKind where
  | assertion | outOfBounds | nullDereference | outOfMemory | uninitialised | diverges
  deriving DecidableEq, Repr

/-- A computation with effects in `ε` and faults at program places in `σ`. -/
inductive Act (σ ε α : Type) where
  | ok (value : α) (effects : List ε)
  | fail (kind : FaultKind) (site : σ)
  deriving DecidableEq, Repr

namespace Act
variable {σ ε α β : Type}

/-- Effects that happened before a computation precede its own. -/
def after (fx : List ε) : Act σ ε α → Act σ ε α
  | .ok a fx' => .ok a (fx ++ fx')
  | .fail kind site => .fail kind site

instance : Monad (Act σ ε) where
  pure a := .ok a []
  bind x f := match x with
    | .ok a fx => (f a).after fx
    | .fail kind site => .fail kind site

/-- Perform one external effect. -/
def emit (e : ε) : Act σ ε Unit := .ok () [e]

/-- Read an array element, failing at `site` outside the array. -/
def read (site : σ) (l : List α) (i : Int) : Act σ ε α :=
  if 0 ≤ i then
    match l[i.toNat]? with
    | some a => .ok a []
    | none => .fail .outOfBounds site
  else .fail .outOfBounds site

/-- The call returns with a result that passes a check. -/
def holds (p : α → List ε → Bool) : Act σ ε α → Bool
  | .ok a fx => p a fx
  | .fail _ _ => false

/-- The fault a call ends in. -/
def fault : Act σ ε α → Option (FaultKind × σ)
  | .ok _ _ => none
  | .fail kind site => some (kind,site)

/-- A computation inside a larger one, which has names of its own for effects and places. -/
def within {σ' ε' : Type} (f : ε → ε') (g : σ → σ') : Act σ ε α → Act σ' ε' α
  | .ok a fx => .ok a (fx.map f)
  | .fail kind site => .fail kind (g site)

/-- If the call returns, its value satisfies `Q` and each of its effects `p`. -/
def Ensures (p : ε → Prop) (Q : α → Prop) (x : Act σ ε α) : Prop := ∀ a fx, x = .ok a fx → Q a ∧ ∀ e ∈ fx, p e

@[simp] theorem pure_eq (a : α) : (pure a : Act σ ε α) = .ok a [] := rfl

@[simp] theorem bind_ok (a : α) (fx : List ε) (f : α → Act σ ε β) :
    (Act.ok a fx >>= f) = (f a).after fx := rfl

@[simp] theorem bind_fail (k : FaultKind) (s : σ) (f : α → Act σ ε β) :
    ((.fail k s : Act σ ε α) >>= f) = .fail k s := rfl

@[simp] theorem after_ok (fx fx' : List ε) (a : α) :
    (Act.ok a fx' : Act σ ε α).after fx = .ok a (fx ++ fx') := rfl

@[simp] theorem after_fail (fx : List ε) (k : FaultKind) (s : σ) :
    (Act.fail k s : Act σ ε α).after fx = .fail k s := rfl

@[simp] theorem after_nil (x : Act σ ε α) : x.after [] = x := by
  cases x <;> rfl

@[simp] theorem within_ok {σ' ε' : Type} (f : ε → ε') (g : σ → σ') (a : α) (fx : List ε) :
    (Act.ok a fx : Act σ ε α).within f g = .ok a (fx.map f) := rfl

@[simp] theorem emit_eq (e : ε) : (emit e : Act σ ε Unit) = .ok () [e] := rfl

theorem after_after (fx fx' : List ε) (x : Act σ ε α) : (x.after fx').after fx = x.after (fx ++ fx') := by
  cases x <;> simp

theorem after_bind (fx : List ε) (x : Act σ ε α) (f : α → Act σ ε β) : (x.after fx >>= f) = (x >>= f).after fx := by
  cases x with
  | ok a fx' => rw [after_ok,bind_ok,bind_ok,after_after]
  | fail k s => rfl

theorem bind_assoc {γ : Type} (x : Act σ ε α) (f : α → Act σ ε β) (g : β → Act σ ε γ) :
    ((x >>= f) >>= g) = (x >>= fun a => f a >>= g) := by
  cases x with
  | ok a fx => rw [bind_ok,bind_ok,after_bind]
  | fail k s => rfl

theorem after_eq_ok {x : Act σ ε α} {fx fx' : List ε} {a : α} :
    x.after fx = .ok a fx' ↔ ∃ fx₂, x = .ok a fx₂ ∧ fx' = fx ++ fx₂ := by
  cases x with
  | ok b fx₂ => simp [eq_comm]
  | fail k s => simp

/-- Peel the first call off a computation that returned. -/
theorem bind_eq_ok {x : Act σ ε α} {f : α → Act σ ε β} {b : β} {fx : List ε} :
    (x >>= f) = .ok b fx ↔ ∃ a fx₁ fx₂, x = .ok a fx₁ ∧ f a = .ok b fx₂ ∧ fx = fx₁ ++ fx₂ := by
  cases x with
  | ok a fx₁ =>
    rw [bind_ok,after_eq_ok]
    constructor
    · rintro ⟨fx₂,hf,rfl⟩
      exact ⟨a,fx₁,fx₂,rfl,hf,rfl⟩
    · rintro ⟨a',fx₁',fx₂,ha,hf,rfl⟩
      cases ha
      exact ⟨fx₂,hf,rfl⟩
  | fail k s => simp

theorem read_eq_ok {site : σ} {l : List α} {i : Int} {a : α} {fx : List ε} :
    (read site l i : Act σ ε α) = .ok a fx ↔ 0 ≤ i ∧ l[i.toNat]? = some a ∧ fx = [] := by
  unfold read
  split
  · rename_i h
    split
    · rename_i b hb
      simp [h,hb,eq_comm]
    · rename_i hb
      simp [hb]
  · rename_i h
    simp [h]

theorem read_natCast {site : σ} {l : List α} {i : Nat} {a : α} (h : l[i]? = some a) :
    (read site l (i : Int) : Act σ ε α) = .ok a [] :=
  (read_eq_ok).mpr ⟨by omega,by simpa using h,rfl⟩

theorem exists_of_holds {p : α → List ε → Bool} {x : Act σ ε α} (h : x.holds p = true) :
    ∃ a fx, x = .ok a fx ∧ p a fx = true := by
  cases x with
  | ok a fx => exact ⟨a,fx,rfl,h⟩
  | fail k s => cases h

theorem fault_eq_some {x : Act σ ε α} {k : FaultKind} {s : σ} : x.fault = some (k,s) ↔ x = .fail k s := by
  cases x with
  | ok a fx => simp [fault]
  | fail k' s' => simp [fault]

namespace Ensures
variable {p : ε → Prop} {Q : α → Prop} {R : β → Prop} {x y : Act σ ε α}

theorem ok {a : α} {fx : List ε} (hq : Q a) (hp : ∀ e ∈ fx, p e) : Ensures p Q (.ok a fx : Act σ ε α) := by
  intro a fx h
  cases h
  exact ⟨hq,hp⟩

theorem pure {a : α} (hq : Q a) : Ensures p Q (pure a : Act σ ε α) := ok hq (by simp)

theorem fail (kind : FaultKind) (site : σ) : Ensures p Q (.fail kind site : Act σ ε α) := by
  intro a fx h
  cases h

theorem emit {e : ε} (he : p e) : Ensures p (fun _ => True) (emit e : Act σ ε Unit) := ok trivial (by simpa using he)

theorem mono {p' : ε → Prop} {Q' : α → Prop} (h : Ensures p Q x) (hp : ∀ e, p e → p' e) (hq : ∀ a, Q a → Q' a) :
    Ensures p' Q' x := by
  intro a fx hx
  obtain ⟨ha,hfx⟩ := h a fx hx
  exact ⟨hq a ha,fun e he => hp e (hfx e he)⟩

/-- What a call ensures may be used behind it. -/
theorem bind {f : α → Act σ ε β} (hx : Ensures p Q x) (hf : ∀ a, Q a → Ensures p R (f a)) : Ensures p R (x >>= f) := by
  intro b fx h
  obtain ⟨a,fx₁,fx₂,h₁,h₂,rfl⟩ := bind_eq_ok.mp h
  obtain ⟨ha,hp₁⟩ := hx a fx₁ h₁
  obtain ⟨hb,hp₂⟩ := hf a ha b fx₂ h₂
  refine ⟨hb,fun e he => ?_⟩
  rcases List.mem_append.mp he with he | he
  · exact hp₁ e he
  · exact hp₂ e he

theorem ite {c : Prop} [Decidable c] (hx : Ensures p Q x) (hy : Ensures p Q y) : Ensures p Q (if c then x else y) := by
  split
  · exact hx
  · exact hy

theorem read_some (site : σ) (l : List α) (i : Int) :
    Ensures p (fun a => l[i.toNat]? = some a) (read site l i : Act σ ε α) := by
  intro a fx h
  obtain ⟨_,ha,rfl⟩ := (read_eq_ok).mp h
  exact ⟨ha,by simp⟩

theorem read (site : σ) (l : List α) (i : Int) : Ensures p (fun _ => True) (Act.read site l i : Act σ ε α) :=
  (read_some site l i).mono (fun _ h => h) fun _ _ => trivial

end Ensures
end Act
end MyProgram.Lib

import Mathlib.Data.List.Basic
import Mathlib.Logic.Function.Basic
import Mathlib.Tactic.Common

/-! Chains of ancestors, and the nearest one of them that has something. -/
namespace MyProgram.Lib
variable {V : Type}

/-- A number and those above it, `n` of them at most. -/
def ancestors (sup : Nat → Option Nat) : Nat → Nat → List Nat
  | 0, _ => []
  | n+1, c => c :: match sup c with
    | none => []
    | some b => ancestors sup n b

/-- What is above comes earlier. -/
def Older (sup : Nat → Option Nat) : Prop := ∀ c b, sup c = some b → b < c

def lineage (sup : Nat → Option Nat) (c : Nat) : List Nat := ancestors sup (c + 1) c

/-- What the nearest has. -/
def nearest (sup : Nat → Option Nat) (own : Nat → Option V) (c : Nat) : Option V := (lineage sup c).findSome? own

/-- The nearest that has something. -/
def holder (sup : Nat → Option Nat) (own : Nat → Option V) (c : Nat) : Option Nat := (lineage sup c).find? fun a => (own a).isSome

variable {sup sup' : Nat → Option Nat} {own own' : Nat → Option V} {a b c n : Nat} {v : V}

theorem Older.induct {P : Nat → Prop} (h : Older sup) (hs : ∀ c, (∀ b, sup c = some b → P b) → P c) (c : Nat) : P c :=
  Nat.strongRecOn c fun c ih => hs c fun b hb => ih b (h c b hb)

theorem ancestors_succ (sup : Nat → Option Nat) (n c : Nat) :
    ancestors sup (n + 1) c = c :: (sup c).elim [] (ancestors sup n) := by
  show c :: _ = _
  cases sup c <;> rfl

theorem lineage_eq (sup : Nat → Option Nat) (c : Nat) : lineage sup c = c :: (sup c).elim [] (ancestors sup c) := ancestors_succ sup c c

theorem ancestors_enough (h : Older sup) (hn : c < n) : ancestors sup n c = lineage sup c := by
  induction c using h.induct generalizing n with
  | hs c ih =>
    obtain ⟨n,rfl⟩ := Nat.exists_eq_add_one_of_ne_zero (Nat.ne_zero_of_lt hn)
    rw [lineage_eq,ancestors_succ]
    cases hb : sup c with
    | none => rfl
    | some b =>
      have hbc := h c b hb
      rw [Option.elim_some,Option.elim_some,ih b hb (show b < n by omega),ih b hb hbc]

theorem lineage_of_sup (h : Older sup) (hb : sup c = some b) : lineage sup c = c :: lineage sup b := by
  rw [lineage_eq,hb,Option.elim_some,ancestors_enough h (h c b hb)]

theorem lineage_of_none (hb : sup c = none) : lineage sup c = [c] := by
  rw [lineage_eq,hb,Option.elim_none]

theorem lineage_congr (h : Older sup) (h' : Older sup') (he : ∀ d ≤ c, sup' d = sup d) : lineage sup' c = lineage sup c := by
  induction c using h.induct with
  | hs c ih =>
    have hc := he c (Nat.le_refl _)
    cases hb : sup c with
    | none => rw [lineage_of_none hb,lineage_of_none (hc.trans hb)]
    | some b =>
      have hbc := h c b hb
      rw [lineage_of_sup h hb,lineage_of_sup h' (hc.trans hb),ih b hb fun d hd => he d (by omega)]

theorem nearest_of_own (hv : own c = some v) : nearest sup own c = some v := by
  rw [nearest,lineage_eq,List.findSome?_cons,hv]

theorem nearest_of_sup (h : Older sup) (hc : own c = none) (hb : sup c = some b) : nearest sup own c = nearest sup own b := by
  rw [nearest,lineage_of_sup h hb,List.findSome?_cons,hc]
  rfl

theorem nearest_of_none (hc : own c = none) (hb : sup c = none) : nearest sup own c = none := by
  rw [nearest,lineage_of_none hb,List.findSome?_cons,hc]
  rfl

theorem holder_of_own (hv : own c = some v) : holder sup own c = some c := by
  rw [holder,lineage_eq,List.find?_cons,hv]
  rfl

/-- What is kept on the way, if it is what would be found, changes nothing. -/
theorem nearest_kept (h : Older sup) (hk : ∀ c v, own c = some v → nearest sup own' c = some v)
    (hd : ∀ c, own c = none → own' c = none) (c : Nat) : nearest sup own c = nearest sup own' c := by
  induction c using h.induct with
  | hs c ih =>
    cases hc : own c with
    | some v => rw [nearest_of_own hc,hk c v hc]
    | none =>
      cases hb : sup c with
      | none => rw [nearest_of_none hc hb,nearest_of_none (hd c hc) hb]
      | some b => rw [nearest_of_sup h hc hb,nearest_of_sup h (hd c hc) hb,ih b hb]

/-- Something new is what all find for whom it is the nearest. -/
theorem nearest_update (sup : Nat → Option Nat) (own : Nat → Option V) (a : Nat) (v : V) (c : Nat) :
    nearest sup (Function.update own a (some v)) c =
      if holder sup (Function.update own a (some v)) c = some a then some v else nearest sup own c := by
  unfold nearest holder
  induction lineage sup c with
  | nil => rfl
  | cons x l ih =>
    rw [List.findSome?_cons,List.findSome?_cons,List.find?_cons]
    by_cases hx : x = a
    · subst hx
      simp
    · rw [Function.update_of_ne hx]
      cases own x with
      | none => exact ih
      | some w => simp [hx]

end MyProgram.Lib

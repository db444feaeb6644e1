import MyProgram.Json.Strings

/-! Lua values as they are told apart: by what is found along a path of keys. -/
namespace MyProgram.Json
open Lib
variable {N : Numbers}

/-- A value without the entries of a table. -/
inductive Shape (N : Numbers) where
  | nil
  | bool (b : Bool)
  | number (n : N.Num)
  | str (s : Bytes)
  | table

def Value.shape : Value N → Shape N
  | .nil => .nil
  | .bool b => .bool b
  | .number n => .number n
  | .str s => .str s
  | .table _ _ => .table

/-- What is found at `v[k₁][k₂]…`. -/
def Value.at : Value N → List Key → Option (Shape N)
  | v, [] => some v.shape
  | .table es _, k :: ks => (es.lookup k).bind fun v => v.at ks
  | _, _ :: _ => none

/-- The same value: tables are compared by their entries. -/
def Same (v v' : Value N) : Prop := ∀ path, v.at path = v'.at path

mutual

/-- A property of a value and of all that it contains. -/
def Everywhere (p : Value N → Prop) : Value N → Prop
  | .table es b => p (.table es b) ∧ EverywhereIn p es
  | v => p v

def EverywhereIn (p : Value N → Prop) : List (Key × Value N) → Prop
  | [] => True
  | (_,v) :: es => Everywhere p v ∧ EverywhereIn p es

end

mutual

/-- The keys of a table that is not encoded as an array become strings. -/
def keyed : Value N → Value N
  | .table es b => .table (if isArray es then keyedEntries es else (keyedEntries es).map fun e => (.str e.1.tostring,e.2)) b
  | v => v

def keyedEntries : List (Key × Value N) → List (Key × Value N)
  | [] => []
  | (k,v) :: es => (k,keyed v) :: keyedEntries es

end

/-- `#` may return `b`. -/
def IsBorder (es : List (Key × Value N)) (b : Nat) : Prop :=
  (b = 0 ∨ es.lookup (.int b) ≠ none) ∧ es.lookup (.int (b + 1)) = none

/-- Built from booleans, strings and tables in which no two keys have the same text. -/
def Legal (v : Value N) : Prop := v |> Everywhere fun
  | .nil => False
  | .number _ => False
  | .table es b => (es.map (·.1.tostring)).Nodup ∧ IsBorder es b
  | _ => True

/-- The keys are the numbers from 1 on. -/
def Dense (es : List (Key × Value N)) : Prop := ∀ e ∈ es, ∃ i : Nat, e.1 = .int i ∧ 1 ≤ i ∧ i ≤ es.length

/-- All strings and keys survive the substitutions, and what is encoded as an array is one. -/
def Good (v : Value N) : Prop := v |> Everywhere fun
  | .str s => Fine s
  | .table es _ => (∀ e ∈ es, Fine e.1.tostring) ∧ (isArray es = true → Dense es)
  | _ => True

theorem Value.at_table (es : List (Key × Value N)) (b : Nat) (k : Key) (ks : List Key) :
    (Value.table es b).at (k :: ks) = (es.lookup k).bind fun v => v.at ks := rfl

theorem Same.refl (v : Value N) : Same v v := fun _ => rfl

/-- Tables are the same when the values under each key are. -/
theorem same_table {es es' : List (Key × Value N)} {b b' : Nat} :
    Same (.table es b) (.table es' b') ↔ ∀ k, Option.Rel Same (es.lookup k) (es'.lookup k) := by
  constructor
  · intro h k
    cases hv : es.lookup k with
    | none =>
      cases hv' : es'.lookup k with
      | none => exact .none
      | some v' =>
        have := h [k]
        rw [Value.at_table,Value.at_table,hv,hv'] at this
        cases this
    | some v =>
      cases hv' : es'.lookup k with
      | none =>
        have := h [k]
        rw [Value.at_table,Value.at_table,hv,hv'] at this
        cases this
      | some v' =>
        refine .some fun path => ?_
        have := h (k :: path)
        rwa [Value.at_table,Value.at_table,hv,hv'] at this
  · intro h path
    cases path with
    | nil => rfl
    | cons k ks =>
      have hk := h k
      rw [Value.at_table,Value.at_table]
      generalize es.lookup k = o, es'.lookup k = o' at hk ⊢
      cases hk with
      | none => rfl
      | some hs => exact hs ks

theorem everywhere_table {p : Value N → Prop} {es : List (Key × Value N)} {b : Nat} :
    Everywhere p (.table es b) ↔ p (.table es b) ∧ EverywhereIn p es := Iff.rfl

theorem everywhereIn_cons {p : Value N → Prop} {e : Key × Value N} {es : List (Key × Value N)} :
    EverywhereIn p (e :: es) ↔ Everywhere p e.2 ∧ EverywhereIn p es := Iff.rfl

theorem keyedEntries_cons (e : Key × Value N) (es : List (Key × Value N)) :
    keyedEntries (e :: es) = (e.1,keyed e.2) :: keyedEntries es := rfl

theorem encodeEntries_cons (e : Key × Value N) (es : List (Key × Value N)) :
    encodeEntries (e :: es) = (e.1,encode e.2) :: encodeEntries es := rfl

theorem everywhereIn_iff {p : Value N → Prop} {es : List (Key × Value N)} : EverywhereIn p es ↔ ∀ e ∈ es, Everywhere p e.2 := by
  induction es with
  | nil => exact ⟨fun _ _ h => (by cases h),fun _ => trivial⟩
  | cons e es ih => rw [everywhereIn_cons,ih,List.forall_mem_cons]

theorem keyedEntries_eq (es : List (Key × Value N)) : keyedEntries es = es.map fun e => (e.1,keyed e.2) := by
  induction es with
  | nil => rfl
  | cons e es ih => rw [keyedEntries_cons,ih,List.map_cons]

theorem encodeEntries_eq (es : List (Key × Value N)) : encodeEntries es = es.map fun e => (e.1,encode e.2) := by
  induction es with
  | nil => rfl
  | cons e es ih => rw [encodeEntries_cons,ih,List.map_cons]

theorem legal_table {es : List (Key × Value N)} {b : Nat} :
    Legal (.table es b) ↔ ((es.map (·.1.tostring)).Nodup ∧ IsBorder es b) ∧ ∀ e ∈ es, Legal e.2 :=
  everywhere_table.trans (and_congr_right fun _ => everywhereIn_iff)

theorem good_table {es : List (Key × Value N)} {b : Nat} :
    Good (.table es b) ↔ ((∀ e ∈ es, Fine e.1.tostring) ∧ (isArray es = true → Dense es)) ∧ ∀ e ∈ es, Good e.2 :=
  everywhere_table.trans (and_congr_right fun _ => everywhereIn_iff)

@[simp] theorem legal_bool (b : Bool) : Legal (.bool b : Value N) := trivial

@[simp] theorem legal_str (s : Bytes) : Legal (.str s : Value N) := trivial

@[simp] theorem not_legal_nil : ¬Legal (.nil : Value N) := id

@[simp] theorem not_legal_number (n : N.Num) : ¬Legal (.number n : Value N) := id

@[simp] theorem good_bool (b : Bool) : Good (.bool b : Value N) := trivial

@[simp] theorem good_str {s : Bytes} : Good (.str s : Value N) ↔ Fine s := Iff.rfl

/-- Induction over a value and the values in its tables. -/
theorem Value.induct {P : Value N → Prop} (nil : P .nil) (bool : ∀ b, P (.bool b)) (number : ∀ n, P (.number n)) (str : ∀ s, P (.str s))
    (table : ∀ es b, (∀ e ∈ es, P e.2) → P (.table es b)) : ∀ v, P v
  | .nil => nil
  | .bool b => bool b
  | .number n => number n
  | .str s => str s
  | .table es b => table es b fun e _ => Value.induct nil bool number str table e.2
termination_by v => sizeOf v
decreasing_by
  rename_i he
  have hlt := List.sizeOf_lt_of_mem he
  obtain ⟨k,v⟩ := e
  simp only [Prod.mk.sizeOf_spec] at hlt
  simp only [Value.table.sizeOf_spec]
  omega

end MyProgram.Json

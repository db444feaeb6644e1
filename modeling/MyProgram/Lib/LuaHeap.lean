import Mathlib.Data.List.Nodup
import Mathlib.Tactic.Common

/-! Lua tables in memory, and the tables that a value leads to. -/
namespace MyProgram.Lib
variable {P : Type}

/-- A table is known by its place in memory. Other values are what they are. -/
inductive LuaValue (P : Type) where
  | table (ref : Nat)
  | plain (p : P)
  deriving DecidableEq, Repr

/-- The entries, as `pairs` meets them, and the metatable. -/
structure LuaTable (P : Type) where
  entries : List (LuaValue P × LuaValue P)
  metatable : Option Nat
  deriving DecidableEq, Repr

abbrev LuaHeap (P : Type) := List (LuaTable P)

/-- The same value with other tables. -/
def LuaValue.rename (f : Nat → Nat) : LuaValue P → LuaValue P
  | .table i => .table (f i)
  | .plain p => .plain p

/-- The entries with other tables in them, and the metatable itself. -/
def LuaTable.rename (f : Nat → Nat) (t : LuaTable P) : LuaTable P :=
  ⟨t.entries.map fun e => (e.1.rename f,e.2.rename f),t.metatable⟩

namespace LuaHeap

/-- An entry has a table for its key or its value. -/
def Holds (e : LuaValue P × LuaValue P) (i : Nat) : Prop := e.1 = .table i ∨ e.2 = .table i

/-- No key occurs twice in a table, and entries lead to tables in memory. -/
structure WellFormed (heap : LuaHeap P) : Prop where
  keys : ∀ t ∈ heap, (t.entries.map Prod.fst).Nodup
  refs : ∀ t ∈ heap, ∀ e ∈ t.entries, ∀ i, Holds e i → i < heap.length

/-- The tables that a value leads to through keys and values. -/
inductive Reach (heap : LuaHeap P) (v : LuaValue P) : Nat → Prop where
  | root {i : Nat} : v = .table i → Reach heap v i
  | entry {i j : Nat} {t : LuaTable P} {e : LuaValue P × LuaValue P} :
      Reach heap v i → heap[i]? = some t → e ∈ t.entries → Holds e j → Reach heap v j

variable {heap heap' : LuaHeap P} {v w : LuaValue P} {f g : Nat → Nat} {t : LuaTable P} {e : LuaValue P × LuaValue P} {i j : Nat}

theorem rename_eq_table (h : v.rename f = .table j) : ∃ i, v = .table i ∧ f i = j := by
  cases v with
  | table i => exact ⟨i,rfl,LuaValue.table.inj h⟩
  | plain p => cases h

theorem rename_congr (h : ∀ i, v = .table i → f i = g i) : v.rename f = v.rename g := by
  cases v with
  | table i => exact congrArg LuaValue.table (h i rfl)
  | plain p => rfl

/-- Different values stay different where different tables do. -/
theorem rename_injective (hf : ∀ i j, v = .table i → w = .table j → f i = f j → i = j) (h : v.rename f = w.rename f) : v = w := by
  cases v with
  | table i =>
    obtain ⟨j,rfl,hj⟩ := rename_eq_table h.symm
    rw [hf i j rfl rfl hj.symm]
  | plain p =>
    cases w with
    | table j => cases h
    | plain q => exact congrArg LuaValue.plain (LuaValue.plain.inj h)

theorem table_rename_congr (h : ∀ e ∈ t.entries, ∀ i, Holds e i → f i = g i) : t.rename f = t.rename g := by
  unfold LuaTable.rename
  congr 1
  refine List.map_congr_left fun e he => ?_
  rw [rename_congr fun i hi => h e he i (.inl hi),rename_congr fun i hi => h e he i (.inr hi)]

theorem holds_rename : Holds (e.1.rename f,e.2.rename f) j ↔ ∃ i, Holds e i ∧ f i = j := by
  constructor
  · rintro (h | h)
    · obtain ⟨i,hi,hj⟩ := rename_eq_table h
      exact ⟨i,.inl hi,hj⟩
    · obtain ⟨i,hi,hj⟩ := rename_eq_table h
      exact ⟨i,.inr hi,hj⟩
  · rintro ⟨i,h | h,rfl⟩
    · exact .inl (by rw [h]; rfl)
    · exact .inr (by rw [h]; rfl)

/-- Keys stay different where different tables do. -/
theorem nodup_rename (hn : (t.entries.map Prod.fst).Nodup)
    (hf : ∀ d ∈ t.entries, ∀ e ∈ t.entries, ∀ i j, Holds d i → Holds e j → f i = f j → i = j) :
    ((t.rename f).entries.map Prod.fst).Nodup := by
  have hmap : (t.rename f).entries.map Prod.fst = (t.entries.map Prod.fst).map (LuaValue.rename f) := by
    rw [LuaTable.rename,List.map_map,List.map_map]
    rfl
  rw [hmap]
  refine List.Nodup.map_on (fun v hv w hw hvw => ?_) hn
  obtain ⟨d,hd,rfl⟩ := List.mem_map.mp hv
  obtain ⟨e,he,rfl⟩ := List.mem_map.mp hw
  exact rename_injective (fun i j hi hj => hf d hd e he i j (.inl hi) (.inl hj)) hvw

/-- What is reached from a value that is reached. -/
theorem Reach.trans (h : Reach heap v i) (hv : ∀ a, v = .table a → Reach heap w a) : Reach heap w i := by
  induction h with
  | root h => exact hv _ h
  | entry _ ht he hj ih => exact .entry ih ht he hj

/-- Where every table that is reached has a renamed one, the renamed value reaches just these. -/
theorem reach_rename (h : ∀ i, Reach heap v i → ∃ t, heap[i]? = some t ∧ heap'[f i]? = some (t.rename f)) :
    Reach heap' (v.rename f) j ↔ ∃ i, Reach heap v i ∧ f i = j := by
  constructor
  · intro hj
    induction hj with
    | root hj =>
      obtain ⟨i,hi,hij⟩ := rename_eq_table hj
      exact ⟨i,.root hi,hij⟩
    | entry _ ht he hj ih =>
      obtain ⟨i,hi,rfl⟩ := ih
      obtain ⟨t,hti,ht'⟩ := h i hi
      rw [ht] at ht'
      cases ht'
      obtain ⟨e,hmem,rfl⟩ := List.mem_map.mp he
      obtain ⟨k,hk,hkj⟩ := holds_rename.mp hj
      exact ⟨k,.entry hi hti hmem hk,hkj⟩
  · rintro ⟨i,hi,rfl⟩
    induction hi with
    | root hi => exact .root (by rw [hi]; rfl)
    | entry hi ht he hj ih =>
      obtain ⟨t',ht',hcopy⟩ := h _ hi
      rw [ht] at ht'
      cases ht'
      exact .entry ih hcopy (List.mem_map.mpr ⟨_,he,rfl⟩) (holds_rename.mpr ⟨_,hj,rfl⟩)

end LuaHeap
end MyProgram.Lib

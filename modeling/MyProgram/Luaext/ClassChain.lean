import MyProgram.Luaext.Inheritance

/-! Lookups through `__index` and questions through `super` go along the same chain. -/
namespace MyProgram.Luaext.Class
open Lib
variable {F V : Type} [DecidableEq F] [DecidableEq V] {heap heap' : Heap F V} {w w' : World F V} {op : ClassOp F V}
  {tr : Trace (ClassOp F V) (Effect F V)} {chain rest : List (Nat × String)} {k v : Value F V} {fx : List (Effect F V)}
  {name : String} {super : Option Nat} {b c r obj fuel : Nat}

theorem definition_cons (heap : Heap F V) (e : Nat × String) (chain : List (Nat × String)) (k : Value F V) :
    definition heap (e :: chain) k = match rawget heap e.1 k with
      | some v => some v
      | none => definition heap chain k := by
  rw [definition,List.findSome?_cons]
  cases rawget heap e.1 k <;> rfl

theorem kindLoop_named (h : rawget heap c (str "__cname") = some (str name)) (s : String) (fuel : Nat) :
    kindLoop heap s (fuel + 1) (some (.table c)) =
      if s = name then pure true else index heap (.table c) (str "super") >>= kindLoop heap s fuel := by
  have hiff : some (str name) = some (str s : Value F V) ↔ s = name := by simp [str,eq_comm]
  simp only [kindLoop,index,indexFrom_of_rawget h,Act.bind_ok,Act.after_nil,hiff]

/-- The tables of a chain have been made from each other. -/
inductive Linked (w : World F V) : List (Nat × String) → Prop where
  | base {c : Nat} {name : String} : IsClass w c name none → Linked w [(c,name)]
  | derived {b c : Nat} {name name' : String} {rest : List (Nat × String)} :
      IsClass w c name (some b) → Linked w ((b,name') :: rest) → Linked w ((c,name) :: (b,name') :: rest)

namespace Linked

theorem head (h : Linked w ((c,name) :: rest)) : ∃ super, IsClass w c name super := by
  cases h with
  | base hc => exact ⟨none,hc⟩
  | derived hc _ => exact ⟨_,hc⟩

theorem step (h : Linked w chain) (hs : Step w op w') (ha : w.Allowed op) : Linked w' chain := by
  induction h with
  | base hc => exact .base (hc.step hs ha)
  | derived hc _ ih => exact .derived (hc.step hs ha) ih

theorem isClass_of_mem (h : Linked w chain) {e : Nat × String} (he : e ∈ chain) : ∃ super, IsClass w e.1 e.2 super := by
  induction h with
  | base hc =>
    rw [List.mem_singleton.mp he]
    exact ⟨_,hc⟩
  | derived hc _ ih =>
    rcases List.mem_cons.mp he with rfl | he
    · exact ⟨_,hc⟩
    · exact ih he

/-- Older tables come first in memory. -/
theorem length_le (h : Linked w ((c,name) :: rest)) : rest.length ≤ c := by
  generalize hl : (c,name) :: rest = chain at h
  induction h generalizing c name rest with
  | base _ =>
    cases hl
    exact Nat.zero_le _
  | derived hc _ ih =>
    cases hl
    have hbc := (hc.derived _ rfl).1
    have hrest := ih rfl
    rw [List.length_cons]
    omega

/-- A lookup in a class finds the nearest definition. -/
theorem indexFrom (h : Linked w ((c,name) :: rest)) (hf : rest.length < fuel) (k : Value F V) :
    Class.indexFrom fuel w.heap (.table c) k = .ok (definition w.heap ((c,name) :: rest) k) [] := by
  generalize hl : (c,name) :: rest = chain at h
  induction h generalizing c name rest fuel with
  | @base c' _ hc =>
    cases hl
    obtain ⟨fuel,rfl⟩ := Nat.exists_eq_add_one_of_ne_zero (Nat.ne_zero_of_lt hf)
    rw [indexFrom_table hc.lt,hc.root rfl,definition_cons]
    dsimp only
    cases rawget w.heap c' k <;> rfl
  | @derived b c' _ _ _ hc _ ih =>
    cases hl
    obtain ⟨fuel,rfl⟩ := Nat.exists_eq_add_one_of_ne_zero (Nat.ne_zero_of_lt hf)
    obtain ⟨_,m,hm,_,hmf⟩ := hc.derived b rfl
    have hindex : rawget w.heap m (str "__index") = some (.table b) := hmf _ rfl
    rw [indexFrom_table hc.lt,hm,Option.bind_some,hindex,definition_cons]
    dsimp only
    cases rawget w.heap c' k with
    | some v => rfl
    | none => exact ih (Nat.lt_of_succ_lt_succ hf) rfl

/-- A lookup in an instance finds the nearest definition where the instance has none itself. -/
theorem index_instance (h : Linked w ((c,name) :: rest)) (hm : metaOf w.heap obj = some c) (ho : rawget w.heap obj k = none) :
    Class.index w.heap (.table obj) k = .ok (definition w.heap ((c,name) :: rest) k) [] := by
  obtain ⟨super,hc⟩ := h.head
  have hlt := hc.lt
  have hle := h.length_le
  have hindex : rawget w.heap c (str "__index") = some (.table c) := by
    rw [hc.fields _ rfl]
    cases super <;> rfl
  rw [Class.index,indexFrom_table (lt_of_metaOf hm),ho,hm,Option.bind_some,hindex]
  exact h.indexFrom (by omega) k

/-- The loop of `iskindof` meets the names of the chain. -/
theorem kindLoop (h : Linked w ((c,name) :: rest)) (hf : rest.length + 1 < fuel) (s : String) :
    Class.kindLoop w.heap s fuel (some (.table c)) = .ok (decide (s ∈ ((c,name) :: rest).map (·.2))) [] := by
  generalize hl : (c,name) :: rest = chain at h
  induction h generalizing c name rest fuel with
  | @base c' name' hc =>
    cases hl
    obtain ⟨fuel,rfl⟩ := Nat.exists_eq_add_one_of_ne_zero (Nat.ne_zero_of_lt (Nat.lt_of_succ_lt hf))
    obtain ⟨fuel,rfl⟩ := Nat.exists_eq_add_one_of_ne_zero (Nat.ne_zero_of_lt (Nat.lt_of_succ_lt_succ hf))
    have hcname : rawget w.heap c' (str "__cname") = some (str name') := hc.fields _ rfl
    have hsuper : rawget w.heap c' (str "super") = none := hc.fields _ rfl
    have hnone : Class.index w.heap (.table c') (str "super") = .ok none [] := by
      rw [Class.index,indexFrom_table hc.lt,hsuper,hc.root rfl]
      rfl
    rw [kindLoop_named hcname,hnone,Act.bind_ok,Act.after_nil,Class.kindLoop]
    by_cases hs : s = name' <;> simp [hs]
  | @derived b c' name' _ _ hc _ ih =>
    cases hl
    obtain ⟨fuel,rfl⟩ := Nat.exists_eq_add_one_of_ne_zero (Nat.ne_zero_of_lt (Nat.lt_of_succ_lt hf))
    have hcname : rawget w.heap c' (str "__cname") = some (str name') := hc.fields _ rfl
    have hsuper : rawget w.heap c' (str "super") = some (.table b) := hc.fields _ rfl
    rw [kindLoop_named hcname,Class.index,indexFrom_of_rawget hsuper,Act.bind_ok,Act.after_nil,ih (Nat.lt_of_succ_lt_succ hf) rfl]
    by_cases hs : s = name' <;> simp [hs]

theorem iskindof (h : Linked w ((c,name) :: rest)) (hm : metaOf w.heap obj = some c) (s : String) :
    Class.iskindof w.heap obj s = .ok (decide (s ∈ ((c,name) :: rest).map (·.2))) [] := by
  obtain ⟨super,hc⟩ := h.head
  have hlt := hc.lt
  have hle := h.length_le
  have hmeta : rawget w.heap c (str "__metatable") = none := by
    rw [hc.fields _ rfl]
    cases super <;> rfl
  rw [Class.iskindof,getmetatable,hm,Option.map_some,hmeta,Option.getD_none]
  exact h.kindLoop (by omega) s

end Linked

end MyProgram.Luaext.Class

import MyProgram.Luaext.Class

/-! What each operation does to the tables, and the tables of classes that stay as they are. -/
namespace MyProgram.Luaext.Class
open Lib
variable {F V : Type} {heap heap' : Heap F V} {w w' : World F V} {op : ClassOp F V}
  {tr : Trace (ClassOp F V) (Effect F V)} {chain rest : List (Nat × String)} {k v : Value F V} {ov : Option (Value F V)}
  {fx : List (Effect F V)} {name : String} {super : Option Nat} {b c r obj fuel : Nat}

theorem metaOf_append (h : r < heap.length) (l : Heap F V) : metaOf (heap ++ l) r = metaOf heap r := by
  rw [metaOf,List.getElem?_append_left h,metaOf]

theorem metaOf_append_length (heap : Heap F V) (t : LuaTable (Prim F V)) (l : Heap F V) :
    metaOf (heap ++ t :: l) heap.length = t.metatable := by
  rw [metaOf,List.getElem?_append_right (Nat.le_refl _),Nat.sub_self]
  rfl

theorem lt_of_metaOf (h : metaOf heap r = some b) : r < heap.length := by
  obtain ⟨t,ht,_⟩ := Option.bind_eq_some_iff.mp h
  exact (List.getElem?_eq_some_iff.mp ht).1

variable [DecidableEq F] [DecidableEq V]

theorem rawget_append (h : r < heap.length) (l : Heap F V) (k : Value F V) : rawget (heap ++ l) r k = rawget heap r k := by
  rw [rawget,List.getElem?_append_left h,rawget]

theorem rawget_append_length (heap : Heap F V) (t : LuaTable (Prim F V)) (l : Heap F V) (k : Value F V) :
    rawget (heap ++ t :: l) heap.length k = t.entries.lookup k := by
  rw [rawget,List.getElem?_append_right (Nat.le_refl _),Nat.sub_self]
  rfl

theorem lt_of_rawget (h : rawget heap r k = some v) : r < heap.length := by
  obtain ⟨t,ht,_⟩ := Option.bind_eq_some_iff.mp h
  exact (List.getElem?_eq_some_iff.mp ht).1

theorem indexFrom_table (h : r < heap.length) (fuel : Nat) (k : Value F V) :
    indexFrom (fuel + 1) heap (.table r) k = match rawget heap r k with
      | some v => pure (some v)
      | none => match (metaOf heap r).bind (rawget heap · (str "__index")) with
        | none => pure none
        | some h => indexFrom fuel heap h k := by
  rw [indexFrom,rawget,metaOf,List.getElem?_eq_getElem h]
  rfl

theorem indexFrom_of_rawget (h : rawget heap r k = some v) (fuel : Nat) : indexFrom (fuel + 1) heap (.table r) k = .ok (some v) [] := by
  rw [indexFrom_table (lt_of_rawget h),h]
  rfl

theorem indexFrom_effects (h : indexFrom fuel heap v k = .ok ov fx) : fx = [] := by
  induction fuel generalizing v with
  | zero => cases h
  | succ fuel ih =>
    cases v with
    | plain p => cases h
    | table r =>
      by_cases hr : r < heap.length
      · rw [indexFrom_table hr] at h
        split at h
        · cases h
          rfl
        · split at h
          · cases h
            rfl
          · exact ih h
      · rw [indexFrom,List.getElem?_eq_none (Nat.not_lt.mp hr)] at h
        cases h

/-- What an assignment does. -/
theorem newindex_spec (h : newindex heap r k ov = .ok heap' fx) : fx = [] ∧ heap'.length = heap.length ∧
    (∀ r', metaOf heap' r' = metaOf heap r') ∧
    ∀ r' k', rawget heap' r' k' = if r' = r ∧ k' = k then ov else rawget heap r' k' := by
  have hr : r < heap.length := by
    refine Nat.lt_of_not_le fun hle => ?_
    rw [newindex,List.getElem?_eq_none hle] at h
    cases h
  have hget : heap[r]? = some heap[r] := List.getElem?_eq_getElem hr
  have he : heap' = heap.set r { heap[r] with entries := assign heap[r].entries k ov } ∧ fx = [] := by
    simp only [newindex,hget] at h
    split at h
    · cases h
    · cases h
      exact ⟨rfl,rfl⟩
  obtain ⟨rfl,rfl⟩ := he
  refine ⟨rfl,List.length_set,fun r' => ?_,fun r' k' => ?_⟩
  · rw [metaOf,List.getElem?_set,metaOf]
    by_cases hrr : r = r'
    · subst hrr
      rw [if_pos rfl,if_pos hr,hget]
      rfl
    · rw [if_neg hrr]
  · rw [rawget,List.getElem?_set,rawget]
    by_cases hrr : r = r'
    · subst hrr
      rw [if_pos rfl,if_pos hr,hget,Option.bind_some,Option.bind_some,lookup_assign_option]
      simp
    · rw [if_neg hrr,if_neg fun he => hrr he.1.symm]

theorem newindex_returns (hr : r < heap.length) (h : (metaOf heap r).bind (rawget heap · (str "__newindex")) = none)
    (k : Value F V) (ov : Option (Value F V)) : ∃ heap', newindex heap r k ov = .ok heap' [] := by
  have hget : heap[r]? = some heap[r] := List.getElem?_eq_getElem hr
  rw [metaOf,hget,Option.bind_some] at h
  simp only [newindex,hget,h]
  cases heap[r].entries.lookup k <;> exact ⟨_,rfl⟩

/-- New tables come behind the others. -/
theorem makeClass_extends (h : makeClass heap name ov = .ok (heap',c) fx) : fx = [] ∧ c = heap.length ∧ ∃ t l, heap' = heap ++ t :: l := by
  rcases ov with _ | r | ⟨_ | _ | _ | f | _⟩
  case some.table =>
    obtain ⟨ctype,fx₁,fx₂,h₁,h₂,rfl⟩ := Act.bind_eq_ok.mp h
    cases indexFrom_effects h₁
    split at h₂
    · obtain ⟨create,fx₃,fx₄,h₃,h₄,rfl⟩ := Act.bind_eq_ok.mp h₂
      cases indexFrom_effects h₃
      cases h₄
      exact ⟨rfl,rfl,_,_,rfl⟩
    · cases h₂
      exact ⟨rfl,rfl,_,_,rfl⟩
  all_goals
    cases h
    exact ⟨rfl,rfl,_,_,rfl⟩

/-- What an operation leaves in a field of a table that was there. -/
def ClassOp.stored (op : ClassOp F V) (r : Nat) (k : Value F V) (old : Option (Value F V)) : Option (Value F V) :=
  match op with
  | .assign t k' v => if r = t ∧ k = k' then v else old
  | _ => old

/-- The tables that were there have changed by the assignment only, and the others are new. -/
structure Step (w : World F V) (op : ClassOp F V) (w' : World F V) : Prop where
  length : w.heap.length ≤ w'.heap.length
  metatable : ∀ r < w.heap.length, metaOf w'.heap r = metaOf w.heap r
  fields : ∀ r < w.heap.length, ∀ k, rawget w'.heap r k = op.stored r k (rawget w.heap r k)
  objects : ∀ r ∈ w'.objects, r ∈ w.objects ∨ w.heap.length ≤ r ∧ r < w'.heap.length

theorem Step.of_append {l : Heap F V} (hs : ∀ r k old, op.stored r k old = old) : Step w op { w with heap := w.heap ++ l } where
  length := by simp
  metatable := fun r hr => metaOf_append hr l
  fields := fun r hr k => by rw [hs,rawget_append hr]
  objects := fun r hr => .inl hr

/-- A new object. -/
theorem Step.of_instance (h : newindex (w.heap ++ [⟨[],some c⟩]) w.heap.length k ov = .ok heap fx) (b : Nat) :
    Step w (.new b) ⟨heap,w.objects ++ [w.heap.length]⟩ := by
  obtain ⟨_,hlen,hmeta,hraw⟩ := newindex_spec h
  rw [List.length_append] at hlen
  constructor
  · rw [hlen]
    exact Nat.le_add_right ..
  · intro r hr
    rw [hmeta,metaOf_append hr]
  · intro r hr k'
    rw [hraw,if_neg fun he => Nat.ne_of_lt hr he.1,rawget_append hr]
    rfl
  · intro r hr
    rcases List.mem_append.mp hr with hr | hr
    · exact .inl hr
    · rw [List.mem_singleton.mp hr]
      exact .inr ⟨Nat.le_refl _,by rw [hlen]; exact Nat.lt_succ_self _⟩

theorem classStep_step (h : classStep w op = .ok w' fx) : Step w op w' := by
  cases op with
  | makeClass name ov =>
    obtain ⟨⟨heap,cls⟩,_,_,h₁,h₂,_⟩ := Act.bind_eq_ok.mp h
    obtain ⟨_,_,t,l,rfl⟩ := makeClass_extends h₁
    cases h₂
    exact .of_append fun _ _ _ => rfl
  | assign t k ov =>
    obtain ⟨heap,_,_,h₁,h₂,_⟩ := Act.bind_eq_ok.mp h
    obtain ⟨_,hlen,hmeta,hraw⟩ := newindex_spec h₁
    cases h₂
    exact ⟨Nat.le_of_eq hlen.symm,fun r _ => hmeta r,fun r _ k' => hraw r k',fun r hr => .inl hr⟩
  | new cls =>
    obtain ⟨f,_,_,_,h₁,_⟩ := Act.bind_eq_ok.mp h
    dsimp only at h₁
    split at h₁
    · obtain ⟨⟨heap,obj⟩,_,_,h₂,h₃,_⟩ := Act.bind_eq_ok.mp h₁
      obtain ⟨heap',_,_,h₄,h₅,_⟩ := Act.bind_eq_ok.mp h₂
      obtain ⟨_,_,_,_,h₆,_⟩ := Act.bind_eq_ok.mp h₅
      obtain ⟨_,_,_,_,h₇,_⟩ := Act.bind_eq_ok.mp h₆
      cases h₇
      cases h₃
      exact .of_instance h₄ cls
    · cases h₁
  | read t k =>
    obtain ⟨_,_,_,_,h₁,_⟩ := Act.bind_eq_ok.mp h
    cases h₁
    exact ⟨Nat.le_refl _,fun _ _ => rfl,fun _ _ _ => rfl,fun _ => .inl⟩
  | iskindof obj name =>
    obtain ⟨_,_,_,_,h₁,_⟩ := Act.bind_eq_ok.mp h
    cases h₁
    exact ⟨Nat.le_refl _,fun _ _ => rfl,fun _ _ _ => rfl,fun _ => .inl⟩

/-- What is assigned to a class has another name. -/
theorem Step.reserved (hs : Step w op w') (ha : w.Allowed op) (hr : r < w.heap.length) (ho : r ∉ w.objects) (hk : freeKey k = false) :
    rawget w'.heap r k = rawget w.heap r k := by
  rw [hs.fields r hr]
  cases op with
  | assign t k' v =>
    refine if_neg ?_
    rintro ⟨rfl,rfl⟩
    rcases ha with ha | ha
    · exact ho ha
    · rw [hk] at ha
      cases ha
  | _ => rfl

theorem Step.notMem_objects (hs : Step w op w') (hr : r < w.heap.length) (ho : r ∉ w.objects) : r ∉ w'.objects := by
  intro h
  rcases hs.objects r h with h | h
  · exact ho h
  · omega

/-- The table of a class of Lua objects, with its metatable. -/
structure IsClass (w : World F V) (c : Nat) (name : String) (super : Option Nat) : Prop where
  object : c ∉ w.objects
  fields : ∀ k, freeKey k = false → rawget w.heap c k = (luaFields c name (super.map .table)).lookup k
  root : super = none → metaOf w.heap c = none
  derived : ∀ b, super = some b → b < c ∧ ∃ m, metaOf w.heap c = some m ∧ m ∉ w.objects ∧
    ∀ k, freeKey k = false → rawget w.heap m k = [(str "__index",.table b)].lookup k

namespace IsClass

theorem lt (h : IsClass w c name super) : c < w.heap.length := by
  refine lt_of_rawget (k := str "__ctype") (v := .plain (.number 2)) ?_
  rw [h.fields _ rfl]
  cases super <;> rfl

theorem step (h : IsClass w c name super) (hs : Step w op w') (ha : w.Allowed op) : IsClass w' c name super := by
  have hc := h.lt
  constructor
  · exact hs.notMem_objects hc h.object
  · intro k hk
    rw [hs.reserved ha hc h.object hk,h.fields k hk]
  · intro hb
    rw [hs.metatable c hc,h.root hb]
  · intro b hb
    obtain ⟨hbc,m,hm,hmo,hmf⟩ := h.derived b hb
    have hml : m < w.heap.length := by
      refine lt_of_rawget (k := str "__index") (v := .table b) ?_
      rw [hmf _ rfl]
      rfl
    refine ⟨hbc,m,?_,hs.notMem_objects hml hmo,fun k hk => ?_⟩
    · rw [hs.metatable c hc,hm]
    · rw [hs.reserved ha hml hmo hk,hmf k hk]

end IsClass

end MyProgram.Luaext.Class

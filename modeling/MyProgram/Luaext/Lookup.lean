import MyProgram.Luaext.Class2

/-! Inherited lookups with `class2` against the definitions that were made. -/
namespace MyProgram.Luaext.Class2
open Lib
variable {K F : Type} {classes classes' : List (ClassType K F)} {w w' : World K F} {ops : List (ClassOp K F)}
  {tr : Trace (ClassOp K F) (Effect F)} {k k' : K} {v : F} {ret : Option F} {b c d fuel obj : Nat}

theorem superOf_map (classes : List (ClassType K F)) (c : Nat) :
    superOf (classes.map (·.super)) c = classes[c]?.bind (·.super) := by
  rw [superOf,List.getElem?_map]
  cases classes[c]? <;> rfl

theorem superOf_append_of_lt {l : List (Option Nat)} {x : Option Nat} (h : c < l.length) : superOf (l ++ [x]) c = superOf l c := by
  rw [superOf,List.getElem?_append_left h,superOf]

theorem superOf_append_length (l : List (Option Nat)) (x : Option Nat) : superOf (l ++ [x]) l.length = x := by
  rw [superOf,List.getElem?_append_right (Nat.le_refl _),Nat.sub_self]
  rfl

theorem supers_append (ops : List (ClassOp K F)) (op : ClassOp K F) : supers (ops ++ [op]) = supers ops ++ supers [op] :=
  List.filterMap_append ..

variable [DecidableEq K]

@[simp] theorem map_super_store : (store classes c k ret).map (·.super) = classes.map (·.super) := by
  refine List.ext_getElem? fun i => ?_
  rw [List.getElem?_map,List.getElem?_map,store,List.getElem?_modify]
  by_cases hi : c = i <;> cases classes[i]? <;> simp [hi]

@[simp] theorem length_store : (store classes c k ret).length = classes.length := List.length_modify ..

theorem own_store : own (store classes c k ret) k' d = if k' = k ∧ d = c ∧ c < classes.length then ret else own classes k' d := by
  rw [own,store,List.getElem?_modify,own]
  by_cases hd : c = d
  · subst hd
    by_cases hc : c < classes.length
    · rw [List.getElem?_eq_getElem hc]
      simp [hc,lookup_assign_option]
    · rw [List.getElem?_eq_none (Nat.not_lt.mp hc)]
      simp [hc]
  · have hdc : ¬ d = c := fun he => hd he.symm
    rw [if_neg (fun h => hdc h.2.1)]
    cases classes[d]? <;> simp [hd]

/-- A lookup finds what the nearest table has. Tables on the way have it afterwards, and
nothing else changes. -/
theorem index_spec (ho : Older (superOf (classes.map (·.super)))) (hc : c < classes.length) (hf : c < fuel) :
    ∃ classes', index fuel classes c k = .ok (classes',nearest (superOf (classes.map (·.super))) (own classes k) c) [] ∧
      classes'.map (·.super) = classes.map (·.super) ∧ ∀ k' d, own classes' k' d = own classes k' d ∨
        k' = k ∧ own classes k d = none ∧ own classes' k d = nearest (superOf (classes.map (·.super))) (own classes k) d := by
  induction c using ho.induct generalizing fuel with
  | hs c ih =>
    obtain ⟨fuel,rfl⟩ := Nat.exists_eq_add_one_of_ne_zero (Nat.ne_zero_of_lt hf)
    have hget : classes[c]? = some classes[c] := List.getElem?_eq_getElem hc
    have hown : own classes k c = classes[c].vtbl.lookup k := by rw [own,hget,Option.bind_some]
    have hsup : superOf (classes.map (·.super)) c = classes[c].super := by rw [superOf_map,hget,Option.bind_some]
    simp only [index,hget]
    cases hl : classes[c].vtbl.lookup k with
    | some f =>
      refine ⟨classes,?_,rfl,fun _ _ => .inl rfl⟩
      rw [nearest_of_own (hown.trans hl)]
      rfl
    | none =>
      have hnone := hown.trans hl
      cases hb : classes[c].super with
      | none =>
        refine ⟨classes,?_,rfl,fun _ _ => .inl rfl⟩
        rw [nearest_of_none hnone (hsup.trans hb)]
        rfl
      | some b =>
        have hbc := ho c b (hsup.trans hb)
        have hnear := nearest_of_sup ho hnone (hsup.trans hb)
        obtain ⟨classes',he,hmap,hkept⟩ := ih b (hsup.trans hb) (by omega) (show b < fuel by omega)
        have hlen : classes'.length = classes.length := by simpa using congrArg List.length hmap
        refine ⟨store classes' c k (nearest (superOf (classes.map (·.super))) (own classes k) b),?_,?_,fun k' d => ?_⟩
        · simp only [he,Act.bind_ok,Act.after_nil,Act.pure_eq,hnear]
        · rw [map_super_store,hmap]
        · rw [own_store,own_store,hlen]
          by_cases hd : d = c
          · subst hd
            by_cases hk : k' = k
            · exact .inr ⟨hk,hnone,by rw [if_pos ⟨rfl,rfl,hc⟩,hnear]⟩
            · rw [if_neg fun h => hk h.1]
              exact (hkept k' d).imp id fun h => absurd h.1 hk
          · rw [if_neg fun h => hd h.2.1,if_neg fun h => hd h.2.1]
            exact hkept k' d

theorem assigned_append (ops : List (ClassOp K F)) (op : ClassOp K F) (k : K) :
    assigned (ops ++ [op]) k = match op with
      | .define c k' v => if k' = k then Function.update (assigned ops k) c (some v) else assigned ops k
      | _ => assigned ops k := by
  rw [assigned,List.foldl_append]
  cases op <;> rfl

theorem own_of_length_le (h : classes.length ≤ c) : own classes k c = none := by
  rw [own,List.getElem?_eq_none h]
  rfl

theorem lt_of_own (h : own classes k c = some v) : c < classes.length := by
  refine Nat.lt_of_not_le fun hle => ?_
  rw [own_of_length_le hle] at h
  cases h

/-- A new class has nothing. -/
theorem own_append (classes : List (ClassType K F)) (super : Option Nat) (k : K) (c : Nat) :
    own (classes ++ [⟨super,none,[]⟩]) k c = own classes k c := by
  rcases Nat.lt_trichotomy c classes.length with h | rfl | h
  · rw [own,List.getElem?_append_left h,own]
  · rw [own_of_length_le (Nat.le_refl _),own,List.getElem?_append_right (Nat.le_refl _),Nat.sub_self]
    rfl
  · rw [own_of_length_le (Nat.le_of_lt h),own_of_length_le]
    rw [List.length_append]
    exact h

/-- What the tables have is what the definitions give, and what was assigned is there. -/
structure Coherent (ops : List (ClassOp K F)) (w : World K F) : Prop where
  made : w.classes.map (·.super) = supers ops
  older : Older (superOf (supers ops))
  objects : ∀ c ∈ w.objects, c < w.classes.length
  kept : ∀ k c v, own w.classes k c = some v → nearest (superOf (supers ops)) (assigned ops k) c = some v
  missing : ∀ k c, own w.classes k c = none → assigned ops k c = none

namespace Coherent

theorem length_supers (h : Coherent ops w) : (supers ops).length = w.classes.length := by
  rw [← h.made,List.length_map]

theorem class2 (h : Coherent ops w) (super : Option Nat) (hs : ∀ b ∈ super, b < w.classes.length) :
    Coherent (ops ++ [ClassOp.class2 super]) { w with classes := w.classes ++ [⟨super,none,[]⟩] } := by
  have hsup : supers (ops ++ [ClassOp.class2 super]) = supers ops ++ [super] := supers_append ..
  have hlen := h.length_supers
  have holder : Older (superOf (supers ops ++ [super])) := by
    intro c b hb
    rcases Nat.lt_trichotomy c (supers ops).length with hc | rfl | hc
    · rw [superOf_append_of_lt hc] at hb
      exact h.older c b hb
    · rw [superOf_append_length] at hb
      rw [hlen]
      exact hs b hb
    · rw [superOf,List.getElem?_eq_none (by rw [List.length_append]; exact hc)] at hb
      cases hb
  constructor
  · simp [hsup,h.made]
  · rwa [hsup]
  · intro c hc
    rw [List.length_append]
    exact Nat.lt_add_right 1 (h.objects c hc)
  · intro k c v hv
    rw [own_append] at hv
    have hc := lt_of_own hv
    rw [hsup,assigned_append,nearest,lineage_congr h.older holder fun d hd => superOf_append_of_lt (by omega)]
    exact h.kept k c v hv
  · intro k c hv
    rw [own_append] at hv
    rw [assigned_append]
    exact h.missing k c hv

private theorem define_kept {k' : K} {u : F} (h : Coherent ops w) (hc : c < w.classes.length) (ht : w.Timely ops (.define c k v))
    (hu : own (store w.classes c k (some v)) k' d = some u) :
    nearest (superOf (supers ops)) (assigned (ops ++ [ClassOp.define c k v]) k') d = some u := by
  rw [assigned_append]
  dsimp only
  rw [own_store] at hu
  by_cases hk : k = k'
  · subst hk
    rw [if_pos rfl,nearest_update]
    by_cases hd : d = c
    · rw [if_pos ⟨rfl,hd,hc⟩] at hu
      rw [hd,holder_of_own (Function.update_self ..),if_pos rfl]
      exact hu
    · rw [if_neg fun he => hd he.2.1] at hu
      split
      · -- the new function is what this class has to have kept
        rename_i hh
        rw [ht d hd hh u hu]
      · exact h.kept k d u hu
  · rw [if_neg hk]
    rw [if_neg fun he => hk he.1.symm] at hu
    exact h.kept k' d u hu

private theorem define_missing {k' : K} (h : Coherent ops w) (hc : c < w.classes.length)
    (hd : own (store w.classes c k (some v)) k' d = none) : assigned (ops ++ [ClassOp.define c k v]) k' d = none := by
  rw [own_store] at hd
  rw [assigned_append]
  dsimp only
  by_cases hk : k' = k ∧ d = c ∧ c < w.classes.length
  · rw [if_pos hk] at hd
    cases hd
  · rw [if_neg hk] at hd
    split
    · rename_i he
      subst he
      rw [Function.update_of_ne fun he => hk ⟨rfl,he,hc⟩]
      exact h.missing k d hd
    · exact h.missing k' d hd

/-- A timely assignment is found by all classes for which it is the nearest. -/
theorem define (h : Coherent ops w) (hc : c < w.classes.length) (ht : w.Timely ops (.define c k v)) :
    Coherent (ops ++ [ClassOp.define c k v]) { w with classes := store w.classes c k (some v) } := by
  have hsup : supers (ops ++ [ClassOp.define c k v]) = supers ops := (supers_append ..).trans (List.append_nil _)
  constructor
  · rw [hsup,← h.made]
    exact map_super_store
  · rw [hsup]
    exact h.older
  · intro d hd
    rw [length_store]
    exact h.objects d hd
  · intro k' d u hu
    rw [hsup]
    exact h.define_kept hc ht hu
  · intro k' d hd
    exact h.define_missing hc hd

/-- Steps other than `class2` and assignments to names leave the definitions. -/
theorem keep (h : Coherent ops w) {op : ClassOp K F} (hs : supers [op] = []) (ha : ∀ k, assigned (ops ++ [op]) k = assigned ops k)
    (hm : w'.classes.map (·.super) = w.classes.map (·.super)) (ho : ∀ c ∈ w'.objects, c < w.classes.length)
    (hown : ∀ k c, own w'.classes k c = own w.classes k c ∨
      own w.classes k c = none ∧ own w'.classes k c = nearest (superOf (supers ops)) (assigned ops k) c) : Coherent (ops ++ [op]) w' := by
  have hsup : supers (ops ++ [op]) = supers ops := by rw [supers_append,hs,List.append_nil]
  constructor
  · rw [hsup,hm,h.made]
  · rw [hsup]
    exact h.older
  · intro c hc
    have hlen : w'.classes.length = w.classes.length := by simpa using congrArg List.length hm
    rw [hlen]
    exact ho c hc
  · intro k c u hu
    rw [hsup,ha]
    rcases hown k c with he | ⟨_,he⟩
    · exact h.kept k c u (he.symm.trans hu)
    · exact he.symm.trans hu
  · intro k c hc
    rw [ha]
    rcases hown k c with he | ⟨hn,_⟩
    · exact h.missing k c (he.symm.trans hc)
    · exact h.missing k c hn

theorem setCtor (h : Coherent ops w) (c : Nat) (v : F) :
    Coherent (ops ++ [ClassOp.setCtor c v]) { w with classes := w.classes.modify c fun t => { t with ctor := some v } } := by
  refine h.keep rfl (fun k => assigned_append ..) ?_ h.objects fun k d => .inl ?_
  · refine List.ext_getElem? fun i => ?_
    rw [List.getElem?_map,List.getElem?_map,List.getElem?_modify]
    by_cases hi : c = i <;> cases w.classes[i]? <;> simp [hi]
  · rw [own,List.getElem?_modify,own]
    by_cases hd : c = d <;> cases w.classes[d]? <;> simp [hd]

theorem new (h : Coherent ops w) (hc : c < w.classes.length) : Coherent (ops ++ [ClassOp.new c]) { w with objects := w.objects ++ [c] } := by
  refine h.keep rfl (fun k => assigned_append ..) rfl (fun d hd => ?_) fun k d => .inl rfl
  rcases List.mem_append.mp hd with hd | hd
  · exact h.objects d hd
  · rw [List.mem_singleton.mp hd]
    exact hc

/-- In the tables the nearest is what it is in the definitions. -/
theorem nearest_own (h : Coherent ops w) (k : K) (c : Nat) :
    nearest (superOf (supers ops)) (own w.classes k) c = nearest (superOf (supers ops)) (assigned ops k) c :=
  nearest_kept h.older (h.kept k) (h.missing k) c

theorem index (h : Coherent ops w) (hc : c < w.classes.length) (k : K) :
    ∃ classes', Class2.index (w.classes.length + 1) w.classes c k =
        .ok (classes',nearest (superOf (supers ops)) (assigned ops k) c) [] ∧
      ∀ obj, Coherent (ops ++ [ClassOp.read obj k]) { w with classes := classes' } := by
  obtain ⟨classes',he,hmap,hown⟩ := index_spec (k := k) (h.made ▸ h.older) hc (Nat.lt_succ_of_lt hc)
  rw [h.made] at he hmap hown
  refine ⟨classes',by rw [he,h.nearest_own],fun obj => ?_⟩
  refine h.keep rfl (fun k => assigned_append ..) (hmap.trans h.made.symm) h.objects fun k' d => ?_
  rcases hown k' d with hd | ⟨rfl,hn,hd⟩
  · exact .inl hd
  · exact .inr ⟨hn,hd.trans (h.nearest_own _ _)⟩

end Coherent

/-- A step that is possible and timely keeps the tables coherent. -/
theorem classStep_coherent {op : ClassOp K F} {fx : List (Effect F)} (h : Coherent ops w) (hp : w.Possible op) (ht : w.Timely ops op)
    (he : classStep w op = .ok w' fx) : Coherent (ops ++ [op]) w' := by
  cases op with
  | class2 super =>
    cases he
    exact h.class2 super hp
  | define c k v =>
    rw [classStep,List.getElem?_eq_getElem hp] at he
    cases he
    exact h.define hp ht
  | setCtor c v =>
    rw [classStep,List.getElem?_eq_getElem hp] at he
    cases he
    exact h.setCtor c v
  | new c =>
    obtain ⟨_,_,_,_,he,_⟩ := Act.bind_eq_ok.mp he
    cases he
    exact h.new hp
  | read obj k =>
    have hobj : w.objects[obj]? = some w.objects[obj] := List.getElem?_eq_getElem hp
    obtain ⟨classes',hi,hcoh⟩ := h.index (h.objects _ (List.getElem_mem hp)) k
    simp only [classStep,hobj,hi,Act.bind_ok,Act.emit_eq,Act.pure_eq,Act.after_ok] at he
    cases he
    exact hcoh obj

end MyProgram.Luaext.Class2

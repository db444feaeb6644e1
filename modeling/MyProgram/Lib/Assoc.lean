import Mathlib.Data.Finset.Card
import Mathlib.Data.Finset.Range
import Mathlib.Data.List.Basic

/-! Association lists as Lua tables: assignment and lookup. -/
namespace MyProgram.Lib
variable {K V W : Type} [DecidableEq K] {l : List (K × V)} {k k' : K} {v : V}

/-- `t[k] = v`; without a value the entry is removed. -/
def assign (l : List (K × V)) (k : K) (v : Option V) : List (K × V) :=
  match v with
  | none => l.filter (·.1 ≠ k)
  | some v => if l.any (·.1 = k) then l.map fun e => if e.1 = k then (k,v) else e else l ++ [(k,v)]

/-- `t[k]`. -/
def tableIndex (l : List (K × V)) (k : K) : Option V := l.lookup k

/-- Assignments one after another. -/
def assignAll (l : List (K × V)) (ds : List (K × V)) : List (K × V) := ds.foldl (fun l d => assign l d.1 (some d.2)) l

theorem lookup_cons_ite (e : K × V) : (e :: l).lookup k = if k = e.1 then some e.2 else l.lookup k := by
  rw [List.lookup_cons]
  by_cases h : k = e.1
  · simp [h]
  · rw [beq_eq_false_iff_ne.mpr h,if_neg h]

theorem lookup_of_mem (hn : (l.map Prod.fst).Nodup) (h : (k,v) ∈ l) : l.lookup k = some v := by
  induction l with
  | nil => cases h
  | cons e l ih =>
    obtain ⟨hne,hn⟩ := List.nodup_cons.mp hn
    rw [lookup_cons_ite]
    rcases List.mem_cons.mp h with rfl | h
    · exact if_pos rfl
    · rw [if_neg fun he => hne (List.mem_map.mpr ⟨_,h,he⟩)]
      exact ih hn h

theorem mem_of_lookup (h : l.lookup k = some v) : (k,v) ∈ l := by
  obtain ⟨l₁,l₂,rfl,_⟩ := List.lookup_eq_some_iff.mp h
  simp

theorem lookup_eq_none_of_notMem (h : k ∉ l.map Prod.fst) : l.lookup k = none := by
  rw [List.lookup_eq_none_iff]
  intro e he
  have hne : k ≠ e.1 := fun hk => h (List.mem_map.mpr ⟨e,he,hk.symm⟩)
  simpa using hne

theorem lookup_map (f : V → W) : (l.map fun e => (e.1,f e.2)).lookup k = (l.lookup k).map f := by
  induction l with
  | nil => rfl
  | cons e l ih =>
    rw [List.map_cons,lookup_cons_ite,lookup_cons_ite,ih]
    split <;> rfl

/-- The same with a function of key and value. -/
theorem tableIndex_map_entries (f : K → V → W) (l : List (K × V)) (k : K) :
    tableIndex (l.map fun e => (e.1,f e.1 e.2)) k = (tableIndex l k).map (f k) := by
  unfold tableIndex
  induction l with
  | nil => rfl
  | cons e l ih =>
    rw [List.map_cons,lookup_cons_ite,lookup_cons_ite,ih]
    split
    · rename_i hk
      rw [hk]
      rfl
    · rfl

/-- A new key is added behind the others. -/
theorem assign_of_notMem (h : k ∉ l.map Prod.fst) : assign l k (some v) = l ++ [(k,v)] := by
  refine if_neg fun hany => h ?_
  obtain ⟨e,he,hk⟩ := List.any_eq_true.mp hany
  exact List.mem_map.mpr ⟨e,he,of_decide_eq_true hk⟩

theorem keys_assign (l : List (K × V)) (k : K) (v : V) :
    (assign l k (some v)).map Prod.fst = if k ∈ l.map Prod.fst then l.map Prod.fst else l.map Prod.fst ++ [k] := by
  by_cases hk : k ∈ l.map Prod.fst
  · have hany : l.any (·.1 = k) = true := by
      obtain ⟨e,he,hek⟩ := List.mem_map.mp hk
      exact List.any_eq_true.mpr ⟨e,he,decide_eq_true hek⟩
    rw [if_pos hk,assign,if_pos hany,List.map_map]
    refine List.map_congr_left fun e _ => ?_
    by_cases he : e.1 = k
    · simp [he]
    · simp [he]
  · rw [if_neg hk,assign_of_notMem hk,List.map_append]
    rfl

private theorem lookup_replace (hany : l.any (·.1 = k) = true ∨ k' ≠ k) :
    (l.map fun e => if e.1 = k then (k,v) else e).lookup k' = if k' = k then some v else l.lookup k' := by
  induction l with
  | nil => simpa using hany
  | cons e l ih =>
    rw [List.map_cons,lookup_cons_ite,lookup_cons_ite]
    by_cases he : e.1 = k
    · by_cases hk : k' = k
      · simp [he,hk]
      · simp [he,hk,ih (.inr hk)]
    · have hany' : l.any (·.1 = k) = true ∨ k' ≠ k := by simpa [he] using hany
      rw [if_neg he,ih hany']
      by_cases hk : k' = k
      · rw [if_pos hk,if_pos hk,if_neg (by rw [hk]; exact Ne.symm he)]
      · rw [if_neg hk,if_neg hk]

/-- An assignment changes its own key only. -/
theorem lookup_assign : (assign l k (some v)).lookup k' = if k' = k then some v else l.lookup k' := by
  unfold assign
  dsimp only
  split
  · rename_i hany
    exact lookup_replace (.inl hany)
  · rename_i hany
    rw [List.lookup_append]
    by_cases hk : k' = k
    · have hnone : l.lookup k' = none := by
        refine lookup_eq_none_of_notMem fun hm => hany ?_
        obtain ⟨e,he,hek⟩ := List.mem_map.mp hm
        exact List.any_eq_true.mpr ⟨e,he,by simp [hek,hk]⟩
      rw [hnone,if_pos hk]
      simp [hk]
    · rw [if_neg hk,lookup_cons_ite,if_neg hk]
      simp

/-- The same with an assignment that may remove the key. -/
theorem lookup_assign_option {v : Option V} : (assign l k v).lookup k' = if k' = k then v else l.lookup k' := by
  cases v with
  | some v => exact lookup_assign
  | none =>
    rw [assign]
    induction l with
    | nil => simp
    | cons e l ih =>
      rw [List.filter_cons,lookup_cons_ite]
      by_cases he : e.1 = k
      · rw [if_neg (by simpa using he),ih]
        by_cases hk : k' = k
        · rw [if_pos hk,if_pos hk]
        · rw [if_neg hk,if_neg hk,if_neg (by rw [he]; exact hk)]
      · rw [if_pos (by simpa using he),lookup_cons_ite,ih]
        by_cases hk : k' = k
        · rw [if_pos hk,if_pos hk,if_neg (by rw [hk]; exact Ne.symm he)]
        · rw [if_neg hk,if_neg hk]

theorem tableIndex_assign : tableIndex (assign l k (some v)) k' = if k' = k then some v else tableIndex l k' := lookup_assign

theorem tableIndex_assign_option {v : Option V} : tableIndex (assign l k v) k' = if k' = k then v else tableIndex l k' := lookup_assign_option

theorem mem_of_tableIndex (h : tableIndex l k = some v) : (k,v) ∈ l := mem_of_lookup h

/-- Removing a key that is not there. -/
theorem assign_none (h : tableIndex l k = none) : assign l k none = l := by
  refine List.filter_eq_self.mpr fun e he => ?_
  have hne := List.lookup_eq_none_iff.mp h e he
  exact decide_eq_true fun hk => by simp [hk] at hne

theorem mem_assign {v : Option V} {e : K × V} (h : e ∈ assign l k v) : e ∈ l ∨ v = some e.2 ∧ e.1 = k := by
  cases v with
  | none => exact .inl (List.mem_filter.mp h).1
  | some v =>
    unfold assign at h
    dsimp only at h
    split at h
    · obtain ⟨x,hx,rfl⟩ := List.mem_map.mp h
      split
      · exact .inr ⟨rfl,rfl⟩
      · exact .inl hx
    · rcases List.mem_append.mp h with h | h
      · exact .inl h
      · rw [List.mem_singleton.mp h]
        exact .inr ⟨rfl,rfl⟩

theorem lookup_assignAll_of_notMem {ds : List (K × V)} (h : k ∉ ds.map Prod.fst) : (assignAll l ds).lookup k = l.lookup k := by
  induction ds generalizing l with
  | nil => rfl
  | cons d ds ih =>
    obtain ⟨hd,hds⟩ := not_or.mp (mt List.mem_cons.mpr h)
    rw [assignAll,List.foldl_cons,← assignAll,ih hds,lookup_assign,if_neg hd]

/-- Assignments to different keys are all there. -/
theorem lookup_assignAll {ds : List (K × V)} (hn : (ds.map Prod.fst).Nodup) (h : (k,v) ∈ ds) : (assignAll l ds).lookup k = some v := by
  induction ds generalizing l with
  | nil => cases h
  | cons d ds ih =>
    obtain ⟨hd,hn⟩ := List.nodup_cons.mp hn
    rw [assignAll,List.foldl_cons,← assignAll]
    rcases List.mem_cons.mp h with rfl | h
    · rw [lookup_assignAll_of_notMem hd,lookup_assign,if_pos rfl]
    · exact ih hn h

theorem nodup_keys_assign (hn : (l.map Prod.fst).Nodup) (k : K) (v : Option V) : ((assign l k v).map Prod.fst).Nodup := by
  cases v with
  | none => exact hn.sublist (List.filter_sublist.map _)
  | some v =>
    rw [keys_assign]
    split
    · exact hn
    · rename_i hk
      rw [List.nodup_append]
      refine ⟨hn,List.nodup_singleton k,fun a ha b hb he => hk ?_⟩
      rw [List.mem_singleton] at hb
      rwa [← hb,← he]

theorem countP_remove_le (p : K × V → Bool) (l : List (K × V)) (k : K) : (assign l k none).countP p ≤ l.countP p :=
  List.filter_sublist.countP_le

/-- What an entry contributes to a count. -/
theorem countP_lookup (p : K × V → Bool) (hn : (l.map Prod.fst).Nodup) (h : l.lookup k = some v) :
    l.countP p = (assign l k none).countP p + if p (k,v) = true then 1 else 0 := by
  induction l with
  | nil => cases h
  | cons e l ih =>
    obtain ⟨he,hn⟩ := List.nodup_cons.mp hn
    rw [lookup_cons_ite] at h
    rw [List.countP_cons,assign,List.filter_cons]
    by_cases hk : k = e.1
    · rw [if_pos hk] at h
      cases h
      have hid : l.filter (·.1 ≠ k) = l := by
        refine List.filter_eq_self.mpr fun d hd => decide_eq_true fun hdk => he ?_
        rw [← hk,← hdk]
        exact List.mem_map_of_mem hd
      rw [if_neg (by simp [hk] : ¬decide (e.1 ≠ k) = true),hid,hk]
    · rw [if_neg hk] at h
      have hne : decide (e.1 ≠ k) = true := decide_eq_true (Ne.symm hk)
      rw [if_pos hne,List.countP_cons,ih hn h,assign]
      omega

/-- What is assigned and removed leaves nothing. -/
theorem remove_assign (l : List (K × V)) (k : K) (v : V) : assign (assign l k (some v)) k none = assign l k none := by
  have hmap : ∀ l : List (K × V), (l.map fun e => if e.1 = k then (k,v) else e).filter (·.1 ≠ k) = l.filter (·.1 ≠ k) := by
    intro l
    induction l with
    | nil => rfl
    | cons e l ih =>
      rw [List.map_cons,List.filter_cons,List.filter_cons,ih]
      by_cases hk : e.1 = k
      · simp [hk]
      · simp [hk]
  unfold assign
  dsimp only
  split
  · exact hmap l
  · simp

theorem countP_assign (p : K × V → Bool) (hn : (l.map Prod.fst).Nodup) (k : K) (v : V) :
    (assign l k (some v)).countP p = (assign l k none).countP p + if p (k,v) = true then 1 else 0 := by
  have hl : (assign l k (some v)).lookup k = some v := by rw [lookup_assign,if_pos rfl]
  rw [countP_lookup p (nodup_keys_assign hn k (some v)) hl,remove_assign]

/-- How many of the first `n` numbers are no keys. -/
def unmapped (n : Nat) (l : List (Nat × V)) : Nat := ((Finset.range n).filter fun i => (l.lookup i).isNone).card

theorem unmapped_le {l l' : List (Nat × V)} {n : Nat} (h : ∀ i, l.lookup i ≠ none → l'.lookup i ≠ none) :
    unmapped n l' ≤ unmapped n l := by
  refine Finset.card_le_card fun i hi => ?_
  rw [Finset.mem_filter,Option.isNone_iff_eq_none] at hi ⊢
  exact ⟨hi.1,by_contra fun hl => h i hl hi.2⟩

theorem unmapped_assign {l : List (Nat × V)} {n i : Nat} {v : V} (hi : i < n) (hn : l.lookup i = none) :
    unmapped n (assign l i (some v)) < unmapped n l := by
  refine Finset.card_lt_card ((Finset.ssubset_iff_of_subset fun j hj => ?_).mpr ⟨i,?_,?_⟩)
  · rw [Finset.mem_filter,Option.isNone_iff_eq_none,lookup_assign] at hj
    rw [Finset.mem_filter,Option.isNone_iff_eq_none]
    refine ⟨hj.1,?_⟩
    by_cases hij : j = i
    · rw [hij]
      exact hn
    · rw [if_neg hij] at hj
      exact hj.2
  · rw [Finset.mem_filter,Option.isNone_iff_eq_none]
    exact ⟨Finset.mem_range.mpr hi,hn⟩
  · rw [Finset.mem_filter,Option.isNone_iff_eq_none,lookup_assign,if_pos rfl]
    exact fun h => Option.some_ne_none _ h.2

end MyProgram.Lib

import MyProgram.Adlist.Iterator
import MyProgram.Adlist.Refinement

/-! Walking along the list: with an iterator while nodes are deleted, and to an index. -/
namespace MyProgram.Adlist
open Lib DList
namespace Store
variable {s : Store} {l r kept rest : List (Nat × Value)} {e : Nat × Value} {iter : ListIter} {fuel : Nat}

/-- The nodes in the order in which an iterator meets them. -/
def facing {α : Type} (direction : Int) (l : List α) : List α := if direction = AL_START_HEAD then l else l.reverse

@[simp] theorem facing_facing {α : Type} (direction : Int) (l : List α) : facing direction (facing direction l) = l := by
  unfold facing
  split
  · rfl
  · exact List.reverse_reverse l

@[simp] theorem length_facing {α : Type} (direction : Int) (l : List α) : (facing direction l).length = l.length := by
  unfold facing
  split
  · rfl
  · exact List.length_reverse

theorem map_facing {α β : Type} (f : α → β) (direction : Int) (l : List α) : (facing direction l).map f = facing direction (l.map f) := by
  unfold facing
  split
  · rfl
  · exact List.map_reverse

theorem filter_facing {α : Type} (p : α → Bool) (direction : Int) (l : List α) :
    (facing direction l).filter p = facing direction (l.filter p) := by
  unfold facing
  split
  · rfl
  · exact List.filter_reverse

/-- An iterator starts at the first node it meets. -/
private theorem first_facing (h : s.Holds l) (direction : Int) :
    first (facing direction l) none = if direction = AL_START_HEAD then s.list.head else s.list.tail := by
  unfold facing
  split
  · exact h.head.symm
  · rw [first_reverse,h.tail]

/-- The pointers an iterator follows. -/
private theorem listNext_eq (h : s.Holds (facing iter.direction (kept ++ e :: rest))) (hn : iter.next = some e.1) :
    s.listNext (some iter) = .ok (some e.1,{ iter with next := first rest none }) [] := by
  simp only [listNext,hn]
  by_cases hd : iter.direction = AL_START_HEAD
  · rw [facing,if_pos hd] at h
    simp only [deref_eq h.cell,Act.bind_ok,Act.after_nil,if_pos hd]
    rfl
  · rw [facing,if_neg hd,List.reverse_append,List.reverse_cons,List.append_assoc,List.singleton_append] at h
    simp only [deref_eq h.cell,Act.bind_ok,Act.after_nil,if_neg hd,last_reverse]
    rfl

private theorem delNode_facing {direction : Int} (h : s.Holds (facing direction (kept ++ e :: rest))) :
    ∃ s' fx, s.listDelNode e.1 = .ok s' fx ∧ s'.Holds (facing direction (kept ++ rest)) := by
  by_cases hd : direction = AL_START_HEAD
  · rw [facing,if_pos hd] at h ⊢
    obtain ⟨s',he,h'⟩ := delNode_holds h
    exact ⟨s',_,he,h'⟩
  · rw [facing,if_neg hd,List.reverse_append,List.reverse_cons,List.append_assoc,List.singleton_append] at h
    obtain ⟨s',he,h'⟩ := delNode_holds h
    refine ⟨s',_,he,?_⟩
    rw [facing,if_neg hd,List.reverse_append]
    exact h'

/-- The entries whose nodes are not deleted. -/
def spared (seen : List (Nat × Bool)) (l : List (Nat × Value)) : List (Nat × Value) := l.filter fun e => (e.1,true) ∉ seen

private theorem spared_cons {b : Bool} {seen : List (Nat × Bool)} (hs : seen.map (·.1) = l.map (·.1)) (he : e.1 ∉ l.map (·.1)) :
    spared ((e.1,b) :: seen) (e :: l) = if b then spared seen l else e :: spared seen l := by
  have htail : l.filter (fun d => (d.1,true) ∉ (e.1,b) :: seen) = spared seen l := by
    refine List.filter_congr fun d hd => ?_
    have hne : d.1 ≠ e.1 := fun hk => he (hk ▸ List.mem_map_of_mem hd)
    simp [hne]
  have hseen : (e.1,true) ∉ seen := fun hm => he (hs ▸ List.mem_map_of_mem hm)
  rw [spared,List.filter_cons,htail]
  cases b <;> simp [hseen]

/-- What is in front of the iterator is met node by node, whatever becomes of the nodes. -/
private theorem iterate_spec (iter : ListIter) (del : Store → List (Nat × Bool) → Nat → Bool) (seen : List (Nat × Bool))
    (h : s.Holds (facing iter.direction (kept ++ rest))) (hn : iter.next = first rest none) (hf : rest.length < fuel) :
    ∃ s' seen' fx, iterate del fuel s iter seen = .ok (s',seen ++ seen') fx ∧ seen'.map (·.1) = rest.map (·.1) ∧
      s'.Holds (facing iter.direction (kept ++ spared seen' rest)) := by
  obtain ⟨fuel,rfl⟩ := Nat.exists_eq_succ_of_ne_zero (Nat.ne_zero_of_lt hf)
  induction rest generalizing s iter kept seen fuel with
  | nil =>
    refine ⟨s,[],[],?_,rfl,h⟩
    simp only [iterate,listNext,hn,first_nil,Act.pure_eq,Act.bind_ok,Act.after_ok,List.append_nil]
  | cons e rest ih =>
    obtain ⟨fuel,rfl⟩ : ∃ k, fuel = k + 1 := ⟨fuel - 1,by simp only [List.length_cons] at hf; omega⟩
    have hdistinct : e.1 ∉ rest.map (·.1) := by
      have hp : ((kept ++ e :: rest).map (·.1)).Nodup := by
        have hd := h.distinct
        unfold facing at hd
        split at hd
        · exact hd
        · rwa [List.map_reverse,List.nodup_reverse] at hd
      rw [List.map_append,List.map_cons] at hp
      exact (List.nodup_cons.mp (List.nodup_append.mp hp).2.1).1
    have hstep := listNext_eq h hn
    have hlen : rest.length < fuel + 1 := by simp only [List.length_cons] at hf; omega
    by_cases hdel : del s seen e.1 = true
    · obtain ⟨s₁,fx₁,he₁,h₁⟩ := delNode_facing h
      obtain ⟨s',seen',fx,he,hmap,h'⟩ := ih { iter with next := first rest none } (seen ++ [(e.1,true)]) h₁ rfl fuel hlen
      refine ⟨s',(e.1,true) :: seen',fx₁ ++ fx,?_,by rw [List.map_cons,hmap]; rfl,?_⟩
      · rw [iterate]
        simp only [hstep,Act.bind_ok,if_pos hdel,he₁,he,Act.after_ok,List.nil_append,List.append_assoc,List.singleton_append]
      · rw [spared_cons hmap hdistinct]
        exact h'
    · have h₁ : s.Holds (facing iter.direction ((kept ++ [e]) ++ rest)) := by simpa using h
      obtain ⟨s',seen',fx,he,hmap,h'⟩ := ih { iter with next := first rest none } (seen ++ [(e.1,false)]) h₁ rfl fuel hlen
      refine ⟨s',(e.1,false) :: seen',fx,?_,by rw [List.map_cons,hmap]; rfl,?_⟩
      · rw [iterate]
        simp only [hstep,Act.bind_ok,Act.after_nil,if_neg hdel,he,List.append_assoc,List.singleton_append]
      · rw [spared_cons hmap hdistinct]
        simpa using h'

/-- A loop with an iterator returns from every list, whichever of the nodes it has been
given it deletes: it is given each node of the list once, in the direction of the
iterator, reads no node it has deleted, and the nodes it spares are the list. -/
theorem iterate_deleting (s : Store) (l : List (Nat × Value)) (direction : Int) (malloc : Option Nat) (iter : ListIter)
    (del : Store → List (Nat × Bool) → Nat → Bool) (fuel : Nat) (h : s.Holds l)
    (hi : s.listGetIterator direction malloc = some iter) (hf : l.length < fuel) :
    ∃ s' seen fx, iterate del fuel s iter [] = .ok (s',seen) fx ∧ seen.map (·.1) = facing direction (l.map (·.1)) ∧
      s'.Holds (spared seen l) := by
  obtain ⟨_,rfl,rfl⟩ := Option.map_eq_some_iff.mp hi
  have hstart : s.Holds (facing direction ([] ++ facing direction l)) := by simpa using h
  have hlen : (facing direction l).length < fuel := by rwa [length_facing]
  obtain ⟨s',seen,fx,he,hmap,h'⟩ := iterate_spec ⟨_,direction⟩ del [] hstart (first_facing h direction).symm hlen
  have hspared : facing direction ([] ++ spared seen (facing direction l)) = spared seen l := by
    rw [List.nil_append,spared,filter_facing,facing_facing,spared]
  exact ⟨s',seen,fx,he,by rw [hmap,map_facing],hspared ▸ h'⟩

/-- A list of three nodes. -/
def threeNodes : Store where
  heap a := if a = 10 then some ⟨none,some 20,some 1⟩ else if a = 20 then some ⟨some 10,some 30,some 2⟩
    else if a = 30 then some ⟨some 20,none,some 3⟩ else none
  list := ⟨some 10,some 30,none,none,none,3⟩

theorem threeNodes_holds : threeNodes.Holds [(10,some 1),(20,some 2),(30,some 3)] :=
  ⟨⟨rfl,rfl,rfl,trivial⟩,rfl,rfl,rfl,by decide,by decide⟩

/-- Both ends are deleted on the way from the tail. -/
theorem iterate_deleting_ends : ∃ s' seen fx,
    iterate (fun _ _ p => p ≠ 20) 4 threeNodes ⟨some 30,AL_START_TAIL⟩ [] = .ok (s',seen) fx ∧
    seen = [(30,true),(20,false),(10,true)] ∧ s'.Holds [(20,some 2)] := by
  obtain ⟨s',seen,fx,he,_,h'⟩ := iterate_deleting threeNodes _ AL_START_TAIL (some 64) ⟨some 30,AL_START_TAIL⟩
    (fun _ _ p => p ≠ 20) 4 threeNodes_holds rfl (by decide)
  have hcheck : (iterate (fun _ _ p => p ≠ 20) 4 threeNodes ⟨some 30,AL_START_TAIL⟩ []).holds
      fun r _ => r.2 = [(30,true),(20,false),(10,true)] := by decide
  rw [he] at hcheck
  have hseen : seen = [(30,true),(20,false),(10,true)] := of_decide_eq_true hcheck
  subst hseen
  exact ⟨s',_,fx,he,rfl,h'⟩

/-- Following a link counts off the nodes of its chain. -/
private theorem indexLoop_eq {link : ListNode → Option Nat} {p : Option Nat} {nodes : List Nat}
    (h : Chain (fun a => (s.heap a).bind link) p nodes) (hm : ∀ a ∈ nodes, ∃ n, s.heap a = some n) (k : Nat) :
    s.indexLoop link k p = .ok nodes[k]? [] := by
  induction nodes generalizing p k with
  | nil =>
    subst h
    cases k <;> rfl
  | cons a nodes ih =>
    obtain ⟨rfl,ht⟩ := h
    cases k with
    | zero => rfl
    | succ k =>
      obtain ⟨n,hn⟩ := hm a (List.mem_cons_self)
      rw [show (fun a => (s.heap a).bind link) a = link n by simp [hn]] at ht
      simp only [indexLoop,deref_eq hn,Act.bind_ok,Act.after_nil,List.getElem?_cons_succ]
      exact ih ht (fun b hb => hm b (List.mem_cons_of_mem _ hb)) k

/-- Negating the smallest `long` wraps around and subtracting one wraps back. -/
private theorem fromTail_eq {i : Int} (hl : -2^63 ≤ i) (hi : i < 0) : fromTail i = -i - 1 := by
  rw [fromTail,wrap64_sub_left]
  exact wrap64_eq (by omega) (by omega)

private theorem listIndex_eq {i : Int} (h : s.Holds l) (hl : -2^63 ≤ i) :
    s.listIndex i = .ok (if i < 0 then (l.map (·.1)).reverse[(-i - 1).toNat]? else (l.map (·.1))[i.toNat]?) [] := by
  have hmem : ∀ a ∈ l.map (·.1), ∃ n, s.heap a = some n := by
    intro a ha
    obtain ⟨e,he,rfl⟩ := List.mem_map.mp ha
    obtain ⟨n,hn,_⟩ := h.seg.get he
    exact ⟨n,hn⟩
  unfold listIndex
  split
  · rename_i hi
    rw [fromTail_eq hl hi]
    exact indexLoop_eq h.represents.backward (fun a ha => hmem a (List.mem_reverse.mp ha)) _
  · exact indexLoop_eq h.represents.forward hmem _

private theorem listIndex_negative {i : Int} (h : s.Holds l) (hl : -2^63 ≤ i) (hi : i < 0) (hn : -l.length ≤ i) :
    s.listIndex i = .ok (l.map (·.1))[(l.length + i).toNat]? [] := by
  have hk : (-i - 1).toNat < (l.map (·.1)).length := by rw [List.length_map]; omega
  have hflip : (l.map (·.1)).length - 1 - (-i - 1).toNat = (l.length + i).toNat := by rw [List.length_map]; omega
  rw [listIndex_eq h hl,if_pos hi,List.getElem?_reverse hk,hflip]

/-- An index counts from the head, or when it is negative from behind the tail, and
outside the list it finds no node, down to the smallest `long`. -/
theorem listIndex_both_ends (s : Store) (l : List (Nat × Value)) (i : Int) (h : s.Holds l) (hl : -2^63 ≤ i) :
    (∀ k (hk : k < l.length), i = k → s.listIndex i = .ok (some l[k].1) []) ∧
    (∀ k (hk : k < l.length), i < 0 → k = l.length + i → s.listIndex i = .ok (some l[k].1) []) ∧
    (i < -l.length ∨ l.length ≤ i → s.listIndex i = .ok none []) ∧
    (0 ≤ i → i < l.length → -2^63 ≤ i - l.length → s.listIndex i = s.listIndex (i - l.length)) := by
  refine ⟨fun k hk hi => ?_,fun k hk hi hkn => ?_,fun hout => ?_,fun h₀ hn hw => ?_⟩
  · rw [listIndex_eq h hl,if_neg (by omega),hi]
    simp [hk]
  · rw [listIndex_negative h hl hi (by omega),show ((l.length : Int) + i).toNat = k by omega]
    simp [hk]
  · rw [listIndex_eq h hl]
    split
    · rw [List.getElem?_eq_none (by rw [List.length_reverse,List.length_map]; omega)]
    · rw [List.getElem?_eq_none (by rw [List.length_map]; omega)]
  · rw [listIndex_negative h hw (by omega) (by omega),listIndex_eq h hl,if_neg (by omega)]
    rw [show ((l.length : Int) + (i - l.length)).toNat = i.toNat by omega]

/-- The smallest index lies outside, and both ends are reached from the other one. -/
theorem listIndex_both_ends_extreme : threeNodes.listIndex (-2^63) = .ok none [] ∧ threeNodes.listIndex (-3) = .ok (some 10) [] ∧
    threeNodes.listIndex 2 = threeNodes.listIndex (-1) :=
  ⟨(listIndex_both_ends threeNodes _ (-2^63) threeNodes_holds (by decide)).2.2.1 (by decide),
    (listIndex_both_ends threeNodes _ (-3) threeNodes_holds (by decide)).2.1 0 (by decide) (by decide) (by decide),
    (listIndex_both_ends threeNodes _ 2 threeNodes_holds (by decide)).2.2.2 (by decide) (by decide) (by decide)⟩

end Store
end MyProgram.Adlist

import MyProgram.SearchTree.Model

/-! What the pointer operations of the search tree do to the shape of the tree. -/
namespace MyProgram.SearchTree
open Lib PtrTree
namespace CBinarySearchTree
variable {s : CBinarySearchTree} {t l r : PtrTree Nat TKey} {c d : List (Frame Nat TKey)} {par q : Option Nat}
  {p u x y : Nat} {k key : TKey} {n : STSearchTreeNode} {site : Site}

/-- Memory as the tree sees it. -/
def mem (s : CBinarySearchTree) (p : Nat) : Option STSearchTreeNode := s.nodes[p]?

/-- Behind `m_pRoot` is a finite tree of this shape, no node of which is met twice
and each node of which knows its parent. -/
structure Shaped (s : CBinarySearchTree) (t : PtrTree Nat TKey) : Prop where
  root : s.m_pRoot = t.root
  linked : t.Linked s.mem none
  distinct : t.addrs.Nodup

/-- A node is overwritten. -/
def put (s : CBinarySearchTree) (p : Nat) (n : STSearchTreeNode) : CBinarySearchTree := { s with nodes := s.nodes.set p n }

@[simp] theorem put_root : (s.put p n).m_pRoot = s.m_pRoot := rfl

@[simp] theorem put_len : (s.put p n).m_nLen = s.m_nLen := rfl

theorem mem_put (h : s.mem p = some n) (n' : STSearchTreeNode) : (s.put p n').mem = Function.update s.mem p (some n') := by
  funext a
  obtain ⟨hp,_⟩ := List.getElem?_eq_some_iff.mp h
  by_cases ha : a = p
  · subst ha
    simp [mem,put,hp]
  · rw [Function.update_of_ne ha]
    simp [mem,put,Ne.symm ha]

theorem deref_eq (h : s.mem p = some n) : s.deref site (some p) = .ok n [] := by
  simp only [deref,show s.nodes[p]? = some n from h]

theorem write_eq {f : STSearchTreeNode → STSearchTreeNode} (h : s.mem p = some n) :
    s.write site (some p) f = .ok (s.put p (f n)) [] := by
  simp only [write,show s.nodes[p]? = some n from h]
  rfl

/-- A tree in memory has no more nodes than memory. -/
theorem size_le (hl : Linked s.mem par t) (hd : t.addrs.Nodup) : t.size ≤ s.nodes.length := by
  have hsub : t.addrs ⊆ List.range s.nodes.length := by
    intro a ha
    obtain ⟨n,hn⟩ := hl.get ha
    obtain ⟨hlt,_⟩ := List.getElem?_eq_some_iff.mp hn
    exact List.mem_range.mpr hlt
  simpa [PtrTree.size] using (hd.subperm hsub).length_le

/-- The search ends at a node with the key or finds out that an ordered tree has
none. -/
theorem searchLoop_spec {fuel : Nat} (key : TKey) (hl : Linked s.mem par t) (hf : t.size ≤ fuel) :
    (s.searchLoop key fuel t.root = .ok none [] ∧ (t.Ordered → key ∉ t.keys)) ∨
      ∃ c l x r, t = fill c (node l x key r) ∧ s.searchLoop key fuel t.root = .ok (some x) [] := by
  induction t generalizing par fuel with
  | leaf => exact .inl ⟨by cases fuel <;> rfl,by simp⟩
  | node l p k r ihl ihr =>
    obtain ⟨hp,hll,hlr⟩ := hl
    rw [size_node] at hf
    obtain ⟨fuel,rfl⟩ : ∃ m, fuel = m + 1 := ⟨fuel - 1,by omega⟩
    simp only [root_node,searchLoop,deref_eq hp,Act.bind_ok,Act.after_nil]
    rcases lt_trichotomy k key with hk | rfl | hk
    · rw [if_neg hk.ne,if_neg (not_lt.mpr hk.le)]
      rcases ihr hlr (show r.size ≤ fuel by omega) with ⟨he,hn⟩ | ⟨c,l',x,r',rfl,he⟩
      · refine .inl ⟨he,fun ho => ?_⟩
        obtain ⟨_,hor,hlt,_⟩ := ho
        simp only [keys_node,List.mem_cons,List.mem_append,not_or]
        exact ⟨hk.ne',fun hm => absurd (hlt key hm) (not_lt.mpr hk.le),hn hor⟩
      · exact .inr ⟨c ++ [Frame.right l p k],l',x,r',by simp [fill,Frame.plug],he⟩
    · rw [if_pos rfl]
      exact .inr ⟨[],l,p,r,rfl,rfl⟩
    · rw [if_neg hk.ne',if_pos hk]
      rcases ihl hll (show l.size ≤ fuel by omega) with ⟨he,hn⟩ | ⟨c,l',x,r',rfl,he⟩
      · refine .inl ⟨he,fun ho => ?_⟩
        obtain ⟨hol,_,_,hge⟩ := ho
        simp only [keys_node,List.mem_cons,List.mem_append,not_or]
        exact ⟨hk.ne,hn hol,fun hm => absurd (hge key hm) (not_le.mpr hk)⟩
      · exact .inr ⟨c ++ [Frame.left p k r],l',x,r',by simp [fill,Frame.plug],he⟩

/-- Going left ends at the lowest node. -/
theorem descend_left {fuel : Nat} (hl : Linked s.mem par t) (hf : t.size ≤ fuel) (hr : t.root = some p) (hy : t.lowest = some y) :
    s.descend site (·.left) fuel p = .ok y [] := by
  induction t generalizing par fuel p with
  | leaf => cases hr
  | node l q k r ihl _ =>
    cases hr
    obtain ⟨hp,hll,_⟩ := hl
    rw [size_node] at hf
    obtain ⟨fuel,rfl⟩ : ∃ m, fuel = m + 1 := ⟨fuel - 1,by omega⟩
    simp only [descend,deref_eq hp,Act.bind_ok,Act.after_nil]
    cases l with
    | leaf =>
      cases hy
      rfl
    | node l' p' k' r' =>
      rw [lowest_of_ne (by simp)] at hy
      exact ihl hll (by omega) rfl hy

theorem minimumLoop_eq (s : CBinarySearchTree) (fuel p : Nat) :
    s.minimumLoop fuel p = s.descend .treeSuccessor (·.left) fuel p := by
  induction fuel generalizing p with
  | zero => rfl
  | succ fuel ih => simp only [minimumLoop,descend,ih]

theorem minimumLoop_spec {fuel : Nat} (hl : Linked s.mem par t) (hf : t.size ≤ fuel) (hr : t.root = some p)
    (hy : t.lowest = some y) : s.minimumLoop fuel p = .ok y [] := by
  rw [minimumLoop_eq]
  exact descend_left hl hf hr hy

/-- The insertion loop ends at the lowest node, whatever the key is. -/
theorem insertLoop_spec {fuel : Nat} (key : TKey) (q : Option Nat) (hl : Linked s.mem par t) (hf : t.size ≤ fuel) :
    s.insertLoop key fuel t.root q = .ok (t.lowest.or q) [] := by
  induction t generalizing par fuel q with
  | leaf => cases fuel <;> rfl
  | node l p k r ihl _ =>
    obtain ⟨hp,hll,_⟩ := hl
    rw [size_node] at hf
    obtain ⟨fuel,rfl⟩ : ∃ m, fuel = m + 1 := ⟨fuel - 1,by omega⟩
    simp only [root_node,insertLoop,deref_eq hp,Act.bind_ok,Act.after_nil,ite_self,lowest]
    rw [ihl _ hll (by omega),Option.or_assoc]
    rfl

/-- Only cells of these nodes and the root pointer may have changed. -/
structure Touched (s s' : CBinarySearchTree) (a : List Nat) : Prop where
  far : ∀ p, p ∉ a → s'.mem p = s.mem p
  len : s'.m_nLen = s.m_nLen

private theorem relink_spec {v : Option Nat} {lu ru : Option Nat} (hroot : s.m_pRoot = rootOf c (some u))
    (hpath : PathLinked s.mem c (some u)) (hu : s.mem u = some ⟨k,parentOf c,lu,ru⟩) (hd : (u :: pathAddrs c).Nodup) :
    ∃ s', s.relink (some u) v = .ok s' [] ∧ s'.m_pRoot = rootOf c v ∧ PathLinked s'.mem c v ∧
      Touched s s' (pathAddrs c) := by
  cases c with
  | nil =>
    refine ⟨{ s with m_pRoot := v },?_,rfl,trivial,fun _ _ => rfl,rfl⟩
    simp only [relink,deref_eq hu,Act.bind_ok,Act.after_nil,parentOf_nil]
    rfl
  | cons f c =>
    have hf := hpath.1
    have hnd : f.addr ∉ f.sibling.addrs ++ pathAddrs c := (List.nodup_cons.mp (List.nodup_cons.mp hd).2).1
    have hmem : (s.put f.addr (f.cell root (parentOf c) v)).mem = Function.update s.mem f.addr (some (f.cell root (parentOf c) v)) :=
      mem_put hf _
    refine ⟨s.put f.addr (f.cell root (parentOf c) v),?_,hroot,?_,?_,rfl⟩
    · simp only [relink,deref_eq hu,Act.bind_ok,Act.after_nil,parentOf_cons,deref_eq hf]
      cases f with
      | left p j w =>
        refine (if_pos rfl).trans ?_
        rw [write_eq hf]
        rfl
      | right w p j =>
        have hne : some u ≠ w.root := by
          intro he
          have := root_mem_addrs he.symm
          exact (List.nodup_cons.mp hd).1 (by simp [pathAddrs,Frame.sibling,this])
        refine (if_neg hne).trans ?_
        rw [write_eq hf]
        rfl
    · rw [hmem]
      exact hpath.redirect hnd
    · intro a ha
      rw [hmem]
      exact Function.update_of_ne (fun he => ha (by simp [pathAddrs,he])) _ _

/-- A transplant puts another tree at the end of a path. -/
theorem transplant_spec {lu ru : Option Nat} (hroot : s.m_pRoot = rootOf c (some u))
    (hpath : PathLinked s.mem c (some u)) (hu : s.mem u = some ⟨k,parentOf c,lu,ru⟩) (hd : (u :: pathAddrs c).Nodup)
    (ht : Linked s.mem q t) (hdt : (pathAddrs c ++ t.addrs).Nodup) :
    ∃ s', s.transplant (some u) t.root = .ok s' [] ∧ s'.m_pRoot = rootOf c t.root ∧ PathLinked s'.mem c t.root ∧
      Linked s'.mem (parentOf c) t ∧ Touched s s' (pathAddrs c ++ t.addrs) := by
  obtain ⟨s₁,he,hroot₁,hpath₁,hfar,hlen⟩ := relink_spec (v := t.root) hroot hpath hu hd
  obtain ⟨_,hdt',hdisj⟩ := List.nodup_append.mp hdt
  have ht₁ : Linked s₁.mem q t := ht.congr fun a ha => hfar a fun hp => hdisj a hp a ha rfl
  have hu₁ : s₁.mem u = some ⟨k,parentOf c,lu,ru⟩ := by rw [hfar u (List.nodup_cons.mp hd).1,hu]
  cases t with
  | leaf =>
    refine ⟨s₁,?_,hroot₁,hpath₁,trivial,fun a ha => hfar a (by simpa using ha),hlen⟩
    rw [transplant,he]
    rfl
  | node l p j r =>
    have hp := ht₁.1
    have hmem := mem_put hp ⟨j,parentOf c,l.root,r.root⟩
    have hout : ∀ a ∉ pathAddrs c ++ (node l p j r).addrs, Function.update s₁.mem p (some ⟨j,parentOf c,l.root,r.root⟩) a = s.mem a := by
      intro a ha
      simp only [addrs_node,List.mem_append,List.mem_cons,not_or] at ha
      rw [Function.update_of_ne ha.2.1,hfar a ha.1]
    refine ⟨s₁.put p ⟨j,parentOf c,l.root,r.root⟩,?_,hroot₁,?_,?_,fun a ha => by rw [hmem]; exact hout a ha,hlen⟩
    · rw [transplant,he]
      simp only [Act.bind_ok,Act.after_nil,root_node,deref_eq hu₁,write_eq hp]
    · rw [hmem]
      refine hpath₁.congr fun a ha => Function.update_of_ne ?_ _ _
      rintro rfl
      exact hdisj a ha a (by simp) rfl
    · rw [hmem]
      exact ht₁.reparent (List.nodup_cons.mp hdt').1

end CBinarySearchTree
end MyProgram.SearchTree

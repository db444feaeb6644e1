import MyProgram.SearchTree.Links

/-! Deletion takes one node out of any tree and leaves a tree. -/
namespace MyProgram.SearchTree
open Lib PtrTree
namespace CBinarySearchTree
variable {s : CBinarySearchTree} {t l r : PtrTree Nat TKey} {c d : List (Frame Nat TKey)} {par q : Option Nat}
  {p x y : Nat} {k j key : TKey}

/-- The node `y` is written, then the tree at `p` is hung below it. -/
private theorem adopt_spec {n' : STSearchTreeNode} (hy : s.mem y = some n') (ht : Linked s.mem q (node l p k r))
    (hd : (y :: (node l p k r).addrs).Nodup) (n : STSearchTreeNode) :
    (s.put y n).mem y = some n ∧ (s.put y n).mem p = some ⟨k,q,l.root,r.root⟩ ∧
      ((s.put y n).put p ⟨k,some y,l.root,r.root⟩).mem y = some n ∧
      Linked ((s.put y n).put p ⟨k,some y,l.root,r.root⟩).mem (some y) (node l p k r) ∧
      Touched s ((s.put y n).put p ⟨k,some y,l.root,r.root⟩) (y :: (node l p k r).addrs) := by
  obtain ⟨hny,hnd⟩ := List.nodup_cons.mp hd
  have hyp : y ≠ p := by
    rintro rfl
    simp at hny
  have hmem₁ := mem_put hy n
  have hp : (s.put y n).mem p = some ⟨k,q,l.root,r.root⟩ := by
    rw [hmem₁,Function.update_of_ne hyp.symm]
    exact ht.1
  have hmem₂ := mem_put hp ⟨k,some y,l.root,r.root⟩
  rw [hmem₁] at hmem₂
  rw [hmem₂]
  refine ⟨?_,hp,?_,Linked.reparent (ht.congr fun a ha => Function.update_of_ne ?_ _ _) (List.nodup_cons.mp hnd).1,?_,rfl⟩
  · rw [hmem₁,Function.update_self]
  · rw [Function.update_of_ne hyp,Function.update_self]
  · rintro rfl
    exact hny ha
  · intro a ha
    rw [hmem₂]
    simp only [addrs_node,List.mem_cons,not_or] at ha
    rw [Function.update_of_ne ha.2.1,Function.update_of_ne ha.1]

private theorem adoptLeft_spec {kx : TKey} {px rx : Option Nat} (hx : s.mem x = some ⟨kx,px,l.root,rx⟩)
    (hy : Linked s.mem par (node leaf y j r)) (hl : Linked s.mem q l) (hne : l ≠ leaf)
    (hd : (y :: (l.addrs ++ r.addrs)).Nodup) :
    ∃ s', s.adoptLeft (some x) (some y) = .ok s' [] ∧ s'.m_pRoot = s.m_pRoot ∧
      Linked s'.mem par (node l y j r) ∧ Touched s s' (y :: l.addrs) := by
  cases l with
  | leaf => exact absurd rfl hne
  | node ll p lk lr =>
    obtain ⟨hyy,hp,hy',hl',htouched⟩ := adopt_spec hy.1 hl (hd.sublist (by simp)) ⟨j,par,some p,r.root⟩
    refine ⟨_,?_,?_,⟨hy',hl',hy.2.2.congr fun a ha => htouched.far a fun hm => ?_⟩,htouched⟩
    · simp only [adoptLeft,deref_eq hx,Act.bind_ok,Act.after_nil,root_node,write_eq hy.1,deref_eq hyy,write_eq hp]
    · rfl
    · rw [← List.cons_append] at hd
      exact (List.nodup_append.mp hd).2.2 a hm a ha rfl

private theorem adoptRight_spec {kx : TKey} {px lx ry : Option Nat}
    (hx : s.mem x = some ⟨kx,px,lx,r.root⟩) (hy : s.mem y = some ⟨j,par,none,ry⟩) (hr : Linked s.mem q r)
    (hne : r ≠ leaf) (hd : (y :: r.addrs).Nodup) :
    ∃ s', s.adoptRight (some x) (some y) = .ok s' [] ∧ s'.m_pRoot = s.m_pRoot ∧
      Linked s'.mem par (node leaf y j r) ∧ Touched s s' (y :: r.addrs) := by
  cases r with
  | leaf => exact absurd rfl hne
  | node rl p rk rr =>
    obtain ⟨hyy,hp,hy',hr',htouched⟩ := adopt_spec hy hr hd ⟨j,par,none,some p⟩
    refine ⟨_,?_,?_,⟨hy',trivial,hr'⟩,htouched⟩
    · simp only [adoptRight,deref_eq hx,Act.bind_ok,Act.after_nil,root_node,write_eq hy,deref_eq hyy,write_eq hp]
    · rfl

/-- The successor `y` stands beside the tree with everything that goes to the right
of it. -/
private structure Detached (s : CBinarySearchTree) (c : List (Frame Nat TKey)) (l : PtrTree Nat TKey) (x y : Nat) (k j : TKey)
    (r : PtrTree Nat TKey) : Prop where
  root : s.m_pRoot = rootOf c (some x)
  path : PathLinked s.mem c (some x)
  node : ∃ rx, s.mem x = some ⟨k,parentOf c,l.root,rx⟩
  left : Linked s.mem (some x) l
  successor : ∃ q, Linked s.mem q (.node .leaf y j r)

private theorem nodup_spread (h : (fill c (node l x k (fill d (node leaf y j r)))).addrs.Nodup) :
    ((pathAddrs c ++ x :: l.addrs) ++ (y :: (fill d r).addrs)).Nodup := by
  have hp := addrs_fill (c := c) (t := node l x k (fill d (node leaf y j r)))
  have hq := addrs_fill (c := d) (t := node leaf y j r)
  have hr := (addrs_fill (c := d) (t := r)).cons y
  rw [addrs_node] at hp
  have hy := hq.trans (List.perm_middle.trans hr.symm)
  have := (hp.trans (((hy.append_left _).cons _).append_left _)).nodup_iff.mp h
  simpa [List.append_assoc] using this

private theorem fill_ne_leaf {f : Frame Nat TKey} : fill (f :: d) t ≠ leaf := by
  intro h
  have := (addrs_fill (c := f :: d) (t := t)).length_eq
  rw [h] at this
  simp [pathAddrs] at this

private theorem detachSuccessor_spec (h : s.Shaped (fill c (node l x k (fill d (node leaf y j r))))) :
    ∃ s', s.detachSuccessor (some x) (some y) = .ok s' [] ∧ Detached s' c l x y k j (fill d r) ∧ s'.m_nLen = s.m_nLen := by
  -- the path from the successor up to the root passes the node that goes away
  have hsame : fill c (node l x k (fill d (node leaf y j r))) = fill (d ++ Frame.right l x k :: c) (node leaf y j r) := by
    rw [fill_append]
    rfl
  obtain ⟨hpath,hy,_,hry⟩ := linked_fill.mp (hsame ▸ h.linked)
  have hroot := h.root
  rw [hsame,root_fill] at hroot
  have hnd := addrs_fill.nodup_iff.mp (hsame ▸ h.distinct)
  cases d with
  | nil =>
    obtain ⟨hx,hl,hc⟩ := hpath
    refine ⟨s,?_,⟨hroot,hc,⟨_,hx⟩,hl,⟨_,hy,trivial,hry⟩⟩,rfl⟩
    simp only [detachSuccessor,deref_eq hy,Act.bind_ok,Act.after_nil,List.nil_append,parentOf_cons]
    exact if_neg (not_not.mpr rfl)
  | cons f d =>
    have hN := nodup_spread h.distinct
    obtain ⟨s₁,he₁,hroot₁,hpath₁,hr₁,hfar₁,hlen₁⟩ := transplant_spec hroot hpath hy
      ((List.nodup_middle.mp hnd).sublist (by simp)) hry (hnd.sublist (by simp))
    have hy₁ : s₁.mem y = some ⟨j,some f.addr,none,r.root⟩ := by
      rw [hfar₁ y (List.nodup_cons.mp (List.nodup_middle.mp hnd)).1]
      exact hy
    have hlinked₁ : Linked s₁.mem none (fill (Frame.right l x k :: c) (fill (f :: d) r)) := by
      rw [← fill_append]
      exact linked_fill.mpr ⟨hpath₁,hr₁⟩
    obtain ⟨⟨(hx₁ : s₁.mem x = some ⟨k,parentOf c,l.root,(fill (f :: d) r).root⟩),(hl₁ : Linked s₁.mem (some x) l),
      (hc₁ : PathLinked s₁.mem c (some x))⟩,hright₁⟩ := linked_fill.mp hlinked₁
    obtain ⟨_,hyr,hdisj⟩ := List.nodup_append.mp hN
    obtain ⟨s₂,he₂,hroot₂,hy₂,hfar₂,hlen₂⟩ := adoptRight_spec hx₁ hy₁ hright₁ fill_ne_leaf hyr
    have hkept : ∀ a ∈ pathAddrs c ++ x :: l.addrs, s₂.mem a = s₁.mem a := by
      intro a ha
      exact hfar₂ a fun hm => hdisj a ha a hm rfl
    have hfx : f.addr ≠ x := by
      intro he
      have hm : f.addr ∈ y :: (fill (f :: d) r).addrs := by
        refine List.mem_cons_of_mem _ (addrs_fill.mem_iff.mpr ?_)
        simp [pathAddrs]
      exact hdisj x (by simp) f.addr hm he.symm
    refine ⟨s₂,?_,⟨?_,hc₁.congr fun a ha => hkept a (by simp [ha]),⟨_,(hkept x (by simp)).trans hx₁⟩,
      hl₁.congr fun a ha => hkept a (by simp [ha]),⟨_,hy₂⟩⟩,hlen₂.trans hlen₁⟩
    · simp only [detachSuccessor,deref_eq hy,Act.bind_ok,Act.after_nil,List.cons_append,parentOf_cons]
      rw [if_pos (by simpa using hfx),he₁]
      simp only [Act.bind_ok,Act.after_nil,he₂]
    · rw [hroot₂,hroot₁,← root_fill,fill_append,root_fill]
      rfl

/-- The successor goes to the place of the node. -/
private theorem replace_spec (h : Detached s c l x y k j r) (hne : l ≠ leaf)
    (hN : ((pathAddrs c ++ x :: l.addrs) ++ (y :: r.addrs)).Nodup) :
    ∃ s', (do
        let s ← s.transplant (some x) (some y)
        s.adoptLeft (some x) (some y)) = .ok s' [] ∧ s'.Shaped (fill c (node l y j r)) ∧ s'.m_nLen = s.m_nLen := by
  obtain ⟨rx,hx⟩ := h.node
  obtain ⟨q,hy⟩ := h.successor
  obtain ⟨hcx,hyr,hdisj⟩ := List.nodup_append.mp hN
  have hxl : ∀ a ∈ x :: l.addrs, a ∉ pathAddrs c ++ (node leaf y j r).addrs := by
    intro a ha hm
    rcases List.mem_append.mp hm with hm | hm
    · exact (List.nodup_append.mp hcx).2.2 a hm a ha rfl
    · exact hdisj a (by simp [ha]) a (by simpa using hm) rfl
  obtain ⟨s₁,he₁,hroot₁,hpath₁,hy₁,hfar₁,hlen₁⟩ := transplant_spec (t := node leaf y j r) h.root h.path hx
    ((List.nodup_middle.mp hcx).sublist (by simp)) hy (hN.sublist (by simp))
  have hx₁ : s₁.mem x = some ⟨k,parentOf c,l.root,rx⟩ := by rw [hfar₁ x (hxl x (by simp)),hx]
  have hl₁ : Linked s₁.mem (some x) l := h.left.congr fun a ha => hfar₁ a (hxl a (by simp [ha]))
  have hperm : (y :: (l.addrs ++ r.addrs)).Nodup := List.nodup_middle.mp (hN.sublist (by simp))
  obtain ⟨s₂,he₂,hroot₂,hy₂,hfar₂,hlen₂⟩ := adoptLeft_spec hx₁ hy₁ hl₁ hne hperm
  refine ⟨s₂,?_,⟨?_,linked_fill.mpr ⟨hpath₁.congr fun a ha => hfar₂ a ?_,hy₂⟩,?_⟩,hlen₂.trans hlen₁⟩
  · rw [root_node] at he₁
    simp only [he₁,Act.bind_ok,Act.after_nil,he₂]
  · rw [hroot₂,hroot₁,root_fill]
    rfl
  · intro hm
    rcases List.mem_cons.mp hm with rfl | hm
    · exact hdisj a (by simp [ha]) a (by simp) rfl
    · exact (List.nodup_append.mp hcx).2.2 a ha a (by simp [hm]) rfl
  · refine (addrs_fill.trans (List.perm_middle.symm.append_left _)).nodup_iff.mpr (hN.sublist ?_)
    rw [List.append_assoc]
    exact List.Sublist.append_left (List.sublist_cons_self _ _) _

/-- A child takes the place of a node that has no other. -/
private theorem transplant_child (h : s.Shaped (fill c (node l x k r))) (ht : Linked s.mem (some x) t)
    (hsub : (pathAddrs c ++ t.addrs).Nodup) :
    ∃ s', s.transplant (some x) t.root = .ok s' [] ∧ s'.Shaped (fill c t) ∧ s'.m_nLen = s.m_nLen := by
  obtain ⟨hpath,hx,_,_⟩ := linked_fill.mp h.linked
  have hnd := addrs_fill.nodup_iff.mp h.distinct
  have hroot := h.root
  rw [root_fill] at hroot
  obtain ⟨s',he,hroot',hpath',ht',_,hlen⟩ := transplant_spec hroot hpath hx
    ((List.nodup_middle.mp hnd).sublist (by simp)) ht hsub
  refine ⟨s',he,⟨?_,linked_fill.mpr ⟨hpath',ht'⟩,addrs_fill.nodup_iff.mpr hsub⟩,hlen⟩
  rw [hroot',root_fill]

private theorem treeSuccessor_spec (h : s.Shaped (fill c (node l x key r))) (hs : s.search key = .ok (some x) [])
    (hy : r.lowest = some y) : s.treeSuccessor key = .ok (some y) [] := by
  obtain ⟨_,hx,_,hr⟩ := linked_fill.mp h.linked
  have hnd : r.addrs.Nodup := by
    have := List.nodup_append.mp (addrs_fill.nodup_iff.mp h.distinct)
    exact (List.nodup_append.mp (List.nodup_cons.mp this.2.1).2).2.1
  simp only [treeSuccessor,hs,Act.bind_ok,Act.after_nil,deref_eq hx]
  cases r with
  | leaf => cases hy
  | node rl p rk rr =>
    simp only [root_node,minimumLoop_spec hr (size_le hr hnd) rfl hy,Act.bind_ok,Act.after_nil,Act.pure_eq]

/-- Deletion returns for every tree. It changes nothing when the search does not
find the key, and otherwise takes the node it found out. -/
theorem deleteNode_spec (h : s.Shaped t) (key : TKey) :
    (s.search key = .ok none [] ∧ (t.Ordered → key ∉ t.keys) ∧ s.deleteNode key = .ok s []) ∨
      ∃ c l x r t' s', t = fill c (node l x key r) ∧ s.search key = .ok (some x) [] ∧ Removed (node l x key r) t' ∧
        s.deleteNode key = .ok s' [] ∧ s'.Shaped (fill c t') ∧ s'.m_nLen = s.m_nLen := by
  have hsearch := searchLoop_spec key h.linked (size_le h.linked h.distinct)
  rw [← h.root] at hsearch
  rcases hsearch with ⟨hs,hno⟩ | ⟨c,l,x,r,rfl,hs⟩
  · refine .inl ⟨hs,hno,?_⟩
    rw [deleteNode,search,hs]
    rfl
  · have hs' : s.search key = .ok (some x) [] := hs
    obtain ⟨hpath,hx,hl,hr⟩ := linked_fill.mp h.linked
    have hnd := addrs_fill.nodup_iff.mp h.distinct
    refine .inr ?_
    by_cases hll : l = leaf
    · subst hll
      obtain ⟨s',he,hsh,hlen⟩ := transplant_child h hr (hnd.sublist (by simp))
      refine ⟨c,_,x,r,r,s',rfl,hs',.noLeft,?_,hsh,hlen⟩
      simp only [deleteNode,hs',Act.bind_ok,Act.after_nil,deref_eq hx,root_leaf,if_true,he]
    have hln : l.root ≠ none := fun h0 => hll (root_eq_none.mp h0)
    by_cases hrl : r = leaf
    · subst hrl
      obtain ⟨s',he,hsh,hlen⟩ := transplant_child h hl (hnd.sublist (by simp))
      refine ⟨c,l,x,_,l,s',rfl,hs',.noRight,?_,hsh,hlen⟩
      simp only [deleteNode,hs',Act.bind_ok,Act.after_nil,deref_eq hx,root_leaf,if_true,if_neg hln,he]
    · have hrn : r.root ≠ none := fun h0 => hrl (root_eq_none.mp h0)
      obtain ⟨d,y,j,r',rfl,hy,hd⟩ := exists_lowest r hrl
      obtain ⟨s₁,he₁,hdet,hlen₁⟩ := detachSuccessor_spec h
      obtain ⟨s₂,he₂,hsh,hlen₂⟩ := replace_spec hdet hll (nodup_spread h.distinct)
      refine ⟨c,l,x,_,_,s₂,rfl,hs',.successor hd,?_,hsh,hlen₂.trans hlen₁⟩
      simp only [deleteNode,hs',Act.bind_ok,Act.after_nil,deref_eq hx,if_neg hln,if_neg hrn,treeSuccessor_spec h hs' hy,he₁]
      exact he₂

end CBinarySearchTree
end MyProgram.SearchTree

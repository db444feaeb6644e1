import MyProgram.SearchTree.Count
import MyProgram.SearchTree.Neighbours

/-! The order in which the walk meets the keys, and the reads of `minKey` and `maxKey`
behind the last node. -/
namespace MyProgram.SearchTree
open Lib PtrTree
namespace CBinarySearchTree
variable {s : CBinarySearchTree} {t : PtrTree Nat TKey} {par : Option Nat} {site : Site}

/-- No node of the tree has a left child. -/
def NoLeft (s : CBinarySearchTree) (t : PtrTree Nat TKey) : Prop := ∀ a ∈ t.addrs, ∀ n, s.mem a = some n → n.left = none

/-- The walk fills a new array with the keys of the tree from the least to the greatest. -/
def WalksInOrder (s : CBinarySearchTree) (t : PtrTree Nat TKey) (pOut : Option (List (Option TKey))) (nLen : Int) : Prop :=
  ∃ (out : List TKey) (fx : List Effect), s.inorderTreeWalk pOut nLen = .ok (some (out.map some),s.m_nLen) fx ∧ out.Perm t.keys ∧ out.Pairwise (· ≤ ·)

private theorem keys_of_walk {pOut : Option (List (Option TKey))} {nLen : Int} {out out' : List TKey} {fx fx' : List Effect}
    (he : s.inorderTreeWalk pOut nLen = .ok (some (out.map some),s.m_nLen) fx)
    (he' : s.inorderTreeWalk pOut nLen = .ok (some (out'.map some),s.m_nLen) fx') : out = out' := by
  rw [he] at he'
  have hmap : out.map some = out'.map some := Option.some.inj (Prod.mk.inj (Act.ok.inj he').1).1
  exact List.map_injective_iff.mpr (Option.some_injective _) hmap

/-- A left child has a smaller key and is met later. -/
private theorem keys_sorted_iff (hl : Linked s.mem par t) (ho : t.Ordered) : t.keys.Pairwise (· ≤ ·) ↔ s.NoLeft t := by
  induction t generalizing par with
  | leaf => simp [NoLeft]
  | node l p k r _ ihr =>
    obtain ⟨hp,_,hlr⟩ := hl
    obtain ⟨_,hor,hlt,hge⟩ := ho
    rw [keys_node,List.pairwise_cons]
    constructor
    · rintro ⟨hle,hsorted⟩
      have hleaf : l = leaf := by
        cases l with
        | leaf => rfl
        | node l' q j r' => exact absurd (hle j (by simp)) (not_le.mpr (hlt j (by simp)))
      subst hleaf
      intro a ha n hn
      rcases List.mem_cons.mp ha with rfl | ha
      · rw [hp] at hn
        cases hn
        rfl
      · exact (ihr hlr hor).mp hsorted a ha n hn
    · intro h
      have hleaf : l = leaf := root_eq_none.mp (h p (by simp) _ hp)
      subst hleaf
      exact ⟨hge,(ihr hlr hor).mpr fun a ha => h a (List.mem_cons_of_mem _ ha)⟩

/-- The walk copies every key as often as it occurs, a node before both of its subtrees. The
keys come out in order exactly when no node has a left child. -/
theorem walk_in_order_iff (h : s.Shaped t) (ho : t.Ordered) (hlen : s.m_nLen = t.size) (hroot : s.m_pRoot ≠ none)
    (pOut : Option (List (Option TKey))) (nLen : Int) :
    (∃ (out : List TKey) (fx : List Effect), s.inorderTreeWalk pOut nLen = .ok (some (out.map some),s.m_nLen) fx ∧ out.Perm t.keys) ∧
    (s.WalksInOrder t pOut nLen ↔ s.NoLeft t) := by
  have hw := h.walk_eq hlen hroot pOut nLen
  refine ⟨⟨_,_,hw,List.Perm.refl _⟩,?_⟩
  rw [← keys_sorted_iff h.linked ho]
  constructor
  · rintro ⟨out,fx,he,_,hsorted⟩
    rwa [keys_of_walk he hw] at hsorted
  · exact fun hsorted => ⟨_,_,hw,List.Perm.refl _,hsorted⟩

/-- A tree that leans to the right, with two equal keys. -/
theorem walk_in_order_right : ∃ (s : CBinarySearchTree) (t : PtrTree Nat TKey), t.keys = [1,4,4] ∧ s.WalksInOrder t none 0 := by
  let s : CBinarySearchTree := ⟨[⟨1,none,none,some 1⟩,⟨4,some 0,none,some 2⟩,⟨4,some 1,none,none⟩],some 0,3⟩
  let t : PtrTree Nat TKey := node leaf 0 1 (node leaf 1 4 (node leaf 2 4 leaf))
  have hs : s.Shaped t := ⟨rfl,by simp [s,t,Linked,mem],by decide⟩
  have ho : t.Ordered := by simp [t,Ordered]
  refine ⟨s,t,rfl,(walk_in_order_iff hs ho rfl (by simp [s]) none 0).2.mpr ?_⟩
  intro a ha n hn
  simp only [t,addrs_node,addrs_leaf,List.nil_append,List.mem_cons,List.not_mem_nil,or_false] at ha
  rcases ha with rfl | rfl | rfl
  all_goals
    cases hn
    rfl

/-- The node of the greater key comes out before its left child. -/
theorem left_child_walks_late : ∃ (s : CBinarySearchTree) (t : PtrTree Nat TKey), s.Shaped t ∧ t.Ordered ∧ s.m_nLen = t.size ∧
    s.m_pRoot ≠ none ∧ s.inorderTreeWalk none 0 = .ok (some [some 2,some 1],2) [] ∧ ¬s.WalksInOrder t none 0 := by
  let s : CBinarySearchTree := ⟨[⟨2,none,some 1,none⟩,⟨1,some 0,none,none⟩],some 0,2⟩
  let t : PtrTree Nat TKey := node (node leaf 1 1 leaf) 0 2 leaf
  have hw : s.inorderTreeWalk none 0 = .ok (some [some 2,some 1],2) [] := rfl
  refine ⟨s,t,⟨rfl,by simp [s,t,Linked,mem],by decide⟩,by simp [t,Ordered],rfl,by simp [s],hw,?_⟩
  rintro ⟨out,fx,he,_,hsorted⟩
  rw [show out = [2,1] from keys_of_walk he hw] at hsorted
  simp at hsorted

/-! The extreme keys. -/

/-- The least key comes back with true. -/
def ReturnsMin (s : CBinarySearchTree) (t : PtrTree Nat TKey) (key : TKey) : Prop :=
  ∃ k, s.minKey key = .ok (k,true) [] ∧ k ∈ t.keys ∧ (∀ j ∈ t.keys, k ≤ j) ∧ t.inorder.head?.map Prod.snd = some k

/-- The greatest key comes back with true. -/
def ReturnsMax (s : CBinarySearchTree) (t : PtrTree Nat TKey) (key : TKey) : Prop :=
  ∃ k, s.maxKey key = .ok (k,true) [] ∧ k ∈ t.keys ∧ (∀ j ∈ t.keys, j ≤ k) ∧ t.inorder.getLast?.map Prod.snd = some k

private theorem extremeKey_left (h : s.Shaped t) (hne : t ≠ leaf) (key : TKey) :
    s.extremeKey site (·.left) key = .fail .nullDereference site := by
  obtain ⟨c,y,j,r,rfl,hy,_⟩ := exists_lowest t hne
  have hcell := (linked_fill.mp h.linked).2.1
  obtain ⟨p,hp⟩ : ∃ p, (fill c (node leaf y j r)).root = some p := by
    refine Option.ne_none_iff_exists'.mp fun h0 => hne (root_eq_none.mp h0)
  have hroot : s.m_pRoot = some p := h.root.trans hp
  simp only [extremeKey,hroot,descend_left h.linked (size_le h.linked h.distinct) hp hy,Act.bind_ok,Act.after_nil,deref_eq hcell]
  rfl

private theorem extremeKey_mirror (s : CBinarySearchTree) (key : TKey) :
    s.mirror.extremeKey site (·.left) key = s.extremeKey site (·.right) key := by
  have hlen : s.mirror.nodes.length = s.nodes.length := List.length_map _
  have hroot : s.mirror.m_pRoot = s.m_pRoot := rfl
  simp only [extremeKey,hroot,hlen,descend_mirror,deref_mirror]
  cases s.m_pRoot with
  | none => rfl
  | some p =>
    simp only [Act.bind_assoc,Act.pure_eq,Act.bind_ok,Act.after_nil,TreeCell.mirror]
    refine congrArg _ (funext fun a => congrArg _ (funext fun n => ?_))
    cases n.right with
    | none => rfl
    | some q => simp only [deref_mirror,Act.bind_assoc,Act.pure_eq,Act.bind_ok,Act.after_nil,TreeCell.mirror]

/-- On no tree with a node do `minKey` and `maxKey` return: behind the last node they read
the key of its missing child. -/
theorem extremes_read_null (h : s.Shaped t) (hne : t ≠ leaf) (key : TKey) :
    ¬s.ReturnsMin t key ∧ ¬s.ReturnsMax t key ∧
    s.minKey key = .fail .nullDereference .minKey ∧ s.maxKey key = .fail .nullDereference .maxKey := by
  have hmin : s.minKey key = .fail .nullDereference .minKey := extremeKey_left h hne key
  have hmax : s.maxKey key = .fail .nullDereference .maxKey := by
    rw [maxKey,← extremeKey_mirror]
    refine extremeKey_left h.mirror (fun h0 => hne ?_) key
    rw [← root_eq_none,root_mirror] at h0
    exact root_eq_none.mp h0
  refine ⟨fun ⟨k,he,_⟩ => ?_,fun ⟨k,he,_⟩ => ?_,hmin,hmax⟩
  · rw [hmin] at he
    cases he
  · rw [hmax] at he
    cases he

/-- One node. -/
theorem extremes_read_null_single : ∃ (s : CBinarySearchTree) (t : PtrTree Nat TKey), s.Shaped t ∧ t.Ordered ∧ t.keys = [5] ∧
    ¬s.ReturnsMin t 0 ∧ ¬s.ReturnsMax t 0 := by
  let s : CBinarySearchTree := ⟨[⟨5,none,none,none⟩],some 0,1⟩
  let t : PtrTree Nat TKey := node leaf 0 5 leaf
  have hs : s.Shaped t := ⟨rfl,by simp [s,t,Linked,mem],by decide⟩
  have h := extremes_read_null hs (by simp [t]) 0
  exact ⟨s,t,hs,by simp [t,Ordered],rfl,h.1,h.2.1⟩

/-- The root of a tree with two nodes is its maximum, and neither call returns. -/
theorem two_keys_fault : ∃ (s : CBinarySearchTree) (t : PtrTree Nat TKey), s.Shaped t ∧ t.Ordered ∧ t ≠ leaf ∧
    s.minKey 0 = .fail .nullDereference .minKey ∧ s.maxKey 0 = .fail .nullDereference .maxKey ∧
    ¬s.ReturnsMin t 0 ∧ ¬s.ReturnsMax t 0 := by
  let s : CBinarySearchTree := ⟨[⟨2,none,some 1,none⟩,⟨1,some 0,none,none⟩],some 0,2⟩
  let t : PtrTree Nat TKey := node (node leaf 1 1 leaf) 0 2 leaf
  have hmin : s.minKey 0 = .fail .nullDereference .minKey := rfl
  have hmax : s.maxKey 0 = .fail .nullDereference .maxKey := rfl
  refine ⟨s,t,⟨rfl,by simp [s,t,Linked,mem],by decide⟩,by simp [t,Ordered],by simp [t],hmin,hmax,?_,?_⟩
  · rintro ⟨k,he,_⟩
    rw [hmin] at he
    cases he
  · rintro ⟨k,he,_⟩
    rw [hmax] at he
    cases he

end CBinarySearchTree
end MyProgram.SearchTree

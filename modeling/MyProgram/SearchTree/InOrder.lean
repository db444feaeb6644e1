import MyProgram.SearchTree.Delete

/-! Deletion seen on the in-order sequence of the nodes. -/
namespace MyProgram.SearchTree
open Lib PtrTree
namespace CBinarySearchTree
variable {s : CBinarySearchTree} {t : PtrTree Nat TKey}

/-- Deletion takes one node with the key out of the sequence. Every other node keeps its
address, its key and its place. Without the key nothing changes. -/
theorem deleteNode_inorder (h : s.Shaped t) (ho : t.Ordered) (key : TKey) :
    (key ∈ t.keys → ∃ s' t' x left right, s.deleteNode key = .ok s' [] ∧ s'.Shaped t' ∧ t'.Ordered ∧
      t.inorder = left ++ (x,key) :: right ∧ t'.inorder = left ++ right) ∧
    (key ∉ t.keys → s.deleteNode key = .ok s []) := by
  rcases deleteNode_spec h key with ⟨_,hno,he⟩ | ⟨c,l,x,r,t',s',rfl,_,hr,he,hsh,_⟩
  · exact ⟨fun hk => absurd hk (hno ho),fun _ => he⟩
  · refine ⟨fun _ => ⟨s',fill c t',x,before c ++ l.inorder,r.inorder ++ after c,he,hsh,?_,?_,?_⟩,fun hk => ?_⟩
    · exact ho.refill hr.ordered hr.mem_keys
    · simp [inorder_fill]
    · simp [inorder_fill,hr.inorder]
    · exact absurd (mem_keys_fill.mpr (.inr (by simp))) hk

/-- Of two equal keys the upper one goes, its successor the lower one two steps down. -/
theorem deleteNode_inorder_equal_keys : ∃ (s s' : CBinarySearchTree) (t t' : PtrTree Nat TKey) (x : Nat) (left right : List (Nat × TKey)),
    s.Shaped t ∧ t.inorder = [(1,3),(0,5),(3,5),(4,7),(2,9)] ∧
    s.deleteNode 5 = .ok s' [] ∧ s'.Shaped t' ∧ t'.Ordered ∧
    t.inorder = left ++ (x,5) :: right ∧ t'.inorder = left ++ right := by
  let s : CBinarySearchTree := ⟨[⟨5,none,some 1,some 2⟩,⟨3,some 0,none,none⟩,⟨9,some 0,some 3,none⟩,
    ⟨5,some 2,none,some 4⟩,⟨7,some 3,none,none⟩],some 0,5⟩
  let t : PtrTree Nat TKey := node (node leaf 1 3 leaf) 0 5 (node (node leaf 3 5 (node leaf 4 7 leaf)) 2 9 leaf)
  have hs : s.Shaped t := ⟨rfl,by simp [s,t,Linked,mem],by decide⟩
  have ho : t.Ordered := by simp [t,Ordered]
  obtain ⟨s',t',x,left,right,he,hs',ho',hin,hin'⟩ := (deleteNode_inorder hs ho 5).1 (by decide)
  exact ⟨s,s',t,t',x,left,right,hs,rfl,he,hs',ho',hin,hin'⟩

end CBinarySearchTree
end MyProgram.SearchTree

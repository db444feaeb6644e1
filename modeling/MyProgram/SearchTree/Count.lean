import MyProgram.SearchTree.History

/-! The element count of the search tree, and the walk that trusts it. -/
namespace MyProgram.SearchTree
open Lib PtrTree
namespace CBinarySearchTree
variable {s : CBinarySearchTree} {t : PtrTree Nat TKey} {par : Option Nat}

/-- `m_nLen` is the number of nodes of the tree. -/
def Counted (s : CBinarySearchTree) : Prop := ∃ t, s.Shaped t ∧ s.m_nLen = t.size

/-- An insertion gets the node that was built and finds the tree empty, or replaces
a single node on the right of the lowest one. A deletion finds nothing. -/
def Counting (s : CBinarySearchTree) : Call → Prop
  | .insertNode key ret => ret = none ∨ ret = some s.nodes.length ∧ (s.m_pRoot = none ∨
      ∃ n ∈ s.leftmost, key ≤ n.key ∧ ∃ q ∈ n.right, ∃ m ∈ s.nodes[q]?, m.left = none ∧ m.right = none)
  | .deleteNode key => s.search key = .ok none []

instance (s : CBinarySearchTree) (call : Call) : Decidable (s.Counting call) :=
  match call with
  | .insertNode key ret => inferInstanceAs (Decidable (ret = none ∨ ret = some s.nodes.length ∧ (s.m_pRoot = none ∨
      ∃ n ∈ s.leftmost, key ≤ n.key ∧ ∃ q ∈ n.right, ∃ m ∈ s.nodes[q]?, m.left = none ∧ m.right = none)))
  | .deleteNode key => inferInstanceAs (Decidable (s.search key = .ok none []))

/-- The walk fills as many entries as the tree has nodes. -/
theorem walk_spec {fuel : Nat} {pre mid post : List (Option TKey)} (hl : Linked s.mem par t) (hf : t.size ≤ fuel)
    (hm : mid.length = t.size) : s.walk fuel t.root (pre ++ (mid ++ post)) pre.length =
      .ok (pre ++ (t.keys.map some ++ post),pre.length + t.size) [] := by
  induction t generalizing par fuel pre mid post with
  | leaf =>
    have : mid = [] := List.length_eq_zero_iff.mp hm
    subst this
    cases fuel <;> rfl
  | node l p k r ihl ihr =>
    obtain ⟨hp,hll,hlr⟩ := hl
    rw [size_node] at hf hm
    obtain ⟨fuel,rfl⟩ : ∃ m, fuel = m + 1 := ⟨fuel - 1,by omega⟩
    -- the entry of the node, those of the left and those of the right subtree
    obtain ⟨e,mid,rfl⟩ := List.exists_cons_of_length_eq_add_one hm
    obtain ⟨m₁,m₂,rfl,h₁,h₂⟩ : ∃ m₁ m₂, mid = m₁ ++ m₂ ∧ m₁.length = l.size ∧ m₂.length = r.size := by
      rw [List.length_cons] at hm
      exact ⟨mid.take l.size,mid.drop l.size,(List.take_append_drop _ _).symm,by simp; omega,by simp; omega⟩
    have hset : (pre ++ (e :: (m₁ ++ m₂) ++ post)).set pre.length (some k) = (pre ++ [some k]) ++ (m₁ ++ (m₂ ++ post)) := by
      simp
    have hlen : pre.length + 1 = (pre ++ [some k]).length := by simp
    have hlen' : (pre ++ [some k]).length + l.size = (pre ++ [some k] ++ l.keys.map some).length := by
      simp
      omega
    simp only [root_node,walk,deref_eq hp,Act.bind_ok,Act.after_nil]
    rw [if_pos (by simp),hset,hlen,ihl hll (by omega) h₁,Act.bind_ok,Act.after_nil]
    dsimp only
    rw [hlen',← List.append_assoc (pre ++ [some k]),ihr hlr (by omega) h₂,size_node]
    simp
    omega

theorem isCounted_new : new.Counted := ⟨leaf,⟨rfl,trivial,by simp⟩,rfl⟩

private theorem Shaped.counted_iff (h : s.Shaped t) : s.Counted ↔ s.m_nLen = t.size := by
  constructor
  · rintro ⟨t',h',hlen⟩
    rw [h.unique h',hlen]
  · exact fun hlen => ⟨t,h,hlen⟩

/-- With the right count the walk copies the keys out in the order it meets them. -/
theorem Shaped.walk_eq (h : s.Shaped t) (hlen : s.m_nLen = t.size) (hroot : s.m_pRoot ≠ none) (pOut : Option (List (Option TKey)))
    (nLen : Int) : s.inorderTreeWalk pOut nLen =
      .ok (some (t.keys.map some),s.m_nLen) (if pOut.isSome then [.deleteArray] else []) := by
  obtain ⟨p,hp⟩ := Option.ne_none_iff_exists'.mp hroot
  have hw : s.walk s.nodes.length t.root ([] ++ (List.replicate t.size none ++ [])) [].length =
      .ok ([] ++ (t.keys.map some ++ []),[].length + t.size) [] :=
    walk_spec h.linked (size_le h.linked h.distinct) (by simp)
  rw [← h.root,hp] at hw
  simp only [List.nil_append,List.append_nil,List.length_nil] at hw
  simp only [inorderTreeWalk,hp,hlen,Int.toNat_natCast,hw]
  rw [if_neg (show ¬ ((t.size : Int) < 0) by omega)]
  cases pOut <;> rfl

/-- With the right count the walk stays inside its array and fills it. -/
theorem Counted.walk (h : s.Counted) (pOut : Option (List (Option TKey))) (nLen : Int) (hroot : s.m_pRoot ≠ none) :
    ∃ out fx, s.inorderTreeWalk pOut nLen = .ok (some out,s.m_nLen) fx ∧ (out.length : Int) = s.m_nLen ∧
      ∀ e ∈ out, e.isSome := by
  obtain ⟨t,hsh,hlen⟩ := h
  exact ⟨_,_,hsh.walk_eq hlen hroot pOut nLen,by simp [hlen],by simp⟩

private theorem single_iff (hl : Linked s.mem par t) :
    (∃ q ∈ t.root, ∃ m ∈ s.nodes[q]?, m.left = none ∧ m.right = none) ↔ t.size = 1 := by
  cases t with
  | leaf => simp
  | node l p k r =>
    have hp : s.nodes[p]? = some ⟨k,par,l.root,r.root⟩ := hl.1
    rw [size_node]
    simp only [root_node,Option.mem_some_iff,exists_eq_left',hp,root_eq_none]
    constructor
    · rintro ⟨rfl,rfl⟩
      rfl
    · intro h
      have hl0 : l.size = 0 := by omega
      have hr0 : r.size = 0 := by omega
      cases l <;> cases r <;> simp_all [size_node]

private theorem insertNode_count (h : s.Counted) (key : TKey) :
    ∃ s', treeStep s (.insertNode key (some s.nodes.length)) = .ok s' [] ∧
      (s'.Counted ↔ s.Counting (.insertNode key (some s.nodes.length))) := by
  obtain ⟨t,hsh,hlen⟩ := h
  rcases insertNode_spec hsh key with ⟨rfl,s',he,hsh',hlen'⟩ | ⟨c,p,k,r,s',rfl,hroot,hlow,he,hsh',hlen'⟩
  · refine ⟨s',he,iff_of_true ⟨_,hsh',?_⟩ (.inr ⟨rfl,.inl hsh.root⟩)⟩
    rw [hlen',hlen]
    rfl
  · have hr := (linked_fill.mp hsh.linked).2.2.2
    have hcounting : s.Counting (.insertNode key (some s.nodes.length)) ↔ key ≤ k ∧ r.size = 1 := by
      simp only [Counting,hroot,hlow,← single_iff hr]
      simp
    refine ⟨s',he,?_⟩
    rw [hsh'.counted_iff,hcounting,hlen',hlen,hung]
    by_cases hk : k < key
    · rw [if_pos hk,size_fill,size_fill,size_node,size_node,size_node,size_leaf]
      refine iff_of_false (by omega) fun h => absurd h.1 (not_le.mpr hk)
    · rw [if_neg hk,size_fill,size_fill,size_node,size_node,size_node,size_leaf]
      constructor
      · intro h
        exact ⟨not_lt.mp hk,by omega⟩
      · rintro ⟨_,h⟩
        omega

private theorem deleteNode_count (h : s.Counted) (key : TKey) :
    ∃ s', treeStep s (.deleteNode key) = .ok s' [] ∧ (s'.Counted ↔ s.Counting (.deleteNode key)) := by
  obtain ⟨t,hsh,hlen⟩ := h
  rcases deleteNode_spec hsh key with ⟨hs,_,he⟩ | ⟨c,l,x,r,t',s',rfl,hs,hrem,he,hsh',hlen'⟩
  · exact ⟨s,he,iff_of_true ⟨t,hsh,hlen⟩ hs⟩
  · refine ⟨s',he,iff_of_false ?_ fun h => ?_⟩
    · rw [hsh'.counted_iff,hlen',hlen,size_fill,size_fill,hrem.size]
      omega
    · rw [show s.search key = .ok none [] from h] at hs
      cases hs

private theorem insertNode_null_count (h : s.Counted) (key : TKey) :
    ∃ s', treeStep s (.insertNode key none) = .ok s' [] ∧ s'.Counted := by
  obtain ⟨t,hsh,hlen⟩ := h
  exact ⟨s.grow key,rfl,t,hsh.grow key,hlen⟩

private theorem counting_step (h : s.Counted) {call : Call} (hc : s.Counting call) :
    ∃ s', treeStep s call = .ok s' [] ∧ s'.Counted := by
  cases call with
  | deleteNode key =>
    obtain ⟨s',he,hiff⟩ := deleteNode_count h key
    exact ⟨s',he,hiff.mpr hc⟩
  | insertNode key ret =>
    rcases hc with rfl | ⟨rfl,hc⟩
    · exact insertNode_null_count h key
    · obtain ⟨s',he,hiff⟩ := insertNode_count h key
      exact ⟨s',he,hiff.mpr (.inr ⟨rfl,hc⟩)⟩

/-- The count of a new tree is right. From any tree with the right count on it stays
right along every history of counting calls. The walk of a tree that is not empty
then fills an array of `m_nLen` entries and reports that number; the walk of an
empty tree reports nothing. Every call returns, and one that gets a built node or
deletes without counting makes the count wrong. -/
theorem counting_history (s₀ s : CBinarySearchTree) (tr : Trace Call Effect) (h₀ : s₀.Counted)
    (hr : Run treeStep (fun _ s call => s.Counting call) s₀ tr s) :
    new.Counted ∧ s.Counted ∧
    (∀ pOut nLen, s.m_pRoot ≠ none → ∃ out fx, s.inorderTreeWalk pOut nLen = .ok (some out,s.m_nLen) fx ∧
      (out.length : Int) = s.m_nLen ∧ ∀ e ∈ out, e.isSome) ∧
    (∀ pOut nLen, s.m_pRoot = none → s.inorderTreeWalk pOut nLen = .ok (pOut,nLen) [] ∧ s.m_nLen = 0) ∧
    (∀ call, s.Counting call → ∃ s', treeStep s call = .ok s' []) ∧
    ∀ call, s.Built call → ¬ s.Counting call → ∃ s', treeStep s call = .ok s' [] ∧ ¬ s'.Counted := by
  have hinv : s.Counted := by
    refine hr.invariant (fun _ s => s.Counted) h₀ ?_
    intro tr s call s' fx h hc he
    obtain ⟨s₁,he₁,h₁⟩ := counting_step h hc
    rw [he] at he₁
    cases he₁
    exact h₁
  refine ⟨isCounted_new,hinv,hinv.walk,fun pOut nLen hroot => ?_,fun call hc => ?_,fun call hb hc => ?_⟩
  · obtain ⟨t,hsh,hlen⟩ := hinv
    have ht : t = leaf := root_eq_none.mp (hsh.root ▸ hroot)
    subst ht
    refine ⟨?_,hlen⟩
    rw [inorderTreeWalk,hroot]
    rfl
  · obtain ⟨s',he,_⟩ := counting_step hinv hc
    exact ⟨s',he⟩
  · cases call with
    | deleteNode key =>
      obtain ⟨s',he,hiff⟩ := deleteNode_count hinv key
      exact ⟨s',he,fun h => hc (hiff.mp h)⟩
    | insertNode key ret =>
      have hret : ret = some s.nodes.length := hb
      subst hret
      obtain ⟨s',he,hiff⟩ := insertNode_count hinv key
      exact ⟨s',he,fun h => hc (hiff.mp h)⟩

/-- One insertion, and a deletion of another key. -/
theorem counting_history_single : ∃ tr s, Run treeStep (fun _ s call => s.Counting call) new tr s ∧
    tr.map (·.1) = [.insertNode 5 (some 0),.deleteNode 6] ∧ s.Counted := by
  have hcheck : runCheck treeStep (fun _ s call => s.Counting call) (fun _ _ => True)
      [.insertNode 5 (some 0),.deleteNode 6] [] new = true := by decide
  obtain ⟨tr,s,hr,hm,_⟩ := Run.of_runCheck hcheck
  exact ⟨tr,s,hr,hm,(counting_history new s tr isCounted_new hr).2.1⟩

/-- The second insertion is not counted, and the walk leaves its array. -/
theorem second_insertion_is_not_counted : ∃ tr s, Run treeStep (fun _ s call => s.Built call) new tr s ∧
    tr.map (·.1) = [.insertNode 2 (some 0),.insertNode 1 (some 1)] ∧ ¬ s.Counted ∧
    s.inorderTreeWalk none 0 = .fail .outOfBounds .inorderTreeWalk := by
  have hcheck : runCheck treeStep (fun _ s call => s.Built call)
      (fun _ s => s.inorderTreeWalk none 0 = .fail .outOfBounds .inorderTreeWalk)
      [.insertNode 2 (some 0),.insertNode 1 (some 1)] [] new = true := by decide
  obtain ⟨tr,s,hr,hm,hw⟩ := Run.of_runCheck hcheck
  refine ⟨tr,s,hr,hm,fun h => ?_,hw⟩
  have hroot : s.m_pRoot ≠ none := by
    intro h0
    rw [inorderTreeWalk,h0] at hw
    cases hw
  obtain ⟨out,fx,he,_⟩ := h.walk none 0 hroot
  rw [hw] at he
  cases he

end CBinarySearchTree
end MyProgram.SearchTree

import MyProgram.Lib.Runs
import MyProgram.SearchTree.Delete

/-! Histories of insertions and deletions, and when they leave a search tree. -/
namespace MyProgram.SearchTree
open Lib PtrTree
namespace CBinarySearchTree
variable {s : CBinarySearchTree} {t l r : PtrTree Nat TKey} {c d : List (Frame Nat TKey)} {par q : Option Nat}
  {p x y : Nat} {k j key : TKey} {n : STSearchTreeNode} {m : Multiset TKey}

/-- Follow left children only. -/
def leftmostFrom (s : CBinarySearchTree) : Nat → Option Nat → Option STSearchTreeNode
  | n+1, some p => s.nodes[p]?.bind fun node => if node.left = none then some node else leftmostFrom s n node.left
  | _, _ => none

/-- The node at the end of the path from the root that always turns left. -/
def leftmost (s : CBinarySearchTree) : Option STSearchTreeNode := leftmostFrom s s.nodes.length s.m_pRoot

/-- The tree holds exactly these keys in the order of a search tree. -/
def IsSearchTree (s : CBinarySearchTree) (m : Multiset TKey) : Prop :=
  ∃ t, s.Shaped t ∧ t.Ordered ∧ (t.keys : Multiset TKey) = m

/-- An insertion gets the node that was built and finds the tree empty, or a lowest
node that has the same key and no right child. It changes nothing if it gets NULL. -/
def Orderly (s : CBinarySearchTree) : Call → Prop
  | .insertNode key ret => ret = none ∨ ret = some s.nodes.length ∧
      (s.m_pRoot = none ∨ ∃ n ∈ s.leftmost, n.key = key ∧ n.right = none)
  | .deleteNode _ => True

instance (s : CBinarySearchTree) (call : Call) : Decidable (s.Orderly call) :=
  match call with
  | .insertNode key ret => inferInstanceAs (Decidable (ret = none ∨ ret = some s.nodes.length ∧
      (s.m_pRoot = none ∨ ∃ n ∈ s.leftmost, n.key = key ∧ n.right = none)))
  | .deleteNode _ => inferInstanceAs (Decidable True)

/-- The result of `createNode` is the node that was built. -/
def Built (s : CBinarySearchTree) : Call → Prop
  | .insertNode _ ret => ret = some s.nodes.length
  | .deleteNode _ => True

instance (s : CBinarySearchTree) (call : Call) : Decidable (s.Built call) :=
  match call with
  | .insertNode _ ret => inferInstanceAs (Decidable (ret = some s.nodes.length))
  | .deleteNode _ => inferInstanceAs (Decidable True)

/-- A node is made; nothing points to it yet. -/
def grow (s : CBinarySearchTree) (key : TKey) : CBinarySearchTree := { s with nodes := s.nodes ++ [⟨key,none,none,none⟩] }

private theorem fresh_mem : (s.grow key).mem s.nodes.length = some ⟨key,none,none,none⟩ := by
  simp [mem,grow]

private theorem mem_grow (h : s.mem p = some n) : (s.grow key).mem p = s.mem p := by
  obtain ⟨hp,_⟩ := List.getElem?_eq_some_iff.mp h
  simp [mem,grow,List.getElem?_append_left hp]

private theorem fresh_notMem (hl : Linked s.mem par t) : s.nodes.length ∉ t.addrs := by
  intro hm
  obtain ⟨n,hn⟩ := hl.get hm
  obtain ⟨hp,_⟩ := List.getElem?_eq_some_iff.mp hn
  omega

theorem Shaped.grow (h : s.Shaped t) (key : TKey) : (s.grow key).Shaped t := by
  refine ⟨h.root,h.linked.congr fun a ha => ?_,h.distinct⟩
  obtain ⟨n,hn⟩ := h.linked.get ha
  exact mem_grow hn

theorem leftmostFrom_spec {fuel : Nat} (hl : Linked s.mem par t) (hf : t.size ≤ fuel) :
    s.leftmostFrom fuel t.root = t.lowest.bind s.mem := by
  induction t generalizing par fuel with
  | leaf => cases fuel <;> rfl
  | node l p k r ihl _ =>
    obtain ⟨hp,hll,_⟩ := hl
    rw [size_node] at hf
    obtain ⟨fuel,rfl⟩ : ∃ m, fuel = m + 1 := ⟨fuel - 1,by omega⟩
    have hp' : s.nodes[p]? = some ⟨k,par,l.root,r.root⟩ := hp
    simp only [root_node,leftmostFrom,hp',Option.bind_some]
    cases l with
    | leaf => exact hp.symm
    | node l' p' k' r' =>
      rw [lowest_of_ne (show node l' p' k' r' ≠ leaf by simp),if_neg (by simp)]
      exact ihl hll (by omega)

theorem leftmost_spec (h : s.Shaped (fill c (node leaf p k r))) (hp : (fill c (node leaf p k r)).lowest = some p) :
    s.leftmost = some ⟨k,parentOf c,none,r.root⟩ := by
  rw [leftmost,h.root,leftmostFrom_spec h.linked (size_le h.linked h.distinct),hp]
  exact (linked_fill.mp h.linked).2.1

/-- The tree after an insertion below its lowest node `p`. -/
def hung (c : List (Frame Nat TKey)) (p : Nat) (k : TKey) (r : PtrTree Nat TKey) (x : Nat) (key : TKey) : PtrTree Nat TKey :=
  if k < key then fill c (node (node leaf x key leaf) p k r) else fill c (node leaf p k (node leaf x key leaf))

private theorem hang_spec (h : s.Shaped (fill c (node leaf p k r))) (hx : s.mem x = some ⟨key,none,none,none⟩)
    (hn : x ∉ (fill c (node leaf p k r)).addrs) :
    ∃ s', s.hang (some x) key p = .ok s' [] ∧ s'.Shaped (hung c p k r x key) ∧ s'.m_nLen = s.m_nLen := by
  obtain ⟨hpath,hp,_,hr⟩ := linked_fill.mp h.linked
  have hnd := addrs_fill.nodup_iff.mp h.distinct
  have hx' : x ∉ pathAddrs c ++ p :: r.addrs := fun hm => hn (addrs_fill.mem_iff.mpr hm)
  have hxp : x ≠ p := fun he => hx' (by simp [he])
  have hall : (pathAddrs c ++ p :: x :: r.addrs).Nodup := by
    have hperm : (pathAddrs c ++ p :: x :: r.addrs).Perm (x :: (pathAddrs c ++ p :: r.addrs)) := by
      simpa using (List.perm_middle : ((pathAddrs c ++ [p]) ++ x :: r.addrs).Perm _)
    exact hperm.nodup_iff.mpr (List.nodup_cons.mpr ⟨hx',hnd⟩)
  have hroot := h.root
  rw [root_fill] at hroot
  -- one write to the parent, one to the new node
  have hmem : ∀ v, ((s.put p v).put x ⟨key,some p,none,none⟩).mem =
      Function.update (Function.update s.mem p (some v)) x (some ⟨key,some p,none,none⟩) := by
    intro v
    have hx₁ : (s.put p v).mem x = some ⟨key,none,none,none⟩ := by
      rw [mem_put hp,Function.update_of_ne hxp,hx]
    rw [mem_put hx₁,mem_put hp]
  have hfar : ∀ v, ∀ a ∈ pathAddrs c ++ r.addrs, ((s.put p v).put x ⟨key,some p,none,none⟩).mem a = s.mem a := by
    intro v a ha
    rw [hmem]
    rw [Function.update_of_ne,Function.update_of_ne]
    · rintro rfl
      exact (List.nodup_cons.mp (List.nodup_middle.mp hnd)).1 ha
    · rintro rfl
      exact hx' (by simpa [or_left_comm] using Or.inr (a := a = p) (by simpa using ha))
  have hpcell : ∀ v, ((s.put p v).put x ⟨key,some p,none,none⟩).mem p = some v := by
    intro v
    rw [hmem,Function.update_of_ne hxp.symm,Function.update_self]
  have hxcell : ∀ v, ((s.put p v).put x ⟨key,some p,none,none⟩).mem x = some ⟨key,some p,none,none⟩ := by
    intro v
    rw [hmem,Function.update_self]
  have hwrite : ∀ v, (s.put p v).write .insert (some x) (fun n => { n with parent := some p }) =
      .ok ((s.put p v).put x ⟨key,some p,none,none⟩) [] := by
    intro v
    refine write_eq (n := ⟨key,none,none,none⟩) ?_
    rw [mem_put hp,Function.update_of_ne hxp,hx]
  unfold hung
  by_cases hk : k < key
  · rw [if_pos hk]
    refine ⟨(s.put p ⟨k,parentOf c,some x,r.root⟩).put x ⟨key,some p,none,none⟩,?_,⟨?_,linked_fill.mpr ⟨?_,?_⟩,?_⟩,rfl⟩
    · simp only [hang,deref_eq hp,Act.bind_ok,Act.after_nil,if_pos hk,write_eq hp]
      exact hwrite _
    · rw [root_fill]
      exact hroot
    · exact hpath.congr fun a ha => hfar _ a (by simp [ha])
    · exact ⟨hpcell _,⟨hxcell _,trivial,trivial⟩,hr.congr fun a ha => hfar _ a (by simp [ha])⟩
    · exact addrs_fill.nodup_iff.mpr (hall.sublist (by simp))
  · rw [if_neg hk]
    refine ⟨(s.put p ⟨k,parentOf c,none,some x⟩).put x ⟨key,some p,none,none⟩,?_,⟨?_,linked_fill.mpr ⟨?_,?_⟩,?_⟩,rfl⟩
    · simp only [hang,deref_eq hp,Act.bind_ok,Act.after_nil,if_neg hk,write_eq hp]
      exact hwrite _
    · rw [root_fill]
      exact hroot
    · exact hpath.congr fun a ha => hfar _ a (by simp [ha])
    · exact ⟨hpcell _,trivial,hxcell _,trivial,trivial⟩
    · exact addrs_fill.nodup_iff.mpr (hall.sublist (by simp))

/-- An insertion that gets the node that was built always returns. In a tree that
is not empty the node goes below the lowest node, whatever the key is. -/
theorem insertNode_spec (h : s.Shaped t) (key : TKey) :
    (t = leaf ∧ ∃ s', treeStep s (.insertNode key (some s.nodes.length)) = .ok s' [] ∧
        s'.Shaped (node leaf s.nodes.length key leaf) ∧ s'.m_nLen = wrap32 (s.m_nLen + 1)) ∨
      ∃ c p k r s', t = fill c (node leaf p k r) ∧ s.m_pRoot ≠ none ∧ s.leftmost = some ⟨k,parentOf c,none,r.root⟩ ∧
        treeStep s (.insertNode key (some s.nodes.length)) = .ok s' [] ∧ s'.Shaped (hung c p k r s.nodes.length key) ∧
        s'.m_nLen = s.m_nLen := by
  have hg := h.grow key
  have hx := fresh_notMem h.linked
  by_cases ht : t = leaf
  · subst ht
    have hroot : s.m_pRoot = none := h.root
    refine .inl ⟨rfl,{ s.grow key with m_pRoot := some s.nodes.length, m_nLen := wrap32 (s.m_nLen + 1) },?_,
      ⟨rfl,⟨fresh_mem,trivial,trivial⟩,by simp⟩,rfl⟩
    simp only [treeStep,insertNode,createNode,insert,hroot]
    rfl
  · obtain ⟨c,p,k,r,rfl,hp,_⟩ := exists_lowest t ht
    obtain ⟨s',he,hsh,hlen⟩ := hang_spec hg fresh_mem hx
    have hne : s.m_pRoot ≠ none := by
      rw [h.root]
      exact fun h0 => ht (root_eq_none.mp h0)
    refine .inr ⟨c,p,k,r,s',rfl,hne,leftmost_spec h hp,?_,hsh,hlen⟩
    have hloop := insertLoop_spec key none hg.linked (size_le hg.linked hg.distinct)
    rw [hp,← hg.root] at hloop
    obtain ⟨a,ha⟩ := Option.ne_none_iff_exists'.mp hne
    have hroot : (s.grow key).m_pRoot = some a := ha
    change ((s.grow key).insert (some s.nodes.length) >>= fun x => pure x.1) = _
    simp only [insert,hroot,deref_eq fresh_mem,Act.bind_ok,Act.after_nil]
    rw [← hroot,hloop]
    simp only [Option.or_none,Act.bind_ok,Act.after_nil,he]
    rfl

theorem Shaped.unique {t' : PtrTree Nat TKey} (h : s.Shaped t) (h' : s.Shaped t') : t = t' :=
  h.linked.unique h'.linked (h.root.symm.trans h'.root)

/-- Below its lowest node a search tree takes the key of that node only, and only
where nothing is overwritten. -/
private theorem hung_iff (ho : (fill c (node leaf p k r)).Ordered) :
    (hung c p k r x key).Ordered ∧ ((hung c p k r x key).keys : Multiset TKey) = key ::ₘ (fill c (node leaf p k r)).keys ↔
      k = key ∧ r = leaf := by
  unfold hung
  constructor
  · rintro ⟨ho',hk⟩
    by_cases hlt : k < key
    · rw [if_pos hlt] at ho'
      have := ho'.of_fill.2.2.1 key (by simp)
      exact absurd this hlt.not_gt
    · rw [if_neg hlt] at ho' hk
      have hle := ho'.of_fill.2.2.2 key (by simp)
      have hcard := congrArg Multiset.card hk
      rw [keys_fill,keys_fill] at hcard
      simp only [Multiset.card_add,Multiset.card_cons,Multiset.coe_card,length_keys,size_node,size_leaf] at hcard
      refine ⟨le_antisymm hle (not_lt.mp hlt),?_⟩
      cases r with
      | leaf => rfl
      | node rl q rk rr =>
        rw [size_node] at hcard
        omega
  · rintro ⟨rfl,rfl⟩
    rw [if_neg (lt_irrefl k)]
    refine ⟨ho.refill (fun _ => by simp [Ordered]) (by simp),?_⟩
    rw [keys_fill,keys_fill]
    simp [← Multiset.cons_coe]

/-- What the calls leave of the keys: an insertion that returned true adds one
copy, a deletion takes one copy if there is one. -/
def contents : Multiset TKey → Call → Multiset TKey
  | m, .insertNode key (some _) => key ::ₘ m
  | m, .insertNode _ none => m
  | m, .deleteNode key => m.erase key

theorem isSearchTree_new : new.IsSearchTree 0 := ⟨leaf,⟨rfl,trivial,by simp⟩,trivial,rfl⟩

theorem IsSearchTree.search (h : s.IsSearchTree m) (k : TKey) :
    (k ∈ m → ∃ p n, s.search k = .ok (some p) [] ∧ s.mem p = some n ∧ n.key = k) ∧ (k ∉ m → s.search k = .ok none []) := by
  obtain ⟨t,hsh,ho,rfl⟩ := h
  have hs := searchLoop_spec k hsh.linked (size_le hsh.linked hsh.distinct)
  rw [← hsh.root] at hs
  rcases hs with ⟨he,hn⟩ | ⟨c,l,x,r,rfl,he⟩
  · exact ⟨fun hk => absurd hk (hn ho),fun _ => he⟩
  · have hx := (linked_fill.mp hsh.linked).2.1
    refine ⟨fun _ => ⟨x,_,he,hx,rfl⟩,fun hk => absurd ?_ hk⟩
    exact mem_keys_fill.mpr (.inr (by simp))

private theorem deleteNode_step (h : s.IsSearchTree m) (key : TKey) :
    ∃ s', treeStep s (.deleteNode key) = .ok s' [] ∧ s'.IsSearchTree (m.erase key) := by
  obtain ⟨t,hsh,ho,rfl⟩ := h
  rcases deleteNode_spec hsh key with ⟨_,hno,he⟩ | ⟨c,l,x,r,t',s',rfl,_,hrem,he,hsh',_⟩
  · refine ⟨s,he,t,hsh,ho,?_⟩
    rw [Multiset.erase_of_notMem (hno ho)]
  · refine ⟨s',he,_,hsh',ho.refill hrem.ordered hrem.mem_keys,?_⟩
    rw [keys_fill,keys_fill,hrem.keys,Multiset.add_cons,Multiset.erase_cons_head]

private theorem insertNode_step (h : s.IsSearchTree m) (key : TKey) :
    ∃ s', treeStep s (.insertNode key (some s.nodes.length)) = .ok s' [] ∧
      (s'.IsSearchTree (key ::ₘ m) ↔ s.Orderly (.insertNode key (some s.nodes.length))) := by
  obtain ⟨t,hsh,ho,rfl⟩ := h
  rcases insertNode_spec hsh key with ⟨rfl,s',he,hsh',_⟩ | ⟨c,p,k,r,s',rfl,hroot,hlow,he,hsh',_⟩
  · refine ⟨s',he,iff_of_true ⟨_,hsh',by simp [Ordered],rfl⟩ (.inr ⟨rfl,.inl hsh.root⟩)⟩
  · have horderly : s.Orderly (.insertNode key (some s.nodes.length)) ↔ k = key ∧ r = leaf := by
      simp [Orderly,hroot,hlow,root_eq_none]
    rw [horderly,← hung_iff (x := s.nodes.length) ho]
    refine ⟨s',he,?_⟩
    constructor
    · rintro ⟨t',ht',ho',hk'⟩
      rw [hsh'.unique ht']
      exact ⟨ho',hk'⟩
    · rintro ⟨ho',hk'⟩
      exact ⟨_,hsh',ho',hk'⟩

private theorem insertNode_null (h : s.IsSearchTree m) (key : TKey) :
    ∃ s', treeStep s (.insertNode key none) = .ok s' [] ∧ s'.IsSearchTree m := by
  obtain ⟨t,hsh,ho,rfl⟩ := h
  exact ⟨s.grow key,rfl,t,hsh.grow key,ho,rfl⟩

private theorem orderly_step (h : s.IsSearchTree m) {call : Call} (hc : s.Orderly call) :
    ∃ s', treeStep s call = .ok s' [] ∧ s'.IsSearchTree (contents m call) := by
  cases call with
  | deleteNode key => exact deleteNode_step h key
  | insertNode key ret =>
    rcases hc with rfl | ⟨rfl,hc⟩
    · exact insertNode_null h key
    · obtain ⟨s',he,hiff⟩ := insertNode_step h key
      exact ⟨s',he,hiff.mpr (.inr ⟨rfl,hc⟩)⟩

/-- A new tree is a search tree. From any search tree on, a history whose insertions
are all orderly leaves a search tree with the keys that were inserted less those
that were deleted, and `search` finds exactly these; deletions are free. Every call
returns, and an insertion of a built node that is not orderly breaks the tree. -/
theorem orderly_history (s₀ s : CBinarySearchTree) (m₀ : Multiset TKey) (tr : Trace Call Effect) (h₀ : s₀.IsSearchTree m₀)
    (hr : Run treeStep (fun _ s call => s.Orderly call) s₀ tr s) :
    new.IsSearchTree 0 ∧ s.IsSearchTree ((tr.map (·.1)).foldl contents m₀) ∧
    (∀ k, (k ∈ (tr.map (·.1)).foldl contents m₀ →
        ∃ p n, s.search k = .ok (some p) [] ∧ s.mem p = some n ∧ n.key = k) ∧
      (k ∉ (tr.map (·.1)).foldl contents m₀ → s.search k = .ok none [])) ∧
    (∀ call, s.Orderly call → ∃ s', treeStep s call = .ok s' []) ∧
    ∀ key, ¬ s.Orderly (.insertNode key (some s.nodes.length)) →
      ∃ s', treeStep s (.insertNode key (some s.nodes.length)) = .ok s' [] ∧
        ¬ s'.IsSearchTree (key ::ₘ (tr.map (·.1)).foldl contents m₀) := by
  have hinv : s.IsSearchTree ((tr.map (·.1)).foldl contents m₀) := by
    refine hr.invariant (fun tr s => s.IsSearchTree ((tr.map (·.1)).foldl contents m₀)) h₀ ?_
    intro tr s call s' fx h hc he
    obtain ⟨s₁,he₁,h₁⟩ := orderly_step h hc
    rw [he] at he₁
    cases he₁
    simpa using h₁
  refine ⟨isSearchTree_new,hinv,hinv.search,fun call hc => ?_,fun key hk => ?_⟩
  · obtain ⟨s',he,_⟩ := orderly_step hinv hc
    exact ⟨s',he⟩
  · obtain ⟨s',he,hiff⟩ := insertNode_step hinv key
    exact ⟨s',he,fun h => hk (hiff.mp h)⟩

/-- Two equal keys, a deletion and a third insertion. -/
theorem orderly_history_equal_keys : ∃ tr s, Run treeStep (fun _ s call => s.Orderly call) new tr s ∧
    tr.map (·.1) = [.insertNode 5 (some 0),.insertNode 5 (some 1),.deleteNode 5,.insertNode 5 (some 2)] ∧
    s.IsSearchTree ((tr.map (·.1)).foldl contents 0) := by
  have hcheck : runCheck treeStep (fun _ s call => s.Orderly call) (fun _ _ => True)
      [.insertNode 5 (some 0),.insertNode 5 (some 1),.deleteNode 5,.insertNode 5 (some 2)] [] new = true := by decide
  obtain ⟨tr,s,hr,hm,_⟩ := Run.of_runCheck hcheck
  exact ⟨tr,s,hr,hm,(orderly_history new s 0 tr isSearchTree_new hr).2.1⟩

/-- The larger of two keys goes to the left of the smaller one, where no search
finds it. -/
theorem second_insertion_is_lost : ∃ tr s, Run treeStep (fun _ s call => s.Built call) new tr s ∧
    tr.map (·.1) = [.insertNode 2 (some 0),.insertNode 3 (some 1)] ∧ s.search 3 = .ok none [] ∧
    ¬ s.IsSearchTree ((tr.map (·.1)).foldl contents 0) := by
  have hcheck : runCheck treeStep (fun _ s call => s.Built call) (fun _ s => s.search 3 = .ok none [])
      [.insertNode 2 (some 0),.insertNode 3 (some 1)] [] new = true := by decide
  obtain ⟨tr,s,hr,hm,hs⟩ := Run.of_runCheck hcheck
  refine ⟨tr,s,hr,hm,hs,fun h => ?_⟩
  rw [hm] at h
  obtain ⟨p,n,he,_⟩ := (h.search 3).1 (by simp [contents])
  rw [hs] at he
  cases he

end CBinarySearchTree
end MyProgram.SearchTree

import MyProgram.Lib.TreeOrder
import MyProgram.SearchTree.Links

/-! The successor and the predecessor of a key are its neighbours in the in-order
sequence. -/
namespace MyProgram.SearchTree
open Lib PtrTree
namespace CBinarySearchTree
variable {s : CBinarySearchTree} {t l r : PtrTree Nat TKey} {c : List (Frame Nat TKey)} {par : Option Nat} {x y p : Nat}
  {k key : TKey} {site : Site} {fuel : Nat}

private theorem ancestorLoop_eq (s : CBinarySearchTree) (fuel p : Nat) (q : Option Nat) :
    s.ancestorLoop fuel p q = s.climb .treeSuccessor (·.right) fuel p q := by
  induction fuel generalizing p q with
  | zero => cases q <;> rfl
  | succ fuel ih =>
    cases q with
    | none => rfl
    | some y => simp only [ancestorLoop,climb,ih]

/-- Going up from right children ends at the first node behind the subtree. -/
private theorem climb_right (hp : PathLinked s.mem c (some x)) (hd : (x :: pathAddrs c).Nodup) (hf : c.length ≤ fuel) :
    s.climb site (·.right) fuel x (parentOf c) = .ok ((after c).head?.map Prod.fst) [] := by
  induction c generalizing x fuel with
  | nil => cases fuel <;> rfl
  | cons f c ih =>
    obtain ⟨hcell,_,hpath⟩ := hp
    obtain ⟨fuel,rfl⟩ : ∃ m, fuel = m + 1 := ⟨fuel - 1,by rw [List.length_cons] at hf; omega⟩
    simp only [parentOf_cons,climb,deref_eq hcell,Act.bind_ok,Act.after_nil]
    cases f with
    | left q j s =>
      have hne : some x ≠ s.root := by
        intro he
        have := root_mem_addrs he.symm
        exact (List.nodup_cons.mp hd).1 (by simp [pathAddrs,Frame.sibling,this])
      rw [if_neg (by exact hne)]
      rfl
    | right s q j =>
      have hd' : (q :: pathAddrs c).Nodup := (List.nodup_cons.mp hd).2.sublist (by simp [pathAddrs,Frame.addr])
      rw [if_pos (by rfl)]
      exact ih hpath hd' (by simpa using hf)

private theorem length_le (c : List (Frame Nat TKey)) : c.length ≤ (pathAddrs c).length := by
  induction c with
  | nil => exact Nat.le_refl _
  | cons f c ih =>
    simp only [pathAddrs,List.length_cons,List.length_append]
    omega

/-- The node found by one of the walks from `x`: down to the end of the subtree behind it,
or up when there is none. -/
private theorem next_spec (site : Site) (h : s.Shaped (fill c (node l x k r))) :
    (∀ q, r.root = some q → ∃ y, s.descend site (·.left) s.nodes.length q = .ok y [] ∧
      (r.inorder ++ after c).head?.map Prod.fst = some y) ∧
    (r.root = none → s.climb site (·.right) s.nodes.length x (parentOf c) =
      .ok ((r.inorder ++ after c).head?.map Prod.fst) []) := by
  obtain ⟨hpath,_,_,hr⟩ := linked_fill.mp h.linked
  have hnd := addrs_fill.nodup_iff.mp h.distinct
  have hsize := size_le h.linked h.distinct
  rw [size_fill,size_node] at hsize
  constructor
  · intro q hq
    have hne : r ≠ leaf := fun h0 => by
      rw [h0] at hq
      cases hq
    obtain ⟨d,y,j,w,rfl,hy,_⟩ := exists_lowest r hne
    refine ⟨y,descend_left hr (by omega) hq hy,?_⟩
    rw [List.head?_append,← hy,← head?_inorder]
    cases hin : (fill d (node leaf y j w)).inorder with
    | nil =>
      rw [inorder_fill] at hin
      simp at hin
    | cons e es => rfl
  · intro hq
    have h0 : r = leaf := root_eq_none.mp hq
    subst h0
    refine climb_right hpath ?_ ((length_le c).trans (by omega))
    exact (List.nodup_middle.mp hnd).sublist (by simp)

/-- The successor is the next node of the sequence. -/
theorem treeSuccessor_inorder (h : s.Shaped (fill c (node l x key r))) (hs : s.search key = .ok (some x) []) :
    s.treeSuccessor key = .ok ((r.inorder ++ after c).head?.map Prod.fst) [] := by
  have hx := (linked_fill.mp h.linked).2.1
  obtain ⟨hdown,hup⟩ := next_spec .treeSuccessor h
  simp only [treeSuccessor,hs,Act.bind_ok,Act.after_nil,deref_eq hx,minimumLoop_eq,ancestorLoop_eq]
  cases hr : r.root with
  | none => exact hup hr
  | some q =>
    obtain ⟨y,hy,hnext⟩ := hdown q hr
    simp only [hy,Act.bind_ok,Act.after_nil,Act.pure_eq,hnext]

/-! The mirror image. -/

/-- The tree with all children exchanged. -/
def mirror (s : CBinarySearchTree) : CBinarySearchTree := { s with nodes := s.nodes.map TreeCell.mirror }

theorem mem_mirror (s : CBinarySearchTree) : s.mirror.mem = fun a => (s.mem a).map TreeCell.mirror := by
  funext a
  simp [mem,CBinarySearchTree.mirror]

theorem Shaped.mirror (h : s.Shaped t) : s.mirror.Shaped t.mirror := by
  refine ⟨h.root.trans t.root_mirror.symm,?_,t.addrs_mirror.nodup_iff.mpr h.distinct⟩
  rw [mem_mirror]
  exact h.linked.mirror

theorem deref_mirror (s : CBinarySearchTree) (site : Site) (p : Nat) :
    s.mirror.deref site (some p) = s.deref site (some p) >>= fun n => pure n.mirror := by
  simp only [deref,CBinarySearchTree.mirror,List.getElem?_map]
  cases s.nodes[p]? <;> rfl

theorem descend_mirror (s : CBinarySearchTree) (site : Site) (fuel p : Nat) :
    s.mirror.descend site (·.left) fuel p = s.descend site (·.right) fuel p := by
  induction fuel generalizing p with
  | zero => rfl
  | succ fuel ih =>
    simp only [descend,deref_mirror,Act.bind_assoc,Act.pure_eq,Act.bind_ok,Act.after_nil,TreeCell.mirror,ih]

private theorem climb_mirror (s : CBinarySearchTree) (site : Site) (fuel p : Nat) (q : Option Nat) :
    s.mirror.climb site (·.right) fuel p q = s.climb site (·.left) fuel p q := by
  induction fuel generalizing p q with
  | zero => cases q <;> rfl
  | succ fuel ih =>
    cases q with
    | none => rfl
    | some y => simp only [climb,deref_mirror,Act.bind_assoc,Act.pure_eq,Act.bind_ok,Act.after_nil,TreeCell.mirror,ih]

/-- The predecessor is the node before in the sequence. -/
theorem treePreDecessor_inorder (h : s.Shaped (fill c (node l x key r))) (hs : s.search key = .ok (some x) []) :
    s.treePreDecessor key = .ok ((before c ++ l.inorder).getLast?.map Prod.fst) [] := by
  have hx := (linked_fill.mp h.linked).2.1
  have hm := h.mirror
  rw [mirror_fill,PtrTree.mirror] at hm
  obtain ⟨hdown,hup⟩ := next_spec .treePreDecessor hm
  have hlast : (l.mirror.inorder ++ after (c.map mirrorFrame)).head?.map Prod.fst = (before c ++ l.inorder).getLast?.map Prod.fst := by
    rw [inorder_mirror,after_mirror,← List.reverse_append,List.head?_reverse]
  have hlen : s.mirror.nodes.length = s.nodes.length := List.length_map _
  have hpar : parentOf (c.map mirrorFrame) = parentOf c := by
    cases c with
    | nil => rfl
    | cons f c => cases f <;> rfl
  simp only [root_mirror,descend_mirror,climb_mirror,hlast,hlen,hpar] at hdown hup
  simp only [treePreDecessor,hs,Act.bind_ok,Act.after_nil,deref_eq hx]
  cases hl : l.root with
  | none => exact hup hl
  | some q =>
    obtain ⟨y,hy,hnext⟩ := hdown q hl
    simp only [hy,Act.bind_ok,Act.after_nil,Act.pure_eq,hnext]

/-- The node with the least key above `key`, or NULL if there is none. -/
def IsSuccessor (t : PtrTree Nat TKey) (key : TKey) : Option Nat → Prop
  | none => ∀ i ∈ t.keys, i ≤ key
  | some a => ∃ j, (a,j) ∈ t.inorder ∧ key < j ∧ ∀ i ∈ t.keys, key < i → j ≤ i

/-- The node with the greatest key below `key`, or NULL if there is none. -/
def IsPredecessor (t : PtrTree Nat TKey) (key : TKey) : Option Nat → Prop
  | none => ∀ i ∈ t.keys, key ≤ i
  | some a => ∃ j, (a,j) ∈ t.inorder ∧ j < key ∧ ∀ i ∈ t.keys, i < key → i ≤ j

private theorem isSuccessor_of_nextIn {y : Option Nat} (h : NextIn (· < ·) t.inorder key y) : IsSuccessor t key y := by
  cases y with
  | none =>
    intro i hi
    obtain ⟨a,ha⟩ := mem_inorder_keys.mp hi
    exact not_lt.mp (h _ ha)
  | some a =>
    obtain ⟨j,hj,hlt,hmin⟩ := h
    refine ⟨j,hj,hlt,fun i hi hki => ?_⟩
    obtain ⟨b,hb⟩ := mem_inorder_keys.mp hi
    exact (hmin _ hb hki).elim (fun he => he.ge) le_of_lt

private theorem isPredecessor_of_nextIn {y : Option Nat} (h : NextIn (· > ·) t.inorder.reverse key y) : IsPredecessor t key y := by
  cases y with
  | none =>
    intro i hi
    obtain ⟨a,ha⟩ := mem_inorder_keys.mp hi
    exact not_lt.mp (h _ (List.mem_reverse.mpr ha))
  | some a =>
    obtain ⟨j,hj,hlt,hmax⟩ := h
    refine ⟨j,List.mem_reverse.mp hj,hlt,fun i hi hki => ?_⟩
    obtain ⟨b,hb⟩ := mem_inorder_keys.mp hi
    exact (hmax _ (List.mem_reverse.mpr hb) hki).elim (fun he => he.le) le_of_lt

private theorem neighbours_of_mem (h : s.Shaped t) (ho : t.Ordered) (hd : t.keys.Nodup) (hk : key ∈ t.keys) :
    ∃ y z, s.treeSuccessor key = .ok y [] ∧ IsSuccessor t key y ∧ s.treePreDecessor key = .ok z [] ∧ IsPredecessor t key z := by
  have hs := searchLoop_spec key h.linked (size_le h.linked h.distinct)
  rw [← h.root] at hs
  rcases hs with ⟨_,hno⟩ | ⟨c,l,x,r,rfl,hs⟩
  · exact absurd hk (hno ho)
  · have hsorted := ho.strictly_sorted hd
    have hin : (fill c (node l x key r)).inorder = (before c ++ l.inorder) ++ (x,key) :: (r.inorder ++ after c) := by
      simp [inorder_fill]
    have hrev : (fill c (node l x key r)).inorder.reverse = (r.inorder ++ after c).reverse ++ (x,key) :: (before c ++ l.inorder).reverse := by
      rw [hin]
      simp
    refine ⟨_,_,treeSuccessor_inorder h hs,isSuccessor_of_nextIn ?_,treePreDecessor_inorder h hs,isPredecessor_of_nextIn ?_⟩
    · rw [hin] at hsorted ⊢
      exact nextIn_neighbour (fun _ _ => lt_asymm) hsorted
    · rw [← List.head?_reverse,hrev]
      refine nextIn_neighbour (fun _ _ => lt_asymm) ?_
      rw [← hrev,List.map_reverse,List.pairwise_reverse]
      exact hsorted

/-- With different keys the successor of a key of the tree is the node with the next greater
key, and the predecessor the node with the next smaller one; a key that is not there has
neither. The predecessor of a successor's key is the node itself. -/
theorem neighbours (h : s.Shaped t) (ho : t.Ordered) (hd : t.keys.Nodup) (key : TKey) :
    (key ∈ t.keys → ∃ y z, s.treeSuccessor key = .ok y [] ∧ IsSuccessor t key y ∧
      s.treePreDecessor key = .ok z [] ∧ IsPredecessor t key z) ∧
    (key ∉ t.keys → s.treeSuccessor key = .ok none [] ∧ s.treePreDecessor key = .ok none []) ∧
    ∀ x a j, (x,key) ∈ t.inorder → (a,j) ∈ t.inorder → s.treeSuccessor key = .ok (some a) [] →
      s.treePreDecessor j = .ok (some x) [] := by
  refine ⟨neighbours_of_mem h ho hd,fun hk => ?_,fun x a j hx ha hsucc => ?_⟩
  · have hs := searchLoop_spec key h.linked (size_le h.linked h.distinct)
    rw [← h.root] at hs
    rcases hs with ⟨hs,_⟩ | ⟨c,l,x,r,rfl,_⟩
    · have hs' : s.search key = .ok none [] := hs
      simp only [treeSuccessor,treePreDecessor,hs',Act.bind_ok,Act.after_nil,Act.pure_eq,and_self]
    · exact absurd (mem_keys_fill.mpr (.inr (by simp))) hk
  · have hunique : ∀ {b b' i}, (b,i) ∈ t.inorder → (b',i) ∈ t.inorder → b = b' := by
      intro b b' i hb hb'
      have := List.inj_on_of_nodup_map (t.inorder_keys.nodup_iff.mpr hd) hb hb' rfl
      exact congrArg Prod.fst this
    have hkey : key ∈ t.keys := mem_inorder_keys.mpr ⟨x,hx⟩
    obtain ⟨y,_,hy,hnext,_⟩ := neighbours_of_mem h ho hd hkey
    rw [hsucc] at hy
    cases hy
    obtain ⟨j',hj',hlt,hmin⟩ := hnext
    obtain ⟨_,z,_,_,hz,hprev⟩ := neighbours_of_mem h ho hd (mem_inorder_keys.mpr ⟨a,ha⟩)
    obtain ⟨n,hn,rfl⟩ := h.linked.get_key ha
    obtain ⟨n',hn',rfl⟩ := h.linked.get_key hj'
    rw [hn] at hn'
    cases hn'
    rw [hz]
    -- the predecessor is no key below `key` and none above it
    cases z with
    | none => exact absurd (hprev key hkey) (not_le.mpr hlt)
    | some b =>
      obtain ⟨i,hb,hi,hmax⟩ := hprev
      have hle : key ≤ i := hmax key hkey hlt
      have hge : i ≤ key := not_lt.mp fun hki => absurd (hmin i (mem_inorder_keys.mpr ⟨b,hb⟩) hki) (not_le.mpr hi)
      rw [le_antisymm hge hle] at hb
      rw [hunique hb hx]

/-- Both climbs and both descents: the successor of 4 is its lowest right descendant, that
of 6 an ancestor, and 9 has none. -/
theorem neighbours_seven_nodes : ∃ (s : CBinarySearchTree) (t : PtrTree Nat TKey), s.Shaped t ∧
    t.inorder.map Prod.snd = [1,2,3,4,5,6,9] ∧
    (∃ y z, s.treeSuccessor 4 = .ok y [] ∧ IsSuccessor t 4 y ∧ s.treePreDecessor 4 = .ok z [] ∧ IsPredecessor t 4 z) ∧
    (∃ y z, s.treeSuccessor 6 = .ok y [] ∧ IsSuccessor t 6 y ∧ s.treePreDecessor 6 = .ok z [] ∧ IsPredecessor t 6 z) ∧
    s.treeSuccessor 7 = .ok none [] ∧ s.treePreDecessor 6 = .ok (some 4) [] := by
  let s : CBinarySearchTree := ⟨[⟨4,none,some 1,some 2⟩,⟨2,some 0,some 5,some 6⟩,⟨9,some 0,some 3,none⟩,
    ⟨6,some 2,some 4,none⟩,⟨5,some 3,none,none⟩,⟨1,some 1,none,none⟩,⟨3,some 1,none,none⟩],some 0,7⟩
  let t : PtrTree Nat TKey := node (node (node leaf 5 1 leaf) 1 2 (node leaf 6 3 leaf)) 0 4
    (node (node (node leaf 4 5 leaf) 3 6 leaf) 2 9 leaf)
  have hs : s.Shaped t := ⟨rfl,by simp [s,t,Linked,mem],by decide⟩
  have ho : t.Ordered := by simp [t,Ordered]
  have hd : t.keys.Nodup := by decide
  exact ⟨s,t,hs,rfl,(neighbours hs ho hd 4).1 (by decide),(neighbours hs ho hd 6).1 (by decide),
    ((neighbours hs ho hd 7).2.1 (by decide)).1,(neighbours hs ho hd 5).2.2 4 3 6 (by decide) (by decide) rfl⟩

end CBinarySearchTree
end MyProgram.SearchTree

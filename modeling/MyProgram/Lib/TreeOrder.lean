import MyProgram.Lib.PtrTree

/-! The order of the nodes of a tree, and its mirror image. -/
namespace MyProgram.Lib
variable {ι κ : Type}

/-- A node with its children exchanged. -/
def TreeCell.mirror (n : TreeCell ι κ) : TreeCell ι κ := ⟨n.key,n.parent,n.right,n.left⟩

namespace PtrTree
variable {h : ι → Option (TreeCell ι κ)} {par : Option ι} {t l r : PtrTree ι κ} {c : List (Frame ι κ)} {p : ι} {k : κ}

def mirror : PtrTree ι κ → PtrTree ι κ
  | .leaf => .leaf
  | .node l p k r => .node r.mirror p k l.mirror

def mirrorFrame : Frame ι κ → Frame ι κ
  | .left p k r => .right r.mirror p k
  | .right l p k => .left p k l.mirror

@[simp] theorem root_mirror (t : PtrTree ι κ) : t.mirror.root = t.root := by
  cases t <;> rfl

@[simp] theorem inorder_mirror (t : PtrTree ι κ) : t.mirror.inorder = t.inorder.reverse := by
  induction t with
  | leaf => rfl
  | node l p k r ihl ihr => simp [mirror,ihl,ihr]

theorem addrs_mirror (t : PtrTree ι κ) : t.mirror.addrs.Perm t.addrs := by
  induction t with
  | leaf => exact List.Perm.refl _
  | node l p k r ihl ihr =>
    refine List.Perm.cons _ ?_
    exact (ihr.append ihl).trans List.perm_append_comm

theorem mirror_fill : (fill c t).mirror = fill (c.map mirrorFrame) t.mirror := by
  induction c generalizing t with
  | nil => rfl
  | cons f c ih =>
    rw [fill,ih]
    cases f <;> rfl

theorem after_mirror (c : List (Frame ι κ)) : after (c.map mirrorFrame) = (before c).reverse := by
  induction c with
  | nil => rfl
  | cons f c ih =>
    cases f with
    | left q j s => exact ih
    | right s q j => simp [before,after,mirrorFrame,ih]

/-- A tree in memory is seen mirrored through mirrored nodes. -/
theorem Linked.mirror (hl : Linked h par t) : Linked (fun a => (h a).map TreeCell.mirror) par t.mirror := by
  induction t generalizing par with
  | leaf => trivial
  | node l p k r ihl ihr =>
    obtain ⟨hp,hll,hlr⟩ := hl
    refine ⟨?_,ihr hlr,ihl hll⟩
    simp [hp,TreeCell.mirror]

/-- The lowest node comes first. -/
theorem head?_inorder (t : PtrTree ι κ) : t.inorder.head?.map Prod.fst = t.lowest := by
  induction t with
  | leaf => rfl
  | node l p k r ihl _ =>
    rw [inorder_node,lowest,← ihl]
    cases l.inorder <;> rfl

theorem inorder_keys (t : PtrTree ι κ) : (t.inorder.map Prod.snd).Perm t.keys := by
  induction t with
  | leaf => exact List.Perm.refl _
  | node l p k r ihl ihr =>
    rw [inorder_node,List.map_append,List.map_cons,keys_node]
    exact List.perm_middle.trans ((ihl.append ihr).cons k)

theorem mem_inorder_keys {j : κ} : j ∈ t.keys ↔ ∃ a, (a,j) ∈ t.inorder := by
  rw [← t.inorder_keys.mem_iff,List.mem_map]
  simp

/-- The sequence has the keys that are in memory. -/
theorem Linked.get_key {a : ι} {j : κ} (hl : Linked h par t) (ha : (a,j) ∈ t.inorder) : ∃ n, h a = some n ∧ n.key = j := by
  induction t generalizing par with
  | leaf => cases ha
  | node l p k r ihl ihr =>
    obtain ⟨hp,hll,hlr⟩ := hl
    rw [inorder_node,List.mem_append,List.mem_cons] at ha
    rcases ha with ha | ha | ha
    · exact ihl hll ha
    · cases ha
      exact ⟨_,hp,rfl⟩
    · exact ihr hlr ha

/-- The keys of an ordered tree go up from left to right. -/
theorem Ordered.sorted [LinearOrder κ] (ho : Ordered t) : (t.inorder.map Prod.snd).Pairwise (· ≤ ·) := by
  induction t with
  | leaf => exact List.Pairwise.nil
  | node l p k r ihl ihr =>
    obtain ⟨hol,hor,hlt,hge⟩ := ho
    have hl : ∀ a ∈ l.inorder.map Prod.snd, a < k := fun a ha => hlt a (l.inorder_keys.mem_iff.mp ha)
    have hr : ∀ a ∈ r.inorder.map Prod.snd, k ≤ a := fun a ha => hge a (r.inorder_keys.mem_iff.mp ha)
    rw [inorder_node,List.map_append,List.map_cons,List.pairwise_append,List.pairwise_cons]
    refine ⟨ihl hol,⟨hr,ihr hor⟩,fun a ha b hb => ?_⟩
    rcases List.mem_cons.mp hb with rfl | hb
    · exact (hl a ha).le
    · exact (hl a ha).le.trans (hr b hb)

/-- Different keys of an ordered tree go up strictly. -/
theorem Ordered.strictly_sorted [LinearOrder κ] (ho : Ordered t) (hd : t.keys.Nodup) :
    (t.inorder.map Prod.snd).Pairwise (· < ·) := by
  have hne : (t.inorder.map Prod.snd).Nodup := t.inorder_keys.nodup_iff.mpr hd
  exact (ho.sorted.and hne).imp fun ⟨hle,hne⟩ => lt_of_le_of_ne hle hne

end PtrTree

/-- The element of a list that comes first behind `k` in an order. -/
def NextIn (lt : κ → κ → Prop) (es : List (ι × κ)) (k : κ) : Option ι → Prop
  | none => ∀ e ∈ es, ¬lt k e.2
  | some a => ∃ j, (a,j) ∈ es ∧ lt k j ∧ ∀ e ∈ es, lt k e.2 → e.2 = j ∨ lt j e.2

/-- In a sorted list the next element is the neighbour. -/
theorem nextIn_neighbour {lt : κ → κ → Prop} (hlt : ∀ a b, lt a b → ¬lt b a) {l r : List (ι × κ)} {x : ι} {k : κ}
    (hs : ((l ++ (x,k) :: r).map Prod.snd).Pairwise lt) : NextIn lt (l ++ (x,k) :: r) k (r.head?.map Prod.fst) := by
  rw [List.map_append,List.map_cons,List.pairwise_append,List.pairwise_cons] at hs
  obtain ⟨_,⟨hk,hr⟩,hl⟩ := hs
  have hirr : ¬lt k k := fun h => hlt k k h h
  have hbefore : ∀ e ∈ l, ¬lt k e.2 := by
    intro e he
    exact hlt _ _ (hl e.2 (List.mem_map_of_mem he) k List.mem_cons_self)
  cases r with
  | nil =>
    intro e he
    rcases List.mem_append.mp he with he | he
    · exact hbefore e he
    · rw [List.mem_singleton.mp he]
      exact hirr
  | cons d r =>
    rw [List.map_cons,List.pairwise_cons] at hr
    refine ⟨d.2,by simp,hk d.2 (by simp),fun e he hke => ?_⟩
    rcases List.mem_append.mp he with he | he
    · exact absurd hke (hbefore e he)
    · rcases List.mem_cons.mp he with rfl | he
      · exact absurd hke hirr
      · rcases List.mem_cons.mp he with rfl | he
        · exact .inl rfl
        · exact .inr (hr.1 e.2 (List.mem_map_of_mem he))

end MyProgram.Lib

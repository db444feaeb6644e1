import Mathlib.Data.List.Perm.Basic
import Mathlib.Data.List.Nodup
import Mathlib.Algebra.Order.Group.Multiset
import Mathlib.Order.Basic
import Mathlib.Tactic.Abel
import Mathlib.Tactic.Common

/-! Binary trees threaded through memory by `left`, `right` and `parent` pointers. -/
namespace MyProgram.Lib
variable {ι κ : Type}

/-- A tree node in memory. -/
structure TreeCell (ι κ : Type) where
  key : κ
  parent : Option ι
  left : Option ι
  right : Option ι
  deriving DecidableEq, Repr

/-- The shape of a tree with the address and the key of each node. -/
inductive PtrTree (ι κ : Type) where
  | leaf
  | node (l : PtrTree ι κ) (p : ι) (k : κ) (r : PtrTree ι κ)
  deriving DecidableEq, Repr

/-- One step of the path from a subtree up to the root: the node above it and
the sibling subtree. -/
inductive Frame (ι κ : Type) where
  | left (p : ι) (k : κ) (r : PtrTree ι κ)
  | right (l : PtrTree ι κ) (p : ι) (k : κ)

namespace Frame

def addr : Frame ι κ → ι
  | .left p _ _ => p
  | .right _ p _ => p

def sibling : Frame ι κ → PtrTree ι κ
  | .left _ _ r => r
  | .right l _ _ => l

/-- The node above with a subtree put back. -/
def plug : Frame ι κ → PtrTree ι κ → PtrTree ι κ
  | .left p k r, t => .node t p k r
  | .right l p k, t => .node l p k t

/-- The cell of the node above, whose child on the path is `q`. -/
def cell (root : PtrTree ι κ → Option ι) (par q : Option ι) : Frame ι κ → TreeCell ι κ
  | .left _ k r => ⟨k,par,q,root r⟩
  | .right l _ k => ⟨k,par,root l,q⟩

end Frame

namespace PtrTree

/-- The pointer to a tree. -/
def root : PtrTree ι κ → Option ι
  | .leaf => none
  | .node _ p _ _ => some p

/-- The addresses in preorder. -/
def addrs : PtrTree ι κ → List ι
  | .leaf => []
  | .node l p _ r => p :: (l.addrs ++ r.addrs)

/-- The keys in preorder. -/
def keys : PtrTree ι κ → List κ
  | .leaf => []
  | .node l _ k r => k :: (l.keys ++ r.keys)

def size (t : PtrTree ι κ) : Nat := t.addrs.length

/-- The nodes of the tree lie in memory with these children and parents. -/
def Linked (h : ι → Option (TreeCell ι κ)) : Option ι → PtrTree ι κ → Prop
  | _, .leaf => True
  | par, .node l p k r => h p = some ⟨k,par,l.root,r.root⟩ ∧ Linked h (some p) l ∧ Linked h (some p) r

/-- Smaller keys to the left of each node, keys not smaller to its right. -/
def Ordered [LT κ] [LE κ] : PtrTree ι κ → Prop
  | .leaf => True
  | .node l _ k r => Ordered l ∧ Ordered r ∧ (∀ k' ∈ l.keys, k' < k) ∧ ∀ k' ∈ r.keys, k ≤ k'

/-- Put a subtree back at the end of its path to the root, innermost step first. -/
def fill : List (Frame ι κ) → PtrTree ι κ → PtrTree ι κ
  | [], t => t
  | f :: c, t => fill c (f.plug t)

/-- The parent of the subtree at the end of a path. -/
def parentOf : List (Frame ι κ) → Option ι
  | [] => none
  | f :: _ => some f.addr

/-- The pointer to the whole tree when the subtree at the end of the path is at `q`. -/
def rootOf : List (Frame ι κ) → Option ι → Option ι
  | [], q => q
  | f :: c, _ => rootOf c (some f.addr)

/-- The addresses on a path and beside it. -/
def pathAddrs : List (Frame ι κ) → List ι
  | [] => []
  | f :: c => f.addr :: (f.sibling.addrs ++ pathAddrs c)

/-- The nodes of a path and beside it lie in memory, with `q` at its end. -/
def PathLinked (h : ι → Option (TreeCell ι κ)) : List (Frame ι κ) → Option ι → Prop
  | [], _ => True
  | f :: c, q => h f.addr = some (f.cell root (parentOf c) q) ∧ Linked h (some f.addr) f.sibling ∧
      PathLinked h c (some f.addr)

variable {h h' : ι → Option (TreeCell ι κ)} {par par' : Option ι} {t t' l r : PtrTree ι κ} {c d : List (Frame ι κ)}
  {p : ι} {k : κ} {n : TreeCell ι κ}

@[simp] theorem parentOf_nil : parentOf ([] : List (Frame ι κ)) = none := rfl

@[simp] theorem parentOf_cons (f : Frame ι κ) : parentOf (f :: c) = some f.addr := rfl

@[simp] theorem root_leaf : (leaf : PtrTree ι κ).root = none := rfl

@[simp] theorem root_node : (node l p k r).root = some p := rfl

@[simp] theorem addrs_leaf : (leaf : PtrTree ι κ).addrs = [] := rfl

@[simp] theorem keys_leaf : (leaf : PtrTree ι κ).keys = [] := rfl

@[simp] theorem addrs_node : (node l p k r).addrs = p :: (l.addrs ++ r.addrs) := rfl

@[simp] theorem keys_node : (node l p k r).keys = k :: (l.keys ++ r.keys) := rfl

@[simp] theorem length_keys (t : PtrTree ι κ) : t.keys.length = t.size := by
  induction t with
  | leaf => rfl
  | node l p k r ihl ihr => simp [size,ihl,ihr]

@[simp] theorem size_leaf : (leaf : PtrTree ι κ).size = 0 := rfl

theorem size_node : (node l p k r).size = l.size + r.size + 1 := by simp [size]

theorem root_mem_addrs (hr : t.root = some p) : p ∈ t.addrs := by
  cases t with
  | leaf => cases hr
  | node l q k r => cases hr; simp

theorem root_eq_none : t.root = none ↔ t = leaf := by
  cases t <;> simp

/-- Memory holds at most one tree behind a pointer. -/
theorem Linked.unique (hl : Linked h par t) (hl' : Linked h par' t') (hr : t.root = t'.root) : t = t' := by
  induction t generalizing par par' t' with
  | leaf => exact (root_eq_none.mp hr.symm).symm
  | node l p k r ihl ihr =>
    cases t' with
    | leaf => cases hr
    | node l' p' k' r' =>
      cases hr
      obtain ⟨hc,h₁,h₂⟩ := hl
      obtain ⟨hc',h₁',h₂'⟩ := hl'
      rw [hc] at hc'
      obtain ⟨hk,_,hrl,hrr⟩ : k = k' ∧ par = par' ∧ l.root = l'.root ∧ r.root = r'.root := by simpa using hc'
      rw [hk,ihl h₁ h₁' hrl,ihr h₂ h₂' hrr]

/-- Writes outside a tree leave it as it is. -/
theorem Linked.congr (hl : Linked h par t) (he : ∀ a ∈ t.addrs, h' a = h a) : Linked h' par t := by
  induction t generalizing par with
  | leaf => trivial
  | node l p k r ihl ihr =>
    obtain ⟨hc,h₁,h₂⟩ := hl
    refine ⟨by rw [he p (by simp)]; exact hc,ihl h₁ fun a ha => he a (by simp [ha]),ihr h₂ fun a ha => he a (by simp [ha])⟩

theorem Linked.get (hl : Linked h par t) (hp : p ∈ t.addrs) : ∃ n, h p = some n := by
  induction t generalizing par with
  | leaf => cases hp
  | node l q k r ihl ihr =>
    obtain ⟨hc,h₁,h₂⟩ := hl
    rcases List.mem_cons.mp hp with rfl | hp
    · exact ⟨_,hc⟩
    · rcases List.mem_append.mp hp with hp | hp
      · exact ihl h₁ hp
      · exact ihr h₂ hp

@[simp] theorem fill_append : fill (c ++ d) t = fill d (fill c t) := by
  induction c generalizing t with
  | nil => rfl
  | cons f c ih => exact ih

theorem root_fill : (fill c t).root = rootOf c t.root := by
  induction c generalizing t with
  | nil => rfl
  | cons f c ih =>
    rw [fill,ih,rootOf]
    cases f <;> rfl

private theorem addrs_plug (f : Frame ι κ) : (f.plug t).addrs.Perm (f.addr :: (f.sibling.addrs ++ t.addrs)) := by
  cases f with
  | left q k r => exact List.perm_append_comm.cons _
  | right l q k => exact List.Perm.refl _

theorem addrs_fill : (fill c t).addrs.Perm (pathAddrs c ++ t.addrs) := by
  induction c generalizing t with
  | nil => exact List.Perm.refl _
  | cons f c ih =>
    refine ih.trans (((addrs_plug f).append_left _).trans ?_)
    rw [pathAddrs,List.cons_append,List.append_assoc]
    refine List.perm_middle.trans (List.Perm.cons _ ?_)
    rw [← List.append_assoc,← List.append_assoc]
    exact List.perm_append_comm.append_right _

theorem size_fill : (fill c t).size = (pathAddrs c).length + t.size := by
  rw [size,addrs_fill.length_eq,List.length_append,size]

/-- A linked tree is a linked path with a linked subtree at its end. -/
theorem linked_fill : Linked h none (fill c t) ↔ PathLinked h c t.root ∧ Linked h (parentOf c) t := by
  induction c generalizing t with
  | nil => simp [fill,PathLinked,parentOf]
  | cons f c ih =>
    rw [fill,ih]
    cases f with
    | left q k r => simp only [Frame.plug,PathLinked,Linked,parentOf,Frame.cell,Frame.addr,Frame.sibling,root_node]; tauto
    | right l q k => simp only [Frame.plug,PathLinked,Linked,parentOf,Frame.cell,Frame.addr,Frame.sibling,root_node]; tauto

theorem PathLinked.congr {q : Option ι} (hl : PathLinked h c q) (he : ∀ a ∈ pathAddrs c, h' a = h a) :
    PathLinked h' c q := by
  induction c generalizing q with
  | nil => trivial
  | cons f c ih =>
    obtain ⟨hc,hs,ht⟩ := hl
    refine ⟨by rw [he _ (by simp [pathAddrs])]; exact hc,hs.congr fun a ha => he a (by simp [pathAddrs,ha]),?_⟩
    exact ih ht fun a ha => he a (by simp [pathAddrs,ha])

section Update
variable [DecidableEq ι]

/-- Writing the parent of its topmost node moves a tree below another node. -/
theorem Linked.reparent (hl : Linked h par (node l p k r)) (hp : p ∉ l.addrs ++ r.addrs) :
    Linked (Function.update h p (some ⟨k,par',l.root,r.root⟩)) par' (node l p k r) := by
  obtain ⟨_,h₁,h₂⟩ := hl
  have hfar : ∀ a ∈ l.addrs ++ r.addrs, Function.update h p (some ⟨k,par',l.root,r.root⟩) a = h a := by
    intro a ha
    refine Function.update_of_ne ?_ _ _
    rintro rfl
    exact hp ha
  exact ⟨Function.update_self _ _ _,h₁.congr fun a ha => hfar a (by simp [ha]),h₂.congr fun a ha => hfar a (by simp [ha])⟩

/-- Writing the child pointer of the last node of a path changes what is at its end. -/
theorem PathLinked.redirect {f : Frame ι κ} {q q' : Option ι} (hl : PathLinked h (f :: c) q)
    (hf : f.addr ∉ f.sibling.addrs ++ pathAddrs c) :
    PathLinked (Function.update h f.addr (some (f.cell root (parentOf c) q'))) (f :: c) q' := by
  obtain ⟨_,hs,ht⟩ := hl
  have hfar : ∀ a ∈ f.sibling.addrs ++ pathAddrs c,
      Function.update h f.addr (some (f.cell root (parentOf c) q')) a = h a := by
    intro a ha
    refine Function.update_of_ne ?_ _ _
    rintro rfl
    exact hf ha
  exact ⟨Function.update_self _ _ _,hs.congr fun a ha => hfar a (by simp [ha]),ht.congr fun a ha => hfar a (by simp [ha])⟩

end Update

private theorem mem_keys_plug (f : Frame ι κ) (hs : ∀ a ∈ t'.keys, a ∈ t.keys) :
    ∀ a ∈ (f.plug t').keys, a ∈ (f.plug t).keys := by
  intro a ha
  cases f with
  | left q j s =>
    simp only [Frame.plug,keys_node,List.mem_cons,List.mem_append] at ha ⊢
    rcases ha with ha | ha | ha
    · exact .inl ha
    · exact .inr (.inl (hs a ha))
    · exact .inr (.inr ha)
  | right s q j =>
    simp only [Frame.plug,keys_node,List.mem_cons,List.mem_append] at ha ⊢
    rcases ha with ha | ha | ha
    · exact .inl ha
    · exact .inr (.inl ha)
    · exact .inr (.inr (hs a ha))

section Order
variable [LinearOrder κ]

/-- A subtree may be replaced by any ordered tree without new keys. -/
theorem Ordered.refill (ho : Ordered (fill c t)) (ht : Ordered t → Ordered t') (hs : ∀ a ∈ t'.keys, a ∈ t.keys) :
    Ordered (fill c t') := by
  induction c generalizing t t' with
  | nil => exact ht ho
  | cons f c ih =>
    refine ih ho (fun hp => ?_) (mem_keys_plug f hs)
    cases f with
    | left q j s =>
      obtain ⟨hl,hr,hlt,hge⟩ := hp
      exact ⟨ht hl,hr,fun a ha => hlt a (hs a ha),hge⟩
    | right s q j =>
      obtain ⟨hl,hr,hlt,hge⟩ := hp
      exact ⟨hl,ht hr,hlt,fun a ha => hge a (hs a ha)⟩

theorem Ordered.of_fill (ho : Ordered (fill c t)) : Ordered t := by
  induction c generalizing t with
  | nil => exact ho
  | cons f c ih =>
    cases f with
    | left q j s => exact (ih ho).1
    | right s q j => exact (ih ho).2.1

end Order

/-- The keys on a path and beside it. -/
def pathKeys : List (Frame ι κ) → Multiset κ
  | [] => 0
  | .left _ k s :: c | .right s _ k :: c => k ::ₘ (s.keys + pathKeys c)

theorem keys_fill : ((fill c t).keys : Multiset κ) = pathKeys c + t.keys := by
  induction c generalizing t with
  | nil => simp [fill,pathKeys]
  | cons f c ih =>
    rw [fill,ih]
    cases f with
    | left q j s =>
      simp only [Frame.plug,pathKeys,keys_node,← Multiset.cons_coe,← Multiset.coe_add,Multiset.cons_add,Multiset.add_cons]
      congr 1
      abel
    | right s q j =>
      simp only [Frame.plug,pathKeys,keys_node,← Multiset.cons_coe,← Multiset.coe_add,Multiset.cons_add,Multiset.add_cons]
      congr 1
      abel

theorem mem_keys_fill {a : κ} : a ∈ (fill c t).keys ↔ a ∈ pathKeys c ∨ a ∈ t.keys := by
  rw [← Multiset.mem_coe,keys_fill,Multiset.mem_add,Multiset.mem_coe]

/-- The nodes from left to right. -/
def inorder : PtrTree ι κ → List (ι × κ)
  | .leaf => []
  | .node l p k r => l.inorder ++ (p,k) :: r.inorder

/-- The nodes to the left of the end of a path. -/
def before : List (Frame ι κ) → List (ι × κ)
  | [] => []
  | .left _ _ _ :: c => before c
  | .right l p k :: c => before c ++ (l.inorder ++ [(p,k)])

/-- The nodes to the right of the end of a path. -/
def after : List (Frame ι κ) → List (ι × κ)
  | [] => []
  | .left p k r :: c => (p,k) :: (r.inorder ++ after c)
  | .right _ _ _ :: c => after c

@[simp] theorem inorder_leaf : (leaf : PtrTree ι κ).inorder = [] := rfl

@[simp] theorem inorder_node : (node l p k r).inorder = l.inorder ++ (p,k) :: r.inorder := rfl

/-- A subtree is a stretch of the whole tree. -/
theorem inorder_fill : (fill c t).inorder = before c ++ (t.inorder ++ after c) := by
  induction c generalizing t with
  | nil => simp [fill,before,after]
  | cons f c ih =>
    rw [fill,ih]
    cases f with
    | left q j s => simp [Frame.plug,before,after]
    | right s q j => simp [Frame.plug,before,after]

/-- Nothing lies to the left of a path that always turns left. -/
theorem before_left (hc : ∀ f ∈ c, ∃ q j s, f = Frame.left q j s) : before c = [] := by
  induction c with
  | nil => rfl
  | cons f c ih =>
    obtain ⟨q,j,s,rfl⟩ := hc f (by simp)
    exact ih fun f hf => hc f (by simp [hf])

/-- The node at the end of the path that always turns left. -/
def lowest : PtrTree ι κ → Option ι
  | .leaf => none
  | .node l p _ _ => l.lowest.or (some p)

theorem lowest_of_ne (hl : l ≠ leaf) : (node l p k r).lowest = l.lowest := by
  cases l with
  | leaf => exact absurd rfl hl
  | node l' p' k' r' =>
    rw [lowest,lowest]
    cases l'.lowest <;> rfl

/-- A tree seen from its lowest node. -/
theorem exists_lowest (t : PtrTree ι κ) (ht : t ≠ leaf) : ∃ c p k r, t = fill c (node leaf p k r) ∧
    t.lowest = some p ∧ ∀ f ∈ c, ∃ q j s, f = Frame.left q j s := by
  induction t with
  | leaf => exact absurd rfl ht
  | node l p k r ihl _ =>
    cases l with
    | leaf => exact ⟨[],p,k,r,rfl,rfl,by simp⟩
    | node l' p' k' r' =>
      obtain ⟨c,q,j,s,he,hq,hc⟩ := ihl (by simp)
      refine ⟨c ++ [Frame.left p k r],q,j,s,by rw [fill_append,← he]; rfl,by rw [lowest_of_ne (by simp),hq],?_⟩
      intro f hf
      rcases List.mem_append.mp hf with hf | hf
      · exact hc f hf
      · exact ⟨p,k,r,List.mem_singleton.mp hf⟩

/-- On a path that always turns left the keys only grow. -/
theorem Ordered.le_fill [LinearOrder κ] {m : κ} (ho : Ordered (fill c t)) (hc : ∀ f ∈ c, ∃ q j s, f = Frame.left q j s)
    (hm : m ∈ t.keys) (hle : ∀ a ∈ t.keys, m ≤ a) : ∀ a ∈ (fill c t).keys, m ≤ a := by
  induction c generalizing t with
  | nil => exact hle
  | cons f c ih =>
    obtain ⟨q,j,s,rfl⟩ := hc f (by simp)
    obtain ⟨_,_,hlt,hge⟩ := Ordered.of_fill (c := c) ho
    refine ih ho (fun f hf => hc f (by simp [hf])) (by simp [Frame.plug,hm]) ?_
    intro a ha
    simp only [Frame.plug,keys_node,List.mem_cons,List.mem_append] at ha
    rcases ha with rfl | ha | ha
    · exact (hlt m hm).le
    · exact hle a ha
    · exact (hlt m hm).le.trans (hge a ha)

/-- The topmost node is taken out: its place goes to its only child, or to the
lowest node of its right subtree. -/
inductive Removed : PtrTree ι κ → PtrTree ι κ → Prop
  | noLeft {p : ι} {k : κ} {r : PtrTree ι κ} : Removed (node leaf p k r) r
  | noRight {l : PtrTree ι κ} {p : ι} {k : κ} : Removed (node l p k leaf) l
  | successor {l r : PtrTree ι κ} {p y : ι} {k j : κ} {c : List (Frame ι κ)} :
      (∀ f ∈ c, ∃ q j s, f = Frame.left q j s) →
      Removed (node l p k (fill c (node leaf y j r))) (node l y j (fill c r))

namespace Removed

theorem addrs (hr : Removed (node l p k r) t) : (p :: t.addrs).Perm (node l p k r).addrs := by
  cases hr with
  | noLeft => exact List.Perm.refl _
  | noRight => simp [PtrTree.addrs]
  | @successor _ r _ y _ j c _ =>
    rw [addrs_node,addrs_node]
    refine List.Perm.cons _ (List.perm_middle.symm.trans (List.Perm.append_left _ ?_))
    have h₁ := (addrs_fill (c := c) (t := r)).cons y
    have h₂ := addrs_fill (c := c) (t := node leaf y j r)
    exact h₁.trans (List.perm_middle.symm.trans h₂.symm)

theorem size (hr : Removed (node l p k r) t) : (node l p k r).size = t.size + 1 := by
  have := hr.addrs.length_eq
  simp only [List.length_cons] at this
  exact this.symm

theorem keys (hr : Removed (node l p k r) t) : ((node l p k r).keys : Multiset κ) = k ::ₘ (t.keys : Multiset κ) := by
  cases hr with
  | noLeft => rfl
  | noRight => simp [PtrTree.keys]
  | @successor _ r _ y _ j c _ =>
    have h₁ := keys_fill (c := c) (t := r)
    have h₂ := keys_fill (c := c) (t := node leaf y j r)
    simp only [keys_node,keys_leaf,List.nil_append,← Multiset.cons_coe,← Multiset.coe_add,h₁,h₂,Multiset.add_cons]

/-- The other nodes keep their order. -/
theorem inorder (hr : Removed (node l p k r) t) : t.inorder = l.inorder ++ r.inorder := by
  cases hr with
  | noLeft => rfl
  | noRight => simp
  | successor hc => rw [inorder_node,inorder_fill,inorder_fill,before_left hc]; simp

theorem mem_keys (hr : Removed (node l p k r) t) : ∀ a ∈ t.keys, a ∈ (node l p k r).keys := by
  intro a ha
  have hm : a ∈ ((node l p k r).keys : Multiset κ) := by
    rw [hr.keys]
    exact Multiset.mem_cons_of_mem (Multiset.mem_coe.mpr ha)
  exact Multiset.mem_coe.mp hm

theorem ordered [LinearOrder κ] (hr : Removed (node l p k r) t) (ho : Ordered (node l p k r)) : Ordered t := by
  obtain ⟨hl,hright,hlt,hge⟩ := ho
  cases hr with
  | noLeft => exact hright
  | noRight => exact hl
  | @successor _ r _ y _ j c hc =>
    have hj : j ∈ (fill c (node leaf y j r)).keys := mem_keys_fill.mpr (.inr (by simp))
    obtain ⟨_,_,_,hmin⟩ := Ordered.of_fill hright
    have hlow := hright.le_fill (m := j) hc (by simp) (by simpa using hmin)
    have hkeys : ∀ a ∈ (fill c r).keys, a ∈ (fill c (node leaf y j r)).keys := by
      intro a ha
      exact mem_keys_fill.mpr ((mem_keys_fill.mp ha).imp_right fun h => by simp [h])
    refine ⟨hl,hright.refill (fun h => h.2.1) (by simp +contextual),fun a ha => (hlt a ha).trans_le (hge j hj),?_⟩
    exact fun a ha => hlow a (hkeys a ha)

end Removed

end PtrTree
end MyProgram.Lib

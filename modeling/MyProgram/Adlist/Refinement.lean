import Mathlib.Data.List.Perm.Subperm
import MyProgram.Adlist.Model
import MyProgram.Lib.Runs

/-! The doubly linked list is a sequence of nodes with values. -/
namespace MyProgram.Adlist
open Lib DList

/-- A sequence with an element put beside the element of a node. -/
def insertAt (oldNode : Nat) (after : Bool) (x : Nat × Value) : List (Nat × Value) → List (Nat × Value)
  | [] => []
  | e :: l => if e.1 = oldNode then (if after then e :: x :: l else x :: e :: l) else e :: insertAt oldNode after x l

/-- What an operation does to the sequence. A failed allocation does nothing. -/
def seqStep (l : List (Nat × Value)) : ListOp → List (Nat × Value)
  | .addNodeHead value (some node) => (node,value) :: l
  | .addNodeTail value (some node) => l ++ [(node,value)]
  | .insertNode oldNode value after (some node) => insertAt oldNode (after ≠ 0) (node,value) l
  | .delNode node => l.eraseP (·.1 = node)
  | .rotate => l.getLast?.toList ++ l.dropLast
  | _ => l

/-- The node an operation adds, removes or moves. -/
def subject (l : List (Nat × Value)) : ListOp → Option Nat
  | .addNodeHead _ malloc | .addNodeTail _ malloc | .insertNode _ _ _ malloc => malloc
  | .delNode node => some node
  | .rotate => l.getLast?.map (·.1)
  | .setFreeMethod _ => none

namespace Store

/-- `malloc` answers NULL or an address of the machine that is not in use. -/
def Fresh (s : Store) (malloc : Option Nat) : Prop := ∀ a ∈ malloc, 0 < a ∧ a < 2^64 ∧ s.heap a = none

instance (s : Store) (malloc : Option Nat) : Decidable (s.Fresh malloc) :=
  inferInstanceAs (Decidable (∀ a ∈ malloc, 0 < a ∧ a < 2^64 ∧ s.heap a = none))

/-- Memory is new where it is allocated, and nodes that are named are on the list. -/
def Callable (s : Store) : ListOp → Prop
  | .addNodeHead _ malloc | .addNodeTail _ malloc => s.Fresh malloc
  | .insertNode oldNode _ _ malloc => s.Fresh malloc ∧ oldNode ∈ s.nodes
  | .delNode node => node ∈ s.nodes
  | .rotate | .setFreeMethod _ => True

instance (s : Store) (op : ListOp) : Decidable (s.Callable op) :=
  match op with
  | .addNodeHead _ malloc | .addNodeTail _ malloc => inferInstanceAs (Decidable (s.Fresh malloc))
  | .insertNode oldNode _ _ malloc => inferInstanceAs (Decidable (s.Fresh malloc ∧ oldNode ∈ s.nodes))
  | .delNode node => inferInstanceAs (Decidable (node ∈ s.nodes))
  | .rotate | .setFreeMethod _ => inferInstanceAs (Decidable True)

/-- Both directions visit the nodes of the sequence and end in NULL, the nodes have
its values, and `len` is its length. -/
structure Represents (s : Store) (l : List (Nat × Value)) : Prop where
  forward : Chain (nextOf s.heap) s.list.head (l.map (·.1))
  backward : Chain (prevOf s.heap) s.list.tail (l.map (·.1)).reverse
  values : ∀ e ∈ l, ∃ n, s.heap e.1 = some n ∧ n.value = e.2
  len : s.list.len = l.length

/-- The invariant behind it. -/
structure Holds (s : Store) (l : List (Nat × Value)) : Prop where
  seg : Seg s.heap none l none
  head : s.list.head = first l none
  tail : s.list.tail = last l none
  len : s.list.len = l.length
  distinct : (l.map (·.1)).Nodup
  range : ∀ a ∈ l.map (·.1), 0 < a ∧ a < 2^64

variable {s s' : Store} {l r seq : List (Nat × Value)} {e : Nat × Value} {a node : Nat} {v : Value} {n : ListNode} {site : Site}

theorem Holds.represents (h : s.Holds seq) : s.Represents seq := by
  refine ⟨?_,?_,fun e he => h.seg.get he,h.len⟩
  · rw [h.head]
    exact h.seg.forward
  · rw [h.tail]
    exact h.seg.backward

theorem Holds.nodes_eq (h : s.Holds seq) : s.nodes = seq.map (·.1) := by
  have hlen : (seq.map (·.1)).length = s.list.len := by rw [h.len,List.length_map]
  exact h.represents.forward.follow_eq (Nat.le_of_eq hlen)

/-- There are fewer nodes than addresses. -/
private theorem length_lt {l : List Nat} (hd : l.Nodup) (hr : ∀ a ∈ l, 0 < a ∧ a < 2^64) : l.length < 2^64 := by
  have hsub : l ⊆ List.range' 1 (2^64 - 1) := by
    intro a ha
    have := hr a ha
    rw [List.mem_range'_1]
    omega
  have := (hd.subperm hsub).length_le
  rw [List.length_range'] at this
  omega

private theorem Holds.notMem (h : s.Holds seq) (ha : s.heap a = none) : a ∉ seq.map (·.1) := by
  intro hm
  obtain ⟨e,he,rfl⟩ := List.mem_map.mp hm
  obtain ⟨n,hn,_⟩ := h.seg.get he
  rw [ha] at hn
  cases hn

theorem deref_eq (h : s.heap a = some n) : s.deref site (some a) = .ok n [] := by
  simp only [deref,h]

private theorem write_next (q : Option Nat) (h : s.heap a = some n) :
    s.write site (some a) (fun n => { n with next := q }) = .ok { s with heap := setNext s.heap (some a) q } [] := by
  simp only [write,h,setNext,Option.map_some]

private theorem write_prev (q : Option Nat) (h : s.heap a = some n) :
    s.write site (some a) (fun n => { n with prev := q }) = .ok { s with heap := setPrev s.heap (some a) q } [] := by
  simp only [write,h,setPrev,Option.map_some]

/-- A fresh node is linked between two parts of the list. -/
private def spliced (s : Store) (l r : List (Nat × Value)) (a : Nat) (v : Value) : Store where
  heap := setPrev (setNext (Function.update s.heap a (some ⟨last l none,first r none,v⟩)) (last l none) (some a))
    (first r none) (some a)
  list := { s.list with
    head := first (l ++ (a,v) :: r) none
    tail := last (l ++ (a,v) :: r) none
    len := (s.list.len + 1) % 2^64 }

private theorem Holds.spliced (h : s.Holds (l ++ r)) (ha : 0 < a ∧ a < 2^64 ∧ s.heap a = none) (v : Value) :
    (s.spliced l r a v).Holds (l ++ (a,v) :: r) := by
  have hn := h.notMem ha.2.2
  have hp : ((l ++ (a,v) :: r).map (·.1)).Perm (a :: (l ++ r).map (·.1)) := List.perm_middle.map _
  have hd : ((l ++ (a,v) :: r).map (·.1)).Nodup := hp.nodup_iff.mpr (List.nodup_cons.mpr ⟨hn,h.distinct⟩)
  have hr : ∀ b ∈ (l ++ (a,v) :: r).map (·.1), 0 < b ∧ b < 2^64 := by
    intro b hb
    rcases List.mem_cons.mp (hp.mem_iff.mp hb) with rfl | hb
    · exact ⟨ha.1,ha.2.1⟩
    · exact h.range b hb
  refine ⟨h.seg.insert h.distinct hn,rfl,rfl,?_,hd,hr⟩
  have hlt := length_lt hd hr
  rw [List.length_map,List.length_append,List.length_cons] at hlt
  change (s.list.len + 1) % 2^64 = _
  rw [h.len,List.length_append,List.length_append,List.length_cons,Nat.mod_eq_of_lt (by omega)]
  omega

private theorem Holds.fresh_get (h : s.Holds seq) (ha : s.heap a = none) (he : e ∈ seq) (n : ListNode) :
    ∃ m, (s.fresh a n).heap e.1 = some m := by
  obtain ⟨m,hm,_⟩ := h.seg.get he
  refine ⟨m,?_⟩
  have hne : e.1 ≠ a := by
    rintro rfl
    rw [ha] at hm
    cases hm
  exact (Function.update_of_ne hne _ _).trans hm

private theorem addNodeHead_eq (h : s.Holds seq) (ha : s.heap a = none) (v : Value) :
    s.listAddNodeHead v (some a) = .ok (s.spliced [] seq a v,true) [] := by
  cases seq with
  | nil => simp [listAddNodeHead,h.len,Store.spliced,addToEmpty,countUp,setTail,setHead,fresh,setPrev,setNext]
  | cons e l =>
    obtain ⟨m,hm⟩ := h.fresh_get ha (List.mem_cons_self (a := e)) ⟨none,some e.1,v⟩
    have hhead : s.list.head = some e.1 := h.head
    have hlen : s.list.len ≠ 0 := by rw [h.len]; simp
    simp only [listAddNodeHead,if_neg hlen,hhead]
    rw [show (s.fresh a ⟨none,some e.1,v⟩).list.head = some e.1 from hhead,write_prev (some a) hm]
    simp only [Act.bind_ok,Act.after_nil,Act.pure_eq,countUp,setHead,fresh,h.tail]
    rfl

private theorem addNodeTail_eq (h : s.Holds seq) (ha : s.heap a = none) (v : Value) :
    s.listAddNodeTail v (some a) = .ok (s.spliced seq [] a v,true) [] := by
  induction seq using List.reverseRecOn with
  | nil => simp [listAddNodeTail,h.len,Store.spliced,addToEmpty,countUp,setTail,setHead,fresh,setPrev,setNext]
  | append_singleton l e _ =>
    obtain ⟨m,hm⟩ := h.fresh_get ha (List.mem_append_right l (List.mem_singleton_self e)) ⟨some e.1,none,v⟩
    have htail : s.list.tail = some e.1 := by rw [h.tail,last_append]; rfl
    have hlen : s.list.len ≠ 0 := by rw [h.len]; simp
    simp only [listAddNodeTail,if_neg hlen,htail]
    rw [show (s.fresh a ⟨some e.1,none,v⟩).list.tail = some e.1 from htail,write_next (some a) hm]
    simp only [Act.bind_ok,Act.after_nil,Act.pure_eq,countUp,setTail,fresh,h.head]
    simp [Store.spliced,setPrev]

private theorem spliced_far (s : Store) {b : Nat} (hb : b ∉ (l ++ r).map (·.1)) (hba : b ≠ a) :
    (s.spliced l r a v).heap b = s.heap b := by
  rw [List.map_append,List.mem_append,not_or] at hb
  have hl : last l none ≠ some b := fun he => hb.1 (mem_of_last he)
  have hr : first r none ≠ some b := fun he => hb.2 (mem_of_first he)
  exact (setPrev_of_ne hr).trans ((setNext_of_ne hl).trans (Function.update_of_ne hba _ _))

/-- A node goes behind the others; memory beside the list stays as it is, and so do the functions. -/
theorem addNodeTail_spec (h : s.Holds seq) (ha : 0 < a ∧ a < 2^64 ∧ s.heap a = none) (v : Value) :
    ∃ s', s.listAddNodeTail v (some a) = .ok (s',true) [] ∧ s'.Holds (seq ++ [(a,v)]) ∧
      (∀ b ∉ (seq ++ [(a,v)]).map (·.1), s'.heap b = s.heap b) ∧ s'.list.dup = s.list.dup ∧ s'.list.free = s.list.free := by
  have h' : s.Holds (seq ++ []) := by simpa using h
  refine ⟨_,addNodeTail_eq h ha.2.2 v,h'.spliced ha v,fun b hb => ?_,rfl,rfl⟩
  simp only [List.map_append,List.map_cons,List.map_nil,List.mem_append,List.mem_singleton,not_or] at hb
  exact s.spliced_far (by simpa using hb.1) hb.2

private theorem linkPrev_eq {p q : Option Nat} (ha : s.heap a = some ⟨p,q,v⟩) (hp : ∀ b ∈ p, ∃ m, s.heap b = some m) :
    s.linkPrev a = .ok { s with heap := setNext s.heap p (some a) } [] := by
  simp only [linkPrev,deref_eq ha,Act.bind_ok,Act.after_nil]
  cases p with
  | none => rfl
  | some b =>
    obtain ⟨m,hm⟩ := hp b rfl
    exact write_next (some a) hm

private theorem linkNext_eq {p q : Option Nat} (ha : s.heap a = some ⟨p,q,v⟩) (hq : ∀ b ∈ q, ∃ m, s.heap b = some m) :
    s.linkNext a = .ok { s with heap := setPrev s.heap q (some a) } [] := by
  simp only [linkNext,deref_eq ha,Act.bind_ok,Act.after_nil]
  cases q with
  | none => rfl
  | some b =>
    obtain ⟨m,hm⟩ := hq b rfl
    exact write_prev (some a) hm

private theorem setNext_get {p q : Option Nat} (h : ∃ m, s.heap a = some m) : ∃ m, setNext s.heap p q a = some m := by
  obtain ⟨m,hm⟩ := h
  by_cases hp : p = some a
  · subst hp
    exact ⟨{ m with next := q },by simp [setNext,hm]⟩
  · exact ⟨m,(setNext_of_ne hp).trans hm⟩

private theorem Holds.last_get (h : s.Holds (l ++ r)) (ha : s.heap a = none) (n : ListNode) :
    last l none ≠ some a ∧ (∀ b ∈ last l none, ∃ m, (s.fresh a n).heap b = some m) ∧
      ∀ b ∈ first r none, ∃ m, (s.fresh a n).heap b = some m := by
  have hn := h.notMem ha
  rw [List.map_append] at hn
  refine ⟨fun he => hn (List.mem_append_left _ (mem_of_last he)),fun b hb => ?_,fun b hb => ?_⟩
  · obtain ⟨e,he,rfl⟩ := List.mem_map.mp (mem_of_last hb)
    exact h.fresh_get ha (List.mem_append_left _ he) n
  · obtain ⟨e,he,rfl⟩ := List.mem_map.mp (mem_of_first hb)
    exact h.fresh_get ha (List.mem_append_right _ he) n

/-- A node knows its neighbours. -/
theorem Holds.cell (h : s.Holds (l ++ e :: r)) : s.heap e.1 = some ⟨last l none,first r none,e.2⟩ :=
  (seg_append.mp h.seg).2.1

private theorem Holds.apart (h : s.Holds (l ++ e :: r)) : e.1 ∉ l.map (·.1) ∧ e.1 ∉ r.map (·.1) := by
  have hd := h.distinct
  rw [List.map_append,List.map_cons,List.nodup_append,List.nodup_cons] at hd
  exact ⟨fun hm => hd.2.2 e.1 hm e.1 (by simp) rfl,hd.2.1.1⟩

/-- Where a node is placed it fits between the two parts of the list. -/
private theorem linked_spliced {t : Store} (h : s.Holds (l ++ r)) (ha : s.heap a = none)
    (hheap : t.heap = (s.fresh a ⟨last l none,first r none,v⟩).heap)
    (hlist : t.list = { s.list with head := first (l ++ (a,v) :: r) none, tail := last (l ++ (a,v) :: r) none }) :
    (do
      let s ← t.linkPrev a
      let s ← s.linkNext a
      pure (s.countUp,true)) = (.ok (s.spliced l r a v,true) [] : ListM (Store × Bool)) := by
  obtain ⟨hne,hp,hq⟩ := h.last_get ha ⟨last l none,first r none,v⟩
  rw [← hheap] at hp hq
  have hcell : t.heap a = some ⟨last l none,first r none,v⟩ := by
    rw [hheap]
    exact Function.update_self _ _ _
  have hcell' : ({ t with heap := setNext t.heap (last l none) (some a) } : Store).heap a =
      some ⟨last l none,first r none,v⟩ := (setNext_of_ne hne).trans hcell
  simp only [linkPrev_eq hcell hp,Act.bind_ok,Act.after_nil]
  rw [linkNext_eq hcell' fun b hb => setNext_get (hq b hb)]
  simp only [Act.bind_ok,Act.after_nil,Act.pure_eq,countUp,hlist,hheap]
  rfl

private theorem insertNode_after_eq (h : s.Holds (l ++ e :: r)) (ha : s.heap a = none) (v : Value) {after : Int} (hz : after ≠ 0) :
    s.listInsertNode e.1 v after (some a) = .ok (s.spliced (l ++ [e]) r a v,true) [] := by
  have hsplit : l ++ e :: r = (l ++ [e]) ++ r := by simp
  simp only [listInsertNode,deref_eq h.cell,Act.bind_ok,Act.after_nil]
  refine linked_spliced (hsplit ▸ h) ha ?_ ?_
  · simp only [placeNode,if_pos hz]
    rw [last_append]
    split <;> rfl
  · have hhead : first ((l ++ [e]) ++ (a,v) :: r) none = s.list.head := by
      rw [h.head]
      cases l <;> rfl
    have htail := h.tail
    rw [last_append,last_cons] at htail
    simp only [placeNode,if_pos hz,hhead]
    cases r with
    | nil =>
      rw [if_pos (by exact htail),last_append]
      rfl
    | cons d r =>
      have hne : s.list.tail ≠ some e.1 := by
        rw [htail]
        intro he
        exact h.apart.2 (mem_of_last (l := d :: r) he)
      rw [if_neg (by exact hne),last_append,last_cons,last_cons]
      rw [last_cons] at htail
      rw [← htail]
      rfl

private theorem insertNode_before_eq (h : s.Holds (l ++ e :: r)) (ha : s.heap a = none) (v : Value) :
    s.listInsertNode e.1 v 0 (some a) = .ok (s.spliced l (e :: r) a v,true) [] := by
  simp only [listInsertNode,deref_eq h.cell,Act.bind_ok,Act.after_nil]
  refine linked_spliced h ha ?_ ?_
  · simp only [placeNode,ne_eq,not_true_eq_false,if_false]
    split <;> rfl
  · have htail : last (l ++ (a,v) :: e :: r) none = s.list.tail := by
      rw [h.tail,last_append,last_append]
      rfl
    have hhead := h.head
    simp only [placeNode,ne_eq,not_true_eq_false,if_false,htail]
    cases l with
    | nil =>
      rw [if_pos (by exact hhead)]
      rfl
    | cons d l =>
      have hne : s.list.head ≠ some e.1 := by
        rw [hhead]
        intro he
        exact h.apart.1 (by simp [← Option.some.inj he])
      rw [if_neg (by exact hne)]
      rw [List.cons_append,first_cons] at hhead
      rw [List.cons_append,first_cons,← hhead]
      rfl

/-- The list with a node taken out and given back to memory. -/
private def removed (s : Store) (l r : List (Nat × Value)) (a : Nat) : Store where
  heap := Function.update (setPrev (setNext s.heap (last l none) (first r none)) (first r none) (last l none)) a none
  list := { s.list with
    head := first (l ++ r) none
    tail := last (l ++ r) none
    len := (s.list.len + (2^64 - 1)) % 2^64 }

private theorem Holds.removed (h : s.Holds (l ++ e :: r)) : (s.removed l r e.1).Holds (l ++ r) := by
  have hsub : ((l ++ r).map (·.1)).Sublist ((l ++ e :: r).map (·.1)) :=
    (List.Sublist.append_left (List.sublist_cons_self _ _) _).map _
  refine ⟨h.seg.remove h.distinct,rfl,rfl,?_,h.distinct.sublist hsub,fun b hb => h.range b (hsub.subset hb)⟩
  have hlt := length_lt h.distinct h.range
  rw [List.length_map,List.length_append,List.length_cons] at hlt
  change (s.list.len + (2^64 - 1)) % 2^64 = _
  rw [h.len,List.length_append,List.length_append,List.length_cons]
  omega

private theorem bypassPrev_eq (h : s.Holds (l ++ e :: r)) : s.bypassPrev e.1 =
    .ok ⟨setNext s.heap (last l none) (first r none),{ s.list with head := first (l ++ r) none }⟩ [] := by
  simp only [bypassPrev,deref_eq h.cell,Act.bind_ok,Act.after_nil]
  have hhead := h.head
  induction l using List.reverseRecOn with
  | nil => rfl
  | append_singleton l d _ =>
    obtain ⟨m,hm,_⟩ := h.seg.get (e := d) (by simp)
    have hkeep : s.list.head = first ((l ++ [d]) ++ r) none := by
      rw [hhead]
      cases l <;> rfl
    rw [last_append,last_cons,last_nil,← hkeep]
    exact write_next (first r none) hm

private theorem bypassNext_eq (h : s.Holds (l ++ e :: r)) {t : Store}
    (ht : t = ⟨setNext s.heap (last l none) (first r none),{ s.list with head := first (l ++ r) none }⟩) :
    t.heap e.1 = some ⟨last l none,first r none,e.2⟩ ∧ t.bypassNext e.1 =
      .ok ⟨setPrev t.heap (first r none) (last l none),{ t.list with tail := last (l ++ r) none }⟩ [] := by
  have hcell : t.heap e.1 = some ⟨last l none,first r none,e.2⟩ := by
    rw [ht]
    exact (setNext_of_ne fun he => h.apart.1 (mem_of_last he)).trans h.cell
  refine ⟨hcell,?_⟩
  simp only [bypassNext,deref_eq hcell,Act.bind_ok,Act.after_nil]
  cases r with
  | nil =>
    rw [List.append_nil]
    rfl
  | cons d r =>
    obtain ⟨m,hm,_⟩ := h.seg.get (e := d) (by simp)
    obtain ⟨m',hm'⟩ : ∃ m', t.heap d.1 = some m' := by
      rw [ht]
      exact setNext_get ⟨m,hm⟩
    have hkeep : last (l ++ d :: r) none = t.list.tail := by
      rw [ht]
      change _ = s.list.tail
      rw [h.tail,last_append,last_append]
      rfl
    rw [hkeep]
    exact write_prev (last l none) hm'

/-- What a deletion gives away. -/
def disposals (s : Store) (e : Nat × Value) : List Effect := (s.list.free.map fun fn => .callFree fn e.2).toList ++ [.free e.1]

private theorem dispose_eq (h : s.heap a = some n) :
    s.dispose a = .ok { s with heap := Function.update s.heap a none } (s.disposals (a,n.value)) := by
  simp only [dispose,deref_eq h,Act.bind_ok,Act.after_nil,disposals]
  cases s.list.free <;> rfl

private theorem delNode_eq (h : s.Holds (l ++ e :: r)) :
    s.listDelNode e.1 = .ok (s.removed l r e.1) (s.disposals e) := by
  obtain ⟨t,ht⟩ : ∃ t : Store, t = ⟨setNext s.heap (last l none) (first r none),{ s.list with head := first (l ++ r) none }⟩ :=
    ⟨_,rfl⟩
  obtain ⟨hcell,hnext⟩ := bypassNext_eq h ht
  obtain ⟨u,hu⟩ : ∃ u : Store, u = ⟨setPrev t.heap (first r none) (last l none),{ t.list with tail := last (l ++ r) none }⟩ :=
    ⟨_,rfl⟩
  have hcell' : u.heap e.1 = some ⟨last l none,first r none,e.2⟩ := by
    rw [hu]
    exact (setPrev_of_ne fun he => h.apart.2 (mem_of_first he)).trans hcell
  rw [← hu] at hnext
  have hprev := bypassPrev_eq h
  rw [← ht] at hprev
  simp only [listDelNode,hprev,hnext,Act.bind_ok,dispose_eq hcell',Act.pure_eq,Act.after_ok,List.append_nil]
  subst hu ht
  rfl

/-- A deletion leaves the nodes on both sides. -/
theorem delNode_holds (h : s.Holds (l ++ e :: r)) : ∃ s', s.listDelNode e.1 = .ok s' (s.disposals e) ∧ s'.Holds (l ++ r) :=
  ⟨_,delNode_eq h,h.removed⟩

/-- The list with its last node in front. -/
private def rotated (s : Store) (l : List (Nat × Value)) (e : Nat × Value) : Store where
  heap := setPrev (Function.update (setNext s.heap (last l none) none) e.1 (some ⟨none,first l none,e.2⟩)) (first l none) (some e.1)
  list := { s.list with head := some e.1, tail := last l none }

private theorem Holds.rotated (h : s.Holds (l ++ [e])) (hl : l ≠ []) : (s.rotated l e).Holds (e :: l) := by
  have hp : ((e :: l).map (·.1)).Perm ((l ++ [e]).map (·.1)) := (List.perm_append_singleton e l).symm.map _
  refine ⟨h.seg.rotate h.distinct,rfl,?_,?_,hp.nodup_iff.mpr h.distinct,fun b hb => h.range b (hp.mem_iff.mp hb)⟩
  · change last l none = _
    cases l with
    | nil => exact absurd rfl hl
    | cons d l => rfl
  · change s.list.len = _
    rw [h.len]
    simp

private theorem rotate_eq (h : s.Holds (l ++ [e])) (hl : l ≠ []) : s.listRotate = .ok (s.rotated l e) [] := by
  have htail : s.list.tail = some e.1 := by rw [h.tail,last_append]; rfl
  have hlen : ¬ s.list.len ≤ 1 := by
    rw [h.len,List.length_append,List.length_singleton]
    have := List.length_pos_iff.mpr hl
    omega
  obtain ⟨d,m,hd,hm,hde⟩ : ∃ d m, last l none = some d ∧ s.heap d = some m ∧ d ≠ e.1 := by
    induction l using List.reverseRecOn with
    | nil => exact absurd rfl hl
    | append_singleton l d _ =>
      obtain ⟨m,hm,_⟩ := h.seg.get (e := d) (by simp)
      refine ⟨d.1,m,by rw [last_append]; rfl,hm,fun he => h.apart.1 (by simp [he])⟩
  obtain ⟨f,k,hf,hk,hfe⟩ : ∃ f k, first l none = some f ∧ setNext s.heap (last l none) none f = some k ∧ f ≠ e.1 := by
    cases l with
    | nil => exact absurd rfl hl
    | cons f l =>
      obtain ⟨m,hm,_⟩ := h.seg.get (e := f) (by simp)
      obtain ⟨k,hk⟩ := setNext_get (p := last (f :: l) none) (q := none) ⟨m,hm⟩
      exact ⟨f.1,k,rfl,hk,fun he => h.apart.1 (by simp [he])⟩
  have hhead : s.list.head = some f := by
    rw [h.head,first_append,← hf]
    cases l with
    | nil => exact absurd rfl hl
    | cons f l => rfl
  have hcell : s.heap e.1 = some ⟨some d,none,e.2⟩ := hd ▸ h.cell
  obtain ⟨t,ht⟩ : ∃ t : Store, t = { s.setTail (some d) with heap := setNext s.heap (some d) none } := ⟨_,rfl⟩
  have hcut : (s.setTail (some d)).write .listRotate (some d) (fun n => { n with next := none }) = .ok t [] := by
    rw [ht]
    exact write_next none hm
  have hcell' : t.heap e.1 = some ⟨some d,none,e.2⟩ := by
    rw [ht]
    exact (setNext_of_ne fun he => hde (Option.some.inj he)).trans hcell
  obtain ⟨u,hu⟩ : ∃ u : Store, u = { t with heap := Function.update t.heap e.1 (some ⟨none,some f,e.2⟩) } := ⟨_,rfl⟩
  have hthead : t.list.head = some f := by rw [ht]; exact hhead
  have hmove : t.write .listRotate (some e.1) (fun n => { n with next := t.list.head, prev := none }) = .ok u [] := by
    simp only [write,hcell',hthead,hu]
  have hfirst : u.heap f = some k := by
    rw [hu,ht,← hd]
    exact (Function.update_of_ne hfe _ _).trans hk
  have huhead : u.list.head = some f := by rw [hu]; exact hthead
  simp only [listRotate,if_neg hlen,htail,deref_eq hcell,Act.bind_ok,Act.after_nil,hcut,hmove,huhead,
    write_prev (some e.1) hfirst,Act.pure_eq,Store.rotated,setHead,hf,hd]
  subst hu ht
  rfl

private theorem Holds.split (h : s.Holds seq) (hn : node ∈ s.nodes) : ∃ l e r, seq = l ++ e :: r ∧ e.1 = node := by
  rw [h.nodes_eq] at hn
  obtain ⟨e,he,rfl⟩ := List.mem_map.mp hn
  obtain ⟨l,r,rfl⟩ := List.append_of_mem he
  exact ⟨l,e,r,rfl,rfl⟩

private theorem insertAt_split {after : Bool} {x : Nat × Value} (h : e.1 ∉ l.map (·.1)) :
    insertAt e.1 after x (l ++ e :: r) = l ++ (if after then e :: x :: r else x :: e :: r) := by
  induction l with
  | nil => simp [insertAt]
  | cons d l ih =>
    rw [List.map_cons,List.mem_cons,not_or] at h
    rw [List.cons_append,insertAt,if_neg (Ne.symm h.1),ih h.2]
    rfl

private theorem eraseP_split (h : e.1 ∉ l.map (·.1)) : (l ++ e :: r).eraseP (·.1 = e.1) = l ++ r := by
  rw [List.eraseP_append_right,List.eraseP_cons_of_pos (by simp)]
  intro d hd
  have hne : d.1 ≠ e.1 := fun he => h (List.mem_map.mpr ⟨d,hd,he⟩)
  simpa using hne

private theorem insertNode_spec (h : s.Holds seq) (hn : node ∈ s.nodes) (ha : 0 < a ∧ a < 2^64 ∧ s.heap a = none) (v : Value)
    (after : Int) : ∃ s', s.listInsertNode node v after (some a) = .ok (s',true) [] ∧
      s'.Holds (insertAt node (after ≠ 0) (a,v) seq) := by
  obtain ⟨l,e,r,rfl,rfl⟩ := h.split hn
  rw [insertAt_split h.apart.1]
  by_cases hz : after = 0
  · subst hz
    exact ⟨_,insertNode_before_eq h ha.2.2 v,by simpa using h.spliced ha v⟩
  · refine ⟨_,insertNode_after_eq h ha.2.2 v hz,?_⟩
    have h' : s.Holds ((l ++ [e]) ++ r) := by simpa using h
    simpa [hz] using h'.spliced ha v

private theorem delNode_spec (h : s.Holds seq) (hn : node ∈ s.nodes) :
    ∃ s' fx, s.listDelNode node = .ok s' fx ∧ s'.Holds (seq.eraseP (·.1 = node)) := by
  obtain ⟨l,e,r,rfl,rfl⟩ := h.split hn
  rw [eraseP_split h.apart.1]
  exact ⟨_,_,delNode_eq h,h.removed⟩

private theorem rotate_spec (h : s.Holds seq) :
    ∃ s', s.listRotate = .ok s' [] ∧ s'.Holds (seq.getLast?.toList ++ seq.dropLast) := by
  induction seq using List.reverseRecOn with
  | nil =>
    refine ⟨s,?_,h⟩
    simp [listRotate,h.len]
  | append_singleton l e _ =>
    rw [List.getLast?_concat,List.dropLast_concat]
    by_cases hl : l = []
    · subst hl
      refine ⟨s,?_,h⟩
      simp [listRotate,h.len]
    · exact ⟨_,rotate_eq h hl,h.rotated hl⟩

end Store

/-- The answer of `malloc` to an operation that allocates. -/
def ListOp.malloc? : ListOp → Option (Option Nat)
  | .addNodeHead _ malloc | .addNodeTail _ malloc | .insertNode _ _ _ malloc => some malloc
  | .delNode _ | .rotate | .setFreeMethod _ => none

variable {s : Store} {seq : List (Nat × Value)} {op : ListOp}

private theorem listStep_failed (s : Store) (h : op.malloc? = some none) : listStep s op = .ok s [.returned false] := by
  cases op with
  | addNodeHead v m => cases h; rfl
  | addNodeTail v m => cases h; rfl
  | insertNode o v af m => cases h; rfl
  | delNode _ => cases h
  | rotate => cases h
  | setFreeMethod _ => cases h

private theorem answer_ok {x : ListM (Store × Bool)} {s' : Store} {ok : Bool} (h : x = .ok (s',ok) []) :
    answer x = .ok s' [.returned ok] := by
  rw [h]
  rfl

private theorem listStep_spec (h : s.Holds seq) (hc : s.Callable op) : ∃ s' fx, listStep s op = .ok s' fx ∧
    s'.Holds (seqStep seq op) ∧ ∀ a, op.malloc? = some (some a) → fx = [.returned true] := by
  cases op with
  | addNodeHead v m =>
    cases m with
    | none => exact ⟨s,_,rfl,h,by simp [ListOp.malloc?]⟩
    | some a =>
      have ha := hc a rfl
      exact ⟨_,_,answer_ok (Store.addNodeHead_eq h ha.2.2 v),h.spliced (l := []) ha v,fun _ _ => rfl⟩
  | addNodeTail v m =>
    cases m with
    | none => exact ⟨s,_,rfl,h,by simp [ListOp.malloc?]⟩
    | some a =>
      have ha := hc a rfl
      have h' : s.Holds (seq ++ []) := by simpa using h
      exact ⟨_,_,answer_ok (Store.addNodeTail_eq h ha.2.2 v),h'.spliced ha v,fun _ _ => rfl⟩
  | insertNode old v after m =>
    cases m with
    | none => exact ⟨s,_,rfl,h,by simp [ListOp.malloc?]⟩
    | some a =>
      obtain ⟨s',he,h'⟩ := Store.insertNode_spec h hc.2 (hc.1 a rfl) v after
      exact ⟨s',_,answer_ok he,h',fun _ _ => rfl⟩
  | delNode node =>
    obtain ⟨s',fx,he,h'⟩ := Store.delNode_spec h hc
    exact ⟨s',fx,he,h',by simp [ListOp.malloc?]⟩
  | rotate =>
    obtain ⟨s',he,h'⟩ := Store.rotate_spec h
    exact ⟨s',_,he,h',by simp [ListOp.malloc?]⟩
  | setFreeMethod fn =>
    exact ⟨_,_,rfl,⟨h.seg,h.head,h.tail,h.len,h.distinct,h.range⟩,by simp [ListOp.malloc?]⟩

private theorem filter_insertAt {p : Nat × Value → Bool} {x : Nat × Value} (hx : p x = false) (old : Nat) (after : Bool)
    (l : List (Nat × Value)) : (insertAt old after x l).filter p = l.filter p := by
  induction l with
  | nil => rfl
  | cons e l ih =>
    rw [insertAt]
    split
    · cases after <;> simp [List.filter_cons,hx]
    · rw [List.filter_cons,List.filter_cons,ih]

private theorem filter_eraseP {p : Nat × Value → Bool} {node : Nat} (hp : ∀ e : Nat × Value, e.1 = node → p e = false)
    (l : List (Nat × Value)) : (l.eraseP (·.1 = node)).filter p = l.filter p := by
  induction l with
  | nil => rfl
  | cons e l ih =>
    by_cases he : e.1 = node
    · rw [List.eraseP_cons_of_pos (by simpa using he),List.filter_cons,hp e he]
      rfl
    · rw [List.eraseP_cons_of_neg (by simpa using he),List.filter_cons,List.filter_cons,ih]

/-- An operation leaves the other nodes as they are, in the order they have. -/
private theorem seqStep_others (seq : List (Nat × Value)) (op : ListOp) :
    (seqStep seq op).filter (fun e => some e.1 ≠ subject seq op) = seq.filter (fun e => some e.1 ≠ subject seq op) := by
  cases op with
  | addNodeHead v m =>
    cases m with
    | none => rfl
    | some a => simp [seqStep,subject]
  | addNodeTail v m =>
    cases m with
    | none => rfl
    | some a => simp [seqStep,subject]
  | insertNode old v after m =>
    cases m with
    | none => rfl
    | some a => exact filter_insertAt (by simp [subject]) old _ seq
  | delNode node => exact filter_eraseP (by simp +contextual [subject]) seq
  | rotate =>
    induction seq using List.reverseRecOn with
    | nil => rfl
    | append_singleton l e _ => simp [seqStep,subject]
  | setFreeMethod fn => rfl

/-- Along every run on a list from `listCreate`, with any answers of `malloc`, the list
is the sequence that the operations make: both directions visit its nodes, in
opposite orders, and end in NULL. Every operation that names nodes of the list
returns; a failed allocation returns NULL and changes nothing; the nodes that an
operation does not name stay as they are. -/
theorem list_refines_sequence (heap₀ : Nat → Option ListNode) (malloc : Option Nat) (list₀ : AList) (tr : Trace ListOp Effect)
    (s : Store) (hc : listCreate malloc = some list₀)
    (hr : Run listStep (fun _ s op => s.Callable op) ⟨heap₀,list₀⟩ tr s) :
    s.Represents ((tr.map (·.1)).foldl seqStep []) ∧
    (s.list.head = none ↔ s.list.len = 0) ∧ (s.list.tail = none ↔ s.list.len = 0) ∧
    ∀ op, s.Callable op → ∃ s' fx, listStep s op = .ok s' fx ∧
      s'.Represents (seqStep ((tr.map (·.1)).foldl seqStep []) op) ∧
      (seqStep ((tr.map (·.1)).foldl seqStep []) op).filter (fun e => some e.1 ≠ subject ((tr.map (·.1)).foldl seqStep []) op) =
        ((tr.map (·.1)).foldl seqStep []).filter (fun e => some e.1 ≠ subject ((tr.map (·.1)).foldl seqStep []) op) ∧
      (op.malloc? = some none → s' = s ∧ fx = [.returned false]) ∧
      ∀ a, op.malloc? = some (some a) → fx = [.returned true] := by
  obtain ⟨_,rfl,rfl⟩ := Option.map_eq_some_iff.mp hc
  have hinv : s.Holds ((tr.map (·.1)).foldl seqStep []) := by
    refine hr.invariant (fun tr s => s.Holds ((tr.map (·.1)).foldl seqStep [])) ⟨trivial,rfl,rfl,rfl,by simp,by simp⟩ ?_
    intro tr s op s' fx h hop he
    obtain ⟨s₁,fx₁,he₁,h₁,_⟩ := listStep_spec h hop
    rw [he] at he₁
    cases he₁
    simpa using h₁
  refine ⟨hinv.represents,?_,?_,fun op hop => ?_⟩
  · rw [hinv.head,first_eq_none,hinv.len,List.length_eq_zero_iff]
  · rw [hinv.tail,last_eq_none,hinv.len,List.length_eq_zero_iff]
  · obtain ⟨s',fx,he,h',hok⟩ := listStep_spec hinv hop
    refine ⟨s',fx,he,h'.represents,seqStep_others _ op,fun hm => ?_,hok⟩
    rw [listStep_failed s hm] at he
    cases he
    exact ⟨rfl,rfl⟩

/-- Five insertions, one of which does not get memory, a rotation and a deletion. -/
theorem list_refines_sequence_mixed : ∃ tr s, Run listStep (fun _ s op => s.Callable op) ⟨fun _ => none,⟨none,none,none,none,none,0⟩⟩ tr s ∧
    tr.map (·.1) = [.addNodeHead (some 1) (some 10),.addNodeTail (some 2) (some 20),.addNodeTail (some 3) none,
      .insertNode 20 (some 4) 1 (some 30),.insertNode 10 (some 5) 0 (some 40),.rotate,.delNode 10] ∧
    s.Represents [(30,some 4),(40,some 5),(20,some 2)] := by
  have hcheck : runCheck listStep (fun _ s op => s.Callable op) (fun _ _ => True)
      [.addNodeHead (some 1) (some 10),.addNodeTail (some 2) (some 20),.addNodeTail (some 3) none,
        .insertNode 20 (some 4) 1 (some 30),.insertNode 10 (some 5) 0 (some 40),.rotate,.delNode 10] []
      ⟨fun _ => none,⟨none,none,none,none,none,0⟩⟩ = true := by decide
  obtain ⟨tr,s,hr,hm,_⟩ := Run.of_runCheck hcheck
  have h := (list_refines_sequence (fun _ => none) (some 8) _ tr s rfl hr).1
  rw [hm] at h
  exact ⟨tr,s,hr,hm,h⟩

end MyProgram.Adlist

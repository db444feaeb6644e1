import Mathlib.Data.List.Induction
import MyProgram.Lib.Chain

/-! Doubly linked lists threaded through memory by `prev` and `next` pointers. -/
namespace MyProgram.Lib
variable {ι ν : Type}

/-- A list node in memory. -/
structure DCell (ι ν : Type) where
  prev : Option ι
  next : Option ι
  value : ν
  deriving DecidableEq, Repr

namespace DList

/-- The pointer to the first node of a segment that is followed by `q`. -/
def first : List (ι × ν) → Option ι → Option ι
  | [], q => q
  | e :: _, _ => some e.1

/-- The pointer to the last node of a segment that comes behind `p`. -/
def last : List (ι × ν) → Option ι → Option ι
  | [], p => p
  | e :: l, _ => last l (some e.1)

/-- These nodes with these values lie between `p` and `q`, linked both ways. -/
def Seg (mem : ι → Option (DCell ι ν)) : Option ι → List (ι × ν) → Option ι → Prop
  | _, [], _ => True
  | p, e :: l, q => mem e.1 = some ⟨p,first l q,e.2⟩ ∧ Seg mem (some e.1) l q

def nextOf (mem : ι → Option (DCell ι ν)) (a : ι) : Option ι := (mem a).bind (·.next)

def prevOf (mem : ι → Option (DCell ι ν)) (a : ι) : Option ι := (mem a).bind (·.prev)

variable {mem mem' : ι → Option (DCell ι ν)} {p q : Option ι} {l r : List (ι × ν)} {e : ι × ν} {a : ι}

@[simp] theorem first_nil : first ([] : List (ι × ν)) q = q := rfl

@[simp] theorem first_cons : first (e :: l) q = some e.1 := rfl

@[simp] theorem last_nil : last ([] : List (ι × ν)) p = p := rfl

@[simp] theorem last_cons : last (e :: l) p = last l (some e.1) := rfl

@[simp] theorem first_append : first (l ++ r) q = first l (first r q) := by
  cases l <;> rfl

@[simp] theorem last_append : last (l ++ r) p = last r (last l p) := by
  induction l generalizing p with
  | nil => rfl
  | cons e l ih => exact ih

@[simp] theorem last_reverse : last l.reverse q = first l q := by
  cases l <;> simp

@[simp] theorem first_reverse : first l.reverse q = last l q := by
  rw [← last_reverse,List.reverse_reverse]

theorem first_eq_none : first l none = none ↔ l = [] := by
  cases l <;> simp

theorem last_eq_none : last l none = none ↔ l = [] := by
  induction l using List.reverseRecOn with
  | nil => simp
  | append_singleton l e _ => simp

theorem mem_of_first (h : first l none = some a) : a ∈ l.map (·.1) := by
  cases l with
  | nil => cases h
  | cons e l => cases h; simp

theorem mem_of_last (h : last l none = some a) : a ∈ l.map (·.1) := by
  induction l using List.reverseRecOn with
  | nil => cases h
  | append_singleton l e _ =>
    rw [last_append,last_cons,last_nil] at h
    cases h
    simp

/-- A segment is its parts, each next to the other. -/
theorem seg_append : Seg mem p (l ++ r) q ↔ Seg mem p l (first r q) ∧ Seg mem (last l p) r q := by
  induction l generalizing p with
  | nil => simp [Seg]
  | cons e l ih => simp only [List.cons_append,Seg,ih,first_append,last_cons,and_assoc]

/-- Writes outside a segment leave it as it is. -/
theorem Seg.congr (h : Seg mem p l q) (he : ∀ a ∈ l.map (·.1), mem' a = mem a) : Seg mem' p l q := by
  induction l generalizing p with
  | nil => trivial
  | cons e l ih =>
    obtain ⟨hc,ht⟩ := h
    refine ⟨by rw [he e.1 (by simp)]; exact hc,ih ht fun a ha => he a ?_⟩
    rw [List.map_cons]
    exact List.mem_cons_of_mem _ ha

theorem Seg.get (h : Seg mem p l q) (he : e ∈ l) : ∃ n, mem e.1 = some n ∧ n.value = e.2 := by
  induction l generalizing p with
  | nil => cases he
  | cons d l ih =>
    obtain ⟨hc,ht⟩ := h
    rcases List.mem_cons.mp he with rfl | he
    · exact ⟨_,hc,rfl⟩
    · exact ih ht he

theorem Seg.forward (h : Seg mem p l none) : Chain (nextOf mem) (first l none) (l.map (·.1)) := by
  induction l generalizing p with
  | nil => rfl
  | cons e l ih =>
    obtain ⟨hc,ht⟩ := h
    refine ⟨rfl,?_⟩
    rw [show nextOf mem e.1 = first l none by simp [nextOf,hc]]
    exact ih ht

theorem Seg.backward (h : Seg mem none l q) : Chain (prevOf mem) (last l none) (l.map (·.1)).reverse := by
  induction l using List.reverseRecOn generalizing q with
  | nil => rfl
  | append_singleton l e ih =>
    obtain ⟨hl,hc,_⟩ := seg_append.mp h
    rw [List.map_append,List.reverse_append,last_append]
    refine ⟨rfl,?_⟩
    rw [show prevOf mem e.1 = last l none by simp [prevOf,hc]]
    exact ih hl

section Update
variable [DecidableEq ι]

/-- Redirect the `next` pointer of a node, if there is one. -/
def setNext (mem : ι → Option (DCell ι ν)) (p q : Option ι) : ι → Option (DCell ι ν) :=
  match p with
  | none => mem
  | some a => Function.update mem a ((mem a).map fun n => { n with next := q })

/-- Redirect the `prev` pointer of a node, if there is one. -/
def setPrev (mem : ι → Option (DCell ι ν)) (p q : Option ι) : ι → Option (DCell ι ν) :=
  match p with
  | none => mem
  | some a => Function.update mem a ((mem a).map fun n => { n with prev := q })

theorem setNext_of_ne (h : p ≠ some a) : setNext mem p q a = mem a := by
  cases p with
  | none => rfl
  | some b => exact Function.update_of_ne (fun he => h (by rw [he])) _ _

theorem setPrev_of_ne (h : p ≠ some a) : setPrev mem p q a = mem a := by
  cases p with
  | none => rfl
  | some b => exact Function.update_of_ne (fun he => h (by rw [he])) _ _

theorem Seg.setNext (h : Seg mem p l q) (hd : (l.map (·.1)).Nodup) (q' : Option ι) : Seg (setNext mem (last l none) q') p l q' := by
  induction l using List.reverseRecOn with
  | nil => trivial
  | append_singleton l e _ =>
    obtain ⟨hl,hc,_⟩ := seg_append.mp h
    rw [last_append,last_cons,last_nil]
    refine seg_append.mpr ⟨hl.congr fun a ha => setNext_of_ne ?_,?_,trivial⟩
    · rintro ⟨⟩
      rw [List.map_append,List.nodup_append] at hd
      exact hd.2.2 e.1 ha e.1 (by simp) rfl
    · simp [DList.setNext,hc]

theorem Seg.setPrev (h : Seg mem p l q) (hd : (l.map (·.1)).Nodup) (q' : Option ι) : Seg (setPrev mem (first l none) q') q' l q := by
  cases l with
  | nil => trivial
  | cons e l =>
    obtain ⟨hc,ht⟩ := h
    refine ⟨by simp [DList.setPrev,hc],ht.congr fun a ha => setPrev_of_ne ?_⟩
    rintro ⟨⟩
    exact (List.nodup_cons.mp hd).1 ha

/-- A new node between two parts of a list. -/
theorem Seg.insert {v : ν} (h : Seg mem none (l ++ r) none) (hd : ((l ++ r).map (·.1)).Nodup)
    (ha : a ∉ (l ++ r).map (·.1)) :
    Seg (DList.setPrev (DList.setNext (Function.update mem a (some ⟨last l none,first r none,v⟩)) (last l none) (some a))
      (first r none) (some a)) none (l ++ (a,v) :: r) none := by
  rw [List.map_append] at hd ha
  obtain ⟨hdl,hdr,hdisj⟩ := List.nodup_append.mp hd
  obtain ⟨hl,hr⟩ := seg_append.mp h
  have hla : last l none ≠ some a := fun he => ha (List.mem_append_left _ (mem_of_last he))
  have hra : first r none ≠ some a := fun he => ha (List.mem_append_right _ (mem_of_first he))
  have hnew : ∀ b ∈ l.map (·.1) ++ r.map (·.1), Function.update mem a (some ⟨last l none,first r none,v⟩) b = mem b := by
    intro b hb
    refine Function.update_of_ne ?_ _ _
    rintro rfl
    exact ha hb
  refine seg_append.mpr ⟨?_,?_,?_⟩
  · have hl' := (hl.congr fun b hb => hnew b (List.mem_append_left _ hb)).setNext hdl (some a)
    refine hl'.congr fun b hb => setPrev_of_ne fun he => ?_
    exact hdisj b hb b (mem_of_first he) rfl
  · rw [setPrev_of_ne hra,setNext_of_ne hla,Function.update_self]
  · refine Seg.setPrev (hr.congr fun b hb => ?_) hdr _
    rw [setNext_of_ne,hnew b (List.mem_append_right _ hb)]
    exact fun he => hdisj b (mem_of_last he) b hb rfl

/-- The neighbours of a node are linked to each other and its cell is released. -/
theorem Seg.remove (h : Seg mem none (l ++ e :: r) none) (hd : ((l ++ e :: r).map (·.1)).Nodup) :
    Seg (Function.update (DList.setPrev (DList.setNext mem (last l none) (first r none)) (first r none) (last l none)) e.1 none)
      none (l ++ r) none := by
  rw [List.map_append,List.map_cons] at hd
  obtain ⟨hdl,hder,hdisj⟩ := List.nodup_append.mp hd
  obtain ⟨her,hdr⟩ := List.nodup_cons.mp hder
  obtain ⟨hl,_,hr⟩ := seg_append.mp h
  refine seg_append.mpr ⟨?_,?_⟩
  · refine (hl.setNext hdl (first r none)).congr fun b hb => ?_
    rw [Function.update_of_ne fun he => hdisj b hb e.1 (by simp) he,setPrev_of_ne]
    exact fun he => hdisj b hb b (List.mem_cons_of_mem _ (mem_of_first he)) rfl
  · have hr' : Seg (DList.setNext mem (last l none) (first r none)) (some e.1) r none := by
      refine hr.congr fun b hb => setNext_of_ne fun he => ?_
      exact hdisj b (mem_of_last he) b (List.mem_cons_of_mem _ hb) rfl
    refine (hr'.setPrev hdr (last l none)).congr fun b hb => Function.update_of_ne ?_ _ _
    rintro rfl
    exact her hb

/-- The last node is linked in front of all others. -/
theorem Seg.rotate (h : Seg mem none (l ++ [e]) none) (hd : ((l ++ [e]).map (·.1)).Nodup) :
    Seg (DList.setPrev (Function.update (DList.setNext mem (last l none) none) e.1 (some ⟨none,first l none,e.2⟩))
      (first l none) (some e.1)) none (e :: l) none := by
  rw [List.map_append] at hd
  obtain ⟨hdl,_,hdisj⟩ := List.nodup_append.mp hd
  have hel : e.1 ∉ l.map (·.1) := fun hm => hdisj e.1 hm e.1 (by simp) rfl
  obtain ⟨hl,_⟩ := seg_append.mp h
  refine ⟨?_,?_⟩
  · rw [setPrev_of_ne fun he => hel (mem_of_first he),Function.update_self]
  · refine Seg.setPrev ((hl.setNext hdl none).congr fun b hb => Function.update_of_ne ?_ _ _) hdl _
    rintro rfl
    exact hel hb

end Update
end DList
end MyProgram.Lib
